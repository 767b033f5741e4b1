import StackLang.Proofs.Execution
import StackLang.Proofs.Layout
import StackLang.Proofs.Loading

/-!
# Types of expressions and tags of their values

A *scalar* expression is built from integers, reals, truth values and variables with the binary
operators. Its code leaves one item on the stack, if there is room, and the tag of that item is
known before the program runs (`Scope.tagOf`): a logical operator gives a truth value, a quotient
or a remainder a real, and any other operator a real if one operand is a real, else an integer.

The type of an expression is found in another way. Two operands of one type give that type,
whatever the operator; only operands of different types are looked at more closely. So the tag of
the value is the tag of the type for some expressions, and not for others: `6 / 2` has the type of
integers and leaves a real. `Operator.fits` says for which operands an operator is in order.

* `Node.Scalar.steps`: the code of an expression leaves an item of that tag;
* `Node.Scalar.not_steps`: where there is no room for it, the machine does not come to the end of
  the code;
* `expression_tag_iff`: when the value of an expression has the tag of its type.
-/

namespace StackLang

/-! ### Tags -/

/-- The primitive types other than that of strings. -/
def scalarTypes : List String := ["INT", "FLOAT", "BOOL", "BYTE", "CHAR"]

/-- The tag of the values of such a type. -/
def scalarTag? : String → Option Tag
  | "INT" => some .int
  | "FLOAT" => some .real
  | "BOOL" | "BYTE" => some .byte
  | "CHAR" => some .char
  | _ => none

theorem mem_scalarTypes {type : String} {t : Tag} (h : scalarTag? type = some t) :
    type ∈ scalarTypes ∧ t ≠ .pointer := by
  unfold scalarTag? at h
  split at h
  all_goals cases h
  all_goals decide

/-- The operators between two scalars. -/
def scalarOperators : List String :=
  ["+", "-", "*", "/", "%", "==", "!=", "<", "<=", ">", ">=", "and", "or"]

/-- The operator of the machine that an operator is written for. -/
def operatorOf (op : String) : Operator := .ofCode ((operatorCode? op).getD 0)

namespace Operator

variable {op : Operator}

/-- The tag of what an operator gives; `real` says whether one of its operands is a real. -/
def resultTag (op : Operator) (real : Bool) : Tag :=
  if op.isLogical then .byte else if op.isFractional || real then .real else .int

theorem resultTag_ne_pointer (op : Operator) (real : Bool) : op.resultTag real ≠ .pointer := by
  unfold resultTag
  split
  · decide
  · split <;> decide

theorem tag_onItems (hop : op.isLogical = false) (x y : Item) :
    (op.onItems x y).tag = op.resultTag (x.tag = .real || y.tag = .real) := by
  by_cases h : op.isFractional = true ∨ x.tag = .real ∨ y.tag = .real <;>
    simp [onItems, resultTag, hop, h]

theorem tag_onTruths (hop : op.isLogical = true) (x y : Item) (real : Bool) :
    (op.onTruths x y).tag = op.resultTag real := by
  unfold onTruths resultTag
  rw [if_pos hop]
  split <;> rfl

/-- Whether the type of what an operator gives, found from the types `t` and `u` of its operands,
    has the tag of what it gives. -/
def fits (op : Operator) (t u : String) (real : Bool) : Bool :=
  match op with
  | and | or => t ≠ u || t = "BOOL" || t = "BYTE"
  | div => t ≠ u || t = "FLOAT"
  | mod => t = "FLOAT" || u = "FLOAT"
  | add | sub | mul =>
    if t = u then t = (if real then "FLOAT" else "INT") else (t = "FLOAT" || u = "FLOAT") = real
  -- what two values of different types compare to has the type of bytes
  | _ => t = u && t = (if real then "FLOAT" else "INT")

end Operator

namespace Scope

variable (s : Scope) {t u : String}

mutual

/-- The tag of the value of a scalar expression. -/
def tagOf : Node → Tag
  | .binary op a b => (operatorOf op).resultTag (tagOf a = .real || tagOfOption b = .real)
  | .literal k v =>
    let type := if k = "VARIABLE" then (s.typeOfName v).toOption else some (literalType k)
    (type.bind scalarTag?).getD .unassigned
  | _ => .unassigned

/-- The tag of the value of an expression that may be absent. -/
def tagOfOption : Option Node → Tag
  | none => .unassigned
  | some n => tagOf n

end

theorem tagOf_ne_pointer (n : Node) : s.tagOf n ≠ .pointer := by
  unfold tagOf
  split
  · exact Operator.resultTag_ne_pointer _ _
  · rename_i k v
    intro h
    cases htype : (if k = "VARIABLE" then (s.typeOfName v).toOption else some (literalType k)) with
    | none => simp [htype] at h
    | some type =>
      cases htag : scalarTag? type with
      | none => simp [htype, htag] at h
      | some t =>
        exact (mem_scalarTypes htag).2 (by simpa [htype, htag] using h)
  · decide

/-- The type of an operator between operands of two scalar types. -/
def operatorTypeName (op t u : String) : String :=
  if t = u then t
  else if op = "/" then "FLOAT"
  else if isArithmetic op then if t = "FLOAT" ∨ u = "FLOAT" then "FLOAT" else "INT"
  else "BYTE"

theorem operatorType_eq (ht : t ∈ scalarTypes) (hu : u ∈ scalarTypes) (op : String) :
    s.operatorType op (.text t) (.text u) = .ok (.text (operatorTypeName op t u)) := by
  have hscalar : ∀ t ∈ scalarTypes, isPrimitive (.text t) = true ∧
      (Atom.text t == .text "STRING") = false := by
    decide
  obtain ⟨ht, hts⟩ := hscalar t ht
  obtain ⟨hu, hus⟩ := hscalar u hu
  unfold operatorType operatorTypeName
  dsimp only
  rw [if_neg (by simp [hu]), if_neg (by simp [ht]), hts, hus, Bool.xor_false]
  by_cases htu : t = u
  · rw [if_pos (congrArg _ htu.symm), if_pos htu, htu]
  · rw [if_neg (fun h => htu (Atom.text.inj h).symm), if_neg Bool.false_ne_true, if_neg htu]
    split
    · rfl
    · split
      · -- of two different types, at most one is that of reals
        have hbeq (t : String) : (Atom.text t == .text "FLOAT") = decide (t = "FLOAT") := by
          rw [Bool.eq_iff_iff, beq_iff_eq, Atom.text.injEq, decide_eq_true_eq]
        rw [hbeq, hbeq]
        by_cases hf : t = "FLOAT"
        · simp [hf, show u ≠ "FLOAT" from fun h => htu (hf.trans h.symm)]
        · by_cases hf' : u = "FLOAT" <;> simp [hf, hf']
      · rfl

theorem operatorTypeName_mem (ht : t ∈ scalarTypes) (op : String) :
    operatorTypeName op t u ∈ scalarTypes := by
  unfold operatorTypeName
  split
  · exact ht
  · split
    · decide
    · split
      · split <;> decide
      · decide

theorem operatorTypeName_fits : ∀ op ∈ scalarOperators, ∀ t ∈ scalarTypes, ∀ u ∈ scalarTypes,
    ∀ real, scalarTag? (operatorTypeName op t u) = some ((operatorOf op).resultTag real) ↔
      (operatorOf op).fits t u real := by
  decide +kernel

end Scope

/-! ### Expressions -/

/-- The kinds of literals that are scalars, and that of variables. -/
def scalarKinds : List String := ["INT_LITERAL", "FLOAT_LITERAL", "BOOL_LITERAL", "VARIABLE"]

/-- An expression of integers, reals, truth values and variables. -/
inductive Node.Scalar : Node → Prop
  | literal {k : String} (hk : k ∈ scalarKinds) (v : Atom) : Scalar (.literal k v)
  | operator {op : String} {a b : Node} (hop : op ∈ scalarOperators) (ha : Scalar a)
    (hb : Scalar b) : Scalar (.binary op a (some b))

mutual

/-- How many places of the stack the code of a scalar expression takes: the second operand is
    computed while the value of the first one waits. -/
def Node.room : Node → Nat
  | .binary _ a b => max a.room (roomOption b + 1)
  | _ => 1

/-- How many places the code of an expression takes that may be absent. -/
def roomOption : Option Node → Nat
  | none => 0
  | some n => n.room

end

mutual

/-- The variables of a scalar expression. -/
def Node.usedNames : Node → List Atom
  | .binary _ a b => a.usedNames ++ usedNamesOption b
  | .literal k v => if k = "VARIABLE" then [v] else []
  | _ => []

/-- The variables of an expression that may be absent. -/
def usedNamesOption : Option Node → List Atom
  | none => []
  | some n => n.usedNames

end

/-- The variable has an address, and memory holds an item of its declared type there. -/
def Machine.HoldsTyped (m : Machine) (s : Scope) (g : Generator) (v : Atom) : Prop :=
  ∃ (a : Nat) (type : String) (x : Item), g.identifiers.get? v = some a ∧
    s.typeOfName v = .ok type ∧ m.memory.load (intWord a) = .ok x ∧ scalarTag? type = some x.tag

/-- The program has the instructions of a generator from a place on. -/
def Program.Carries (P : Program) (g : Generator) (n : Nat) : Prop :=
  ∀ i c a, n ≤ i → g.code[i]? = some (.instruction c a) →
    ∃ w, Image.argumentWord? a = .ok (some w) ∧ P[i]? = some ⟨c.toUInt8, w⟩

/-! ### Instructions -/

namespace Machine

variable {P : Program} {m m' : Machine} {x : Item} {w : UInt32} {n : Nat}

/-- The next instruction puts an item on the stack, or finds no room there. -/
structure Pushes (P : Program) (m : Machine) (x : Item) : Prop where
  step : m.stack.length < stackLimit →
    m.step P = some (.next { m with pc := m.pc + 1, stack := x :: m.stack })
  full : stackLimit ≤ m.stack.length → ∃ m', m.step P = some (.halted (.failed .overflow) m')

theorem pushes_of_push {i : Instruction} {t : Tag} (hi : m.fetch P = some i)
    (hop : Operation.ofCode? i.code.toNat = some (.push t)) : m.Pushes P ⟨t, i.arg⟩ where
  step hlen := step_of_perform hi hop (Act.run_push hlen)
  full hlen := step_of_failed hi hop (Act.run_push_full hlen)

theorem pushes_of_load (hi : m.fetch P = some ⟨0x14, w⟩) (hx : m.memory.load w = .ok x) :
    m.Pushes P x where
  step := step_load hi hx
  full := step_load_full hi hx

/-- A run of a sum of lengths is one run after the other. -/
theorem Steps.split {k : Nat} (h : Steps P (n + k) m m') :
    ∃ m₁, Steps P n m m₁ ∧ Steps P k m₁ m' := by
  induction n generalizing m with
  | zero => exact ⟨m, .refl m, by rwa [Nat.zero_add] at h⟩
  | succ n ih =>
    rw [Nat.add_right_comm] at h
    cases h with
    | next hstep hs =>
      obtain ⟨m₁, h₁, h₂⟩ := ih hs
      exact ⟨m₁, .next hstep h₁, h₂⟩

theorem Steps.unique {m₁ : Machine} (h : Steps P n m m') (h₁ : Steps P n m m₁) : m' = m₁ := by
  induction h with
  | refl m =>
    cases h₁
    rfl
  | next hstep _ ih =>
    cases h₁ with
    | next hstep₁ hs₁ =>
      rw [hstep] at hstep₁
      cases hstep₁
      exact ih hs₁

/-- An operator between two items of which none is a pointer leaves one item. -/
theorem step_operator {op : String} (hop : op ∈ scalarOperators) {c : Nat}
    (hc : operatorCode? op = some c) (hi : m.fetch P = some ⟨c.toUInt8, w⟩) {y : Item}
    {rest : List Item} (hs : m.stack = y :: x :: rest) (hlen : rest.length < stackLimit)
    (hx : x.tag ≠ .pointer) (hy : y.tag ≠ .pointer) :
    ∃ z : Item, z.tag = (operatorOf op).resultTag (x.tag = .real || y.tag = .real) ∧
      m.step P = some (.next { m with pc := m.pc + 1, stack := z :: rest }) := by
  have hcode : ∀ op ∈ scalarOperators, ∀ c ∈ operatorCode? op,
      Operation.ofCode? c.toUInt8.toNat = some (.compute (operatorOf op)) ∧
        operatorOf op ≠ .not := by
    decide
  obtain ⟨hcode, hnot⟩ := hcode op hop c hc
  cases hl : (operatorOf op).isLogical with
  | true =>
    refine ⟨_, Operator.tag_onTruths hl x y _, step_compute _ hi hcode fun m' hm' => ?_⟩
    exact Act.run_compute_logical hl hnot (hm'.trans hs) hlen
  | false =>
    refine ⟨_, Operator.tag_onItems hl x y, step_compute _ hi hcode fun m' hm' => ?_⟩
    exact Act.run_compute_items hl (by simp [Item.isJoin, hx, hy]) (hm'.trans hs) hlen

end Machine

/-! ### The code of expressions -/

namespace Program.Carries

variable {P : Program} {g h : Generator} {n : Nat}

theorem mono (hP : P.Carries g n) {k : Nat} (hk : n ≤ k) : P.Carries g k :=
  fun i c a hi hc => hP i c a (Nat.le_trans hk hi) hc

/-- The instructions were there before more of them were written. -/
theorem of_keeps (hP : P.Carries h n) (hg : g.Sound) (hk : Keeps 0 g.length g h) :
    P.Carries g n := by
  intro i c a hi hc
  have hlt : i < g.length := by
    rw [← hg.size]
    exact (Array.getElem?_eq_some_iff.1 hc).1
  exact hP i c a hi (hk.instruction hg (Nat.zero_le i) hlt hc)

/-- The instruction that was written last. -/
theorem last {c : Nat} {a : Argument} (hP : P.Carries (g.push (.instruction c a)) n) (hg : g.Sound)
    (hn : n ≤ g.length) : ∃ w, Image.argumentWord? a = .ok (some w) ∧
      P[g.length]? = some ⟨c.toUInt8, w⟩ :=
  hP _ c a hn (hg.push_code_length _)

/-- A whole image has all instructions. -/
theorem of_whole (h : g.Whole) (n : Nat) : g.program.Carries g n := by
  intro i c a _ hc
  obtain ⟨c', a', w, heq, hw, hi⟩ := h.fetch hc
  cases heq
  exact ⟨w, hw, hi⟩

end Program.Carries

namespace Node.Scalar

open Gen Machine

variable {P : Program} {s : Scope} {e : Node} {g g' : Generator} {m m' : Machine} {v : Atom}
  {op : String} {a b : Node} {k : String}

/-- The code of a variable loads it from its address. -/
theorem ends_variable (h : Ends (generate (.literal "VARIABLE" v)) g () g') :
    ∃ n : Nat, g.identifiers.get? v = some n ∧ g' = g.push (.instruction Op.load (.int n)) := by
  rw [generate] at h
  obtain ⟨n, _, h₁, h₂⟩ := ends_bind.1 h
  obtain ⟨hn, rfl⟩ := ends_address.1 h₁
  exact ⟨n, hn, ends_emitInt.1 h₂⟩

/-- The code of a literal or a variable is one instruction. -/
theorem ends_literal (hk : k ∈ scalarKinds) (h : Ends (generate (.literal k v)) g () g') :
    ∃ c a, g' = g.push (.instruction c a) ∧
      (Operation.ofCode? c.toUInt8.toNat = some (.push (s.tagOf (.literal k v))) ∨
        k = "VARIABLE" ∧ c = Op.load ∧ ∃ n : Nat, g.identifiers.get? v = some n ∧ a = .int n) := by
  simp only [scalarKinds, List.mem_cons, List.not_mem_nil, or_false] at hk
  rcases hk with rfl | rfl | rfl | rfl
  · rw [generate] at h
    obtain ⟨n, _, h₁, h₂⟩ := ends_bind.1 h
    obtain ⟨-, rfl⟩ := ends_lift.1 h₁
    exact ⟨_, _, ends_emitInt.1 h₂, .inl rfl⟩
  · rw [generate] at h
    exact ⟨_, _, ends_emit.1 h, .inl rfl⟩
  · rw [generate] at h
    exact ⟨_, _, ends_emitInt.1 h, .inl rfl⟩
  · obtain ⟨n, hn, rfl⟩ := ends_variable h
    exact ⟨_, _, rfl, .inr ⟨rfl, rfl, n, hn, rfl⟩⟩

/-- The code of an operator comes after the code of its operands. -/
theorem ends_operator (h : Ends (generate (.binary op a (some b))) g () g') :
    ∃ h₁ h₂ c, Ends (generate a) g () h₁ ∧ Ends (generate b) h₁ () h₂ ∧
      operatorCode? op = some c ∧ g' = h₂.push (.instruction c (.int 0)) := by
  rw [generate] at h
  obtain ⟨_, h₁, ha, h⟩ := ends_bind.1 h
  obtain ⟨_, h₂, hb, h⟩ := ends_bind.1 h
  rw [generateOption] at hb
  split at h
  · rename_i c hc
    exact ⟨h₁, h₂, c, ha, hb, hc, ends_emitInt.1 h⟩
  · exact absurd h ends_throw

theorem identifiers_eq (he : e.Scalar) (h : Ends (generate e) g () g') :
    g'.identifiers = g.identifiers := by
  induction he generalizing g g' with
  | literal hk v =>
    obtain ⟨c, a, rfl, -⟩ := ends_literal (s := {}) hk h
    rfl
  | operator _ _ _ iha ihb =>
    obtain ⟨h₁, h₂, c, ha, hb, -, rfl⟩ := ends_operator h
    rw [Generator.push_identifiers, ihb hb, iha ha]

/-- The instruction of a literal or a variable puts its value on the stack. -/
theorem pushes (hk : k ∈ scalarKinds) (hg : g.Sound) (h : Ends (generate (.literal k v)) g () g')
    (hP : P.Carries g' g.length) (hpc : m.pc = g.length)
    (hv : ∀ v' ∈ (Node.literal k v).usedNames, m.HoldsTyped s g v') :
    g'.length = g.length + 1 ∧ ∃ x, x.tag = s.tagOf (.literal k v) ∧ m.Pushes P x := by
  obtain ⟨c, a, rfl, hc⟩ := ends_literal (s := s) hk h
  obtain ⟨w, hw, hi⟩ := hP.last hg (Nat.le_refl _)
  rw [← hpc] at hi
  refine ⟨rfl, ?_⟩
  rcases hc with hc | ⟨rfl, rfl, n, hn, rfl⟩
  · exact ⟨⟨_, w⟩, rfl, pushes_of_push hi hc⟩
  · obtain ⟨n', type, x, hn', htype, hx, htag⟩ := hv v (by simp [usedNames])
    obtain rfl : n = n' := Option.some.inj (hn.symm.trans hn')
    obtain rfl : intWord n = w := by
      unfold Image.argumentWord? at hw
      dsimp only [Argument.int] at hw
      split at hw
      · exact Option.some.inj (Except.ok.inj hw)
      · cases hw
    exact ⟨x, by simp [Scope.tagOf, htype, htag, Except.toOption], pushes_of_load hi hx⟩

theorem room_pos (he : e.Scalar) : 0 < e.room := by
  induction he with
  | literal => exact Nat.one_pos
  | operator _ _ _ iha _ =>
    rw [room]
    exact Nat.lt_of_lt_of_le iha (Nat.le_max_left _ _)

/-- The code of an operator in a program: that of its first operand up to `h₁`, that of its
    second one up to `h₂`, and its instruction. -/
structure Operands (P : Program) (g : Generator) (op : String) (a b : Node) (g' h₁ h₂ : Generator) :
    Prop where
  first : Ends (generate a) g () h₁
  second : Ends (generate b) h₁ () h₂
  sound : h₁.Sound
  first_le : g.length ≤ h₁.length
  second_le : h₁.length ≤ h₂.length
  length_eq : g'.length = h₂.length + 1
  carries_first : P.Carries h₁ g.length
  carries_second : P.Carries h₂ h₁.length
  fetch : ∃ c w, operatorCode? op = some c ∧ P[h₂.length]? = some ⟨c.toUInt8, w⟩

theorem exists_operands (hg : g.Sound) (h : Ends (generate (.binary op a (some b))) g () g')
    (hP : P.Carries g' g.length) : ∃ h₁ h₂, Operands P g op a b g' h₁ h₂ := by
  obtain ⟨h₁, h₂, c, ha, hb, hc, rfl⟩ := ends_operator h
  have ba := built_of_ends hg ha
  have bb := built_of_ends ba.sound hb
  have hP₂ := hP.of_keeps bb.sound (.push bb.sound _ (Nat.le_refl _))
  have hle := ba.keeps.length_le
  obtain ⟨w, -, hi⟩ := hP.last bb.sound (Nat.le_trans hle bb.keeps.length_le)
  exact ⟨h₁, h₂, ha, hb, ba.sound, hle, bb.keeps.length_le, rfl,
    hP₂.of_keeps ba.sound bb.keeps, hP₂.mono hle, c, w, hc, hi⟩

theorem holdsTyped_first (hv : ∀ v ∈ (Node.binary op a (some b)).usedNames, m.HoldsTyped s g v) :
    ∀ v ∈ a.usedNames, m.HoldsTyped s g v :=
  fun v hv' => hv v (by simp [usedNames, hv'])

theorem holdsTyped_second (ha : a.Scalar) (h : Ends (generate a) g () g')
    (hv : ∀ v ∈ (Node.binary op a (some b)).usedNames, m.HoldsTyped s g v) :
    ∀ v ∈ b.usedNames, m.HoldsTyped s g' v := by
  intro v hv'
  have := hv v (by simp [usedNames, usedNamesOption, hv'])
  rwa [HoldsTyped, ← ha.identifiers_eq h] at this

section

variable (he : e.Scalar) (hg : g.Sound) (h : Ends (generate e) g () g') (hP : P.Carries g' g.length)
  (hpc : m.pc = g.length) (hv : ∀ v ∈ e.usedNames, m.HoldsTyped s g v)

include he hg h hP hpc hv

/-- Where there is room on the stack, the code of an expression leaves an item there. -/
theorem steps (hroom : m.stack.length + e.room ≤ stackLimit) :
    ∃ x, x.tag = s.tagOf e ∧ Steps P (g'.length - g.length) m
      { m with pc := g'.length, stack := x :: m.stack } := by
  induction he generalizing g g' m with
  | literal hk v =>
    obtain ⟨hlen, x, hx, hpush⟩ := pushes hk hg h hP hpc hv
    rw [hlen, Nat.add_sub_cancel_left, ← hpc]
    exact ⟨x, hx, .single (hpush.step hroom)⟩
  | @operator op a b hop ha hb iha ihb =>
    obtain ⟨h₁, h₂, o⟩ := exists_operands hg h hP
    obtain ⟨c, w, hc, hi⟩ := o.fetch
    simp only [room, roomOption] at hroom
    obtain ⟨x, hx, hsa⟩ := iha hg o.first o.carries_first hpc (holdsTyped_first hv) (by omega)
    obtain ⟨y, hy, hsb⟩ := ihb (m := { m with pc := h₁.length, stack := x :: m.stack }) o.sound
      o.second o.carries_second rfl (holdsTyped_second ha o.first hv) (by simp; omega)
    obtain ⟨z, hz, hstep⟩ := step_operator (m := { m with pc := h₂.length, stack := y :: x :: m.stack })
      hop hc hi rfl (by have := ha.room_pos; omega)
      (hx ▸ s.tagOf_ne_pointer a) (hy ▸ s.tagOf_ne_pointer b)
    refine ⟨z, by rw [hz, hx, hy]; rfl, ?_⟩
    have hsteps := (hsa.trans hsb).trans (.single hstep)
    rw [o.length_eq]
    rwa [show h₂.length + 1 - g.length = h₁.length - g.length + (h₂.length - h₁.length) + 1 by
      have := o.first_le; have := o.second_le; omega]

/-- Where there is none, the machine does not come to the end of the code. -/
theorem not_steps (hroom : stackLimit < m.stack.length + e.room) :
    ¬Steps P (g'.length - g.length) m m' := by
  induction he generalizing g g' m m' with
  | literal hk v =>
    obtain ⟨hlen, x, -, hpush⟩ := pushes hk hg h hP hpc hv
    obtain ⟨m₁, hstep⟩ := hpush.full (Nat.le_of_lt_succ hroom)
    rw [hlen, Nat.add_sub_cancel_left]
    intro hs
    cases hs with
    | next hnext _ =>
      rw [hstep] at hnext
      cases hnext
  | @operator op a b hop ha hb iha ihb =>
    obtain ⟨h₁, h₂, o⟩ := exists_operands hg h hP
    simp only [room, roomOption] at hroom
    intro hs
    rw [o.length_eq, show h₂.length + 1 - g.length =
      h₁.length - g.length + (h₂.length - h₁.length + 1) by
        have := o.first_le; have := o.second_le; omega] at hs
    obtain ⟨m₁, hsa, hs⟩ := hs.split
    by_cases hra : stackLimit < m.stack.length + a.room
    · exact iha hg o.first o.carries_first hpc (holdsTyped_first hv) hra hsa
    · -- the first operand finds room, so it is the second one that does not
      obtain ⟨x, -, hsa'⟩ := ha.steps hg o.first o.carries_first hpc (holdsTyped_first hv)
        (by omega)
      obtain rfl := hsa.unique hsa'
      obtain ⟨m₂, hsb, -⟩ := hs.split
      exact ihb (m := { m with pc := h₁.length, stack := x :: m.stack }) o.sound
        o.second o.carries_second rfl (holdsTyped_second ha o.first hv) (by simp; omega) hsb

end

end Node.Scalar

/-! ### The value and its type -/

/-- The type of the expression has the tag of its value: so it is with literals and variables,
    and with operators that fit. -/
def Scope.Fits (s : Scope) : Node → Prop
  | .binary op a (some b) => ∃ t u, s.typeOf a = .ok (.text t) ∧ s.typeOf b = .ok (.text u) ∧
      (operatorOf op).fits t u (s.tagOf a = .real || s.tagOf b = .real)
  | _ => True

namespace Node.Scalar

variable {s : Scope} {e : Node} {type : String} {A : Atom}

/-- The type of an operator comes from the types of its operands. -/
theorem typeOf_operator {op : String} {a b : Node}
    (htype : s.typeOf (.binary op a (some b)) = .ok A) : ∃ T U, s.typeOf a = .ok T ∧
      s.typeOf b = .ok U ∧ s.operatorType op T U = .ok A := by
  rw [Scope.typeOf, Scope.typeOfOption] at htype
  cases hb : s.typeOf b with
  | error f =>
    rw [hb] at htype
    cases htype
  | ok U =>
    cases ha : s.typeOf a with
    | error f =>
      rw [ha, hb] at htype
      cases htype
    | ok T =>
      rw [ha, hb] at htype
      exact ⟨T, U, rfl, rfl, htype⟩

/-- The type of a literal or a variable has the tag of its value. -/
theorem typeOf_literal {k : String} {v : Atom} (hk : k ∈ scalarKinds)
    (htype : s.typeOf (.literal k v) = .ok A)
    (hv : ∀ v' ∈ (Node.literal k v).usedNames, ∃ t ∈ scalarTypes, s.typeOfName v' = .ok t) :
    ∃ t ∈ scalarTypes, A = .text t ∧ scalarTag? t = some (s.tagOf (.literal k v)) := by
  have hkind : ∀ k ∈ scalarKinds, k ≠ "VARIABLE" → literalType k ∈ scalarTypes := by decide +kernel
  have htag : ∀ t ∈ scalarTypes, scalarTag? t = some ((scalarTag? t).getD .unassigned) := by
    decide
  rw [Scope.typeOf] at htype
  by_cases hvar : k = "VARIABLE"
  · obtain ⟨t, ht, hname⟩ := hv v (by simp [usedNames, hvar])
    rw [if_pos hvar, hname] at htype
    obtain rfl : .text t = A := Except.ok.inj htype
    refine ⟨t, ht, rfl, ?_⟩
    simp only [Scope.tagOf, hvar, hname, if_true, Except.toOption, Option.bind_some]
    exact htag t ht
  · rw [if_neg hvar] at htype
    obtain rfl : .text (literalType k) = A := Except.ok.inj htype
    refine ⟨_, hkind k hk hvar, rfl, ?_⟩
    simp only [Scope.tagOf, if_neg hvar, Option.bind_some]
    exact htag _ (hkind k hk hvar)

/-- The types of scalar expressions are scalar types. -/
theorem typeOf_mem (he : e.Scalar) (htype : s.typeOf e = .ok A)
    (hv : ∀ v ∈ e.usedNames, ∃ t ∈ scalarTypes, s.typeOfName v = .ok t) :
    ∃ t ∈ scalarTypes, A = .text t := by
  induction he generalizing A with
  | literal hk v =>
    obtain ⟨t, ht, rfl, -⟩ := typeOf_literal hk htype hv
    exact ⟨t, ht, rfl⟩
  | @operator op a b _ _ _ iha ihb =>
    obtain ⟨_, _, hta, htb, htype⟩ := typeOf_operator htype
    obtain ⟨t, ht, rfl⟩ := iha hta fun v hv' => hv v (by simp [usedNames, hv'])
    obtain ⟨u, hu, rfl⟩ := ihb htb fun v hv' => hv v (by simp [usedNames, usedNamesOption, hv'])
    rw [s.operatorType_eq ht hu] at htype
    exact ⟨_, Scope.operatorTypeName_mem ht op, (Except.ok.inj htype).symm⟩

/-- The type of an expression has the tag of its value if it fits. -/
theorem tag_eq_iff_fits (he : e.Scalar) (htype : s.typeOf e = .ok (.text type))
    (hv : ∀ v ∈ e.usedNames, ∃ t ∈ scalarTypes, s.typeOfName v = .ok t) :
    scalarTag? type = some (s.tagOf e) ↔ s.Fits e := by
  cases he with
  | literal hk v =>
    obtain ⟨t, -, heq, htag⟩ := typeOf_literal hk htype hv
    obtain rfl := Atom.text.inj heq
    exact iff_of_true htag trivial
  | @operator op a b hop ha hb =>
    obtain ⟨_, _, hta, htb, htype⟩ := typeOf_operator htype
    obtain ⟨t, ht, rfl⟩ := ha.typeOf_mem hta fun v hv' => hv v (by simp [usedNames, hv'])
    obtain ⟨u, hu, rfl⟩ :=
      hb.typeOf_mem htb fun v hv' => hv v (by simp [usedNames, usedNamesOption, hv'])
    rw [s.operatorType_eq ht hu] at htype
    obtain rfl := Atom.text.inj (Except.ok.inj htype)
    rw [Scope.tagOf, Scope.tagOfOption, Scope.operatorTypeName_fits op hop t ht u hu]
    simp [Scope.Fits, hta, htb]

end Node.Scalar

section

open Gen Machine

/-- The code of a scalar expression leaves an item of its type exactly where the stack has room
    for it, and where the type found from the operands fits what the operator gives. -/
theorem expression_tag_iff {s : Scope} {e : Node} (he : e.Scalar) {type : String}
    (htype : s.typeOf e = .ok (.text type)) {g g' : Generator} (hg : g.Sound)
    (hgen : Ends (generate e) g () g') {P : Program} (hP : P.Carries g' g.length) {m : Machine}
    (hpc : m.pc = g.length) (hv : ∀ v ∈ e.usedNames, m.HoldsTyped s g v) :
    (∃ x m', Steps P (g'.length - g.length) m m' ∧ m'.pc = g'.length ∧ m'.stack = x :: m.stack ∧
        scalarTag? type = some x.tag) ↔
      m.stack.length + e.room ≤ stackLimit ∧ s.Fits e := by
  have hnames : ∀ v ∈ e.usedNames, ∃ t ∈ scalarTypes, s.typeOfName v = .ok t := by
    intro v hv'
    obtain ⟨_, t, _, _, hname, _, htag⟩ := hv v hv'
    exact ⟨t, (mem_scalarTypes htag).1, hname⟩
  rw [← he.tag_eq_iff_fits htype hnames]
  constructor
  · rintro ⟨x, m', hs, -, hstack, htag⟩
    have hroom : m.stack.length + e.room ≤ stackLimit :=
      Nat.le_of_not_lt fun hlt => he.not_steps hg hgen hP hpc hv hlt hs
    obtain ⟨y, hy, hs'⟩ := he.steps hg hgen hP hpc hv hroom
    obtain rfl := hs.unique hs'
    obtain ⟨rfl, -⟩ := List.cons.inj hstack
    exact ⟨hroom, hy ▸ htag⟩
  · rintro ⟨hroom, htag⟩
    obtain ⟨x, hx, hs⟩ := he.steps hg hgen hP hpc hv hroom
    exact ⟨x, _, hs, rfl, rfl, hx ▸ htag⟩

end

/-- The expression `x + 2`. -/
def mixedSum : Node :=
  .binary "+" (.literal "VARIABLE" (.text "x")) (some (.literal "INT_LITERAL" (.int 2)))

/-- The code of the sum, where `x` has the first address. -/
def mixedSumCode : Generator :=
  Gen.after (Gen.generate mixedSum) { identifiers := [(.text "x", 0)] }

/-- A machine that holds a real at the first address. -/
def realHolder : Machine := { memory := { cells := ⟨4, #[]⟩, tags := #[.real] } }

/-- The sum of a real and an integer is typed as a real, and it is one. -/
theorem expression_tag_mixedSum : ∃ x m', Machine.Steps mixedSumCode.program 3 realHolder m' ∧
    m'.pc = 3 ∧ m'.stack = [x] ∧ scalarTag? "FLOAT" = some x.tag := by
  have hgen : Gen.Ends (Gen.generate mixedSum) { identifiers := [(.text "x", 0)] } ()
      mixedSumCode := rfl
  refine (expression_tag_iff (s := { table := [(.text "x", "FLOAT")] })
    (.operator (by decide) (.literal (by decide) _) (.literal (by decide) _)) rfl
    ⟨rfl, fun h => absurd rfl h.2⟩ hgen (.of_whole (by decide +kernel) _) (m := realHolder) rfl
    ?_).2 ⟨by decide, ?_⟩
  · intro v hv
    obtain rfl : v = .text "x" := by simpa [Node.usedNames, usedNamesOption] using hv
    exact ⟨0, "FLOAT", ⟨.real, 0⟩, rfl, rfl, rfl, rfl⟩
  · exact ⟨"FLOAT", "INT", rfl, rfl, by decide⟩

/-- The expression `6 / 2`. -/
def quotient : Node :=
  .binary "/" (.literal "INT_LITERAL" (.int 6)) (some (.literal "INT_LITERAL" (.int 2)))

/-- The quotient of two integers is typed as an integer, and it is a real. -/
theorem quotient_leaves_real : ({} : Scope).typeOf quotient = .ok (.text "INT") ∧
    (Machine.runFrom (Gen.after (Gen.generate quotient) {}).program 0 3 {}).machine.stack =
      [⟨.real, 0x40400000⟩] :=
  ⟨rfl, by decide +kernel⟩

end StackLang
