import StackLang.Proofs.Course
import StackLang.Proofs.Exchange
import StackLang.Proofs.Literal
import StackLang.Proofs.Loading

/-!
# What simple statements leave on the stack

The code of an expression, a declaration, an assignment or a record is a row of instructions
without jumps. How many items it leaves on the stack more than it takes from it can be read off
the tree: a literal leaves one, an operator takes one of its two operands, a store takes one, and a
built-in function takes its arguments and leaves its result. A call of another function counts its
arguments only; what the function does with them is told by its own statements.

Not every statement comes out even. A call that stands by itself leaves what its function gives,
and a field is read and written by no code at all.

* `Node.gain?` and `Node.net?`: what the code of an expression and of a simple statement leaves;
* `Gen.adds_of_gain` and `Gen.lays_of_net`: the instructions of the code leave so much.
-/

namespace StackLang

open List Option Node

/-! ### Instructions -/

/-- The sum of what `f` says of the items of a list. -/
def sumOf {α : Type} (f : α → Int) : List α → Int
  | [] => 0
  | x :: xs => f x + sumOf f xs

theorem sumOf_append {α : Type} (f : α → Int) (xs ys : List α) :
    sumOf f (xs ++ ys) = sumOf f xs + sumOf f ys := by
  induction xs with
  | nil => exact (Int.zero_add _).symm
  | cons x xs ih => rw [cons_append, sumOf, sumOf, ih, Int.add_assoc]

/-- How many items an operation leaves more than it takes. -/
def Operation.change (op : Operation) (arg : UInt32) : Int :=
  (op.exchange arg).2 - (op.exchange arg).1

/-- How many items an instruction leaves more than it takes. -/
def Instruction.change (i : Instruction) : Int :=
  ((Operation.ofCode? i.code.toNat).map fun op => op.change i.arg).getD 0

namespace Slot

/-- How many items the instruction of a slot leaves more than it takes. -/
def change : Slot → Int
  | .instruction c a =>
    match Image.argumentWord? a with
    | .ok (some w) => Instruction.change ⟨c.toUInt8, w⟩
    | _ => 0
  | _ => 0

/-- The slot holds an instruction whose argument writes a word. -/
def Worded : Slot → Prop
  | .instruction _ a => ∃ w, Image.argumentWord? a = .ok (some w)
  | _ => False

/-- The numbers of the instructions that jump or return. -/
def steering : List Nat := [Op.jump, Op.jumpIf, Op.ret]

/-- The slot holds an instruction that neither jumps nor returns. -/
def Straight : Slot → Prop
  | .instruction c _ => c < 256 ∧ c ∉ steering
  | _ => False

end Slot

/-! ### Trees -/

/-- The call of a built-in function takes its arguments and leaves its result; any other call
    leaves the stack alone. -/
def callChange (f : String) : Int :=
  match builtinNumber? f with
  | some n => (builtinExchange n).2 - (builtinExchange n).1
  | none => 0

mutual

/-- How many items the code of an expression leaves more than it takes. Other nodes have none. Of
    a call on a record, only the arguments have code. -/
def Node.gain? (objects : Table Atom) : Node → Option Int
  | .binary op a b => do
    return (← a.gain? objects) + (← gainOption? objects b) - if op = "not" then 0 else 1
  | .literal k v => some (if holds "[]" k then 1 - v.shown.length else 1)
  | .listLiteral k xs =>
    if holds "[]" k then do return (← gainAll? objects xs) + (1 - xs.length) else some 1
  | .call f xs o => do
    let args ← gainAll? objects xs
    if o.isObject objects then return args
    return args + (← receiverGain? objects o) + callChange f
  | .create _ xs => gainAll? objects xs
  | .member (.node (.member o a i)) b indexed => do
    let list ← (Node.member o a i).gain? objects
    if indexed then return list + (← indexGain? objects Node.isUnary Op.listAccess b)
    return list
  | .member _ b indexed => do
    if indexed then return 1 + (← indexGain? objects Node.isUnary Op.listAccess b)
    return 0
  | .cast _ _ x => x.gain? objects
  | _ => none

/-- What the code of an expression leaves that may be absent. -/
def gainOption? (objects : Table Atom) : Option Node → Option Int
  | none => some 0
  | some n => n.gain? objects

/-- What the code of some expressions leaves. -/
def gainAll? (objects : Table Atom) : List Node → Option Int
  | [] => some 0
  | n :: ns => do return (← n.gain? objects) + (← gainAll? objects ns)

/-- What the receiver of a call leaves: a variable its value, and the system nothing. -/
def receiverGain? (objects : Table Atom) : Operand → Option Int
  | .atom a => some (if a = .text "System" then 0 else 1)
  | .node n => n.gain? objects

/-- What an index leaves together with the instruction that uses it. -/
def indexGain? (objects : Table Atom) (inPlace : Node → Bool) (code : Nat) : Operand → Option Int
  | .atom _ => some (Slot.instruction code (.int (-1))).change
  | .node n =>
    if inPlace n then n.argument?.map fun a => (Slot.instruction code a).change
    else do return (← n.gain? objects) + (Slot.instruction code (.int (-1))).change

end

/-- What the accesses leave on the way to an assigned element. -/
def Operand.stepsGain? (objects : Table Atom) : Operand → Option Int
  | .node (.member o a true) => do
    return (← indexGain? objects Gen.isConstant Op.listAccess a) + (← o.stepsGain? objects)
  | _ => some 0

/-- The variables that are known to hold records, once another one is declared with a value. -/
def noted (objects : Table Atom) (name : Atom) : Node → Table Atom
  | .create r _ => objects.put name r
  | _ => objects

/-- How many items the code of a simple statement leaves more than it takes: of a declaration, an
    assignment, a record, or an expression. Other statements have none. -/
def Node.net? (objects : Table Atom) : Node → Option Int
  | .declare _ t none =>
    (opcodes.lookup (initialInstruction t)).map fun c => (Slot.instruction c (.int 0)).change - 1
  | .declare n _ (some x) => do return (← x.gain? (noted objects n x)) - 1
  | .record _ fs => some fs.length
  | .assign (.node (.member o a true)) v => do
    return (← v.gain? objects) + 1 + (← o.stepsGain? objects) +
      (← indexGain? objects Gen.isConstant Op.listSet a)
  | .assign (.node (.member _ _ false)) v => v.gain? objects
  | .assign _ v => do return (← v.gain? objects) - 1
  | n => n.gain? objects

/-! ### Code -/

/-- The generator `g'` has the code of `g` and straight code behind it, whose instructions leave
    `x` items more than they take. -/
structure Lays (g : Generator) (x : Int) (g' : Generator) (ss : List Slot) : Prop where
  code : g'.code.toList = g.code.toList ++ ss
  length : g'.length = g.length + ss.length
  straight : ∀ s ∈ ss, s.Straight
  total : (∀ s ∈ ss, s.Worded) → sumOf Slot.change ss = x

/-- The same of code that does not declare a record. -/
structure Adds (g : Generator) (x : Int) (g' : Generator) : Prop where
  lays : ∃ ss, Lays g x g' ss
  objects : g'.objects = g.objects

namespace Adds

variable {g h k : Generator} {x y : Int}

theorem refl (g : Generator) : Adds g 0 g :=
  ⟨⟨[], by simp, rfl, forall_mem_nil _, fun _ => rfl⟩, rfl⟩

theorem trans (h₁ : Adds g x h) (h₂ : Adds h y k) : Adds g (x + y) k := by
  obtain ⟨ss, hss⟩ := h₁.lays
  obtain ⟨ts, hts⟩ := h₂.lays
  refine ⟨⟨ss ++ ts, ?_, ?_, ?_, fun hw => ?_⟩, h₂.objects.trans h₁.objects⟩
  · rw [hts.code, hss.code, append_assoc]
  · rw [hts.length, hss.length, length_append, Nat.add_assoc]
  · exact forall_mem_append.2 ⟨hss.straight, hts.straight⟩
  · obtain ⟨hw₁, hw₂⟩ := forall_mem_append.1 hw
    rw [sumOf_append, hss.total hw₁, hts.total hw₂]

/-- One more instruction, whose change is known if its argument writes a word. -/
theorem push (ha : Adds g x h) {c : Nat} {a : Argument} (hc : c < 256 ∧ c ∉ Slot.steering)
    (hy : ∀ w, Image.argumentWord? a = .ok (some w) → Instruction.change ⟨c.toUInt8, w⟩ = y) :
    Adds g (x + y) (h.push (.instruction c a)) := by
  refine ha.trans ⟨⟨[.instruction c a], by simp [Generator.push], rfl, ?_, fun hw => ?_⟩, rfl⟩
  · exact forall_mem_singleton.2 hc
  · obtain ⟨w, hw⟩ := forall_mem_singleton.1 hw
    simpa [sumOf, Slot.change, hw] using hy w hw

/-- A list takes its items. -/
theorem buildList (ha : Adds g x h) (n : Nat) :
    Adds g (x + (1 - n)) (h.push (.instruction Op.buildList (.int n))) := by
  refine ha.push (by decide) fun w hw => ?_
  rw [eq_toNat_of_word (by omega) hw]
  rfl

theorem cast (ha : Adds g x h) (hxy : x = y) : Adds g y h := hxy ▸ ha

/-- Only the code counts, and what is known of records. -/
theorem congr (ha : Adds g x h) (hc : g.code = k.code) (hl : g.length = k.length)
    (ho : g.objects = k.objects) : Adds k x h := by
  obtain ⟨ss, hss⟩ := ha.lays
  exact ⟨⟨ss, hc ▸ hss.code, hl ▸ hss.length, hss.straight, hss.total⟩, ho ▸ ha.objects⟩

end Adds

/-! ### Expressions -/

namespace Gen

variable {g g' : Generator} {x : Int} {k : String} {c : Nat} {o : Operand} {ns xs : List Node}
  {f op : String} {h : Generator} {fs : List Parameter} {name : Atom}

/-- The code of the node leaves as many items as its gain says. -/
def Weighed (n : Node) : Prop :=
  ∀ {g g' x}, Ends (generate n) g () g' → n.gain? g.objects = some x → Adds g x g'

theorem adds_all (ih : ∀ n ∈ ns, Weighed n) (hx : gainAll? g.objects ns = some x)
    (e : Ends (generateReversed ns) g () g') : Adds g x g' := by
  induction ns generalizing g' x with
  | nil =>
    obtain ⟨-, rfl⟩ := ends_pure.1 e
    cases hx
    exact .refl _
  | cons n ns ihns =>
    simp only [gainAll?, bind_eq_bind, bind_eq_some_iff, Option.pure_def,
      some.injEq] at hx
    obtain ⟨y, hy, z, hz, rfl⟩ := hx
    simp only [generateReversed, ends_bind] at e
    obtain ⟨_, h, e₁, e₂⟩ := e
    have h₁ := ihns (fun m hm => ih m (mem_cons_of_mem _ hm)) hz e₁
    rw [Int.add_comm]
    exact h₁.trans (ih n mem_cons_self e₂ (h₁.objects ▸ hy))

theorem adds_fields {r : Atom} (ih : ∀ n ∈ ns, Weighed n) (hx : gainAll? g.objects ns = some x)
    (e : Ends (generateFields r ns) g () g') : Adds g x g' := by
  induction ns generalizing g x with
  | nil =>
    obtain ⟨-, rfl⟩ := ends_pure.1 e
    cases hx
    exact .refl _
  | cons n ns ihns =>
    simp only [gainAll?, bind_eq_bind, bind_eq_some_iff, Option.pure_def,
      some.injEq] at hx
    obtain ⟨y, hy, z, hz, rfl⟩ := hx
    simp only [generateFields, ends_bind, ends_modify] at e
    obtain ⟨_, _, rfl, _, h, e₁, e₂⟩ := e
    have h₁ : Adds g y h := (ih n mem_cons_self e₁ hy).congr rfl rfl rfl
    exact h₁.trans (ihns (fun m hm => ih m (mem_cons_of_mem _ hm)) (h₁.objects ▸ hz) e₂)

theorem adds_chars {cs : List Char} (e : Ends (cs.forM fun c => emitInt Op.storeChar c.toNat) g () g') :
    Adds g cs.length g' := by
  induction cs generalizing g with
  | nil =>
    obtain ⟨-, rfl⟩ := ends_pure.1 e
    exact .refl _
  | cons c cs ih =>
    simp only [List.forM, ends_bind, ends_emitInt] at e
    obtain ⟨_, _, rfl, e⟩ := e
    have h₁ := (Adds.refl g).push (c := Op.storeChar) (a := .int c.toNat) (y := 1) (by decide)
      fun w _ => rfl
    exact (h₁.trans (ih e)).cast (by rw [length_cons]; omega)

/-- A literal that is one instruction leaves one item. -/
theorem Writes.adds {a b : Argument} (hw : Writes g k a c b) :
    Adds g 1 (g.push (.instruction c b)) := by
  have one : c < 256 ∧ c ∉ Slot.steering ∧ ∀ w, Instruction.change ⟨c.toUInt8, w⟩ = 1 := by
    cases hw <;> exact ⟨by decide, by decide, fun _ => rfl⟩
  exact ((Adds.refl g).push ⟨one.1, one.2.1⟩ fun w _ => one.2.2 w).cast (Int.zero_add _)

theorem adds_literal {v : Atom} (e : Ends (literalCode k v) g () g') :
    Adds g (if holds "[]" k then 1 - v.shown.length else 1) g' := by
  rcases ends_literalCode e with ⟨_, _, hw, rfl⟩ | ⟨s, rfl, hk, rfl⟩ | ⟨s, h, rfl, rfl, ec, rfl⟩
  · rw [if_neg (by simp [hw.not_list])]
    exact hw.adds
  · rw [if_pos hk]
    exact ((Adds.refl g).buildList _).cast (Int.zero_add _)
  · -- the characters of a text, and the list of them
    change Adds g 1 _
    exact ((adds_chars ec).buildList _).cast (by rw [length_reverse]; omega)

/-- An index is computed, or it stands in the instruction. -/
theorem adds_index {p : Node → Bool} {a : Operand} (ih : ∀ n ∈ a.nodes, Weighed n)
    (hc : c < 256 ∧ c ∉ Slot.steering) (hx : indexGain? g.objects p c a = some x)
    (e : Ends (indexCode p c a) g () g') : Adds g x g' := by
  have one : ∀ {h : Generator} {y : Int} {a : Argument}, Adds g y h →
      Adds g (y + (Slot.instruction c a).change) (h.push (.instruction c a)) := by
    intro h y a ha
    exact ha.push hc fun w hw => by simp [Slot.change, hw]
  cases a with
  | atom b =>
    cases hx
    rw [indexCode, ends_emitInt] at e
    subst e
    exact (one (.refl g)).cast (Int.zero_add _)
  | node n =>
    rw [indexCode] at e
    rw [indexGain?] at hx
    split at e
    · rename_i hn
      simp only [ends_bind, ends_emit] at e
      obtain ⟨y, _, es, rfl⟩ := e
      obtain ⟨hy, rfl⟩ := Course.selector es
      rw [if_pos hn, hy] at hx
      cases hx
      exact (one (.refl _)).cast (Int.zero_add _)
    · rename_i hn
      rw [if_neg hn] at hx
      simp only [bind_eq_bind, bind_eq_some_iff, Option.pure_def,
        some.injEq] at hx
      obtain ⟨y, hy, rfl⟩ := hx
      simp only [ends_bind, ends_emitInt] at e
      obtain ⟨_, h, en, rfl⟩ := e
      exact one (ih n mem_cons_self en hy)

/-- The instruction of an operator takes one item, but for the negation. -/
theorem adds_operator (hop : operatorCode? op = some c) (ha : Adds g x h) :
    Adds g (x - if op = "not" then 0 else 1) (h.push (.instruction c (.int 0))) := by
  unfold operatorCode? at hop
  split at hop
  all_goals cases hop
  all_goals exact ha.push (by decide) fun w _ => rfl

/-- What a call writes behind its arguments and its receiver. -/
theorem adds_callee (ha : Adds g x h) (e : Ends (calleeCode f) h () g') :
    Adds g (x + callChange f) g' := by
  rcases ends_calleeCode e with ⟨n, hf, rfl⟩ | ⟨a, hf, -, rfl⟩
  · refine ha.push (by decide) fun w hw => ?_
    obtain rfl : n = w.toNat := by have := eq_toNat_of_word (by omega) hw; omega
    rw [callChange, hf]
    rfl
  · refine ha.push (by decide) fun w hw => ?_
    -- no address is that of the end of memory
    have hne : w ≠ endAddress := fun hend => by
      have := (eq_neg_one_of_word (by omega) hw).1 hend
      omega
    rw [callChange, hf]
    change Operation.change .call w = 0
    rw [Operation.change, Operation.exchange, if_neg hne]
    rfl

theorem adds_receiver (ih : ∀ n ∈ o.nodes, Weighed n) (hx : receiverGain? g.objects o = some x)
    (e : Ends (receiverCode o) g () g') : Adds g x g' := by
  rcases ends_receiverCode e with ⟨n, rfl, en⟩ | ⟨rfl, rfl⟩ | ⟨a, y, rfl, ha, rfl⟩
  · exact ih n mem_cons_self en hx
  · cases hx
    exact .refl _
  · rw [receiverGain?, if_neg ha] at hx
    cases hx
    exact ((Adds.refl g).push (by decide) fun w _ => rfl).cast (Int.zero_add _)

theorem adds_call {f : String} {xs : List Node} {o : Operand} (ih : ∀ n ∈ xs ++ o.nodes, Weighed n)
    (hx : (call f xs o).gain? g.objects = some x)
    (e : Ends (generate (.call f xs o)) g () g') : Adds g x g' := by
  obtain ⟨ihx, iho⟩ := forall_mem_append.1 ih
  simp only [gain?, bind_eq_bind, bind_eq_some_iff, Option.pure_def] at hx
  obtain ⟨y, hy, hx⟩ := hx
  obtain ⟨h, e₁, hcall⟩ := ends_call e
  have hargs := adds_all ihx hy e₁
  rw [hargs.objects] at hcall
  rcases hcall with ⟨ho, rfl⟩ | ⟨ho, k, e₂, e₃⟩
  · rw [if_pos ho] at hx
    exact hargs.cast (some.inj hx)
  · simp only [ho, Bool.false_eq_true, if_false, bind_eq_some_iff, some.injEq] at hx
    obtain ⟨z, hz, rfl⟩ := hx
    exact adds_callee (hargs.trans (adds_receiver iho (hargs.objects ▸ hz) e₂)) e₃

theorem adds_member {b : Operand} {indexed : Bool} (ih : ∀ n ∈ o.nodes ++ b.nodes, Weighed n)
    (hx : (member o b indexed).gain? g.objects = some x)
    (e : Ends (generate (.member o b indexed)) g () g') : Adds g x g' := by
  obtain ⟨iho, ihb⟩ := forall_mem_append.1 ih
  obtain ⟨h, e₂, ⟨o', a', i', rfl, e₁⟩ | ⟨ho, hload⟩⟩ := ends_member e
  · simp only [gain?, bind_eq_bind, bind_eq_some_iff, Option.pure_def] at hx
    obtain ⟨y, hy, hx⟩ := hx
    have hlist := iho _ mem_cons_self e₁ hy
    cases indexed with
    | true =>
      simp only [if_true, bind_eq_some_iff, some.injEq] at hx
      obtain ⟨z, hz, rfl⟩ := hx
      exact hlist.trans (adds_index ihb (by decide) (hlist.objects ▸ hz) e₂)
    | false => exact e₂ ▸ hlist.cast (some.inj hx)
  · rw [gain?.eq_7 _ _ _ _ ho] at hx
    cases indexed with
    | true =>
      simp only [if_true, bind_eq_bind, bind_eq_some_iff, Option.pure_def,
        some.injEq] at hx
      obtain ⟨z, hz, rfl⟩ := hx
      obtain ⟨a, -, rfl⟩ := hload
      have hload := (Adds.refl g).push (c := Op.load) (a := .int a) (y := 1) (by decide)
        fun w _ => rfl
      exact (hload.trans (adds_index ihb (by decide) hz e₂)).cast (by omega)
    | false =>
      obtain rfl := e₂.trans hload
      exact (Adds.refl _).cast (some.inj hx)

theorem adds_binary {a : Node} {b : Option Node} (ih : ∀ n ∈ a :: b.toList, Weighed n)
    (hx : (binary op a b).gain? g.objects = some x)
    (e : Ends (generate (.binary op a b)) g () g') : Adds g x g' := by
  obtain ⟨iha, ihb⟩ := forall_mem_cons.1 ih
  simp only [gain?, bind_eq_bind, bind_eq_some_iff, Option.pure_def,
    some.injEq] at hx
  obtain ⟨y, hy, z, hz, rfl⟩ := hx
  obtain ⟨h₁, h₂, c, e₁, e₂, hc, rfl⟩ := ends_binary e
  have ha := iha e₁ hy
  have hb : Adds h₁ z h₂ := by
    cases b with
    | none =>
      obtain ⟨-, rfl⟩ := ends_pure.1 e₂
      cases hz
      exact .refl _
    | some b => exact ihb b (mem_toList.2 rfl) e₂ (ha.objects ▸ hz)
  exact adds_operator hc (ha.trans hb)

theorem adds_list (ih : ∀ n ∈ xs, Weighed n) (hx : (listLiteral k xs).gain? g.objects = some x)
    (e : Ends (generate (.listLiteral k xs)) g () g') : Adds g x g' := by
  simp only [gain?, bind_eq_bind, Option.pure_def] at hx
  rcases ends_list e with ⟨_, _, hw, rfl⟩ | ⟨h, hk, e₁, rfl⟩
  · rw [if_neg (by simp [hw.not_list])] at hx
    exact hw.adds.cast (some.inj hx)
  · rw [if_pos hk, bind_eq_some_iff] at hx
    obtain ⟨y, hy, hx⟩ := hx
    exact ((adds_all ih hy e₁).buildList _).cast (some.inj hx)

/-- The code of an expression leaves as many items as its tree says. -/
theorem adds_of_gain (n : Node) : Weighed n := by
  induction n using childInduction with
  | h n ih =>
    intro g g' x e hx
    cases n with
    | binary op a b => exact adds_binary ih hx e
    | literal k v =>
      rw [generate] at e
      cases hx
      exact adds_literal e
    | listLiteral k xs => exact adds_list ih hx e
    | call f xs o => exact adds_call ih hx e
    | create r xs =>
      obtain ⟨h, info, e₁, -, rfl⟩ := ends_create e
      have hargs := adds_fields ih hx e₁
      exact (hargs.push (y := 0) (by decide) fun w _ => rfl).cast (Int.add_zero _)
    | member o a i => exact adds_member ih hx e
    | cast t s y =>
      obtain ⟨h, c, e₁, -, rfl⟩ := ends_cast e
      have hy := ih y mem_cons_self e₁ hx
      exact (hy.push (y := 0) (by decide) fun w _ => rfl).cast (Int.add_zero _)
    | _ => cases hx

/-! ### Simple statements -/

theorem adds_steps (hx : o.stepsGain? g.objects = some x) (e : Ends (generateSetters o) g () g') :
    Adds g x g' := by
  fun_induction Operand.steps o generalizing g x with
  | case1 o a ih =>
    simp only [Operand.stepsGain?, bind_eq_bind, bind_eq_some_iff, Option.pure_def,
      some.injEq] at hx
    obtain ⟨y, hy, z, hz, rfl⟩ := hx
    rw [generateSetters_member, ends_bind] at e
    obtain ⟨_, h, e₁, e₂⟩ := e
    have hindex := adds_index (fun n _ => adds_of_gain n) (by decide) hy e₁
    exact hindex.trans (ih (hindex.objects ▸ hz) e₂)
  | case2 o ho =>
    rw [Operand.stepsGain?.eq_2 _ _ ho] at hx
    unfold generateSetters at e
    split at e
    · exact absurd rfl (ho _ _)
    · obtain ⟨-, rfl⟩ := ends_pure.1 e
      exact (Adds.refl _).cast (some.inj hx)

/-- The statement of `lays_of_net` for an assignment. -/
theorem adds_assign {t : Operand} {v : Node} (hx : (assign t v).net? g.objects = some x)
    (e : Ends (generate (.assign t v)) g () g') : Adds g x g' := by
  obtain ⟨h, e₁, ht⟩ := ends_assign e
  rcases ht with ⟨o, a, b, k, rfl, -, e₂, e₃⟩ | ⟨o, a, rfl, rfl⟩ | ⟨y, b, rfl, -, rfl⟩
  · simp only [net?, bind_eq_bind, bind_eq_some_iff, Option.pure_def,
      some.injEq] at hx
    obtain ⟨y, hy, z, hz, w, hw, rfl⟩ := hx
    have hload := (adds_of_gain v e₁ hy).push (c := Op.load) (a := .int b) (y := 1) (by decide)
      fun w _ => rfl
    have hsteps := hload.trans (adds_steps (hload.objects ▸ hz) e₂)
    exact hsteps.trans (adds_index (fun n _ => adds_of_gain n) (by decide) (hsteps.objects ▸ hw) e₃)
  · exact adds_of_gain v e₁ hx
  · simp only [net?, bind_eq_bind, bind_eq_some_iff, Option.pure_def,
      some.injEq] at hx
    obtain ⟨z, hz, rfl⟩ := hx
    exact (adds_of_gain v e₁ hz).push (by decide) fun w _ => rfl

theorem adds_fieldCode {record : Atom} (e : Ends (fieldCode record fs) g () g') :
    Adds g fs.length g' := by
  induction fs generalizing g with
  | nil =>
    obtain ⟨-, rfl⟩ := ends_pure.1 e
    exact .refl _
  | cons p ps ih =>
    simp only [fieldCode, ends_bind, ends_modify, ends_emitInt] at e
    obtain ⟨_, h, rfl, _, _, rfl, e⟩ := e
    have h₁ := ((Adds.refl _).push (y := 1) (by decide) fun w _ => rfl).trans (ih e)
    exact (h₁.cast (by rw [length_cons]; omega)).congr rfl rfl rfl

theorem adds_record (e : Ends (recordCode name fs) g () g') : Adds g fs.length g' := by
  simp only [recordCode, ends_bind, ends_modify, ends_emitInt] at e
  obtain ⟨_, _, rfl, _, h, e, rfl⟩ := e
  have h₁ := (adds_fieldCode e).push (c := Op.defineType) (a := .int fs.length) (y := 0) (by decide)
    fun w _ => rfl
  exact (h₁.cast (Int.add_zero _)).congr rfl rfl rfl

/-- The instruction that gives a variable its first value neither jumps nor returns: its name
    begins with another letter. -/
theorem straight_of_initial {type : String} {c : Nat}
    (h : opcodes.lookup (initialInstruction type) = some c) : c < 256 ∧ c ∉ Slot.steering := by
  obtain ⟨hmem, hname⟩ := mem_opcodes_of_initial h
  have hcodes : ∀ p ∈ opcodes, p.1.toList.head? ∈ [some 'B', some 'S'] →
      p.2 < 256 ∧ p.2 ∉ Slot.steering := by
    decide
  exact hcodes _ hmem hname

/-- A declaration may note that its variable holds a record. -/
theorem lays_declare {t : String} {v : Option Node}
    (hx : (declare name t v).net? g.objects = some x)
    (e : Ends (generate (.declare name t v)) g () g') : ∃ ss, Lays g x g' ss := by
  simp only [generate_declare, ends_bind, ends_reserve, ends_emitInt] at e
  obtain ⟨_, _, rfl, _, h, e₁, _, k, e₂, rfl⟩ := e
  obtain ⟨hc, hl, ho⟩ : h.code = g.code ∧ h.length = g.length ∧
      ∀ n ∈ v, h.objects = noted g.objects name n := by
    unfold noteObject at e₁
    split at e₁
    · obtain rfl := ends_modify.1 e₁
      exact ⟨rfl, rfl, by rintro n ⟨⟩; rfl⟩
    · rename_i hv
      obtain ⟨-, rfl⟩ := ends_pure.1 e₁
      refine ⟨rfl, rfl, fun n hn => ?_⟩
      cases n with
      | create r xs => exact absurd hn (hv r xs)
      | _ => rfl
  -- the code begins behind the notes
  have value : ∀ {y : Int}, Adds h y k →
      ∃ ss, Lays g (y - 1) (k.push (.instruction Op.storeMem (.int (-1)))) ss := by
    intro y hy
    obtain ⟨ss, hss⟩ := (hy.push (c := Op.storeMem) (a := .int (-1)) (y := -1) (by decide)
      fun w _ => rfl).lays
    exact ⟨ss, hc ▸ hss.code, hl ▸ hss.length, hss.straight, hss.total⟩
  cases v with
  | none =>
    simp only [initialCode] at e₂
    split at e₂
    · rename_i c hcode
      obtain rfl := ends_emitInt.1 e₂
      rw [net?, hcode] at hx
      cases hx
      refine value (((Adds.refl h).push (straight_of_initial hcode) fun w hw => ?_).cast (Int.zero_add _))
      simp [Slot.change, hw]
    · exact absurd e₂ ends_throw
  | some n =>
    simp only [net?, bind_eq_bind, bind_eq_some_iff, Option.pure_def,
      some.injEq] at hx
    obtain ⟨y, hy, rfl⟩ := hx
    exact value (adds_of_gain n e₂ (ho n rfl ▸ hy))

/-- The code of a simple statement leaves as many items as its tree says. -/
theorem lays_of_net {n : Node} (hx : n.net? g.objects = some x) (e : Ends (generate n) g () g') :
    ∃ ss, Lays g x g' ss := by
  cases n with
  | declare name t v => exact lays_declare hx e
  | record name fs =>
    rw [generate] at e
    cases hx
    exact (adds_record e).lays
  | assign t v => exact (adds_assign hx e).lays
  | _ => exact (adds_of_gain _ e hx).lays

end Gen

end StackLang
