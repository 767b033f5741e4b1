import StackLang.Proofs.Execution
import StackLang.Proofs.SourceCode
import StackLang.Proofs.Storage

/-!
# Integer programs on the machine

The machine executes the code of an integer program as the program is compiled
(`Source.Reading.compiled`): after each statement the stack is empty and memory holds the
values of the variables one after the other, and where the program has no store within a
number of rounds, the machine does not come to the end within that many instructions.

* `Source.Expr.steps` and `Source.Expr.overflow`: the code of an expression leaves its value
  on the stack if there is room, and stops the machine if there is none;
* `Source.runs_iterate`: what one round of a loop does, repeated;
* `Source.Stmt.runs`: the code of a statement does what the statement does.
-/

namespace StackLang

open List

/-! ### Words -/

/-- The word of a signed integer is the integer's own. -/
theorem intWord_toInt (x : Int32) : intWord x.toInt = x.toUInt32 := by
  refine UInt32.toNat_inj.1 ?_
  have hcond := x.toBitVec.toInt_eq_toNat_cond
  have hlt := x.toBitVec.isLt
  have hint : x.toInt = x.toBitVec.toInt := rfl
  have hnat : x.toUInt32.toNat = x.toBitVec.toNat := rfl
  rw [intWord, Nat.toUInt32, UInt32.toNat_ofNat', hint, hnat]
  omega

/-- An address or a place that fits into a word is read as it is. -/
theorem toNat_intWord {n : Nat} (h : fitsWord n = true) : (intWord n).toNat = n := by
  simp only [fitsWord, Bool.and_eq_true, decide_eq_true_eq] at h
  rw [intWord, Nat.toUInt32, UInt32.toNat_ofNat']
  omega

namespace Source

open Machine

variable {l : Bool} {P : Program} {n : Nat} {names : List String} {t : Tag} {s : Store}
  {m : Machine}

theorem toUInt32_inj {x y : Int32} : x.toUInt32 = y.toUInt32 ↔ x = y :=
  ⟨fun h => by simpa using congrArg UInt32.toInt32 h, congrArg _⟩

theorem toUInt32_eq_zero {x : Int32} : x.toUInt32 = 0 ↔ x = 0 := toUInt32_inj (y := 0)

theorem toUInt32_truth (b : Bool) : (truth b).toUInt32 = if b then 1 else 0 := by
  cases b <;> rfl

/-! ### Operators -/

namespace Arithmetic

/-- The operator of the machine. -/
def operator : Arithmetic → Operator
  | add => .add
  | sub => .sub
  | mul => .mul
  | eq => .eq
  | ne => .ne
  | lt => .lt
  | gt => .gt
  | le => .le
  | ge => .ge

theorem ofCode?_code (op : Arithmetic) :
    Operation.ofCode? op.code.toUInt8.toNat = some (.compute op.operator) := by
  cases op <;> rfl

theorem isLogical_operator (op : Arithmetic) : op.operator.isLogical = false := by
  cases op <;> rfl

/-- The machine computes the operator on words. -/
theorem onWords_operator (op : Arithmetic) (x y : Int32) :
    op.operator.onWords x.toUInt32 y.toUInt32 = (op.apply x y).toUInt32 := by
  cases op <;>
    simp [operator, Operator.onWords, apply, wordInt, toUInt32_truth, toUInt32_inj,
      Int32.lt_iff_toInt_lt, Int32.le_iff_toInt_le]

end Arithmetic

namespace Junction

/-- The operator of the machine. -/
def operator : Junction → Operator
  | and => .and
  | or => .or

theorem ofCode?_code (op : Junction) :
    Operation.ofCode? op.code.toUInt8.toNat = some (.compute op.operator) := by
  cases op <;> rfl

/-- The machine computes the operator on truth values. -/
theorem onTruths_operator (op : Junction) {x y : Int32} {a b : Item} (ha : a.word = x.toUInt32)
    (hb : b.word = y.toUInt32) :
    op.operator.onTruths a b = ⟨.byte, (op.apply x y).toUInt32⟩ := by
  cases op <;>
    simp [operator, Operator.onTruths, apply, ha, hb, Item.ofBool, toUInt32_truth,
      toUInt32_eq_zero]

end Junction

/-- The tags that values of expressions have on the stack: truth values only come from
    logical operators. -/
def HasTag (l : Bool) (t : Tag) : Prop := t = .int ∨ l = true ∧ t = .byte

/-- No operator on values of expressions joins texts or computes with reals. -/
theorem HasTag.plain (h : HasTag l t) : t ≠ .pointer ∧ t ≠ .real := by
  rcases h with rfl | ⟨-, rfl⟩ <;> decide

theorem Arithmetic.onItems_operator (op : Arithmetic) {t' : Tag} (ht : HasTag l t)
    (ht' : HasTag l t') (x y : Int32) :
    op.operator.onItems ⟨t, x.toUInt32⟩ ⟨t', y.toUInt32⟩ = ⟨.int, (op.apply x y).toUInt32⟩ := by
  have hf : op.operator.isFractional = false := by cases op <;> rfl
  rw [Operator.onItems, if_neg (by simp [hf, ht.plain.2, ht'.plain.2]), op.onWords_operator]

/-! ### Stores -/

namespace Store

/-- The words of the values. -/
def words (s : Store) : List UInt32 := s.map fun p => p.2.toUInt32

theorem exists_lookup {s : Store} {v : String} (hv : v ∈ s.names) :
    ∃ x, s.lookup v = some x ∧ s.words[s.names.idxOf v]? = some x.toUInt32 := by
  induction s with
  | nil => simp at hv
  | cons p s ih =>
    obtain ⟨w, y⟩ := p
    by_cases hw : w = v
    · subst hw
      exact ⟨y, by simp, by simp [words]⟩
    · have hwv : (w == v) = false := by simpa using hw
      have hvw : (v == w) = false := by simpa using Ne.symm hw
      obtain ⟨x, hx, hi⟩ := ih (by simpa [Ne.symm hw] using hv)
      refine ⟨x, by simpa [lookup_cons, hvw] using hx, ?_⟩
      simpa [words, idxOf_cons, hwv] using hi

theorem names_set (s : Store) (v : String) (x : Int32) : (s.set v x).names = s.names := by
  induction s with
  | nil => rfl
  | cons p s ih =>
    rw [set]
    split
    · rename_i hp
      simp [hp]
    · simpa using ih

theorem words_set (s : Store) (v : String) (x : Int32) :
    (s.set v x).words = s.words.set (s.names.idxOf v) x.toUInt32 := by
  induction s with
  | nil => rfl
  | cons p s ih =>
    rw [set]
    split
    · rename_i hp
      simp [words, hp]
    · rename_i hp
      have hp' : (p.1 == v) = false := by simpa using hp
      simpa [words, idxOf_cons, hp'] using ih

theorem length_words (s : Store) : s.words.length = s.names.length := by simp [words, names]

end Store

/-! ### Code in a program -/

/-- The instructions lie at a place of the program, and their arguments fit into words. -/
def CodeAt (P : Program) (n : Nat) (is : Code) : Prop :=
  ∀ i x, is[i]? = some x → fitsWord x.2 = true ∧ P[n + i]? = some ⟨x.1.toUInt8, intWord x.2⟩

section CodeAt

variable {P : Program} {n : Nat} {c : Code}

theorem codeAt_nil : CodeAt P n [] := by simp [CodeAt]

theorem codeAt_cons {x : Nat × Int} : CodeAt P n (x :: c) ↔
    (fitsWord x.2 = true ∧ P[n]? = some ⟨x.1.toUInt8, intWord x.2⟩) ∧ CodeAt P (n + 1) c := by
  constructor
  · intro h
    refine ⟨h 0 x rfl, fun i y hy => ?_⟩
    rw [Nat.add_assoc, Nat.add_comm 1]
    exact h (i + 1) y hy
  · rintro ⟨hx, hc⟩ i y hy
    cases i with
    | zero =>
      cases hy
      exact hx
    | succ i =>
      rw [Nat.add_comm i, ← Nat.add_assoc]
      exact hc i y hy

theorem codeAt_append {d : Code} :
    CodeAt P n (c ++ d) ↔ CodeAt P n c ∧ CodeAt P (n + c.length) d := by
  induction c generalizing n with
  | nil => simp [codeAt_nil]
  | cons x c ih =>
    simp only [cons_append, codeAt_cons, ih, length_cons, Nat.add_assoc,
      Nat.add_comm 1, and_assoc]

theorem CodeAt.head {x : Nat × Int} (h : CodeAt P n (x :: c)) : CodeAt P n [x] :=
  codeAt_cons.2 ⟨(codeAt_cons.1 h).1, codeAt_nil⟩

theorem CodeAt.tail {x : Nat × Int} (h : CodeAt P n (x :: c)) : CodeAt P (n + 1) c :=
  (codeAt_cons.1 h).2

theorem CodeAt.cast {k : Nat} (h : CodeAt P n c) (hk : n = k) : CodeAt P k c := hk ▸ h

theorem CodeAt.isSome (h : CodeAt P n c) (hc : 0 < c.length) : P[n]?.isSome = true := by
  have hi := (h 0 _ (getElem?_eq_getElem hc)).2
  rw [Nat.add_zero] at hi
  rw [hi]
  rfl

end CodeAt

/-! ### Expressions -/

section Expr

variable {P : Program} {s : Store} {l : Bool}

theorem Expr.size_pos (e : Expr l) : 0 < e.size := by
  cases e <;> simp [size]

theorem Expr.depth_pos (e : Expr l) : 0 < e.depth := by
  induction e with
  | number | name => exact Nat.one_pos
  | arithmetic _ _ _ iha _ | junction _ _ _ _ iha _ => exact Nat.lt_of_lt_of_le iha (Nat.le_max_left _ _)
  | negation _ _ ih => exact ih

/-- Where there is room on the stack, the code of an expression leaves its value there. -/
def Expr.Leaves (P : Program) (s : Store) (e : Expr l) : Prop :=
  ∀ m : Machine, m.memory.Holds s.words → CodeAt P m.pc (e.code s.names) →
    m.stack.length + e.depth ≤ stackLimit → ∃ x t, e.eval s = some x ∧ HasTag l t ∧
      Steps P e.size m { m with pc := m.pc + e.size, stack := ⟨t, x.toUInt32⟩ :: m.stack }

/-- The code of two operands leaves both of their values for the instruction behind it. -/
theorem Expr.Leaves.both {a b : Expr l} (ha : a.Leaves P s) (hb : b.Leaves P s) {m : Machine}
    {i : Nat × Int} (hm : m.memory.Holds s.words)
    (hc : CodeAt P m.pc (a.code s.names ++ b.code s.names ++ [i]))
    (hd : m.stack.length + max a.depth (b.depth + 1) ≤ stackLimit) :
    P[m.pc + (a.size + b.size)]? = some ⟨i.1.toUInt8, intWord i.2⟩ ∧
    ∃ x y t t', a.eval s = some x ∧ b.eval s = some y ∧ HasTag l t ∧ HasTag l t' ∧
      Steps P (a.size + b.size) m
        { m with
          pc := m.pc + (a.size + b.size)
          stack := ⟨t', y.toUInt32⟩ :: ⟨t, x.toUInt32⟩ :: m.stack } := by
  obtain ⟨hab, hi⟩ := codeAt_append.1 hc
  obtain ⟨⟨-, hi⟩, -⟩ := codeAt_cons.1 hi
  rw [length_append, length_code, length_code] at hi
  obtain ⟨hca, hcb⟩ := codeAt_append.1 hab
  rw [length_code] at hcb
  obtain ⟨x, t, hx, ht, hsa⟩ := ha m hm hca (by omega)
  -- the value of the first operand takes one place
  obtain ⟨y, t', hy, ht', hsb⟩ := hb
    { m with pc := m.pc + a.size, stack := ⟨t, x.toUInt32⟩ :: m.stack } hm hcb (by simp; omega)
  refine ⟨hi, x, y, t, t', hx, hy, ht, ht', ?_⟩
  have hsteps := hsa.trans hsb
  rwa [Nat.add_assoc] at hsteps

/-- The code of an expression leaves its value on the stack. -/
theorem Expr.steps (e : Expr l) (hu : e.uses s.names = true) : e.Leaves P s := by
  induction e with
  | number a n ha =>
    intro m hm hc hd
    obtain ⟨⟨-, hi⟩, -⟩ := codeAt_cons.1 hc
    rw [intWord_toInt] at hi
    exact ⟨n, .int, rfl, .inl rfl, .single (step_push hi hd)⟩
  | name v =>
    intro m hm hc hd
    obtain ⟨⟨hfits, hi⟩, -⟩ := codeAt_cons.1 hc
    obtain ⟨x, hx, hw⟩ := Store.exists_lookup (s := s) (v := v) (by simpa [uses] using hu)
    exact ⟨x, .int, hx, .inl rfl, .single (step_load hi (hm.load hw (toNat_intWord hfits)) hd)⟩
  | arithmetic op a b iha ihb =>
    intro m hm hc hd
    obtain ⟨hua, hub⟩ := Bool.and_eq_true_iff.1 hu
    rw [depth] at hd
    obtain ⟨hi, x, y, t, t', hx, hy, ht, ht', hsteps⟩ := (iha hua).both (ihb hub) hm hc hd
    refine ⟨op.apply x y, .int, by simp [eval, hx, hy], .inl rfl, hsteps.trans (.single ?_)⟩
    refine step_compute op.operator hi op.ofCode?_code fun m' hm' => ?_
    rw [Act.run_compute_items op.isLogical_operator
      (by simp [Item.isJoin, ht.plain.1, ht'.plain.1]) hm' (by omega), op.onItems_operator ht ht']
  | junction hl op a b iha ihb =>
    intro m hm hc hd
    obtain ⟨hua, hub⟩ := Bool.and_eq_true_iff.1 hu
    rw [depth] at hd
    obtain ⟨hi, x, y, t, t', hx, hy, ht, ht', hsteps⟩ := (iha hua).both (ihb hub) hm hc hd
    refine ⟨op.apply x y, .byte, by simp [eval, hx, hy], .inr ⟨hl, rfl⟩, hsteps.trans (.single ?_)⟩
    refine step_compute op.operator hi op.ofCode?_code fun m' hm' => ?_
    have hop : op.operator.isLogical = true ∧ op.operator ≠ .not := by cases op <;> decide
    rw [Act.run_compute_logical hop.1 hop.2 hm' (by omega), op.onTruths_operator rfl rfl]
  | negation hl a ih =>
    intro m hm hc hd
    obtain ⟨ha, hi⟩ := codeAt_append.1 hc
    obtain ⟨⟨-, hi⟩, -⟩ := codeAt_cons.1 hi
    rw [length_code] at hi
    rw [depth] at hd
    obtain ⟨x, t, hx, ht, hsteps⟩ := ih hu m hm ha hd
    refine ⟨truth (x = 0), .byte, by simp [eval, hx], .inr ⟨hl, rfl⟩, hsteps.trans (.single ?_)⟩
    refine step_compute .not hi rfl fun m' hm' => ?_
    have hpos := a.depth_pos
    rw [Act.run_compute_not hm' (by omega)]
    simp [Item.ofBool, toUInt32_truth, toUInt32_eq_zero]

end Expr

/-- An expression that needs more room than the stack has stops the machine. -/
theorem Expr.overflow (e : Expr l) (hu : e.uses s.names = true) (hm : m.memory.Holds s.words)
    (hc : CodeAt P m.pc (e.code s.names)) (hle : m.stack.length ≤ stackLimit)
    (hd : stackLimit < m.stack.length + e.depth) : Lasts P n m := by
  induction e generalizing m with
  | number a k ha =>
    obtain ⟨⟨-, hi⟩, -⟩ := codeAt_cons.1 hc
    obtain ⟨m', hstep⟩ := step_push_full hi (by simpa [depth] using Nat.le_of_lt_succ hd)
    exact .of_halted hstep
  | name v =>
    obtain ⟨⟨hfits, hi⟩, -⟩ := codeAt_cons.1 hc
    obtain ⟨x, hx, hw⟩ := Store.exists_lookup (s := s) (v := v) (by simpa [uses] using hu)
    obtain ⟨m', hstep⟩ := step_load_full hi (hm.load hw (toNat_intWord hfits))
      (by simpa [depth] using Nat.le_of_lt_succ hd)
    exact .of_halted hstep
  | arithmetic op a b iha ihb | junction _ op a b iha ihb =>
    obtain ⟨hua, hub⟩ := Bool.and_eq_true_iff.1 hu
    obtain ⟨hca, hcb⟩ := codeAt_append.1 (codeAt_append.1 hc).1
    rw [length_code] at hcb
    rw [depth] at hd
    by_cases hda : stackLimit < m.stack.length + a.depth
    · exact iha hua hm hca hle hda
    · -- the first operand finds room, so it is the second one that does not
      obtain ⟨x, t, -, -, hsteps⟩ := a.steps hua m hm hca (by omega)
      have hlast := ihb (m := { m with pc := m.pc + a.size, stack := ⟨t, x.toUInt32⟩ :: m.stack })
        hub hm hcb (by have := a.depth_pos; simp; omega) (by simp; omega)
      exact (Lasts.of_steps hsteps hlast).mono (by omega)
  | negation _ a ih => exact ih hu hm (codeAt_append.1 hc).1 hle hd

/-! ### Runs that may have no result -/

/-- From `m` on, the machine comes to a state that fits the result, if there is one; if there
    is none, it does not come to the end of the program within `n` instructions. -/
def Runs {α : Type} (P : Program) (n : Nat) (m : Machine) (o : Option α) (Q : α → Machine → Prop) :
    Prop :=
  match o with
  | some x => ∃ k m', Steps P k m m' ∧ Q x m'
  | none => Lasts P n m

namespace Runs

variable {α β : Type} {P : Program} {n k : Nat} {m m' : Machine} {o : Option α} {x : α}
  {Q R : α → Machine → Prop} {T : β → Machine → Prop}

theorem pure (h : Q x m) : Runs P n m (some x) Q := ⟨0, m, .refl m, h⟩

theorem mono (h : Runs P n m o Q) (hk : k ≤ n) : Runs P k m o Q := by
  cases o with
  | some x => exact h
  | none => exact Lasts.mono h hk

theorem add_steps (hs : Steps P k m m') (h : Runs P n m' o Q) : Runs P (k + n) m o Q := by
  cases o with
  | some x =>
    obtain ⟨j, m'', hs', hq⟩ := h
    exact ⟨k + j, m'', hs.trans hs', hq⟩
  | none => exact Lasts.of_steps hs h

theorem of_steps (hs : Steps P k m m') (h : Runs P n m' o Q) : Runs P n m o Q :=
  (h.add_steps hs).mono (Nat.le_add_left n k)

theorem bind {f : α → Option β} (h : Runs P n m o Q)
    (hf : ∀ x m', Q x m' → Runs P n m' (f x) T) : Runs P n m (o >>= f) T := by
  cases o with
  | some x =>
    obtain ⟨k, m', hs, hq⟩ := h
    exact .of_steps hs (hf x m' hq)
  | none => exact h

/-- The machine may go on from where it came to. -/
theorem extend (h : Runs P n m o Q)
    (hq : ∀ x m', Q x m' → ∃ k m'', Steps P k m' m'' ∧ R x m'') : Runs P n m o R := by
  cases o with
  | some x =>
    obtain ⟨k, m', hs, hm⟩ := h
    obtain ⟨j, m'', hs', hr⟩ := hq x m' hm
    exact ⟨k + j, m'', hs.trans hs', hr⟩
  | none => exact h

end Runs

/-- The machine is at a place between statements: its stack is empty, and memory holds the
    values of the variables with these names. -/
structure At (names : List String) (s : Store) (pc : Nat) (m : Machine) : Prop where
  names : s.names = names
  pc : m.pc = pc
  stack : m.stack = []
  heap : m.heap = {}
  memory : m.memory.Holds s.words

namespace At

variable {P : Program} {names : List String} {s : Store} {pc target n : Nat} {m : Machine}
  {l : Bool} {v : String} {c : Expr true} {e : Expr false}

section

variable (h : At names s pc m)

include h

/-- The code of an expression leaves its value. -/
theorem value {e : Expr l} (hu : e.uses names = true) (hc : CodeAt P pc (e.code names)) :
    Runs P n m (Reading.compiled.value e s) fun x m' =>
      ∃ t, HasTag l t ∧ m' = { m with pc := pc + e.size, stack := [⟨t, x.toUInt32⟩] } := by
  obtain ⟨rfl, rfl, hstack, -, hm⟩ := h
  by_cases hd : stackLimit < e.depth
  · rw [Reading.value, if_pos ⟨rfl, hd⟩]
    exact e.overflow hu hm hc (by simp [hstack]) (by simpa [hstack] using hd)
  · obtain ⟨x, t, hx, ht, hs⟩ := e.steps hu m hm hc (by simp [hstack]; omega)
    rw [Reading.value, if_neg (fun hd' => hd hd'.2), hx]
    rw [hstack] at hs
    exact ⟨_, _, hs, t, ht, rfl⟩

/-- A jump goes to its target. -/
theorem jump (hc : CodeAt P pc [(Op.jump, (target : Int))]) :
    ∃ m', m.step P = some (.next m') ∧ At names s target m' := by
  obtain ⟨⟨hfits, hi⟩, -⟩ := codeAt_cons.1 hc
  refine ⟨_, step_jump (by rw [fetch, h.pc]; exact hi), h.names, toNat_intWord hfits, h.stack,
    h.heap, h.memory⟩

/-- A test goes to its target if the condition holds, and on if not. -/
theorem test (hu : c.uses names = true) (hc : CodeAt P pc (c.code names))
    (hj : CodeAt P (pc + c.size) [(Op.jumpIf, (target : Int))]) :
    Runs P n m (Reading.compiled.value c s) fun x m' =>
      At names s (if x ≠ 0 then target else pc + c.size + 1) m' := by
  obtain ⟨⟨hfits, hi⟩, -⟩ := codeAt_cons.1 hj
  refine (h.value hu hc).extend ?_
  rintro x _ ⟨t, -, rfl⟩
  refine ⟨1, _, .single (step_jumpIf hi rfl), h.names, ?_, rfl, h.heap, h.memory⟩
  simp [toUInt32_eq_zero, toNat_intWord hfits]

/-- The test of a loop goes on if the condition holds, and to its target if not. -/
theorem loopTest (hu : c.uses names = true) (hc : CodeAt P pc (c.code names))
    (hj : CodeAt P (pc + c.size) [(Op.not, 0), (Op.jumpIf, (target : Int))]) :
    Runs P n m (Reading.compiled.value c s) fun x m' =>
      At names s (if x ≠ 0 then pc + c.size + 2 else target) m' := by
  obtain ⟨⟨-, hn⟩, hj⟩ := codeAt_cons.1 hj
  obtain ⟨⟨hfits, hi⟩, -⟩ := codeAt_cons.1 hj
  refine (h.value hu hc).extend ?_
  rintro x _ ⟨t, -, rfl⟩
  have hnot := step_compute (P := P) .not
    (m := { m with pc := pc + c.size, stack := [⟨t, x.toUInt32⟩] }) hn rfl
    fun m' hm' => Act.run_compute_not hm' (by decide)
  refine ⟨2, _, .next hnot (.single (step_jumpIf hi rfl)), h.names, ?_, rfl, h.heap, h.memory⟩
  by_cases hx : x = 0 <;> simp [Item.ofBool, toUInt32_eq_zero, toNat_intWord hfits, hx]

/-- An assignment changes its variable. -/
theorem assign (hu : e.uses names = true) (hv : v ∈ names)
    (hc : CodeAt P pc (e.code names ++ [(Op.storeMem, (address names v : Int))])) :
    Runs P n m (do return s.set v (← Reading.compiled.value e s)) fun s' m' =>
      At names s' (pc + e.size + 1) m' := by
  obtain ⟨hc, hj⟩ := codeAt_append.1 hc
  obtain ⟨⟨hfits, hi⟩, -⟩ := codeAt_cons.1 hj
  rw [Expr.length_code] at hi
  refine (h.value hu hc).bind ?_
  rintro x _ ⟨t, ht, rfl⟩
  obtain rfl : t = .int := by simpa [HasTag] using ht
  have hlt : names.idxOf v < s.words.length := by
    rw [Store.length_words, h.names]
    exact idxOf_lt_length_of_mem hv
  obtain ⟨memory, hstore, hholds⟩ := h.memory.store hlt (toNat_intWord hfits) x.toUInt32
  refine .of_steps (.single (step_storeMem hi rfl hstore)) (.pure ⟨?_, rfl, rfl, h.heap, ?_⟩)
  · rw [Store.names_set, h.names]
  · rwa [Store.words_set, h.names]

/-- A declaration adds its variable. -/
theorem declare (hu : e.uses names = true) (v : String)
    (hc : CodeAt P pc (e.code names ++ [(Op.storeMem, -1)])) :
    Runs P n m (do return s ++ [(v, ← Reading.compiled.value e s)]) fun s' m' =>
      At (names ++ [v]) s' (pc + e.size + 1) m' := by
  obtain ⟨hc, hj⟩ := codeAt_append.1 hc
  obtain ⟨⟨-, hi⟩, -⟩ := codeAt_cons.1 hj
  rw [Expr.length_code] at hi
  refine (h.value hu hc).bind ?_
  rintro x _ ⟨t, ht, rfl⟩
  obtain rfl : t = .int := by simpa [HasTag] using ht
  obtain ⟨memory, hstore, hholds⟩ := h.memory.store_end x.toUInt32
  refine .of_steps (.single (step_storeMem hi rfl hstore)) (.pure ⟨?_, rfl, rfl, h.heap, ?_⟩)
  · simp [h.names]
  · simpa [Store.words] using hholds

end

end At

/-! ### Statements -/

/-- Rounds of a loop: where its test goes on to the body or behind the loop, its body to the
    jump at its end, and that back to the test, the loop does what its rounds do. -/
theorem runs_iterate {start body back finish : Nat} {test : Store → Option Int32}
    {round : Store → Option Store} (htest : ∀ s m, At names s start m →
      Runs P n m (test s) fun x m' => At names s (if x ≠ 0 then body else finish) m')
    (hround : ∀ s m, At names s body m → Runs P n m (round s) fun s' m' => At names s' back m')
    (hback : ∀ s m, At names s back m → ∃ m', m.step P = some (.next m') ∧ At names s start m')
    (hstart : P[start]?.isSome = true) {k : Nat} (hk : k ≤ n) (h : At names s start m) :
    Runs P k m (iterate test round k s) fun s' m' => At names s' finish m' := by
  induction k generalizing s m with
  | zero =>
    obtain ⟨i, hi⟩ := Option.isSome_iff_exists.1 hstart
    exact Lasts.zero (i := i) (by rw [fetch, h.pc, hi])
  | succ k ih =>
    rw [iterate]
    refine ((htest s m h).mono hk).bind fun x m₁ h₁ => ?_
    by_cases hx : x ≠ 0
    · rw [if_pos hx] at h₁ ⊢
      refine ((hround s m₁ h₁).mono hk).bind fun s' m₂ h₂ => ?_
      -- the jump back is one instruction more for the round that is over
      obtain ⟨m₃, hstep, h₃⟩ := hback s' m₂ h₂
      exact ((ih (Nat.le_of_succ_le hk) h₃).add_steps (.single hstep)).mono (by omega)
    · rw [if_neg hx] at h₁ ⊢
      exact .pure h₁

mutual

/-- The code of a statement does what the statement does. -/
theorem Stmt.runs :
    (st : Stmt) → st.uses names = true → {start : Nat} → CodeAt P start (st.code names start) →
      {s : Store} → {m : Machine} → At names s start m →
      Runs P n m (st.exec .compiled n s) fun s' m' => At names s' (start + st.size) m'
  | .assign v e, hu, start, hc, s, m, h => by
    obtain ⟨hv, he⟩ := Stmt.uses_assign.1 hu
    exact h.assign he hv hc
  | .conditional c b rest, hu, start, hc, s, m, h => by
    obtain ⟨⟨huc, hub⟩, hur⟩ := Stmt.uses_conditional.1 hu
    dsimp only [Stmt.code] at hc
    obtain ⟨hc, hb⟩ := codeAt_append.1 hc
    obtain ⟨hc, hj⟩ := codeAt_append.1 hc
    obtain ⟨hc, hl⟩ := codeAt_append.1 hc
    obtain ⟨hc, ht⟩ := codeAt_append.1 hc
    simp only [length_append, length_cons, Expr.length_code, Chain.length_testCode,
      Chain.length_lastCode, Chain.length_blockCode] at hb hj hl ht
    have hend : start + (Stmt.conditional c b rest).size = start + c.size + 1 + rest.testSize +
        rest.lastSize + 1 + rest.blockSize + b.size := by
      rw [Stmt.size]
      omega
    rw [Stmt.exec, hend]
    refine (h.test huc hc ht.head).bind fun x m' h' => ?_
    by_cases hx : x ≠ 0
    · rw [if_pos hx] at h' ⊢
      exact b.runs hub (hb.cast (by omega)) h'
    · rw [if_neg hx] at h' ⊢
      exact rest.runs hur ht.tail (hl.cast (by omega)) (hj.head.cast (by omega))
        (hj.tail.cast (by omega)) h'
  | .whileLoop c b, hu, start, hc, s, m, h => by
    obtain ⟨huc, hub⟩ := Bool.and_eq_true_iff.1 hu
    dsimp only [Stmt.code] at hc
    obtain ⟨hc, hback⟩ := codeAt_append.1 hc
    obtain ⟨hc, ht⟩ := codeAt_append.1 hc
    simp only [length_append, length_cons, Expr.length_code, Block.length_code]
      at ht hback
    have htest := codeAt_cons.2 ⟨(codeAt_cons.1 ht).1, ht.tail.head⟩
    have hend : start + (Stmt.whileLoop c b).size = start + c.size + 2 + b.size + 1 := by
      rw [Stmt.size]
      omega
    rw [Stmt.exec, hend]
    exact runs_iterate (fun s m h => h.loopTest huc hc htest)
      (fun s m h => b.runs hub ht.tail.tail h) (fun s m h => h.jump (hback.cast (by omega)))
      (hc.isSome (by simpa using c.size_pos)) (Nat.le_refl n) h

/-- The code of a block does what the block does. -/
theorem Block.runs :
    (b : Block) → b.uses names = true → {start : Nat} → CodeAt P start (b.code names start) →
      {s : Store} → {m : Machine} → At names s start m →
      Runs P n m (b.exec .compiled n s) fun s' m' => At names s' (start + b.size) m'
  | .nil, _, start, _, s, m, h => .pure h
  | .cons st b, hu, start, hc, s, m, h => by
    obtain ⟨hus, hub⟩ := Bool.and_eq_true_iff.1 hu
    obtain ⟨hcs, hcb⟩ := codeAt_append.1 hc
    rw [Stmt.length_code] at hcb
    rw [Block.exec, Block.size, ← Nat.add_assoc]
    exact (st.runs hus hcs h).bind fun s' m' h' => b.runs hub hcb h'

/-- The tests of further conditions lead to the last block, or to the end of the conditional
    by the jump behind the block of one that holds. -/
theorem Chain.runs :
    (r : Chain) → r.uses names = true → {start blocks finish : Nat} →
      CodeAt P start (r.testCode names blocks) →
      CodeAt P (start + r.testSize) (r.lastCode names (start + r.testSize)) →
      CodeAt P (start + r.testSize + r.lastSize) [(Op.jump, (finish : Int))] →
      CodeAt P blocks (r.blockCode names finish blocks) →
      {s : Store} → {m : Machine} → At names s start m →
      Runs P n m (r.exec .compiled n s) fun s' m' => At names s' finish m'
  | .absent, _, start, blocks, finish, _, _, hj, _, s, m, h => by
    obtain ⟨m', hstep, h'⟩ := h.jump hj
    exact .of_steps (.single hstep) (.pure h')
  | .otherwise b, hu, start, blocks, finish, _, hl, hj, _, s, m, h => by
    refine (b.runs hu hl h).extend fun s' m' h' => ?_
    obtain ⟨m'', hstep, h''⟩ := h'.jump hj
    exact ⟨1, m'', .single hstep, h''⟩
  | .further c b rest, hu, start, blocks, finish, ht, hl, hj, hb, s, m, h => by
    obtain ⟨⟨huc, -⟩, hur⟩ := Chain.uses_further.1 hu
    obtain ⟨hc, ht⟩ := codeAt_append.1 ht
    obtain ⟨-, hb⟩ := codeAt_append.1 hb
    rw [Expr.length_code] at ht
    rw [Block.length_code] at hb
    have hlast : start + (c.size + 1 + rest.testSize) = start + c.size + 1 + rest.testSize := by
      omega
    rw [Chain.testSize, hlast] at hl hj
    rw [Chain.lastCode] at hl
    rw [Chain.lastSize] at hj
    rw [Chain.exec]
    refine (h.test huc hc ht.head).bind fun x m' h' => ?_
    by_cases hx : x ≠ 0
    · -- the jump of the test goes to the one behind its block
      rw [if_pos hx] at h' ⊢
      obtain ⟨m'', hstep, h''⟩ := h'.jump hb.head
      exact .of_steps (.single hstep) (.pure h'')
    · rw [if_neg hx] at h' ⊢
      exact rest.runs hur ht.tail hl hj hb.tail h'

end

/-! ### Programs -/

/-- The expression that counts a round. -/
def successor (v : String) : Expr false := .arithmetic .add (.name v) (.number (.int 1) 1 rfl)

theorem countRound_eq (n : Nat) (v : String) (b : Block) (s : Store) :
    countRound .compiled n v b s = (do
      let s ← b.exec .compiled n s
      return s.set v (← Reading.compiled.value (successor v) s)) := by
  have hvalue (s : Store) :
      Reading.compiled.value (successor v) s = (do return (← s.lookup v) + 1) := by
    have hdepth : ¬stackLimit < (successor v).depth := by
      change ¬stackLimit < 2
      decide
    rw [Reading.value, if_neg (fun h => hdepth h.2)]
    simp [successor, Expr.eval, Arithmetic.apply]
  simp only [countRound, hvalue, bind_assoc, pure_bind]

section Top

variable {P : Program} {names : List String} {start n : Nat} {s : Store} {m : Machine}

/-- The code of a statement outside of blocks does what the statement does. -/
theorem Top.runs (t : Top) (ht : t.fits names = true) (hc : CodeAt P start (t.code names start))
    (h : At names s start m) :
    Runs P n m (t.exec .compiled n s) fun s' m' =>
      At (names ++ t.names) s' (start + t.size) m' := by
  cases t with
  | stmt st =>
    rw [Top.names, append_nil]
    exact st.runs ht hc h
  | declare v e =>
    cases e with
    | none =>
      exact h.declare (e := .number (.int 0) 0 rfl) rfl v hc
    | some e =>
      obtain ⟨-, hu⟩ : v ∉ names ∧ e.uses names = true := by simpa [Top.fits] using ht
      exact h.declare hu v hc
  | forLoop v e c b =>
    obtain ⟨⟨⟨hv, hue⟩, huc⟩, hub⟩ := Top.fits_forLoop.1 ht
    dsimp only [Top.code] at hc
    obtain ⟨hc, hcount⟩ := codeAt_append.1 hc
    obtain ⟨hc, ht⟩ := codeAt_append.1 hc
    obtain ⟨he, hc⟩ := codeAt_append.1 hc
    simp only [length_append, length_cons, Expr.length_code, Block.length_code]
      at hc ht hcount
    have hdeclare := h.declare (n := n) hue v (codeAt_append.2 ⟨he, by simpa using hc.head⟩)
    have htest := (codeAt_cons.2 ⟨(codeAt_cons.1 ht).1, ht.tail.head⟩).cast
      (show _ = start + e.size + 1 + c.size by omega)
    -- the counter is assigned its successor, and the last instruction jumps back
    obtain ⟨hnext, hback⟩ := codeAt_append (c := (successor v).code (names ++ [v]) ++
      [(Op.storeMem, (address (names ++ [v]) v : Int))]).1 hcount
    have hus : (successor v).uses (names ++ [v]) = true := by simp [successor, Expr.uses]
    have hround (s : Store) (m : Machine) (h : At (names ++ [v]) s (start + e.size + 1 + c.size + 2) m) :
        Runs P n m (countRound .compiled n v b s) fun s' m' =>
          At (names ++ [v]) s' (start + e.size + 1 + c.size + 2 + b.size + 4) m' := by
      rw [countRound_eq]
      exact (b.runs hub (ht.tail.tail.cast (by omega)) h).bind fun s' m' h' =>
        h'.assign hus (by simp) (hnext.cast (by omega))
    have hexec : (Top.forLoop v e c b).exec .compiled n s =
        (do return s ++ [(v, ← Reading.compiled.value e s)]) >>=
          iterate (Reading.compiled.value c) (countRound .compiled n v b) n := by
      simp only [Top.exec, bind_assoc, pure_bind]
    have hend : start + (Top.forLoop v e c b).size =
        start + e.size + 1 + c.size + 2 + b.size + 5 := by
      rw [Top.size]
      omega
    rw [hexec, hend]
    exact hdeclare.bind fun s' m' h' =>
      runs_iterate (fun s m h => h.loopTest huc (hc.tail.cast (by omega)) htest) hround
        (fun s m h => h.jump (hback.cast (by simp [successor, Expr.code]; omega)))
        ((hc.tail.cast (by omega)).isSome (by simpa using c.size_pos)) (Nat.le_refl n) h'

theorem runs_program (ts : List Top) (hts : wellScoped names ts = true)
    (hc : CodeAt P start (programCode names start ts)) (h : At names s start m) :
    Runs P n m (exec .compiled n ts s) fun s' m' =>
      At (names ++ ts.flatMap Top.names) s' (start + (programCode names start ts).length) m' := by
  induction ts generalizing names start s m with
  | nil => exact .pure (by simpa [programCode] using h)
  | cons t ts ih =>
    obtain ⟨ht, hrest⟩ := Bool.and_eq_true_iff.1 hts
    obtain ⟨hct, hcts⟩ := codeAt_append.1 hc
    rw [Top.length_code] at hcts
    rw [exec]
    refine (t.runs ht hct h).bind fun s' m' h' => ?_
    have := ih hrest hcts h'
    simpa [programCode, Nat.add_assoc] using this

end Top

end Source

end StackLang
