import StackLang.Machine.Run

/-!
# What instructions do

The acts of the machine as functions of its state: how two acts run one after the
other, and what the simple operations leave behind.

* `Act.run_bind` runs acts one after the other, and `Act.run_forIn` the rounds of a loop.
* `Machine.execute_of_perform` and `Machine.perform_of_execute`: an instruction does not
  stop the machine if and only if it performs its operation.
-/

namespace StackLang

/-- The machine once it has gone on from the instruction that it comes to. -/
abbrev Machine.onward (m : Machine) : Machine := { m with pc := m.pc + 1 }

namespace Act

variable {α β : Type} {m m' : Machine} {x : Item} {rest : List Item} {op : Operator} {y : Item}

theorem run_bind (a : Act α) (f : α → Act β) (m : Machine) :
    (a >>= f) m = match a m with
      | (.ok x, m') => f x m'
      | (.error h, m') => (.error h, m') := by
  change (ExceptT.bindCont f (a m).1) (a m).2 = _
  rcases a m with ⟨_ | _, m'⟩ <;> rfl

theorem run_bind_ok {a : Act α} {f : α → Act β} {x : α} (h : a m = (.ok x, m')) :
    (a >>= f) m = f x m' := by
  rw [run_bind, h]

theorem run_bind_error {a : Act α} {f : α → Act β} {e : Halt} (h : a m = (.error e, m')) :
    (a >>= f) m = (.error e, m') := by
  rw [run_bind, h]

theorem run_get_bind (f : Machine → Act β) (m : Machine) : (get >>= f) m = f m m := rfl

/-- A loop that goes through all its rounds: round `i` leads from the values and the machine before it
    to those behind it. -/
theorem run_forIn (xs : List α) {f : α → β → Act (ForInStep β)} (s : Nat → β) (st : Nat → Machine)
    (h : ∀ i y, xs[i]? = some y → f y (s i) (st i) = (.ok (.yield (s (i + 1))), st (i + 1))) :
    forIn xs (s 0) f (st 0) = (.ok (s xs.length), st xs.length) := by
  induction xs generalizing s st with
  | nil => rfl
  | cons y ys ih =>
    rw [List.forIn_cons, run_bind_ok (h 0 y rfl)]
    exact ih (fun i => s (i + 1)) (fun i => st (i + 1)) fun i z hz => h (i + 1) z hz

/-- A loop over the numbers below `n`. -/
theorem run_forIn_range {n : Nat} {f : Nat → β → Act (ForInStep β)} (s : Nat → β) (st : Nat → Machine)
    (h : ∀ i < n, f i (s i) (st i) = (.ok (.yield (s (i + 1))), st (i + 1))) :
    forIn (List.range n) (s 0) f (st 0) = (.ok (s n), st n) := by
  have hrun := run_forIn (List.range n) (f := f) s st (by
    intro i j hj
    obtain ⟨hi, rfl⟩ := List.getElem?_eq_some_iff.1 hj
    rw [List.length_range] at hi
    rw [List.getElem_range]
    exact h i hi)
  rwa [List.length_range] at hrun

theorem run_pop (h : m.stack = x :: rest) : pop m = (.ok x, { m with stack := rest }) := by
  unfold pop
  rw [run_get_bind, h]
  rfl

theorem run_pop_nil (h : m.stack = []) : pop m = (.error (.failed .underflow), m) := by
  unfold pop
  rw [run_get_bind, h]
  rfl

theorem run_push (h : m.stack.length < stackLimit) :
    push x m = (.ok (), { m with stack := x :: m.stack }) := by
  unfold push
  rw [run_get_bind]
  dsimp only
  rw [if_neg (Nat.not_le.2 h)]
  rfl

theorem run_push_full (h : stackLimit ≤ m.stack.length) :
    push x m = (.error (.failed .overflow), m) := by
  unfold push
  rw [run_get_bind]
  dsimp only
  rw [if_pos h]
  rfl

theorem run_enter (place : UInt32) (h : m.frames.length < frameLimit) :
    enter place m = (.ok (), { m with pc := place.toNat, frames := m.pc :: m.frames }) := by
  unfold enter
  rw [run_get_bind, if_neg (Nat.not_le.2 h)]
  rfl

theorem run_enter_full (place : UInt32) (h : frameLimit ≤ m.frames.length) :
    enter place m = (.error (.failed .tooDeep), m) := by
  unfold enter
  rw [run_get_bind, if_pos h]
  rfl

/-- The logical negation of the top of the stack. -/
theorem run_compute_not (h : m.stack = x :: rest) (hlen : rest.length < stackLimit) :
    compute .not m = (.ok false, { m with stack := .ofBool (x.word = 0) :: rest }) := by
  unfold compute
  rw [run_bind_ok (run_pop h), if_pos rfl, run_bind_ok (run_push hlen)]
  rfl

/-- A logical operator takes two items and gives a truth value. -/
theorem run_compute_logical (hop : op.isLogical = true) (hnot : op ≠ .not)
    (h : m.stack = y :: x :: rest) (hlen : rest.length < stackLimit) :
    compute op m = (.ok false, { m with stack := op.onTruths x y :: rest }) := by
  unfold compute
  rw [run_bind_ok (run_pop h), if_neg hnot, run_bind_ok (run_pop rfl), if_pos hop,
    run_bind_ok (run_push hlen)]
  rfl

/-- Another operator computes with two items of which none is a pointer. -/
theorem run_compute_items (hop : op.isLogical = false) (hjoin : x.isJoin y = false)
    (h : m.stack = y :: x :: rest) (hlen : rest.length < stackLimit) :
    compute op m = (.ok false, { m with stack := op.onItems x y :: rest }) := by
  have hnot : op ≠ .not := by
    rintro rfl
    cases hop
  unfold compute
  rw [run_bind_ok (run_pop h), if_neg hnot, run_bind_ok (run_pop rfl), if_neg (by simp [hop]),
    if_neg (by simp [hjoin]), run_bind_ok (run_push hlen)]
  rfl

/-- A load pushes what memory has at the address. -/
theorem run_load {address : UInt32} (hx : m.memory.load address = .ok x)
    (hlen : m.stack.length < stackLimit) :
    load address m = (.ok (), { m with stack := x :: m.stack }) := by
  unfold load
  rw [run_get_bind, hx]
  exact run_push hlen

theorem run_load_full {address : UInt32} (hx : m.memory.load address = .ok x)
    (hlen : stackLimit ≤ m.stack.length) :
    load address m = (.error (.failed .overflow), m) := by
  unfold load
  rw [run_get_bind, hx]
  exact run_push_full hlen

/-- A store takes the top of the stack. -/
theorem run_storeMem (address : UInt32) (h : m.stack = x :: rest) :
    storeMem address m = match m.memory.store address x with
      | .ok memory => (.ok (), { m with stack := rest, memory })
      | .error t => (.error (.failed t), { m with stack := rest }) := by
  unfold storeMem
  rw [run_bind_ok (run_pop h), run_get_bind, run_bind]
  cases m.memory.store address x <;> rfl

theorem run_storeMem_nil (address : UInt32) (h : m.stack = []) :
    storeMem address m = (.error (.failed .underflow), m) :=
  run_bind_error (run_pop_nil h)

end Act

namespace Machine

variable {m m' : Machine} {i : Instruction} {op : Operation}

theorem act_eq_next {a : Act Unit} (h : m.act i a = .next m') : a m = (.ok (), m') := by
  unfold act at h
  split at h
  · cases h
    assumption
  all_goals cases h

/-- An instruction whose operation is performed does not stop the machine. -/
theorem execute_of_perform (hop : Operation.ofCode? i.code.toNat = some op)
    (h : Act.perform op i.arg m.onward = (.ok (), m')) :
    m.execute i = .next m' := by
  unfold execute act
  rw [hop]
  dsimp only
  rw [h]

/-- An instruction whose operation fails stops the machine. -/
theorem execute_of_failed {t : Trap} (hop : Operation.ofCode? i.code.toNat = some op)
    (h : Act.perform op i.arg m.onward = (.error (.failed t), m')) :
    m.execute i =
      .halted (.failed t) { m' with output := m'.output ++ textBytes (t.report i) } := by
  unfold execute act
  rw [hop]
  dsimp only
  rw [h]

/-- An instruction that does not stop the machine has performed its operation. -/
theorem perform_of_execute (h : m.execute i = .next m') : ∃ op,
    Operation.ofCode? i.code.toNat = some op ∧
      Act.perform op i.arg m.onward = (.ok (), m') := by
  have hact := act_eq_next h
  cases hop : Operation.ofCode? i.code.toNat with
  | some op =>
    rw [hop] at hact
    exact ⟨op, rfl, hact⟩
  | none =>
    rw [hop] at hact
    cases hact

theorem store_of_execute (h : m.execute i = .next m')
    (hi : Operation.ofCode? i.code.toNat = some .storeMem) : ∃ x rest memory,
      m.stack = x :: rest ∧ m.memory.store i.arg x = .ok memory ∧
        m' = { m with pc := m.pc + 1, stack := rest, memory } := by
  obtain ⟨op, hop, hact⟩ := perform_of_execute h
  obtain rfl : .storeMem = op := by rwa [hi, Option.some.injEq] at hop
  rw [Act.perform] at hact
  cases hs : m.stack with
  | nil =>
    rw [Act.run_storeMem_nil (m := m.onward) _ hs] at hact
    cases hact
  | cons x rest =>
    rw [Act.run_storeMem (m := m.onward) _ hs] at hact
    split at hact
    · rename_i memory hm
      cases hact
      exact ⟨x, rest, memory, rfl, hm, rfl⟩
    · cases hact

end Machine

end StackLang
