import StackLang.Proofs.Instruction

/-!
# Execution

A run of the machine, step by step. `Machine.Steps P n m m'` says that `n` instructions lead
from `m` to `m'`; `Machine.Lasts P n m` says that a run from `m` does not come to the end of
the program within `n` instructions, be it that it goes on or that it stops before.

* `Machine.Steps.ended`: a run that leads to the end of the program ends there, and nowhere
  else;
* `Machine.Lasts.of_steps`: a run that leads to one that lasts does so, too;
* one lemma per instruction says what its step leads to.
-/

namespace StackLang

namespace Machine

variable {P : Program} {m m' m'' : Machine} {i : Instruction} {n k limit steps : Nat}

/-! ### Runs -/

/-- The machine executes `n` instructions, and none of them stops it. -/
inductive Steps (P : Program) : Nat → Machine → Machine → Prop
  | refl (m : Machine) : Steps P 0 m m
  | next {n : Nat} {m m' m'' : Machine} (h : m.step P = some (.next m')) (hs : Steps P n m' m'') :
    Steps P (n + 1) m m''

namespace Steps

theorem single (h : m.step P = some (.next m')) : Steps P 1 m m' := .next h (.refl m')

theorem trans (h : Steps P n m m') (h' : Steps P k m' m'') : Steps P (n + k) m m'' := by
  induction h with
  | refl m => rwa [Nat.zero_add]
  | next hstep _ ih =>
    rw [Nat.add_right_comm]
    exact .next hstep (ih h')

end Steps

theorem runFrom_of_fetch_none (h : m.fetch P = none) :
    runFrom P steps limit m = ⟨.ended, steps, m⟩ := by
  rw [runFrom, h]

theorem runFrom_zero (h : m.fetch P = some i) : runFrom P steps 0 m = ⟨.limit, steps, m⟩ := by
  rw [runFrom, h]

theorem runFrom_of_next (h : m.step P = some (.next m')) :
    runFrom P steps (limit + 1) m = runFrom P (steps + 1) limit m' := by
  obtain ⟨i, hi, hexec⟩ := Option.map_eq_some_iff.1 h
  rw [runFrom, hi]
  dsimp only
  rw [hexec]

theorem finish_of_halted {e : Halt} (h : m.step P = some (.halted e m')) :
    (runFrom P steps (limit + 1) m).finish = .halted e := by
  obtain ⟨i, hi, hexec⟩ := Option.map_eq_some_iff.1 h
  rw [runFrom, hi]
  dsimp only
  rw [hexec]

namespace Steps

theorem runFrom_add (h : Steps P n m m') :
    runFrom P steps (n + limit) m = runFrom P (steps + n) limit m' := by
  induction h generalizing steps with
  | refl m => rw [Nat.zero_add, Nat.add_zero]
  | @next n m m' m'' hstep _ ih =>
    rw [Nat.add_right_comm, runFrom_of_next hstep, ih, Nat.add_assoc, Nat.add_comm 1]

/-- With fewer instructions allowed the run does not come that far. -/
theorem finish_of_lt (h : Steps P n m m') (hlt : limit < n) :
    (runFrom P steps limit m).finish = .limit := by
  induction h generalizing steps limit with
  | refl m => omega
  | next hstep _ ih =>
    cases limit with
    | zero =>
      obtain ⟨i, hi, -⟩ := Option.map_eq_some_iff.1 hstep
      rw [runFrom_zero hi]
    | succ limit =>
      rw [runFrom_of_next hstep]
      exact ih (Nat.lt_of_succ_lt_succ hlt)

/-- A run that leads to the end of the program ends there if it is allowed enough
    instructions; with fewer it does not end. -/
theorem ended (h : Steps P n m m') (hend : m'.fetch P = none) (steps limit : Nat) :
    (n ≤ limit → runFrom P steps limit m = ⟨.ended, steps + n, m'⟩) ∧
      (limit < n → (runFrom P steps limit m).finish ≠ .ended) := by
  constructor
  · intro hle
    obtain ⟨k, rfl⟩ := Nat.exists_eq_add_of_le hle
    rw [h.runFrom_add, runFrom_of_fetch_none hend]
  · intro hlt
    rw [h.finish_of_lt hlt]
    exact nofun

end Steps

/-- A run does not come to the end of the program within `n` instructions. -/
def Lasts (P : Program) (n : Nat) (m : Machine) : Prop :=
  ∀ steps limit, limit ≤ n → (runFrom P steps limit m).finish ≠ .ended

namespace Lasts

theorem mono (h : Lasts P n m) (hk : k ≤ n) : Lasts P k m :=
  fun steps limit hl => h steps limit (Nat.le_trans hl hk)

theorem zero (h : m.fetch P = some i) : Lasts P 0 m := by
  intro steps limit hl
  obtain rfl : limit = 0 := by omega
  rw [runFrom_zero h]
  exact nofun

/-- A machine that stops does not come to the end. -/
theorem of_halted {e : Halt} (h : m.step P = some (.halted e m')) : Lasts P n m := by
  intro steps limit _
  cases limit with
  | zero =>
    obtain ⟨i, hi, -⟩ := Option.map_eq_some_iff.1 h
    rw [runFrom_zero hi]
    exact nofun
  | succ limit =>
    rw [finish_of_halted h]
    exact nofun

/-- What comes before a run makes it longer. -/
theorem of_steps (h : Steps P k m m') (h' : Lasts P n m') : Lasts P (k + n) m := by
  intro steps limit hl
  by_cases hlt : limit < k
  · rw [h.finish_of_lt hlt]
    exact nofun
  · obtain ⟨r, rfl⟩ := Nat.exists_eq_add_of_le (Nat.not_lt.1 hlt)
    rw [h.runFrom_add]
    exact h' _ _ (by omega)

end Lasts

/-! ### Single instructions -/

section

variable {op : Operation} (hi : m.fetch P = some i) (hop : Operation.ofCode? i.code.toNat = some op)

include hi hop

theorem step_of_perform (h : Act.perform op i.arg m.onward = (.ok (), m')) :
    m.step P = some (.next m') := by
  rw [step, hi, Option.map_some, execute_of_perform hop h]

theorem step_of_failed {t : Trap}
    (h : Act.perform op i.arg m.onward = (.error (.failed t), m')) :
    ∃ m'', m.step P = some (.halted (.failed t) m'') := by
  rw [step, hi, Option.map_some, execute_of_failed hop h]
  exact ⟨_, rfl⟩

end

section Instructions

variable {w : UInt32} {x y : Item} {rest : List Item}

theorem step_push (hi : m.fetch P = some ⟨0x0F, w⟩) (hlen : m.stack.length < stackLimit) :
    m.step P = some (.next { m with pc := m.pc + 1, stack := ⟨.int, w⟩ :: m.stack }) :=
  step_of_perform hi rfl (Act.run_push hlen)

theorem step_push_full (hi : m.fetch P = some ⟨0x0F, w⟩) (hlen : stackLimit ≤ m.stack.length) :
    ∃ m', m.step P = some (.halted (.failed .overflow) m') :=
  step_of_failed hi rfl (Act.run_push_full hlen)

theorem step_load (hi : m.fetch P = some ⟨0x14, w⟩) (hx : m.memory.load w = .ok x)
    (hlen : m.stack.length < stackLimit) :
    m.step P = some (.next { m with pc := m.pc + 1, stack := x :: m.stack }) :=
  step_of_perform hi rfl (Act.run_load hx hlen)

theorem step_load_full (hi : m.fetch P = some ⟨0x14, w⟩) (hx : m.memory.load w = .ok x)
    (hlen : stackLimit ≤ m.stack.length) :
    ∃ m', m.step P = some (.halted (.failed .overflow) m') :=
  step_of_failed hi rfl (Act.run_load_full hx hlen)

theorem step_storeMem {memory : Memory} (hi : m.fetch P = some ⟨0x13, w⟩)
    (hs : m.stack = x :: rest) (hx : m.memory.store w x = .ok memory) :
    m.step P = some (.next { m with pc := m.pc + 1, stack := rest, memory }) := by
  refine step_of_perform hi rfl ?_
  change Act.storeMem w _ = _
  rw [Act.run_storeMem (m := m.onward) w hs]
  dsimp only
  rw [hx]

theorem step_jump (hi : m.fetch P = some ⟨0x15, w⟩) :
    m.step P = some (.next { m with pc := w.toNat }) :=
  step_of_perform hi rfl rfl

theorem step_jumpIf (hi : m.fetch P = some ⟨0x16, w⟩) (hs : m.stack = x :: rest) :
    m.step P = some (.next
      { m with pc := if x.word ≠ 0 then w.toNat else m.pc + 1, stack := rest }) := by
  refine step_of_perform hi rfl ?_
  rw [Act.perform, Act.run_bind_ok (Act.run_pop (m := m.onward) hs)]
  split <;> rfl

/-- An operator that joins no texts leaves its result. -/
theorem step_compute (op : Operator) {stack : List Item} (hi : m.fetch P = some i)
    (hop : Operation.ofCode? i.code.toNat = some (.compute op))
    (h : ∀ m' : Machine, m'.stack = m.stack → Act.compute op m' = (.ok false, { m' with stack })) :
    m.step P = some (.next { m with pc := m.pc + 1, stack }) := by
  refine step_of_perform hi hop ?_
  rw [Act.perform, Act.run_bind_ok (h m.onward rfl)]
  rfl

end Instructions

end Machine

end StackLang
