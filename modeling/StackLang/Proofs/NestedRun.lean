import StackLang.Proofs.Execution

/-!
# Nested runs

The machine runs flat: a call notes the place to come back to and goes on elsewhere,
in the same loop. A *nested* run (`Machine.runNested`) starts a loop of its own for
every call. That loop does not stop where the call returns but at the end of the
program, and only then the loop that it was started from goes on.

* `Machine.fetch_of_ended`: where a run ends there is no instruction left, neither
  for it nor for a loop that was suspended;
* `Machine.runNestedFrom_eq`: so every suspended loop ends at once, with the machine
  that it is handed, and a nested run is a flat one.
-/

namespace StackLang

namespace Machine

/-- Run a program with a loop of its own for every call; `steps` instructions have been
    executed before. None if the fuel, which every instruction takes from, does not last. -/
def runNestedFrom (P : Program) (steps : Nat) : (fuel : Nat) → Machine → Option Result
  | fuel, m =>
    match m.fetch P with
    | none => some ⟨.ended, steps, m⟩
    | some i =>
      match fuel with
      | 0 => none
      | fuel + 1 =>
        match m.execute i with
        | .halted h m =>
          some ⟨.halted h, if (Operation.ofCode? i.code.toNat).isSome then steps + 1 else steps, m⟩
        | .next m =>
          if Operation.ofCode? i.code.toNat = some .call then do
            -- the loop of the call goes to its end first; if it is stopped, so is this one
            let inner ← runNestedFrom P (steps + 1) fuel m
            match inner.finish with
            | .ended => runNestedFrom P inner.steps fuel inner.machine
            | _ => some inner
          else runNestedFrom P (steps + 1) fuel m

/-- Run a program with a loop of its own for every call. -/
def runNested (P : Program) (fuel : Nat) (m : Machine) : Option Result := runNestedFrom P 0 fuel m

/-- What a run came to, if it was allowed enough instructions. -/
def Result.finished? (r : Result) : Option Result :=
  match r.finish with
  | .limit => none
  | _ => some r

variable {P : Program} {m m' : Machine} {r : Result} {fuel limit steps : Nat}

theorem Result.finished?_eq_some {r r' : Result} :
    r.finished? = some r' ↔ r.finish ≠ .limit ∧ r = r' := by
  cases h : r.finish <;> simp [Result.finished?, h]

theorem runNestedFrom_of_fetch_none (h : m.fetch P = none) :
    runNestedFrom P steps fuel m = some ⟨.ended, steps, m⟩ := by
  rw [runNestedFrom, h]

/-- Where a run ends there is no instruction. -/
theorem fetch_of_ended (h : (runFrom P steps limit m).finish = .ended) :
    (runFrom P steps limit m).machine.fetch P = none := by
  fun_induction runFrom P steps limit m with
  | case1 steps limit m hm => exact hm
  | case2 steps m i hi => cases h
  | case3 steps m i hi limit m' hx ih => exact ih h
  | case4 steps m i hi limit e m' hx => cases h

/-- A loop that is handed the result of an inner one comes to that result: at the end of the
    program it ends at once, and a machine that is stopped stays so. -/
theorem finished?_bind_resume (h : r.finish = .ended → r.machine.fetch P = none) :
    (r.finished?.bind fun inner =>
      match inner.finish with
      | .ended => runNestedFrom P inner.steps fuel inner.machine
      | _ => some inner) = r.finished? := by
  cases hr : r.finish with
  | ended =>
    have hr' : (⟨.ended, r.steps, r.machine⟩ : Result) = r := by rw [← hr]
    simp [Result.finished?, hr, runNestedFrom_of_fetch_none (h hr), hr']
  | halted e | limit => simp [Result.finished?, hr]

/-- A nested run is a flat run. -/
theorem runNestedFrom_eq (P : Program) (steps fuel : Nat) (m : Machine) :
    runNestedFrom P steps fuel m = (runFrom P steps fuel m).finished? := by
  fun_induction runFrom P steps fuel m with
  | case1 steps fuel m hm => rw [runNestedFrom_of_fetch_none hm]; rfl
  | case2 steps m i hi => rw [runNestedFrom, hi]; rfl
  | case3 steps m i hi fuel m' hx ih =>
    rw [runNestedFrom, hi]
    simp only [hx]
    split
    · rw [ih]
      exact finished?_bind_resume fetch_of_ended
    · exact ih
  | case4 steps m i hi fuel e m' hx =>
    rw [runNestedFrom, hi]
    simp only [hx]
    rfl

/-- Nested and flat runs come to the same: a program that is run from a machine with a loop of
    its own for every call finishes, at its end or stopped, just if the flat run does, after as
    many instructions and with the same machine. -/
theorem nested_run_iff (P : Program) (m : Machine) (r : Result) :
    (∃ fuel, runNested P fuel m = some r) ↔ r.finish ≠ .limit ∧ ∃ limit, run P limit m = r := by
  simp only [runNested, run, runNestedFrom_eq, Result.finished?_eq_some]
  constructor
  · rintro ⟨fuel, hr, rfl⟩
    exact ⟨hr, fuel, rfl⟩
  · rintro ⟨hr, limit, rfl⟩
    exact ⟨limit, hr, rfl⟩

end Machine

end StackLang
