import StackLang.Proofs.Account
import StackLang.Proofs.Boundary

/-!
# The balance of statements

What a run leaves on the stack is what the simple statements leave that it completes, read off
their trees, and what the instructions between them do: those that test a condition, enter a
function and return from it. Jumps and calls make no difference to that.

The main statement is `stack_kept_iff`. Between two boundaries of statements in one frame, the stack
grows by the balance of the run. If the run takes nothing that it has found on the stack, then it
leaves the stack as it was if and only if its balance is zero. Declarations and assignments of
variables come out at zero, and so do loops and conditionals around them, however often they run.
A call that stands by itself does not.
-/

namespace StackLang

open List

namespace Program

variable {P : Program} {a b : Nat}

/-- How many items the instructions from `a` up to `b` leave more than they take. -/
def changes (P : Program) (a b : Nat) : Int := sumOf P.change (List.range' a (b - a))

theorem changes_self (P : Program) (a : Nat) : P.changes a a = 0 := by
  rw [changes, Nat.sub_self]
  rfl

theorem changes_succ (h : a ≤ b) : P.changes a (b + 1) = P.changes a b + P.change b := by
  have hlast : a + 1 * (b - a) = b := by omega
  rw [changes, changes, Nat.succ_sub h, range'_concat, hlast, sumOf_append, sumOf, sumOf,
    Int.add_zero]

theorem changes_slots {ss : List Slot} (h : ∀ k s, ss[k]? = some s → P.change (a + k) = s.change) :
    P.changes a (a + ss.length) = sumOf Slot.change ss := by
  rw [changes, Nat.add_sub_cancel_left]
  induction ss generalizing a with
  | nil => rfl
  | cons s ss ih =>
    rw [length_cons, range'_succ, sumOf, sumOf]
    have hrest := ih fun k s' hs => by
      rw [Nat.add_assoc, Nat.add_comm 1 k]
      exact h (k + 1) s' hs
    rw [hrest, ← h 0 s rfl, Nat.add_zero]

end Program

/-! ### Simple statements of a program -/

/-- The simple statements of a program. -/
def simpleTasks (p : List Node) : List Task := (statementTasks p).filter Task.isSimple

/-- The simple statement in whose code a place lies. -/
def simpleAt? (p : List Node) (i : Nat) : Option Task :=
  (simpleTasks p).find? fun u => u.start.length ≤ i ∧ i < u.finish.length

/-- What the simple statement at a place has left on the stack before. -/
def begun (P : Program) (p : List Node) (i : Nat) : Int :=
  match simpleAt? p i with
  | some u => P.changes u.start.length i
  | none => 0

/-- What the instruction at a place brings: at the end of a simple statement, what the statement
    leaves, and elsewhere in it nothing. -/
def earned (P : Program) (p : List Node) (i : Nat) : Int :=
  match simpleAt? p i with
  | some u => if i + 1 = u.finish.length then u.net?.getD 0 else 0
  | none => P.change i

section

variable {P : Program} {p : List Node} {g : Generator} {u : Task} {i : Nat} {op : Operation}

theorem mem_of_simpleAt? (hu : simpleAt? p i = some u) :
    u ∈ simpleTasks p ∧ u.start.length ≤ i ∧ i < u.finish.length :=
  ⟨mem_of_find?_eq_some hu, by simpa using find?_some hu⟩

/-- Nothing has begun where the simple statement at a place is only to begin. -/
theorem begun_eq_zero (hi : ∀ u ∈ simpleTasks p, u.start.length ≤ i → i < u.finish.length →
    i ≤ u.start.length) : begun P p i = 0 := by
  unfold begun
  split
  · rename_i u hu
    obtain ⟨hmem, hstart, hfinish⟩ := mem_of_simpleAt? hu
    rw [Nat.le_antisymm (hi u hmem hstart hfinish) hstart, Program.changes_self]
  · rfl

theorem begun_of_clear (hi : Clear (Gen.allTasks p {}) i) : begun P p i = 0 := by
  refine begun_eq_zero fun u hu _ hfinish => ?_
  obtain ⟨hmem, hsimple⟩ := mem_filter.1 hu
  exact (hi u hmem hsimple).resolve_right (Nat.not_le.2 hfinish)

section

variable (h : generateProgram p = .ok g) (hu : u ∈ simpleTasks p) (hstart : u.start.length ≤ i)

include h hu hstart

/-- Simple statements do not overlap. -/
theorem simpleAt?_of_mem (hfinish : i < u.finish.length) :
    ∃ v, simpleAt? p i = some v ∧ v.start.length = u.start.length ∧
      v.finish.length = u.finish.length := by
  have hsome : (simpleAt? p i).isSome := find?_isSome.2 ⟨u, hu, by simp [hstart, hfinish]⟩
  obtain ⟨v, hv⟩ := Option.isSome_iff_exists.1 hsome
  obtain ⟨hmem, hstart', hfinish'⟩ := mem_of_simpleAt? hv
  -- the boundaries of either one are in the middle of neither
  have hclear : ∀ a ∈ simpleTasks p, ∀ b ∈ simpleTasks p, ∀ j ∈ a.boundaries, b.Apart j := by
    intro a ha b hb j hj
    obtain ⟨ha, -⟩ := mem_filter.1 ha
    obtain ⟨hb, hsimple⟩ := mem_filter.1 hb
    exact clear_of_boundary h ha hj b hb hsimple
  have h₁ := hclear u hu v hmem _ (Task.mem_boundaries.2 (.inl rfl))
  have h₂ := hclear v hmem u hu _ (Task.mem_boundaries.2 (.inl rfl))
  have h₃ := hclear u hu v hmem _ (Task.mem_boundaries.2 (.inr rfl))
  have h₄ := hclear v hmem u hu _ (Task.mem_boundaries.2 (.inr rfl))
  unfold Task.Apart at h₁ h₂ h₃ h₄
  exact ⟨v, hv, by omega, by omega⟩

theorem begun_of_mem (hfinish : i ≤ u.finish.length) :
    begun P p i = if i = u.finish.length then 0 else P.changes u.start.length i := by
  split
  · rename_i hi
    exact begun_of_clear (clear_of_boundary h (mem_filter.1 hu).1 (Task.mem_boundaries.2 (.inr hi)))
  · rename_i hi
    obtain ⟨v, hv, hstart', -⟩ := simpleAt?_of_mem h hu hstart (by omega)
    rw [begun, hv, ← hstart']

end

/-! ### Their code -/

theorem lays_of_simple (h : generateProgram p = .ok g) (hu : u ∈ simpleTasks p) :
    ∃ ss, Lays u.start (u.net?.getD 0) u.finish ss := by
  obtain ⟨hmem, hsimple⟩ := mem_filter.1 hu
  obtain ⟨x, hx⟩ := Option.isSome_iff_exists.1 hsimple
  rw [hx]
  exact Gen.lays_of_net hx
    (inside_of_mem_programTasks h (mem_programTasks_of_statementTasks hmem)).done.ends

/-- The machine finds what a task has written. -/
theorem Task.Inside.fetch {g₀ : Generator} (hin : u.Inside g₀ g) (hw : g.Whole) {c : Nat}
    {a : Argument} (hstart : u.start.length ≤ i) (hs : u.finish.code[i]? = some (.instruction c a)) :
    ∃ w, Image.argumentWord? a = .ok (some w) ∧ g.program[i]? = some ⟨c.toUInt8, w⟩ := by
  have hsound := hin.done.built.sound
  have hlt := (Array.getElem?_eq_some_iff.1 hs).1
  have hkept := hin.keeps.instruction hsound hstart (hsound.size ▸ hlt) hs
  obtain ⟨c', a', w, hslot, harg, hfetch⟩ := hw.fetch hkept
  obtain ⟨rfl, rfl⟩ := Slot.instruction.inj hslot
  exact ⟨w, harg, hfetch⟩

/-- The machine finds the code of a simple statement as it was laid. -/
theorem fetch_of_lays (h : generateProgram p = .ok g) (hw : g.Whole) (hu : u ∈ simpleTasks p)
    {x : Int} {ss : List Slot} (hl : Lays u.start x u.finish ss) {k : Nat} {s : Slot}
    (hs : ss[k]? = some s) :
    ∃ c a w, s = .instruction c a ∧ Image.argumentWord? a = .ok (some w) ∧
      g.program[u.start.length + k]? = some ⟨c.toUInt8, w⟩ ∧ c < 256 ∧ c ∉ Slot.steering := by
  have hin := inside_of_mem_programTasks h
    (mem_programTasks_of_statementTasks (mem_filter.1 hu).1)
  have hcode : u.finish.code[u.start.length + k]? = some s := by
    rw [← Array.getElem?_toList, hl.code, ← hin.done.sound.size, ← Array.length_toList,
      getElem?_append_right (Nat.le_add_right _ _), Nat.add_sub_cancel_left, hs]
  have hstraight := hl.straight s (mem_of_getElem? hs)
  cases s with
  | instruction c a =>
    obtain ⟨w, harg, hfetch⟩ := hin.fetch hw (Nat.le_add_right _ _) hcode
    exact ⟨c, a, w, rfl, harg, hfetch, hstraight⟩
  | label _ | bare _ => exact hstraight.elim

/-- The code of a simple statement leaves as many items as its tree says. -/
theorem changes_of_simple (h : generateProgram p = .ok g) (hw : g.Whole) (hu : u ∈ simpleTasks p) :
    g.program.changes u.start.length u.finish.length = u.net?.getD 0 := by
  obtain ⟨ss, hl⟩ := lays_of_simple h hu
  rw [hl.length, Program.changes_slots, hl.total]
  · intro s hs
    obtain ⟨k, hk⟩ := mem_iff_getElem?.1 hs
    obtain ⟨c, a, w, rfl, harg, -⟩ := fetch_of_lays h hw hu hl hk
    exact ⟨w, harg⟩
  · intro k s hs
    obtain ⟨c, a, w, rfl, harg, hfetch, -⟩ := fetch_of_lays h hw hu hl hs
    rw [Program.change, hfetch, Slot.change, harg]
    rfl

theorem Operation.steering_of_code {n : Nat} (hop : Operation.ofCode? n = some op)
    (h : op = .jump ∨ op = .jumpIf ∨ op = .giveBack) : n ∈ Slot.steering := by
  unfold Operation.ofCode? at hop
  rcases h with rfl | rfl | rfl <;> split at hop <;> simp_all [Slot.steering]

/-- A simple statement neither jumps nor returns. -/
theorem not_steering_of_simple (h : generateProgram p = .ok g) (hw : g.Whole)
    (hu : u ∈ simpleTasks p) (hstart : u.start.length ≤ i) (hfinish : i < u.finish.length)
    (hop : g.program.operation? i = some op) : ¬(op = .jump ∨ op = .jumpIf ∨ op = .giveBack) := by
  intro hsteers
  obtain ⟨ss, hl⟩ := lays_of_simple h hu
  have hlen := hl.length
  obtain ⟨k, rfl⟩ := Nat.exists_eq_add_of_le hstart
  have hk : k < ss.length := by omega
  obtain ⟨c, a, w, -, -, hfetch, hc, hstraight⟩ :=
    fetch_of_lays h hw hu hl (getElem?_eq_getElem hk)
  rw [Program.operation?, hfetch, Option.bind_some] at hop
  have hcode : c.toUInt8.toNat = c := by
    rw [Nat.toUInt8, UInt8.toNat_ofNat', Nat.mod_eq_of_lt hc]
  rw [hcode] at hop
  exact hstraight (Operation.steering_of_code hop hsteers)

/-- The jumps of a program are those of its code. -/
theorem jumpsTo_of_fetch (h : generateProgram p = .ok g) (hw : g.Whole) {j : Instruction}
    (hi : g.program[i]? = some j) (hop : Operation.ofCode? j.code.toNat = some .jump ∨
      Operation.ofCode? j.code.toNat = some .jumpIf) : g.JumpsTo i j.arg.toNat := by
  have hcode : j.code.toNat = Op.jump ∨ j.code.toNat = Op.jumpIf := by
    unfold Operation.ofCode? at hop
    rcases hop with hop | hop <;> split at hop <;> simp_all
  obtain ⟨a, hs, hreg, harg⟩ := hw.slot_of_fetch (regular_of_generateProgram h) hi
  obtain ⟨t, rfl⟩ := hreg.2.2 hcode
  have hword : (t : Int) = j.arg.toNat := eq_toNat_of_word (Int.natCast_nonneg t) harg
  exact ⟨_, hcode, hword ▸ hs⟩

/-! ### The account of a program -/

/-- The begun statements are an account of the program. -/
theorem account_of_generateProgram (h : generateProgram p = .ok g) (hw : g.Whole) :
    g.program.Account (begun g.program p) where
  target := fun hi hop => begun_of_clear (clear_of_jumpsTo h (jumpsTo_of_fetch h hw hi hop))
  behind := by
    intro i op hop hsteers
    refine begun_eq_zero fun u hu _ hfinish => ?_
    rcases Nat.lt_or_ge i u.start.length with hlt | hge
    · exact hlt
    · exact absurd hsteers (not_steering_of_simple h hw hu hge (by omega) hop)

theorem settles_begun (h : generateProgram p = .ok g) (hw : g.Whole) :
    g.program.settles (begun g.program p) = earned g.program p := by
  funext i
  rw [Program.settles, earned]
  split
  · rename_i u hu
    obtain ⟨hmem, hstart, hfinish⟩ := mem_of_simpleAt? hu
    have hsum := Program.changes_succ (P := g.program) hstart
    rw [begun_of_mem h hmem hstart (by omega), if_neg (by omega),
      begun_of_mem (i := i + 1) h hmem (by omega) hfinish]
    split
    · rename_i hlast
      rw [← changes_of_simple h hw hmem, ← hlast]
      omega
    · omega
  · rename_i hnone
    have hbefore : begun g.program p i = 0 := by rw [begun, hnone]
    -- a statement behind the instruction is only to begin there
    have hbehind : begun g.program p (i + 1) = 0 := by
      refine begun_eq_zero fun u hu _ hfinish => ?_
      rcases Nat.lt_or_ge i u.start.length with hlt | hge
      · exact hlt
      · obtain ⟨v, hv, -⟩ := simpleAt?_of_mem h hu hge (by omega)
        rw [hnone] at hv
        cases hv
    omega

end

/-! ### Runs -/

/-- What a run brings: what its instructions bring, without the beginnings of statements that calls
    have led into the middle of. -/
def Machine.balance (P : Program) (p : List Node) (n : Nat) (m : Machine) : Int :=
  m.tally P (earned P p) (begun P p) n

open Machine in
/-- Between two boundaries of statements in one frame, the stack grows by the balance of the run.
    If the run takes nothing that it has found on the stack, then it leaves the stack as it was if
    and only if the balance is zero. -/
theorem stack_kept_iff {p : List Node} {g : Generator} (h : generateProgram p = .ok g)
    (hw : g.Whole) {t u : Task} (ht : t ∈ statementTasks p) (hu : u ∈ statementTasks p)
    {m m' : Machine} {n : Nat} (hm : m.pc ∈ t.boundaries) (hm' : m'.pc ∈ u.boundaries)
    (hrun : Steps g.program n m m') (hframes : m'.frames = m.frames) :
    (m'.stack.length : Int) = m.stack.length + m.balance g.program p n ∧
      ((∀ s ∈ trail g.program n m, m.stack.length + s.takes g.program ≤ s.stack.length) →
        (m'.stack = m.stack ↔ m.balance g.program p n = 0)) := by
  have hheight := height_of_steps (account_of_generateProgram h hw) hrun
  rw [settles_begun h hw, onLoan, onLoan, hframes, begun_of_clear (clear_of_boundary h ht hm),
    begun_of_clear (clear_of_boundary h hu hm')] at hheight
  have hgrows : (m'.stack.length : Int) = m.stack.length + m.balance g.program p n := by
    rw [balance]
    omega
  refine ⟨hgrows, fun hbelow => ⟨fun hstack => ?_, fun hzero => ?_⟩⟩
  · rw [hstack] at hgrows
    omega
  · have hsuffix := stack_of_steps hrun (List.suffix_refl m.stack) hbelow
    exact (hsuffix.eq_of_length (by omega)).symm

section

open Gen

/-- A loop that calls a function: `func f(int a) -> int { return a; }` and `int i = 0;`, with
    `f(7);` and `while (i < 2) { i = f(i) + 1; }`. -/
def callingLoop : List Node :=
  let number (n : Int) := Node.literal "INT_LITERAL" (.int n)
  let i := Node.literal "VARIABLE" (.text "i")
  [.function (.text "f") "INT" [⟨"INT", .text "a"⟩]
      [.giveBack (some (.literal "VARIABLE" (.text "f.a")))],
    .declare (.text "i") "INT" (some (number 0)),
    .call "f" [number 7] .system,
    .whileLoop (.binary "<" i (some (number 2)))
      [.assign (.atom (.text "i")) (.binary "+" (.call "f" [i] .system) (some (number 1)))]]

/-- The loop finds an item on the stack and leaves it there. Its balance is zero. -/
theorem stack_kept_callingLoop : ∃ g m m', generateProgram callingLoop = .ok g ∧ g.Whole ∧
    Machine.Steps g.program 33 m m' ∧ m'.frames = m.frames ∧
    (∀ s ∈ m.trail g.program 33, m.stack.length + s.takes g.program ≤ s.stack.length) ∧
    ∃ t ∈ statementTasks callingLoop, m.pc = t.start.length ∧ m'.pc = t.finish.length ∧
      m.stack = [⟨.int, 7⟩] ∧ m'.stack = m.stack ∧ m.balance g.program callingLoop 33 = 0 := by
  obtain ⟨g, m, m', hg, -, hrun, hw, hpc, hpc', hframes, hbelow, hstack, hstack'⟩ :=
    exists_steps (p := callingLoop) 12 33 (fun g m m' => g.Whole ∧ m.pc = 12 ∧ m'.pc = 23 ∧
      m'.frames = m.frames ∧
      (∀ s ∈ m.trail g.program 33, m.stack.length + s.takes g.program ≤ s.stack.length) ∧
      m.stack = [⟨.int, 7⟩] ∧ m'.stack = [⟨.int, 7⟩]) (by decide +kernel)
  let t : Task := ⟨callingLoop[3], after (generate callingLoop[2])
    (after (generate callingLoop[1]) (after (generate callingLoop[0]) {}))⟩
  have hmem : t ∈ allTasks callingLoop {} := List.mem_of_getElem? (i := 3) rfl
  have ht : t ∈ statementTasks callingLoop :=
    List.mem_flatMap.2 ⟨t, hmem, Task.mem_statements_self t⟩
  have hm : m.pc = t.start.length := hpc.trans (by decide +kernel)
  have hm' : m'.pc = t.finish.length := hpc'.trans (by decide +kernel)
  have hkept : m'.stack = m.stack := hstack'.trans hstack.symm
  refine ⟨g, m, m', hg, hw, hrun, hframes, hbelow, t, ht, hm, hm', hstack, hkept, ?_⟩
  exact ((stack_kept_iff hg hw ht ht (Task.mem_boundaries.2 (.inl hm))
    (Task.mem_boundaries.2 (.inr hm')) hrun hframes).2 hbelow).1 hkept

/-- A call that stands by itself: `int[] a = [1, 2];` and `a.size();`. -/
def measuredList : List Node :=
  [.declare (.text "a") "INT[]" (some (.listLiteral "INT[]"
      [.literal "INT_LITERAL" (.int 1), .literal "INT_LITERAL" (.int 2)])),
    .call "size" [] (.atom (.text "a"))]

/-- What the call gives stays on the stack. -/
theorem stack_grows_measuredList : ∃ g m m', generateProgram measuredList = .ok g ∧ g.Whole ∧
    Machine.Steps g.program 4 {} m ∧ Machine.Steps g.program 2 m m' ∧ m'.frames = m.frames ∧
    ∃ t ∈ statementTasks measuredList, m.pc = t.start.length ∧ m'.pc = t.finish.length ∧
      m.stack = [] ∧ m'.stack = [⟨.int, 2⟩] := by
  obtain ⟨g, m, m', hg, hm, hrun, hw, hpc, hpc', hframes, hstack, hstack'⟩ :=
    exists_steps (p := measuredList) 4 2 (fun g m m' => g.Whole ∧ m.pc = 4 ∧ m'.pc = 6 ∧
      m'.frames = m.frames ∧ m.stack = [] ∧ m'.stack = [⟨.int, 2⟩]) (by decide +kernel)
  let t : Task := ⟨measuredList[1], after (generate measuredList[0]) {}⟩
  have ht : t ∈ statementTasks measuredList :=
    List.mem_flatMap.2 ⟨t, List.mem_cons_of_mem _ List.mem_cons_self, Task.mem_statements_self t⟩
  exact ⟨g, m, m', hg, hw, hm, hrun, hframes, t, ht, hpc.trans (by decide +kernel),
    hpc'.trans (by decide +kernel), hstack, hstack'⟩

end

end StackLang
