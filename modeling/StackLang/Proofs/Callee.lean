import StackLang.Proofs.Activation

/-!
# Where calls go

The declaration of a function stores its entry, the place of its first instruction, as an
integer at the address of its name. A call reads one byte at that address and goes to the place
that it says. So it comes to the function if its entry fits into a byte and the byte is still
there.

* `Machine.byte_of_steps`: a byte of memory after some instructions is the last one that was
  written there, or the old one;
* `Machine.step_call`: where a call goes to;
* `Task.Done.code_name`: the two instructions that declare a function;
* `call_reaches_iff`: when the call of a function comes to its entry.
-/

namespace StackLang

open Gen Machine

/-! ### Bytes of memory -/

/-- The bytes of a word lie where it was written, the lowest first. -/
theorem Segment.byte_setWord_of_inside (s : Segment) (i : Nat) (x : Item) {j : Nat} (hi : i ≤ j)
    (hj : j < i + x.tag.width) :
    (s.setWord i x.word x.tag.width).byte j = (wordBytes x.word).getD (j - i) 0 := by
  obtain ⟨k, rfl⟩ := Nat.exists_eq_add_of_le hi
  obtain ⟨t, w⟩ := x
  have hone : (s.setWord i w 1).byte i = (wordBytes w).getD 0 0 := by
    simp [Segment.setWord, Segment.byte_setByte, wordBytes]
  have hfour : ∀ k < 4, (s.setWord i w 4).byte (i + k) = (wordBytes w).getD k 0 := by
    intro k hk
    rw [← s.slice_setWord i w]
    simp [Segment.slice, hk]
  rw [Nat.add_sub_cancel_left]
  cases t with
  | byte | char =>
    obtain rfl : k = 0 := by simp only [Tag.width] at hj; omega
    exact hone
  | unassigned | int | real | pointer => exact hfour k (by simp only [Tag.width] at hj; omega)

namespace Machine

variable {P : Program} {m m' : Machine} {n i : Nat} {w : UInt32}

/-- The byte that the machine is about to write at a place, if it writes there. -/
def written? (P : Program) (i : Nat) (m : Machine) : Option UInt8 :=
  match m.stored? P, m.stack with
  | some (a, width), y :: _ =>
    if a ≤ i ∧ i < a + width then some ((wordBytes y.word).getD (i - a) 0) else none
  | _, _ => none

/-- An instruction leaves the byte that it writes, or the old one. -/
theorem byte_of_step (h : m.step P = some (.next m')) :
    m'.memory.cells.byte i = (m.written? P i).getD (m.memory.cells.byte i) := by
  obtain ⟨j, hj, hexec⟩ := Option.map_eq_some_iff.1 h
  by_cases hop : Operation.ofCode? j.code.toNat = some .storeMem
  · obtain ⟨y, rest, memory, hs, hm, rfl⟩ := store_of_execute hexec hop
    obtain ⟨a, hw, -⟩ := Memory.store_eq_ok hm
    obtain ⟨rfl, -, -, size, hcells⟩ := Segment.write_eq_ok hw
    have hstored : m.stored? P = some (m.memory.cells.place j.arg, y.tag.width) :=
      stored?_eq_some_iff.2 ⟨j, y, rest, hj, hop, hs, rfl, rfl⟩
    change memory.cells.byte i = _
    simp only [written?, hstored, hs, hcells]
    split
    · rename_i hin
      exact Segment.byte_setWord_of_inside _ _ _ hin.1 hin.2
    · rename_i hout
      exact Segment.byte_setWord_of_outside _ (by omega)
  · have hnone : m.stored? P = none := by
      cases hs : m.stored? P with
      | none => rfl
      | some q =>
        obtain ⟨j', _, _, hj', hop', -⟩ := stored?_eq_some_iff.1 hs
        obtain rfl : j = j' := Option.some.inj (hj.symm.trans hj')
        exact absurd hop' hop
    simp [written?, hnone, memory_of_execute hexec hop]

/-- The bytes that the first `n` instructions write at a place, in their order. -/
def writings (P : Program) (i n : Nat) (m : Machine) : List UInt8 :=
  (trail P n m).filterMap (written? P i)

/-- A byte of memory after some instructions is the last one written there, or the old one. -/
theorem byte_of_steps (h : Steps P n m m') :
    m'.memory.cells.byte i = (m.writings P i n).getLast?.getD (m.memory.cells.byte i) := by
  induction h with
  | refl m => rfl
  | @next n m m₁ m' hstep _ ih =>
    rw [ih, byte_of_step hstep, writings, writings, trail_succ hstep, List.filterMap_cons]
    cases m.written? P i with
    | none => rfl
    | some b =>
      rw [List.getLast?_cons]
      cases ((trail P n m₁).filterMap (written? P i)).getLast? <;> rfl

/-! ### Calls -/

/-- A call goes to the place that one byte says, if there is room for one more frame. -/
theorem step_call (hi : m.fetch P = some ⟨0x17, w⟩) (hw : w ≠ endAddress)
    (h : m.frames.length < frameLimit) :
    m.step P = some (.next
      { m with pc := (m.memory.cells.byte w.toNat).toNat, frames := (m.pc + 1) :: m.frames }) := by
  refine step_of_perform hi rfl ?_
  change w ≠ 0xffffffff at hw
  simp only [Act.perform, Act.call, if_neg hw, pure_bind]
  rw [← UInt8.toNat_toUInt32]
  exact Act.run_enter (m := m.onward) _ h

theorem step_call_full (hi : m.fetch P = some ⟨0x17, w⟩) (hw : w ≠ endAddress)
    (h : frameLimit ≤ m.frames.length) : ∃ m', m.step P = some (.halted (.failed .tooDeep) m') := by
  have hfail : Act.perform .call w m.onward =
      (.error (.failed .tooDeep), m.onward) := by
    change w ≠ 0xffffffff at hw
    simp only [Act.perform, Act.call, if_neg hw, pure_bind]
    exact Act.run_enter_full (m := m.onward) _ h
  exact step_of_failed hi rfl hfail

end Machine

/-! ### Functions -/

namespace Task.Done

variable {t : Task} {f : Atom} {r : String} {ps : List Parameter} {body : List Node}

/-- Behind its entry, the declaration of a function stores at the end of memory. -/
theorem code_name (ht : t.Done) (hf : t.node = .function f r ps body) :
    t.finish.code[t.start.length + 1]? = some .declaring := by
  obtain ⟨g, b, h, k, en⟩ := ht.entered hf
  have hlen : g.length = t.start.length + 2 + 2 * ps.length := length_declareParameters en.declares
  have hsound : (t.start.enterFunction f).Sound := ((ht.sound.reserved f "").push _).push _
  have lg := (Course.start.parameters (n := .function f r ps body) rfl en.declares).laid hsound
  have hg : g.code[t.start.length + 1]? = some .declaring :=
    lg.keeps.instruction hsound (Nat.zero_le _) (by simp [Generator.enterFunction])
      (((ht.sound.reserved f "").push _).push_code_length _)
  have hb : b.code[t.start.length + 1]? = some .declaring := by
    rw [en.entry, Generator.fill_code_ne (by omega), lg.sound.push_code_lt _ (by omega), hg]
  -- and from the entry to the end of the body
  have lh := en.storing.laid en.sound
  have hh := lh.keeps.instruction en.sound (Nat.zero_le _) (en.sound.lt_of_code hb) hb
  have hk := (en.course.laid lh.sound).keeps.instruction lh.sound (Nat.zero_le _)
    (lh.sound.lt_of_code hh) hh
  rw [en.finish, Generator.fill_code_ne (by omega), hk]

end Task.Done

section Program

variable {p : List Node} {g : Generator} (hg : generateProgram p = .ok g) (hw : g.Whole) {t : Task}
  (ht : t ∈ programTasks p) {f : Atom} {r : String} {ps : List Parameter} {body : List Node}
  (hf : t.node = .function f r ps body)

include hg hw ht hf

/-- The machine finds the declaration of a function where it was generated. -/
theorem fetch_of_function : ∃ e : UInt32, g.program[t.start.length]? = some ⟨0x0F, e⟩ ∧
    e.toNat = t.entry ∧ g.program[t.start.length + 1]? = some declaring := by
  have hin := inside_of_mem_programTasks hg ht
  have hsound := hin.done.built.sound
  obtain ⟨b, k, k', hfun⟩ := hin.done.function hf
  have hcode {i c x} (hi : t.start.length ≤ i)
      (h : t.finish.code[i]? = some (.instruction c x)) : g.code[i]? = some (.instruction c x) :=
    hin.keeps.instruction hsound hi (hsound.lt_of_code h) h
  obtain ⟨_, _, e, hslot, harg, hfirst⟩ := hw.fetch (hcode (Nat.le_refl _) hfun.code_start)
  obtain ⟨rfl, rfl⟩ := Slot.instruction.inj hslot
  obtain ⟨_, _, e', hslot, harg', hsecond⟩ :=
    hw.fetch (hcode (Nat.le_succ _) (hin.done.code_name hf))
  obtain ⟨rfl, rfl⟩ := Slot.instruction.inj hslot
  refine ⟨e, hfirst, ?_, ?_⟩
  · have := eq_toNat_of_word (by omega) harg
    omega
  · rw [hsecond, (eq_neg_one_of_word (by omega) harg').2 rfl]
    rfl

/-- When a function has been declared, the lowest byte of its entry lies at its address. -/
theorem byte_of_declaration {m m' : Machine} (hat : m.pc = t.start.length)
    (hdecl : Machine.Steps g.program 2 m m') {i : Nat} (hi : m.memory.cells.size = i) :
    (m'.memory.cells.byte i).toNat = t.entry % 256 := by
  obtain ⟨e, hfirst, hentry, hsecond⟩ := fetch_of_function hg hw ht hf
  rw [← hat] at hfirst hsecond
  rcases hdecl with _ | ⟨hpush, _ | ⟨hstore, ⟨⟩⟩⟩
  have hroom : m.stack.length < stackLimit := by
    refine Nat.lt_of_not_le fun hfull => ?_
    obtain ⟨_, hstop⟩ := step_push_full hfirst hfull
    rw [hstop] at hpush
    cases hpush
  rw [step_push hfirst hroom] at hpush
  cases hpush
  have hstored : ({ m with pc := m.pc + 1, stack := ⟨.int, e⟩ :: m.stack } : Machine).stored?
      g.program = some (i, 4) :=
    stored?_eq_some_iff.2 ⟨_, _, _, hsecond, rfl, rfl, hi, rfl⟩
  have hwritten : ({ m with pc := m.pc + 1, stack := ⟨.int, e⟩ :: m.stack } : Machine).written?
      g.program i = some e.toUInt8 := by
    simp [written?, hstored, wordBytes]
  rw [byte_of_step hstore, hwritten, ← hentry]
  exact e.toNat_toUInt8

end Program

/-- In a run of a whole program, after the declaration of a function at the address `w`, a call
    at that address comes to the entry of the function if and only if there is room for one more
    frame, the entry fits into a byte, and that byte is the last one that was written at the
    address since, if any was. -/
theorem call_reaches_iff {p : List Node} {g : Generator} (hg : generateProgram p = .ok g)
    (hw : g.Whole) {t : Task} (ht : t ∈ programTasks p) {f : Atom} {r : String}
    {ps : List Parameter} {body : List Node} (hf : t.node = .function f r ps body)
    {m₀ m₁ m : Machine} {n : Nat} {w : UInt32} (hat : m₀.pc = t.start.length)
    (hdecl : Machine.Steps g.program 2 m₀ m₁) (hsize : m₀.memory.cells.size = w.toNat)
    (hne : w ≠ endAddress) (hrun : Machine.Steps g.program n m₁ m)
    (hcall : m.fetch g.program = some ⟨0x17, w⟩) :
    (∃ m', m.step g.program = some (.next m') ∧ m'.pc = t.entry) ↔
      m.frames.length < frameLimit ∧ t.entry < 256 ∧
        ∀ b, (m₁.writings g.program w.toNat n).getLast? = some b → b.toNat = t.entry := by
  have hbyte := Machine.byte_of_steps (i := w.toNat) hrun
  have hold := byte_of_declaration hg hw ht hf hat hdecl hsize
  have hplace : (m.memory.cells.byte w.toNat).toNat = t.entry ↔ t.entry < 256 ∧
      ∀ b, (m₁.writings g.program w.toNat n).getLast? = some b → b.toNat = t.entry := by
    rw [hbyte]
    cases (m₁.writings g.program w.toNat n).getLast? with
    | none =>
      simp only [Option.getD_none, hold, reduceCtorEq, false_implies, implies_true, and_true]
      omega
    | some b =>
      simp only [Option.getD_some, Option.some.injEq, forall_eq']
      have := b.toNat_lt
      omega
  rw [← hplace]
  by_cases hroom : m.frames.length < frameLimit
  · rw [Machine.step_call hcall hne hroom]
    simp [hroom]
  · obtain ⟨m', hstop⟩ := Machine.step_call_full hcall hne (Nat.le_of_not_lt hroom)
    simp [hstop, hroom]

/-- To find a call by running a program: a function is declared after `k` instructions, and
    called `n` instructions later. -/
theorem exists_call {p : List Node} (k n : Nat) (Q : Generator → Machine → Machine → Machine → Prop)
    [∀ g m₀ m₁ m, Decidable (Q g m₀ m₁ m)]
    (h : (do
      let g ← (generateProgram p).toOption
      let m₀ ← advance? g.program k {}
      let m₁ ← m₀.advance? g.program 2
      guard ((m₁.advance? g.program n).any fun m => Q g m₀ m₁ m)) = some ()) :
    ∃ g m₀ m₁ m, generateProgram p = .ok g ∧ Machine.Steps g.program k {} m₀ ∧
      Machine.Steps g.program 2 m₀ m₁ ∧ Machine.Steps g.program n m₁ m ∧ Q g m₀ m₁ m := by
  obtain ⟨g, m₀, m₁, hg, h₀, h₁, hq⟩ := exists_steps k 2 _ h
  obtain ⟨m, hm, hq⟩ := (Option.any_eq_true _ _).1 hq
  exact ⟨g, m₀, m₁, m, hg, h₀, h₁, steps_iff.2 hm, of_decide_eq_true hq⟩

/-- The inner call of a short program comes to its function. -/
theorem call_reaches_inner : ∃ g m₀ m₁ m m', generateProgram callingFunction = .ok g ∧ g.Whole ∧
    Machine.Steps g.program 2 m₀ m₁ ∧ Machine.Steps g.program 12 m₁ m ∧
    m.fetch g.program = some ⟨0x17, 0⟩ ∧ m.step g.program = some (.next m') ∧ m'.pc = 5 := by
  obtain ⟨g, m₀, m₁, m, hg, -, hdecl, hrun, hw, hat, hsize, hcall, hroom, hnone⟩ :=
    exists_call (p := callingFunction) 0 12 (fun g m₀ m₁ m => g.Whole ∧ m₀.pc = 0 ∧
      m₀.memory.cells.size = 0 ∧ m.fetch g.program = some ⟨0x17, 0⟩ ∧
      m.frames.length < frameLimit ∧ m₁.writings g.program 0 12 = []) (by decide +kernel)
  let t : Task := ⟨callingFunction[0], {}⟩
  have ht : t ∈ programTasks callingFunction :=
    List.mem_flatMap.2 ⟨t, List.mem_cons_self, Task.mem_all_self t⟩
  have hsize : m₀.memory.cells.size = (0 : UInt32).toNat := hsize
  obtain ⟨m', hstep, hpc⟩ := (call_reaches_iff hg hw ht (t := t) rfl hat hdecl hsize (by decide)
    hrun hcall).2 ⟨hroom, by decide, fun b hb => by
      rw [UInt32.toNat_zero, hnone] at hb
      cases hb⟩
  exact ⟨g, m₀, m₁, m, m', hg, hw, hdecl, hrun, hcall, hstep, hpc⟩

/-- A function behind a long statement: `int x = 0;`, then `if (x == 1) { print([0, …, 0]); }`
    with 251 items, `func f(int n) -> int { return n; }` and `int y = f(7);`. -/
def callingFar : List Node :=
  let number (k : Int) := Node.literal "INT_LITERAL" (.int k)
  [.declare (.text "x") "INT" (some (number 0)),
    .conditional (.binary "==" (.literal "VARIABLE" (.text "x")) (some (number 1)))
      [.call "print" [.listLiteral "INT[]" (List.replicate 251 (number 0))] .system] [] none,
    .function (.text "f") "INT" [⟨"INT", .text "n"⟩]
      [.giveBack (some (.literal "VARIABLE" (.text "f.n")))],
    .declare (.text "y") "INT" (some (.call "f" [number 7] .system))]

/-- The function begins at place 265, and its call goes to place 9. -/
theorem call_misses_far : ∃ g m₀ m₁ m m', generateProgram callingFar = .ok g ∧ g.Whole ∧
    Machine.Steps g.program 7 {} m₀ ∧ Machine.Steps g.program 2 m₀ m₁ ∧
    Machine.Steps g.program 4 m₁ m ∧ m₀.memory.cells.size = 4 ∧
    m.fetch g.program = some ⟨0x17, 4⟩ ∧ m.step g.program = some (.next m') ∧ m'.pc = 9 ∧
    ∃ t ∈ programTasks callingFar, t.node = callingFar[2] ∧ m₀.pc = t.start.length ∧
      t.entry = 265 := by
  obtain ⟨g, m₀, m₁, m, hg, hm₀, hdecl, hrun, hw, hat, hsize, hcall, hnext⟩ :=
    exists_call (p := callingFar) 7 4 (fun g m₀ _ m => g.Whole ∧ m₀.pc = 260 ∧
      m₀.memory.cells.size = 4 ∧ m.fetch g.program = some ⟨0x17, 4⟩ ∧
      (m.advance? g.program 1).map Machine.pc = some 9) (by decide +kernel)
  obtain ⟨m', hstep, hpc⟩ := Option.map_eq_some_iff.1 hnext
  rcases Machine.steps_iff.2 hstep with _ | ⟨hstep, ⟨⟩⟩
  let t : Task := ⟨callingFar[2], after (generate callingFar[1]) (after (generate callingFar[0]) {})⟩
  have ht : t ∈ programTasks callingFar := List.mem_flatMap.2
    ⟨t, List.mem_cons_of_mem _ (List.mem_cons_of_mem _ List.mem_cons_self), Task.mem_all_self t⟩
  have hstart : t.start.length = 260 := by decide +kernel
  refine ⟨g, m₀, m₁, m, m', hg, hw, hm₀, hdecl, hrun, hsize, hcall, hstep, hpc, t, ht, rfl, ?_, ?_⟩
  · rw [hat, hstart]
  · exact congrArg (· + 3 + 2 * 1) hstart

end StackLang
