import Mathlib.Data.Option.Basic
import StackLang.Proofs.Address
import StackLang.Proofs.Execution
import StackLang.Proofs.FunctionEnd
import StackLang.Proofs.Naming

/-!
# Parameters during a call

A parameter has one address for all activations of its function. A call saves the place to
come back to and nothing else, so what a parameter holds after the call is a matter of the
stores in between.

* `Machine.load_of_steps`: what lies at an address after some instructions is what the last
  store into its bytes has left, or what was there before;
* `Machine.Returns`: a call that comes back, with all that is executed in between;
* `stored_of_entry`: a call that enters a function stores at the addresses of its parameters;
* `parameter_kept_iff`: a parameter survives a call if and only if the last store into it leaves
  the old value. Such stores are made when its function is entered again, and by assignments
  to it.
-/

namespace StackLang

open Gen List Option Machine

/-! ### What instructions leave in memory -/

namespace Machine

variable {P : Program} {m m' : Machine} {n : Nat} {w : UInt32} {x : Item} {width : Nat}
  {s : Machine}

/-- The bytes that the machine is about to store into: the first of them and how many they
    are. -/
def stored? (P : Program) (m : Machine) : Option (Nat × Nat) :=
  match m.fetch P, m.stack with
  | some i, y :: _ =>
    if Operation.ofCode? i.code.toNat = some .storeMem then
      some (m.memory.cells.place i.arg, y.tag.width)
    else none
  | _, _ => none

theorem stored?_eq_some_iff {a : Nat} : m.stored? P = some (a, width) ↔
    ∃ i y rest, m.fetch P = some i ∧ Operation.ofCode? i.code.toNat = some .storeMem ∧
      m.stack = y :: rest ∧ m.memory.cells.place i.arg = a ∧ y.tag.width = width := by
  constructor
  · intro h
    unfold stored? at h
    split at h
    · rename_i i y rest hi hs
      split at h
      · rename_i hop
        obtain ⟨ha, hwidth⟩ := Prod.mk.inj (some.inj h)
        exact ⟨i, y, rest, hi, hop, hs, ha, hwidth⟩
      · cases h
    · cases h
  · rintro ⟨i, y, rest, hi, hop, hs, rfl, rfl⟩
    simp only [stored?, hi, hs, if_pos hop]

/-- The machine is about to store into the bytes that an item at an address takes. -/
def overwrites (P : Program) (w : UInt32) (x : Item) (m : Machine) : Bool :=
  match m.stored? P with
  | some (a, width) => a < w.toNat + x.tag.width && w.toNat < a + width
  | none => false

theorem overwrites_iff : m.overwrites P w x ↔ ∃ a width, m.stored? P = some (a, width) ∧
    a < w.toNat + x.tag.width ∧ w.toNat < a + width := by
  unfold overwrites
  split
  · rename_i a width hs
    rw [Bool.and_eq_true, decide_eq_true_eq, decide_eq_true_eq]
    constructor
    · exact fun h => ⟨a, width, hs, h⟩
    · rintro ⟨a', width', hs', h⟩
      obtain ⟨rfl, rfl⟩ := Prod.mk.inj (some.inj (hs.symm.trans hs'))
      exact h
  · rename_i hs
    simp [hs]

/-- The instruction that the machine is about to execute leaves the item at the address. -/
def Leaves (P : Program) (w : UInt32) (x : Item) (m : Machine) : Prop :=
  ∃ m', m.step P = some (.next m') ∧ m'.memory.load w = .ok x

/-- An instruction that does not store into the bytes of an item keeps it. -/
theorem load_of_step (h : m.step P = some (.next m')) (hout : m.overwrites P w x = false) :
    m'.memory.load w = .ok x ↔ m.memory.load w = .ok x := by
  obtain ⟨i, hi, hexec⟩ := map_eq_some_iff.1 h
  by_cases hop : Operation.ofCode? i.code.toNat = some .storeMem
  · obtain ⟨y, rest, memory, hs, hm, rfl⟩ := store_of_execute hexec hop
    refine Memory.load_of_store hm ?_
    simp only [overwrites, stored?, hi, hs, if_pos hop] at hout
    simp at hout
    omega
  · rw [memory_of_execute hexec hop]

/-- A store at the address itself leaves there what it stores. -/
theorem leaves_iff (h : m.step P = some (.next m')) (hs : m.stored? P = some (w.toNat, width)) :
    m.Leaves P w x ↔ m.stack.head?.map Item.kept = some x := by
  have hleaves : m.Leaves P w x ↔ m'.memory.load w = .ok x := by simp [Leaves, h]
  obtain ⟨i, y, rest, hi, hop, hstack, hplace, -⟩ := stored?_eq_some_iff.1 hs
  obtain ⟨i', hi', hexec⟩ := map_eq_some_iff.1 h
  obtain rfl : i = i' := some.inj (hi.symm.trans hi')
  obtain ⟨y', _, memory, hstack', hm, rfl⟩ := store_of_execute hexec hop
  obtain rfl : y = y' := (List.cons.inj (hstack.symm.trans hstack')).1
  rw [hleaves, hstack]
  change memory.load w = .ok x ↔ some y.kept = some x
  rw [Memory.load_of_store_self hm hplace, Except.ok.injEq, some.injEq]

theorem trail_succ (h : m.step P = some (.next m')) : trail P (n + 1) m = m :: trail P n m' := by
  rw [trail, h]

/-- The last of the first `n` instructions that stores into the bytes of an item, as the state
    in which the machine executes it. -/
def lastOverwrite (P : Program) (w : UInt32) (x : Item) (n : Nat) (m : Machine) : Option Machine :=
  ((trail P n m).filter (overwrites P w x)).getLast?

theorem lastOverwrite_succ (h : m.step P = some (.next m')) :
    m.lastOverwrite P w x (n + 1) =
      (m'.lastOverwrite P w x n).or (if m.overwrites P w x then some m else none) := by
  rw [lastOverwrite, lastOverwrite, trail_succ h, filter_cons]
  split
  · rw [getLast?_cons]
    cases ((trail P n m').filter (overwrites P w x)).getLast? <;> rfl
  · rw [or_none]

/-- What lies at an address after some instructions: what the last of those that store there
    leaves, or else what was there. -/
theorem load_of_steps (h : Steps P n m m') :
    m'.memory.load w = .ok x ↔
      (∀ s, m.lastOverwrite P w x n = some s → s.Leaves P w x) ∧
        (m.lastOverwrite P w x n = none → m.memory.load w = .ok x) := by
  induction h with
  | refl m => simp [lastOverwrite, trail]
  | @next n m m₁ m' hstep hs ih =>
    rw [ih, lastOverwrite_succ hstep]
    -- a later store hides the first instruction; without one, that decides
    cases m₁.lastOverwrite P w x n with
    | some s => simp
    | none =>
      by_cases hm : m.overwrites P w x
      · simp [hm, Leaves, hstep]
      · simp only [Bool.not_eq_true] at hm
        simp [hm, load_of_step hstep hm]

theorem step_of_mem_trail (h : s ∈ trail P n m) : ∃ s', s.step P = some (.next s') := by
  induction n generalizing m with
  | zero => cases h
  | succ n ih =>
    rw [trail] at h
    split at h
    · rename_i m₁ hstep
      rcases mem_cons.1 h with rfl | h
      · exact ⟨m₁, hstep⟩
      · exact ih h
    · cases h

/-- Memory does not become smaller. -/
theorem size_le_of_mem_trail (h : s ∈ trail P n m) : m.memory.cells.size ≤ s.memory.cells.size := by
  induction n generalizing m with
  | zero => cases h
  | succ n ih =>
    rw [trail] at h
    split at h
    · rename_i m₁ hstep
      rcases mem_cons.1 h with rfl | h
      · exact Nat.le_refl _
      · have hsize := size_of_step hstep
        have hle := ih h
        omega
    · cases h

/-- After each of the instructions, the machine executes the next one or has come to the end. -/
theorem next_mem_trail {s' : Machine} (h : Steps P n m m') (hs : s ∈ trail P n m)
    (hstep : s.step P = some (.next s')) : s' ∈ trail P n m ∨ s' = m' := by
  induction h with
  | refl => cases hs
  | @next n m m₁ m' h₁ hs₁ ih =>
    rw [trail_succ h₁] at hs ⊢
    rcases mem_cons.1 hs with rfl | hs
    · obtain rfl : m₁ = s' := by rwa [h₁, some.injEq, Transition.next.injEq] at hstep
      cases hs₁ with
      | refl => exact .inr rfl
      | next h₂ _ =>
        rw [trail_succ h₂]
        exact .inl (mem_cons_of_mem _ mem_cons_self)
    · exact (ih hs).imp_left (mem_cons_of_mem _)

/-- The machine after `n` instructions, unless one of them stops it. -/
def advance? (P : Program) : Nat → Machine → Option Machine
  | 0, m => some m
  | n + 1, m =>
    match m.step P with
    | some (.next m') => advance? P n m'
    | _ => none

theorem steps_iff : Steps P n m m' ↔ m.advance? P n = some m' := by
  constructor
  · intro h
    induction h with
    | refl m => rfl
    | next hstep _ ih =>
      rw [advance?, hstep]
      exact ih
  · intro h
    induction n generalizing m with
    | zero =>
      obtain rfl := some.inj h
      exact .refl m
    | succ n ih =>
      rw [advance?] at h
      split at h
      · rename_i m₁ hstep
        exact .next hstep (ih h)
      · cases h

/-- The states in which the machine executes the `n` instructions behind the one in `m`. -/
def inside (P : Program) (n : Nat) (m : Machine) : List Machine := (trail P (n + 1) m).tail

/-- The call that the machine is about to execute in `m` comes back in `m'`, after `n` more
    instructions. -/
structure Returns (P : Program) (n : Nat) (m m' : Machine) : Prop where
  call : (m.fetch P).bind (fun i => Operation.ofCode? i.code.toNat) = some .call
  steps : Steps P (n + 1) m m'
  /-- Until then it has not come back. -/
  deeper : ∀ s ∈ m.inside P n, m.frames.length < s.frames.length
  frames : m'.frames = m.frames
  pc : m'.pc = m.pc + 1

instance (P : Program) (n : Nat) (m m' : Machine) : Decidable (m.Returns P n m') :=
  decidable_of_iff
    ((m.fetch P).bind (fun i => Operation.ofCode? i.code.toNat) = some .call ∧
      m.advance? P (n + 1) = some m' ∧
      (∀ s ∈ m.inside P n, m.frames.length < s.frames.length) ∧
      m'.frames = m.frames ∧ m'.pc = m.pc + 1)
    ⟨fun ⟨h₁, h₂, h₃, h₄, h₅⟩ => ⟨h₁, steps_iff.2 h₂, h₃, h₄, h₅⟩,
      fun h => ⟨h.call, steps_iff.1 h.steps, h.deeper, h.frames, h.pc⟩⟩

namespace Returns

variable {s s' : Machine}

/-- As long as no frame is taken off, the call goes on. -/
theorem next (h : m.Returns P n m') (hs : s ∈ m.inside P n) (hstep : s.step P = some (.next s'))
    (hframes : s'.frames = s.frames) : s' ∈ m.inside P n := by
  cases h.steps with
  | next h₁ hrest =>
    have hinside : m.inside P n = trail P n _ := congrArg List.tail (trail_succ h₁)
    rw [hinside] at hs ⊢
    rcases next_mem_trail hrest hs hstep with hmem | rfl
    · exact hmem
    · -- behind the call there are as many frames as before it
      have hlt := h.deeper s (hinside ▸ hs)
      rw [← hframes, h.frames] at hlt
      exact absurd hlt (Nat.lt_irrefl _)

/-- A call that comes to some stores in a row executes them all. -/
theorem through (h : m.Returns P n m') (hs : s ∈ m.inside P n) {k : Nat}
    (hk : ∀ j < k, ∃ i, P[s.pc + j]? = some i ∧ Operation.ofCode? i.code.toNat = some .storeMem) :
    ∃ s' ∈ m.inside P n, s'.pc = s.pc + k := by
  induction k with
  | zero => exact ⟨s, hs, rfl⟩
  | succ k ih =>
    obtain ⟨s₁, hs₁, hpc⟩ := ih fun j hj => hk j (Nat.lt_succ_of_lt hj)
    obtain ⟨i, hi, hop⟩ := hk k (Nat.lt_succ_self k)
    obtain ⟨s₂, hstep⟩ := step_of_mem_trail (mem_of_mem_tail hs₁)
    obtain ⟨i', hi', hexec⟩ := map_eq_some_iff.1 hstep
    rw [fetch, hpc, hi, some.injEq] at hi'
    subst hi'
    obtain ⟨_, _, _, -, -, rfl⟩ := store_of_execute hexec hop
    exact ⟨_, h.next hs₁ hstep rfl, congrArg (· + 1) hpc⟩

end Returns

/-- An activation of a function is pending: the machine executes its code, or will come back
    there. -/
def Pending (m : Machine) (t : Task) : Prop :=
  ∃ i ∈ m.pc :: m.frames, t.entry ≤ i ∧ i < t.finish.length

end Machine

/-! ### The addresses of parameters -/

namespace Task

variable {t : Task} {x : Atom} {a : Nat}

/-- The function has a parameter of this name, and its body finds it at this address. -/
def ParameterAt (t : Task) (x : Atom) (a : Nat) : Prop :=
  x ∈ t.node.parameterNames ∧ t.bodyNames.get? x = some a

/-- The address of a parameter is that of its declaration, and not the first one of the
    program. -/
theorem Done.declaration_of_parameterAt (ht : t.Done) (hx : t.ParameterAt x a) :
    0 < a ∧ ∃ d ∈ t.declarations, d.name.same x ∧ d.address = a := by
  obtain ⟨hmem, ha⟩ := hx
  cases hn : t.node with
  | function f r ps body =>
    rw [hn] at hmem
    obtain ⟨p, hp, rfl⟩ := mem_map.1 hmem
    obtain ⟨g, b, _, _, en⟩ := ht.entered hn
    rw [en.bodyNames hn, en.entry] at ha
    obtain ⟨d, hd, hname, rfl⟩ := declaration_of_parameter en.declares hp ha
    have hge := ((Filed.parameters en.declares).within d hd).1
    refine ⟨Nat.lt_of_lt_of_le ?_ hge, d, ?_, hname, rfl⟩
    · exact Nat.succ_pos _
    · refine t.ownDeclarations_subset ?_
      rw [ownDeclarations, hn]
      exact mem_cons_of_mem _ hd
  | _ =>
    rw [hn] at hmem
    cases hmem

theorem start_le_entry (t : Task) : t.start.length ≤ t.entry := by
  unfold entry
  split <;> omega

/-- Storing the arguments of a call, a function stores at the address of each parameter, and
    before that at those of others. -/
theorem exists_storing_of_storeParameters {f : Atom} {ps : List Parameter} {g h : Generator}
    (hg : g.Sound) (e : Ends (storeParameters f ps) g () h) {p : Parameter} (hp : p ∈ ps)
    (ha : g.identifiers.get? (f.parameter p) = some a) :
    ∃ k, (∀ j < k, ∃ b, h.code[g.length + j]? = some (.storing b)) ∧
      h.code[g.length + k]? = some (.storing a) := by
  induction ps generalizing g with
  | nil => cases hp
  | cons q ps ih =>
    simp only [storeParameters, ends_bind, ends_address, ends_emitInt] at e
    obtain ⟨a', g, ⟨hq, rfl⟩, _, _, rfl, e⟩ := e
    have hsound := hg.push (.storing a')
    have hkeeps := ((Course.start.stores (n := .plain) (fun _ _ _ _ _ => trivial) e).laid
      hsound).keeps
    have hfirst : h.code[g.length]? = some (.storing a') :=
      hkeeps.instruction hsound (Nat.zero_le _) (Nat.lt_succ_self _)
        (hg.push_code_length (.storing a'))
    rcases mem_cons.1 hp with rfl | hp
    · obtain rfl : a' = a := some.inj (hq.symm.trans ha)
      exact ⟨0, fun j hj => absurd hj (Nat.not_lt_zero j), hfirst⟩
    · obtain ⟨k, hrow, hk⟩ := ih hsound e hp ha
      rw [Generator.push_length, Nat.add_assoc, Nat.add_comm 1] at hk
      refine ⟨k + 1, fun j hj => ?_, hk⟩
      cases j with
      | zero => exact ⟨a', hfirst⟩
      | succ j =>
        obtain ⟨b, hb⟩ := hrow j (Nat.lt_of_succ_lt_succ hj)
        rw [Generator.push_length, Nat.add_assoc, Nat.add_comm 1] at hb
        exact ⟨b, hb⟩

/-- A function that is entered stores at the addresses of its parameters, one behind the
    other. -/
theorem Done.exists_storing_parameter (ht : t.Done) (hx : t.ParameterAt x a) :
    ∃ k, (∀ j < k, ∃ b, t.finish.code[t.entry + j]? = some (.storing b)) ∧
      t.finish.code[t.entry + k]? = some (.storing a) := by
  obtain ⟨hmem, ha⟩ := hx
  cases hn : t.node with
  | function f r ps body =>
    rw [hn] at hmem
    obtain ⟨p, hp, rfl⟩ := mem_map.1 hmem
    obtain ⟨g, b, h, k, en⟩ := ht.entered hn
    rw [en.bodyNames hn] at ha
    have hentry : b.length = t.entry := by
      have hlen : g.length = t.start.length + 2 + 2 * ps.length :=
        length_declareParameters en.declares
      rw [en.entry, Generator.fill_length, Generator.push_length, entry, hn]
      dsimp only
      omega
    have hsound := (en.storing.laid en.sound).sound
    have hkeeps := (en.course.laid hsound).keeps
    -- the body comes behind the stores, and the jump over the function is filled in before them
    have hlater : ∀ {i c}, b.length ≤ i → h.code[i]? = some (.storing c) →
        t.finish.code[i]? = some (.storing c) := by
      intro i c hi hs
      have hlt : g.length < b.length := by
        rw [en.entry, Generator.fill_length, Generator.push_length]
        omega
      rw [en.finish, Generator.fill_code_ne (by omega)]
      exact hkeeps.instruction hsound (Nat.zero_le _) (hsound.lt_of_code hs) hs
    obtain ⟨k, hrow, hk⟩ := exists_storing_of_storeParameters en.sound en.stores hp ha
    rw [← hentry]
    refine ⟨k, fun j hj => ?_, hlater (Nat.le_add_right _ _) hk⟩
    obtain ⟨c, hc⟩ := hrow j hj
    exact ⟨c, hlater (Nat.le_add_right _ _) hc⟩
  | _ =>
    rw [hn] at hmem
    cases hmem

end Task

/-! ### Stores of a program while it runs -/

namespace Generator.Whole

variable {g : Generator} (hw : g.Whole) {i : Nat} {w : UInt32}

include hw

theorem fetch_storing {a : Nat} (hs : g.code[i]? = some (.storing a)) :
    ∃ w : UInt32, g.program[i]? = some ⟨0x13, w⟩ ∧ w.toNat = a ∧ w ≠ endAddress := by
  obtain ⟨c, x, w, hslot, harg, hfetch⟩ := hw.fetch hs
  obtain ⟨rfl, rfl⟩ := Slot.instruction.inj hslot
  refine ⟨w, hfetch, by have := eq_toNat_of_word (by omega) harg; omega, fun hend => ?_⟩
  have := (eq_neg_one_of_word (by omega) harg).1 hend
  omega

theorem storing_of_fetch (hr : g.Regular) (hi : g.program[i]? = some ⟨0x13, w⟩)
    (hne : w ≠ endAddress) : g.code[i]? = some (.storing w.toNat) := by
  obtain ⟨x, hx, hs, harg⟩ := hw.store_of_fetch hr hi
  have hpos : 0 ≤ x := by
    have := mt (eq_neg_one_of_word hx harg).2 hne
    omega
  rw [hs, eq_toNat_of_word hpos harg]

end Generator.Whole

/-- Bytes that begin at an address do not reach the next variable. -/
def StaysWithin (p : List Node) (a width : Nat) : Prop :=
  ∀ d ∈ declarations p, a < d.address → a + width ≤ d.address

section Program

variable {p : List Node} {g : Generator} (hg : generateProgram p = .ok g) {a : Nat} {s : Machine}

include hg

/-- A store into the bytes of a variable is one at its address if neither reaches the next
    variable. -/
theorem eq_address_of_overlap {d : Declaration} (hd : d ∈ declarations p) {i width size : Nat}
    (hs : g.code[i]? = some (.storing a)) (hin : StaysWithin p a width)
    (hd' : StaysWithin p d.address size) (hleft : a < d.address + size)
    (hright : d.address < a + width) : a = d.address := by
  rcases Nat.lt_trichotomy a d.address with hlt | heq | hgt
  · have := hin d hd hlt
    omega
  · exact heq
  · obtain ⟨_, -, -, _, -, e, he, -, rfl⟩ := declaration_of_store hg (Nat.zero_lt_of_lt hgt) hs
    have := hd' e he hgt
    omega

variable (hw : g.Whole)

include hw

/-- What can be read in memory is overwritten by stores with an address of their own only, not by
    declarations. -/
theorem storing_of_overwrites {w : UInt32} {v : Item}
    (hroom : w.toNat + v.tag.width ≤ s.memory.cells.size) (h : s.overwrites g.program w v) :
    ∃ a width, s.stored? g.program = some (a, width) ∧ a < w.toNat + v.tag.width ∧
      w.toNat < a + width ∧ g.code[s.pc]? = some (.storing a) := by
  obtain ⟨a, width, hs, hleft, hright⟩ := overwrites_iff.1 h
  refine ⟨a, width, hs, hleft, hright, ?_⟩
  obtain ⟨⟨c, b⟩, y, _, hi, hop, -, hplace, -⟩ := stored?_eq_some_iff.1 hs
  obtain rfl : c = 0x13 := UInt8.toNat_inj.1 (Operation.storeMem_of_code hop)
  -- the end of memory lies behind what can be read
  have hne : b ≠ endAddress := by
    rintro rfl
    rw [Segment.place, if_pos rfl] at hplace
    omega
  rw [Segment.place, if_neg hne] at hplace
  rw [← hplace]
  exact hw.storing_of_fetch (regular_of_generateProgram hg) hi hne

/-- A call that enters a function stores at the addresses of its parameters. -/
theorem stored_of_entry {m m' : Machine} {n : Nat} (hcall : m.Returns g.program n m') {t : Task}
    (ht : t ∈ programTasks p) {x : Atom} (hx : t.ParameterAt x a) (hs : s ∈ m.inside g.program n)
    (hpc : s.pc = t.entry) :
    ∃ s' ∈ m.inside g.program n, ∃ width, s'.stored? g.program = some (a, width) := by
  have hin := inside_of_mem_programTasks hg ht
  have hlater : ∀ {k c}, t.finish.code[t.entry + k]? = some (.storing c) →
      ∃ w : UInt32, g.program[s.pc + k]? = some ⟨0x13, w⟩ ∧ w.toNat = c ∧ w ≠ endAddress := by
    intro k c hc
    have hsound := hin.done.built.sound
    have hstart := t.start_le_entry
    rw [hpc]
    exact hw.fetch_storing (hin.keeps.instruction hsound (by omega) (hsound.lt_of_code hc) hc)
  obtain ⟨k, hrow, hk⟩ := hin.done.exists_storing_parameter hx
  obtain ⟨s', hs', hpc'⟩ := hcall.through hs (k := k) fun j hj => by
    obtain ⟨c, hc⟩ := hrow j hj
    obtain ⟨w, hi, -⟩ := hlater hc
    exact ⟨_, hi, rfl⟩
  obtain ⟨w, hi, rfl, hne⟩ := hlater hk
  rw [← hpc'] at hi
  -- it goes on behind the store, so there was an item to be stored
  obtain ⟨s'', hstep⟩ := step_of_mem_trail (mem_of_mem_tail hs')
  obtain ⟨i, hi', hexec⟩ := map_eq_some_iff.1 hstep
  obtain rfl : ⟨0x13, w⟩ = i := some.inj (hi.symm.trans hi')
  obtain ⟨y, rest, _, hstack, -, -⟩ := store_of_execute hexec rfl
  refine ⟨s', hs', y.tag.width, stored?_eq_some_iff.2 ⟨_, y, rest, hi, rfl, hstack, ?_, rfl⟩⟩
  rw [Segment.place, if_neg hne]

end Program

/-- A parameter, whether an activation of its function is pending or not, reads the same after a
    call if and only if the last store into its bytes during the call leaves its value there. If
    the image is whole, such stores are made whenever its function is entered; none of them
    declares a variable; they are all at the address of the parameter unless a store reaches from
    one variable into the next; and those at its address are of entries and assignments to its
    name, and leave its value just if they store it. -/
theorem parameter_kept_iff {p : List Node} {g : Generator} (hg : generateProgram p = .ok g)
    {m m' : Machine} {n : Nat} (hcall : m.Returns g.program n m') {t : Task}
    (ht : t ∈ programTasks p) {x : Atom} {w : UInt32} (hx : t.ParameterAt x w.toNat) {v : Item}
    (hv : m.memory.load w = .ok v) :
    (m'.memory.load w = .ok v ↔
      ∀ s, m.lastOverwrite g.program w v (n + 1) = some s → s.Leaves g.program w v) ∧
    (g.Whole →
      (∀ s ∈ m.inside g.program n, s.pc = t.entry →
        ∃ s' ∈ m.inside g.program n, ∃ width, s'.stored? g.program = some (w.toNat, width)) ∧
      ∀ s ∈ Machine.trail g.program (n + 1) m, s.overwrites g.program w v →
        ∃ a width, s.stored? g.program = some (a, width) ∧ s.declares g.program = false ∧
          (StaysWithin p a width → StaysWithin p w.toNat v.tag.width → a = w.toNat) ∧
          (a = w.toNat →
            (∃ u ∈ programTasks p, u.Covers s.pc ∧ ∃ y ∈ u.node.targets, y.same x) ∧
            (s.Leaves g.program w v ↔ s.stack.head?.map Item.kept = some v))) := by
  have hin := inside_of_mem_programTasks hg ht
  obtain ⟨hpos, d, hd, hname, heq⟩ := hin.done.declaration_of_parameterAt hx
  have hdecl := (namesFrom_of_mem_programTasks hg ht).2 hd
  refine ⟨?_, fun hw => ⟨fun s hs hpc => stored_of_entry hg hw hcall ht hx hs hpc, ?_⟩⟩
  · rw [Machine.load_of_steps hcall.steps]
    exact and_iff_left fun _ => hv
  · intro s hmem hover
    have hroom := (Memory.load_eq_ok_iff.1 hv).2.1
    have hsize := Machine.size_le_of_mem_trail hmem
    obtain ⟨a, width, hs, hleft, hright, hcode⟩ :=
      storing_of_overwrites hg hw (Nat.le_trans hroom hsize) hover
    refine ⟨a, width, hs, ?_, fun ha hw' => ?_, ?_⟩
    · rw [← Bool.not_eq_true, hw.declares_iff (regular_of_generateProgram hg), hcode]
      simp [Slot.declaring]
    · rw [← heq] at hw' hleft hright ⊢
      exact eq_address_of_overlap hg hdecl hcode ha hw' hleft hright
    · rintro rfl
      obtain ⟨s', hstep⟩ := Machine.step_of_mem_trail hmem
      refine ⟨?_, Machine.leaves_iff hstep hs⟩
      rw [← heq] at hcode hpos
      obtain ⟨u, hu, hcov, y, hy, hsame⟩ := assigns_of_store hg hdecl hpos hcode
      exact ⟨u, hu, hcov, y, hy, Atom.same_trans hsame hname⟩

/-- To find a stretch of a run: `k` instructions lead to it, and it takes `n` more. -/
theorem exists_steps {p : List Node} (k n : Nat) (Q : Generator → Machine → Machine → Prop)
    [∀ g m m', Decidable (Q g m m')]
    (h : (do
      let g ← (generateProgram p).toOption
      let m ← advance? g.program k {}
      let m' ← m.advance? g.program n
      guard (Q g m m')) = some ()) :
    ∃ g m m', generateProgram p = .ok g ∧ Machine.Steps g.program k {} m ∧
      Machine.Steps g.program n m m' ∧ Q g m m' := by
  obtain ⟨g, hg, h⟩ := bind_eq_some_iff.1 h
  obtain ⟨m, hm, h⟩ := bind_eq_some_iff.1 h
  obtain ⟨m', hm', h⟩ := bind_eq_some_iff.1 h
  have hq : Q g m m' := (guard_eq_some' ()).1 h
  obtain ⟨g', hg', rfl⟩ := exists_of_toOption (f := id) (congrArg (Option.map id) hg)
  exact ⟨g', m, m', hg', steps_iff.2 hm, steps_iff.2 hm', hq⟩

/-- To find a call: after `k` instructions there is one that comes back after `n` more. -/
theorem exists_returns {p : List Node} (k n : Nat) (Q : Generator → Machine → Machine → Prop)
    [∀ g m m', Decidable (Q g m m')]
    (h : (do
      let g ← (generateProgram p).toOption
      let m ← advance? g.program k {}
      let m' ← m.advance? g.program (n + 1)
      guard (m.Returns g.program n m' ∧ Q g m m')) = some ()) :
    ∃ g m m', generateProgram p = .ok g ∧ Machine.Steps g.program k {} m ∧
      m.Returns g.program n m' ∧ Q g m m' := by
  obtain ⟨g, m, m', hg, hm, -, hq⟩ := exists_steps k (n + 1) _ h
  exact ⟨g, m, m', hg, hm, hq⟩

/-- A function that calls another one: `func f(int a) -> int { return a; }` and
    `func g(int b) -> int { return f(1) + b; }`, with `int x = g(5);`. -/
def callingFunction : List Node :=
  [.function (.text "f") "INT" [⟨"INT", .text "a"⟩]
      [.giveBack (some (.literal "VARIABLE" (.text "f.a")))],
    .function (.text "g") "INT" [⟨"INT", .text "b"⟩]
      [.giveBack (some (.binary "+" (.call "f" [.literal "INT_LITERAL" (.int 1)] .system)
        (some (.literal "VARIABLE" (.text "g.b")))))],
    .declare (.text "x") "INT" (some (.call "g" [.literal "INT_LITERAL" (.int 5)] .system))]

/-- The inner call stores into its own parameter only. -/
theorem parameter_kept_calling : ∃ g m m', generateProgram callingFunction = .ok g ∧ g.Whole ∧
    Machine.Steps g.program 14 {} m ∧ m.Returns g.program 3 m' ∧
    ∃ t ∈ programTasks callingFunction, m.Pending t ∧ t.ParameterAt (.text "g.b") 12 ∧
      m.memory.load 12 = .ok ⟨.int, 5⟩ ∧ m'.memory.load 12 = .ok ⟨.int, 5⟩ := by
  obtain ⟨g, m, m', hg, hm, hcall, hw, hpc, hv, hlast⟩ := exists_returns (p := callingFunction) 14 3
    (fun g m _ => g.Whole ∧ m.pc = 15 ∧ m.memory.load 12 = .ok ⟨.int, 5⟩ ∧
      m.lastOverwrite g.program 12 ⟨.int, 5⟩ 4 = none) (by decide +kernel)
  let t : Task := ⟨callingFunction[1], after (generate callingFunction[0]) {}⟩
  have ht : t ∈ programTasks callingFunction :=
    List.mem_flatMap.2 ⟨t, List.mem_cons_of_mem _ List.mem_cons_self, Task.mem_all_self t⟩
  have hp : m.Pending t := ⟨15, by simp [hpc], by decide +kernel, by decide +kernel⟩
  have hx : t.ParameterAt (.text "g.b") 12 := ⟨by decide +kernel, by decide +kernel⟩
  refine ⟨g, m, m', hg, hw, hm, hcall, t, ht, hp, hx, hv, ?_⟩
  refine (parameter_kept_iff hg hcall ht hx hv).1.2 fun s hs => ?_
  rw [hlast] at hs
  cases hs

/-- A function that calls itself: `func f(int n) -> int { if (n == 0) { return 0; } return
    f(n - 1) + n; }` and `int x = f(3);`. -/
def callingItself : List Node :=
  let n := Node.literal "VARIABLE" (.text "f.n")
  let number (k : Int) := Node.literal "INT_LITERAL" (.int k)
  [.function (.text "f") "INT" [⟨"INT", .text "n"⟩]
      [.conditional (.binary "==" n (some (number 0))) [.giveBack (some (number 0))] [] none,
        .giveBack (some (.binary "+" (.call "f" [.binary "-" n (some (number 1))] .system)
          (some n)))],
    .declare (.text "x") "INT" (some (.call "f" [number 3] .system))]

/-- The first activation finds its parameter as the last one has left it. -/
theorem parameter_lost_recursion : ∃ g m m', generateProgram callingItself = .ok g ∧ g.Whole ∧
    Machine.Steps g.program 16 {} m ∧ m.Returns g.program 33 m' ∧
    ∃ t ∈ programTasks callingItself, m.Pending t ∧ t.ParameterAt (.text "f.n") 4 ∧
      m.memory.load 4 = .ok ⟨.int, 3⟩ ∧ m'.memory.load 4 = .ok ⟨.int, 0⟩ := by
  obtain ⟨g, m, m', hg, hm, hcall, hw, hpc, hv, hv'⟩ := exists_returns (p := callingItself) 16 33
    (fun g m m' => g.Whole ∧ m.pc = 16 ∧ m.memory.load 4 = .ok ⟨.int, 3⟩ ∧
      m'.memory.load 4 = .ok ⟨.int, 0⟩) (by decide +kernel)
  let t : Task := ⟨callingItself[0], {}⟩
  have ht : t ∈ programTasks callingItself :=
    List.mem_flatMap.2 ⟨t, List.mem_cons_self, Task.mem_all_self t⟩
  have hp : m.Pending t := ⟨16, by simp [hpc], by decide +kernel, by decide +kernel⟩
  have hx : t.ParameterAt (.text "f.n") 4 := ⟨by decide +kernel, by decide +kernel⟩
  exact ⟨g, m, m', hg, hw, hm, hcall, t, ht, hp, hx, hv, hv'⟩

end StackLang
