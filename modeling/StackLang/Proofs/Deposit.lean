import StackLang.Proofs.Balance
import StackLang.Proofs.Expression
import StackLang.Proofs.StoredWidth

/-!
# The declaration of a number

For each variable the generator keeps some bytes, by its type. The machine stores there what the code
of the declaration leaves, which takes as many bytes as its tag says. Whether that is as many can be
told from the tree of the declaration, and of a variable that is read for it from the tag that memory
has at its address.

* `Machine.InFrame`: a run from one state to another in the same frame;
* `Task.Deposits`: the code of a declaration computes a value and stores it;
* `Task.Deposits.yields`: the tag of what a run through the declaration comes to the store with;
* `Task.Yields.fits_iff`: whether it takes the bytes that are kept.
-/

namespace StackLang

open Gen List Option

/-! ### Runs in one frame -/

namespace Machine

variable {P : Program} {m m' s : Machine} {n b : Nat}

/-- The machine comes from `m` to `s` in one frame: it comes back from what it calls on the way, and
    it does not leave the function that it is in. -/
structure InFrame (P : Program) (n : Nat) (m s : Machine) : Prop where
  steps : Steps P n m s
  frames : s.frames = m.frames
  stays : ∀ r ∈ trail P n m, m.frames <:+ r.frames

namespace InFrame

theorem refl (m : Machine) : InFrame P 0 m m := ⟨.refl m, rfl, by simp [trail]⟩

theorem next (hstep : m.step P = some (.next m')) (hframes : m'.frames = m.frames)
    (h : InFrame P n m' s) : InFrame P (n + 1) m s where
  steps := .next hstep h.steps
  frames := h.frames.trans hframes
  stays := by
    rw [trail_succ hstep]
    exact forall_mem_cons.2 ⟨suffix_refl _, hframes ▸ h.stays⟩

end InFrame

/-- The instruction in front of the place is a call. -/
def BehindCall (P : Program) (f : Nat) : Prop := ∃ i, f = i + 1 ∧ P.operation? i = some .call

/-- As long as a run stays above some frames, what lies above them are places behind calls. -/
theorem frames_of_steps {base : List Nat} (h : Steps P n m s)
    (hstays : ∀ r ∈ trail P n m, base <:+ r.frames) (hs : base <:+ s.frames)
    (hm : ∃ fs, m.frames = fs ++ base ∧ ∀ f ∈ fs, BehindCall P f) :
    ∃ fs, s.frames = fs ++ base ∧ ∀ f ∈ fs, BehindCall P f := by
  induction h with
  | refl m => exact hm
  | @next n m m₁ s hstep hsteps ih =>
    rw [trail_succ hstep, forall_mem_cons] at hstays
    refine ih hstays.2 hs ?_
    have hm₁ : base <:+ m₁.frames := by
      cases hsteps with
      | refl => exact hs
      | next hstep' _ =>
        rw [trail_succ hstep'] at hstays
        exact hstays.2 m₁ mem_cons_self
    obtain ⟨fs, hframes, hfs⟩ := hm
    obtain ⟨i, hi, hexec⟩ := map_eq_some_iff.1 hstep
    obtain ⟨op, hop, hmoved⟩ := moved_of_execute hexec
    have hpop : P.operation? m.pc = some op := by
      rw [Program.operation?, show P[m.pc]? = some i from hi, bind_some, hop]
    have hgoes := hmoved.goes
    cases op with
    | call =>
      refine ⟨(m.pc + 1) :: fs, ?_, forall_mem_cons.2 ⟨⟨m.pc, rfl, hpop⟩, hfs⟩⟩
      rw [show m₁.frames = (m.pc + 1) :: m.frames from hgoes, hframes]
      rfl
    | giveBack =>
      -- what is taken lies above the frames that stay
      have hback : m.frames = m₁.pc :: m₁.frames := hgoes
      cases fs with
      | nil =>
        have hlen := hm₁.length_le
        rw [hframes, nil_append] at hback
        rw [hback, length_cons] at hlen
        omega
      | cons f fs =>
        rw [hframes, cons_append] at hback
        exact ⟨fs, (List.cons.inj hback).2.symm, (forall_mem_cons.1 hfs).2⟩
    | _ => exact ⟨fs, hgoes.2.trans hframes, hfs⟩

theorem Steps.last (h : Steps P (n + 1) m s) :
    ∃ r, Steps P n m r ∧ r.step P = some (.next s) ∧ trail P (n + 1) m = trail P n m ++ [r] := by
  induction n generalizing m with
  | zero =>
    cases h with
    | next hstep hs =>
      cases hs
      exact ⟨m, .refl m, hstep, trail_succ hstep⟩
  | succ n ih =>
    cases h with
    | @next _ _ m₁ _ hstep hs =>
      obtain ⟨r, hr, hlast, htrail⟩ := ih hs
      refine ⟨r, .next hstep hr, hlast, ?_⟩
      rw [trail_succ hstep, htrail, trail_succ hstep, cons_append]

/-- A run in one frame comes to a place that no jump leads to, and that is not behind a call, from the
    instruction in front of it. -/
theorem InFrame.last (h : InFrame P (n + 1) m s) (hpc : s.pc = b + 1)
    (hcall : P.operation? b ≠ some .call)
    (hjump : ∀ (i : Nat) (j : Instruction), P[i]? = some j →
      Operation.ofCode? j.code.toNat = some .jump ∨ Operation.ofCode? j.code.toNat = some .jumpIf →
        j.arg.toNat ≠ b + 1) :
    ∃ r : Machine, r.pc = b ∧ r.step P = some (.next s) := by
  obtain ⟨r, hr, hstep, htrail⟩ := h.steps.last
  refine ⟨r, ?_, hstep⟩
  have hstays := h.stays
  rw [htrail, forall_mem_append] at hstays
  have hrframes : m.frames <:+ r.frames := hstays.2 r (mem_singleton.2 rfl)
  obtain ⟨i, hi, hexec⟩ := map_eq_some_iff.1 hstep
  obtain ⟨op, hop, hmoved⟩ := moved_of_execute hexec
  have hgoes := hmoved.goes
  cases op with
  | jump => exact absurd (hgoes.1.symm.trans hpc) (hjump r.pc i hi (.inl hop))
  | jumpIf =>
    rcases hgoes.1 with htarget | hnext
    · exact absurd (htarget.symm.trans hpc) (hjump r.pc i hi (.inr hop))
    · omega
  | call =>
    have hcalled : s.frames = (r.pc + 1) :: r.frames := hgoes
    have hlen := hrframes.length_le
    rw [← h.frames, hcalled, length_cons] at hlen
    omega
  | giveBack =>
    -- the place on top of the frames would be behind a call
    have hback : r.frames = s.pc :: s.frames := hgoes
    obtain ⟨fs, hfs, hbehind⟩ := frames_of_steps hr hstays.1 hrframes ⟨[], rfl, by simp⟩
    rw [hback, h.frames, ← singleton_append, append_left_inj] at hfs
    obtain ⟨k, hk, hop⟩ := hbehind s.pc (hfs ▸ mem_singleton.2 rfl)
    obtain rfl : k = b := by omega
    exact absurd hop hcall
  | _ =>
    have := hgoes.1
    omega

end Machine

/-! ### Declarations of numbers and truth values -/

/-- The types of numbers and truth values. -/
def numericTypes : List String := ["INT", "BYTE", "FLOAT", "BOOL"]

namespace Node

variable {n : Node}

/-- The node declares a variable of such a type. -/
def declaresNumeric : Node → Bool
  | .declare _ t _ => t ∈ numericTypes
  | _ => false

theorem declare_of_declaresNumeric (h : n.declaresNumeric) :
    ∃ name, ∃ type ∈ numericTypes, ∃ v, n = .declare name type v := by
  cases n with
  | declare name type v => exact ⟨name, type, of_decide_eq_true h, v, rfl⟩
  | _ => cases h

/-- How many bytes the generator keeps for the variable. -/
def kept : Node → Nat
  | .declare _ t _ => if t = "BOOL" then 1 else 4
  | _ => 0

/-- The variable that an expression is. -/
def readName? : Node → Option Atom
  | .literal k a => if k = "VARIABLE" then some a else none
  | _ => none

theorem eq_of_readName? {a : Atom} (h : n.readName? = some a) : n = .literal "VARIABLE" a := by
  cases n with
  | literal k b =>
    rw [readName?, ite_none_right_eq_some, some.injEq] at h
    rw [h.1, h.2]
  | _ => cases h

/-- How many bytes the first value of the variable takes, where the tree tells. Of variables that are
    read for it, `known` tells. -/
def stored? (objects : Table Atom) (known : Atom → Option Nat) : Node → Option Nat
  | .declare _ t none => (scalarTag? t).map Tag.width
  | .declare _ _ (some v) =>
    match v.readName? with
    | some a => known a
    | none => v.width? objects
  | _ => none

end Node

/-- Where the declaration stores the given item, it fits into what is kept for the variable. What is
    not known of the item, its tag tells. -/
def Task.Fits (known : Atom → Option Nat) (t : Task) (x : Item) : Prop :=
  (t.node.stored? t.finish.objects known).getD x.tag.width = t.node.kept

instance (known : Atom → Option Nat) (t : Task) (x : Item) : Decidable (t.Fits known x) :=
  inferInstanceAs (Decidable (_ = _))

/-- A variable without a first value gets the zero of its type. -/
theorem initial_of_numeric {type : String} (ht : type ∈ numericTypes) {c : Nat}
    (h : opcodes.lookup (initialInstruction type) = some c) :
    (Slot.instruction c (.int 0)).Computes false ∧
      ∀ t, scalarTag? type = some t → (Slot.instruction c (.int 0)).Tops t.width := by
  have hcodes : ∀ type ∈ numericTypes, ∃ c ∈ opcodes.lookup (initialInstruction type),
      (c < 256 ∧ c ∉ [Op.jump, Op.jumpIf, Op.ret, Op.storeMem] ∧ c ≠ Op.call) ∧
        (scalarTag? type).map Operation.push = Operation.ofCode? c.toUInt8.toNat := by
    decide
  obtain ⟨k, hk, ⟨hlt, hnot, hcall⟩, hop⟩ := hcodes type ht
  obtain rfl : c = k := some.inj (h.symm.trans hk)
  refine ⟨⟨hlt, hnot, (absurd · hcall)⟩, fun t htag => Slot.tops_push ?_⟩
  rw [← hop, htag]
  rfl

variable {g g' : Generator}

/-- There is code of `g'` behind that of `g`, and its last instruction loads the variable. -/
def LoadsLast (a : Atom) (g g' : Generator) : Prop :=
  ∃ (h : Generator) (i : Nat), g' = h.push (.instruction Op.load (.int i)) ∧ g.length ≤ h.length ∧
    g'.identifiers.get? a = some i

/-- The code of a declaration: what computes the value, and the store. -/
theorem code_of_declare {calls : Bool} {name : Atom} {type : String} {v : Option Node}
    (ht : type ∈ numericTypes)
    (hv : ∀ x ∈ v, x.Throughout fun m => m.isExpression ∧ (m.mayCall → calls))
    (e : Ends (generate (.declare name type v)) g () g') :
    ∃ k, g' = k.push .declaring ∧ Computes calls (g.reserved name type) k ∧
      ∀ known w, (Node.declare name type v).stored? g'.objects known = some w →
        TopsLast w g k ∨ ∃ a, known a = some w ∧ LoadsLast a g k := by
  simp only [generate_declare, ends_bind, ends_reserve, ends_emitInt] at e
  obtain ⟨_, _, rfl, _, h, e₁, _, k, e₂, rfl⟩ := e
  have hnote : Computes calls (g.reserved name type) h ∧ g.length = h.length := by
    unfold noteObject at e₁
    split at e₁
    · obtain rfl := ends_modify.1 e₁
      exact ⟨⟨rfl, rfl, [], by simp, by simp⟩, rfl⟩
    · obtain ⟨-, rfl⟩ := ends_pure.1 e₁
      exact ⟨.refl _, rfl⟩
  refine ⟨k, rfl, hnote.1.trans ?_, fun known w hw => ?_⟩
  · cases v with
    | none =>
      simp only [initialCode] at e₂
      split at e₂
      · rename_i hcode
        have hs := (initial_of_numeric ht hcode).1
        exact ends_emitInt.1 e₂ ▸ (Computes.refl h).push ⟨hs.1, hs.2.1, fun hc => by cases hs.2.2 hc⟩
      · exact absurd e₂ ends_throw
    | some x => exact computes_of_ends (hv x rfl) e₂
  · cases v with
    | none =>
      simp only [initialCode] at e₂
      split at e₂
      · rename_i hcode
        obtain ⟨t, htag, rfl⟩ := map_eq_some_iff.1 hw
        have hlast := (initial_of_numeric ht hcode).2 t htag
        exact .inl (ends_emitInt.1 e₂ ▸ .push (Nat.le_of_eq hnote.2) hlast)
      · exact absurd e₂ ends_throw
    | some x =>
      rw [Node.stored?] at hw
      split at hw
      · rename_i a ha
        rw [Node.eq_of_readName? ha] at e₂
        obtain ⟨i, hi, rfl⟩ := Node.Scalar.ends_variable e₂
        exact .inr ⟨a, hw, h, i, rfl, Nat.le_of_eq hnote.2, hi⟩
      · obtain ⟨l, s, hk, hle, hs⟩ := tops_of_ends (show x.width? k.objects = some w from hw) e₂
        exact .inl ⟨l, s, hk, hnote.2 ▸ hle, hs⟩

/-- The node declares a number or a truth value. Its first value, if it is given one, is an
    expression; it calls functions of the program only if `calls` says so. -/
def Node.Numeric (calls : Bool) (n : Node) : Prop :=
  ∃ name, ∃ type ∈ numericTypes, ∃ v, n = .declare name type v ∧
    ∀ x ∈ v, x.Throughout fun m => m.isExpression ∧ (m.mayCall → calls)

theorem Generator.Sound.size_of_push {s : Slot} (h : (g.push s).Sound) : g.code.size = g.length := by
  simpa [Generator.push] using h.size

namespace Task

variable {calls : Bool} {t : Task} {k : Generator}

/-- The code of the task up to `k` computes a value, and then it is stored. -/
structure Deposits (calls : Bool) (t : Task) (k : Generator) : Prop where
  finish : t.finish = k.push .declaring
  sound : t.finish.Sound
  start_le : t.start.length ≤ k.length
  code : ∀ {i : Nat} {s : Slot}, t.start.length ≤ i → k.code[i]? = some s → s.Computes calls
  jumps : ∀ {i x : Nat}, t.finish.JumpsTo i x → t.start.JumpsTo i x
  memory : t.finish.memory = t.start.memory + t.node.kept
  identifiers : ∀ {name : Atom} {type : String} {v : Option Node}, t.node = .declare name type v →
    t.finish.identifiers = t.start.identifiers.put name t.start.memory
  top : ∀ {known : Atom → Option Nat} {w : Nat}, t.node.stored? t.finish.objects known = some w →
    TopsLast w t.start k ∨ ∃ a, known a = some w ∧ LoadsLast a t.start k

namespace Deposits

theorem size (hd : t.Deposits calls k) : k.code.size = k.length := by
  have hsound := hd.sound
  rw [hd.finish] at hsound
  exact hsound.size_of_push

theorem code_of_lt (hd : t.Deposits calls k) {i : Nat} (hi : i < k.length) :
    t.finish.code[i]? = k.code[i]? := by
  rw [hd.finish, Generator.push, Array.getElem?_push, if_neg (by rw [hd.size]; omega)]

theorem code_length (hd : t.Deposits calls k) : t.finish.code[k.length]? = some .declaring := by
  rw [hd.finish, Generator.push, Array.getElem?_push, if_pos hd.size.symm]

theorem length (hd : t.Deposits calls k) : t.finish.length = k.length + 1 := by
  rw [hd.finish]
  rfl

end Deposits

theorem Done.deposits (ht : t.Done) (hn : t.node.Numeric calls) : ∃ k, t.Deposits calls k := by
  obtain ⟨name, type, htype, v, hnode, hv⟩ := hn
  have e := ht.ends
  rw [hnode] at e
  obtain ⟨k, hfinish, hcode, htop⟩ := code_of_declare htype hv e
  have hsound := ht.built.sound
  have hsize : k.code.size = k.length := (hfinish ▸ hsound : (k.push _).Sound).size_of_push
  refine ⟨k, hfinish, hsound, ?_, fun hi hs => hcode.slot ?_ hs, fun hj => ?_, ?_, ?_, ?_⟩
  · rw [← ht.sound.size, ← hsize]
    exact hcode.size_le
  · rwa [Generator.reserved_code, ht.sound.size]
  · obtain ⟨c, hc, hi⟩ := hj
    rw [hfinish, Generator.push, Array.getElem?_push] at hi
    split at hi
    · obtain ⟨rfl, -⟩ := Slot.instruction.inj (some.inj hi)
      exact absurd hc (by decide)
    · exact hcode.jumpsTo ⟨c, hc, hi⟩
  · have hchar : type ≠ "CHAR" := by
      rintro rfl
      exact absurd htype (by decide)
    rw [hfinish, Generator.push_memory, hcode.memory, hnode]
    simp [Generator.reserved, Node.kept, hchar]
  · intro name' type' v' heq
    obtain ⟨rfl, -, -⟩ := Node.declare.inj (hnode.symm.trans heq)
    rw [hfinish]
    exact hcode.identifiers
  · rw [hnode]
    exact htop _ _

end Task

/-! ### One declaration -/

/-- A load leaves what memory has at the address. -/
theorem Act.loaded_of_load {address : UInt32} {m m' : Machine}
    (h : Act.load address m = (.ok (), m')) :
    ∃ x, m.memory.load address = .ok x ∧ m'.stack.head? = some x ∧ m'.memory = m.memory := by
  cases hx : m.memory.load address with
  | error e =>
    rw [Act.load, Act.run_get_bind, hx] at h
    cases h
  | ok x =>
    by_cases hlen : m.stack.length < stackLimit
    · rw [Act.run_load hx hlen] at h
      cases h
      exact ⟨x, rfl, rfl, rfl⟩
    · rw [Act.run_load_full hx (Nat.not_lt.1 hlen)] at h
      cases h

section

variable {p : List Node} {t : Task} {k : Generator} {calls : Bool} {i n : Nat} {m s : Machine}
  {x : Item}

theorem inside_of_mem_allTasks (h : generateProgram p = .ok g) (ht : t ∈ allTasks p {}) :
    t.Inside {} g := Task.inside_of_course (course_of_generateProgram h) .initial ht

/-- No jump leads into the code of such a declaration. -/
theorem Task.Deposits.apart (hd : t.Deposits calls k) (h : generateProgram p = .ok g)
    (ht : t ∈ allTasks p {}) {x : Nat} (hj : g.JumpsTo i x) : t.Apart x := by
  have c := course_of_generateProgram h
  cases c.aimed .initial hj with
  | old hj => exact absurd (hj.lt_length .initial) (Nat.not_lt_zero _)
  | own _ _ _ hapart => exact hapart t ht
  | @part u hu hj hnew =>
    -- the jumps of another statement stay there
    have hrange := ((inside_of_mem_allTasks h hu).done.clear_of_jumpsTo hj).resolve_left hnew
    rcases c.eq_or_before .initial ht hu with rfl | hle | hle
    · exact absurd (hd.jumps hj) hnew
    · exact .inr (Nat.le_trans hle hrange.1)
    · exact .inl (Nat.le_trans hrange.2.1 hle)

/-- A run through the declaration comes to the store from the instruction in front of it, which is no
    call. -/
theorem Task.Deposits.last {l : Generator} {c : Nat} {a : Argument} {op : Operation}
    (hd : t.Deposits calls (l.push (.instruction c a))) (h : generateProgram p = .ok g)
    (hw : g.Whole) (ht : t ∈ allTasks p {}) (hle : t.start.length ≤ l.length)
    (hop : Operation.ofCode? c.toUInt8.toNat = some op) (hcall : op ≠ .call)
    (hm : m.pc = t.start.length) (hs : s.pc + 1 = t.finish.length)
    (hrun : Machine.InFrame g.program n m s) :
    ∃ r word, Image.argumentWord? a = .ok (some word) ∧ Act.perform op word r = (.ok (), s) := by
  have hsize : l.code.size = l.length := by simpa [Generator.push] using hd.size
  have hfinish : t.finish.length = l.length + 2 := hd.length
  have hcode : t.finish.code[l.length]? = some (.instruction c a) := by
    rw [hd.code_of_lt (Nat.lt_succ_self _), Generator.push, Array.getElem?_push, if_pos hsize.symm]
  obtain ⟨word, harg, hfetch⟩ := (inside_of_mem_allTasks h ht).fetch hw hle hcode
  cases n with
  | zero =>
    cases hrun.steps
    omega
  | succ n =>
    obtain ⟨r, hr, hstep⟩ := hrun.last (b := l.length) (by omega)
      (by rw [Program.operation?, hfetch, bind_some, hop]; simpa using hcall)
      (fun i j hi hj heq => by
        have hapart := hd.apart h ht (jumpsTo_of_fetch h hw hi hj)
        unfold Task.Apart at hapart
        omega)
    obtain ⟨i, hi, hexec⟩ := map_eq_some_iff.1 hstep
    rw [Machine.fetch, hr, hfetch, some.injEq] at hi
    subst hi
    obtain ⟨op', hop', hact⟩ := Machine.perform_of_execute hexec
    obtain rfl : op = op' := some.inj (hop.symm.trans hop')
    exact ⟨_, word, harg, hact⟩

/-- The machine has an item as the first value of the variable: it has the width that the tree tells,
    or it has been read from a variable and has the tag that memory has there. -/
def Task.Yields (t : Task) (s : Machine) (x : Item) : Prop :=
  ∀ (known : Atom → Option Nat) (w : Nat), t.node.stored? t.finish.objects known = some w →
    x.tag.width = w ∨ ∃ a i, known a = some w ∧ t.finish.identifiers.get? a = some i ∧
      i < s.memory.cells.size ∧ s.memory.tag i = x.tag

/-- If what is known of variables is so, the item fits if and only if it takes the bytes that are
    kept. -/
theorem Task.Yields.fits_iff {known : Atom → Option Nat} (hy : t.Yields s x)
    (hknown : ∀ a w i, known a = some w →
      t.finish.identifiers.get? a = some i → i < s.memory.cells.size → (s.memory.tag i).width = w) :
    t.Fits known x ↔ t.node.kept = x.tag.width := by
  have hwidth : (t.node.stored? t.finish.objects known).getD x.tag.width = x.tag.width := by
    cases hstored : t.node.stored? t.finish.objects known with
    | none => rfl
    | some w =>
      rcases hy known w hstored with hx | ⟨a, i, ha, hi, hlt, htag⟩
      · exact hx.symm
      · rw [getD_some, ← hknown a w i ha hi hlt, htag]
  rw [Task.Fits, hwidth]
  exact eq_comm

section

variable (hd : t.Deposits calls k) (h : generateProgram p = .ok g) (hw : g.Whole)
  (ht : t ∈ allTasks p {})

include hd h hw ht

/-- A run through the declaration comes to the store with such an item on top of the stack. -/
theorem Task.Deposits.yields (hm : m.pc = t.start.length) (hs : s.pc + 1 = t.finish.length)
    (hrun : Machine.InFrame g.program n m s) (hx : s.stack.head? = some x) : t.Yields s x := by
  intro known w hstored
  rcases hd.top hstored with ⟨l, slot, rfl, hle, htops⟩ | ⟨a, ha, l, i, rfl, hle, hi⟩
  · cases slot with
    | instruction c a =>
      obtain ⟨op, hop, hcall, htops⟩ := htops
      obtain ⟨r, word, harg, hact⟩ := hd.last h hw ht hle hop hcall hm hs hrun
      obtain ⟨y, hy, hwidth⟩ := htops word harg _ _ _ hact
      obtain rfl : y = x := some.inj (hy.symm.trans hx)
      exact .inl hwidth
    | label _ | bare _ => exact htops.elim
  · obtain ⟨r, word, harg, hact⟩ := hd.last h hw ht hle rfl Operation.noConfusion hm hs hrun
    obtain ⟨y, hload, hy, hmemory⟩ := Act.loaded_of_load hact
    obtain rfl : y = x := some.inj (hy.symm.trans hx)
    obtain ⟨htag, hin, -⟩ := Memory.load_eq_ok_iff.1 hload
    have hword : (i : Int) = word.toNat := eq_toNat_of_word (Int.natCast_nonneg i) harg
    have hpos := y.tag.width_pos
    rw [show word.toNat = i by omega, ← hmemory] at htag hin
    refine .inr ⟨a, i, ha, ?_, by omega, htag⟩
    rw [hd.finish]
    exact hi

/-- The last instruction of the declaration is the store. -/
theorem Task.Deposits.declares (hs : s.pc = k.length) : s.declares g.program := by
  have hin := inside_of_mem_allTasks h ht
  refine (hw.declares_iff (regular_of_generateProgram h)).2 ?_
  rw [hs]
  refine hin.keeps.instruction hin.done.built.sound hd.start_le ?_ hd.code_length
  rw [hd.length]
  exact Nat.lt_succ_self _

/-- What the machine finds in front of the store computes the value. -/
theorem Task.Deposits.fetch (hstart : t.start.length ≤ i) (hi : i < k.length) :
    ∃ c a w, (Slot.instruction c a).Computes calls ∧
      g.program[i]? = some ⟨c.toUInt8, w⟩ := by
  have hlt : i < k.code.size := hd.size.symm ▸ hi
  have hs := Array.getElem?_eq_getElem hlt
  have hcode := (hd.code_of_lt hi).trans hs
  have hcomputes := hd.code hstart hs
  generalize k.code[i] = slot at hcode hcomputes
  cases slot with
  | instruction c a =>
    obtain ⟨w, -, hfetch⟩ := (inside_of_mem_allTasks h ht).fetch hw hstart hcode
    exact ⟨c, a, w, hcomputes, hfetch⟩
  | label _ | bare _ => exact hcomputes.elim

end

end

end StackLang
