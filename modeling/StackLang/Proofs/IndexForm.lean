import StackLang.Proofs.Conversion
import StackLang.Proofs.ListBlock

/-!
# Indices that are written and indices that are computed

The index of an element stands in the instruction itself if it is written as a number, and is
computed and taken from the stack if it is an expression. An instruction tells the two apart by
its argument: minus one means the stack. So the number minus one cannot be written as an index:
its instruction takes the list for the index, and what lies below for the list.

What a piece of code does in the end is its *effect*: the trap that stops it, if there is one, and
the machine that is left. The place of the next instruction does not count, and neither does the
report of the trap, which names the argument of the instruction.

* `Machine.HasEffect.unique`: a piece of code has one effect;
* `Act.effects_differ`: with one item more on the stack, an access or an assignment has
  another effect;
* `index_alike_iff`: when a written and a computed index have the same effect.
-/

namespace StackLang

open Act

/-! ### Effects -/

/-- What a piece of code does to the machine in the end. -/
structure Effect where
  /-- The trap that stops the code, if there is one. -/
  trap : Option Trap
  /-- The machine that is left, apart from its place. -/
  left : Machine
  deriving DecidableEq

namespace Machine

variable {P : Program} {m m₁ : Machine} {a b : Nat} {r r' : Effect}

/-- The machine apart from its place. -/
def unplaced (m : Machine) : Machine := { m with pc := 0 }

/-- The machine runs the code from its place up to `b` to its end, or into a trap. Until then it
    leaves that code only into calls. -/
inductive HasEffect (P : Program) (m : Machine) (b : Nat) : Effect → Prop
  | done {m' : Machine} (h : m.Runs P b m') : HasEffect P m b ⟨none, m'.unplaced⟩
  | trapped {n : Nat} {s s' : Machine} {i : Instruction} {op : Operation} {t : Trap}
    (hs : Steps P n m s)
    (hin : ∀ k ≤ n, ∀ r, Steps P k m r → r.frames = m.frames → m.pc ≤ r.pc ∧ r.pc < b)
    (hi : s.fetch P = some i) (hop : Operation.ofCode? i.code.toNat = some op)
    (hact : Act.perform op i.arg { s with pc := s.pc + 1 } = (.error (.failed t), s')) :
    HasEffect P m b ⟨some t, s'.unplaced⟩

namespace HasEffect

/-- A run does not go on behind a trap. -/
theorem le_of_failed {n k : Nat} {s s' : Machine} {i : Instruction} {op : Operation} {t : Trap}
    (hs : Steps P n m s) (hi : s.fetch P = some i)
    (hop : Operation.ofCode? i.code.toNat = some op)
    (hact : perform op i.arg s.onward = (.error (.failed t), s'))
    (hk : Steps P k m m₁) : k ≤ n := by
  by_contra hlt
  obtain ⟨j, rfl⟩ := Nat.exists_eq_add_of_lt (Nat.lt_of_not_le hlt)
  rw [Nat.add_assoc] at hk
  obtain ⟨s₁, hs₁, hj⟩ := hk.split
  obtain rfl := hs.unique hs₁
  obtain ⟨m'', hstep⟩ := step_of_failed hi hop hact
  cases hj with
  | next hnext _ =>
    rw [hstep] at hnext
    cases hnext

theorem unique (h : m.HasEffect P b r) (h' : m.HasEffect P b r') : r = r' := by
  -- a run to the end is at `b` while a run into a trap is before it
  have apart : ∀ {m' n s s' i op t}, m.Runs P b m' → Steps P n m s →
      (∀ k ≤ n, ∀ r, Steps P k m r → r.frames = m.frames → m.pc ≤ r.pc ∧ r.pc < b) →
      s.fetch P = some i → Operation.ofCode? i.code.toNat = some op →
      perform op i.arg s.onward = (.error (.failed t), s') → False := by
    rintro m' n s s' i op t ⟨k, hk, hpc, hframes, -⟩ hs hin hi hop hact
    have := (hin k (le_of_failed hs hi hop hact hk) m' hk hframes).2
    omega
  cases h with
  | done h =>
    cases h' with
    | done h' => rw [h.unique h']
    | trapped hs hin hi hop hact => exact (apart h hs hin hi hop hact).elim
  | trapped hs hin hi hop hact =>
    cases h' with
    | done h' => exact (apart h' hs hin hi hop hact).elim
    | trapped hs' hin' hi' hop' hact' =>
      have hn := Nat.le_antisymm (le_of_failed hs' hi' hop' hact' hs)
        (le_of_failed hs hi hop hact hs')
      subst hn
      obtain rfl := hs.unique hs'
      rw [hi, Option.some_inj] at hi'
      subst hi'
      rw [hop, Option.some_inj] at hop'
      subst hop'
      rw [hact] at hact'
      cases hact'
      rfl

/-- The effect of code is that of its rest, once a part of it has run. -/
theorem of_runs (hrun : m.Runs P a m₁) (ha : m.pc ≤ a) (hb : a ≤ b) (h : m₁.HasEffect P b r) :
    m.HasEffect P b r := by
  cases h with
  | done h => exact .done (hrun.trans h ha hb)
  | trapped hs hin hi hop hact =>
    obtain ⟨n', hs', hpc, hframes, hin'⟩ := hrun
    refine .trapped (hs'.trans hs) (fun k hk s hks hsf => ?_) hi hop hact
    have hfirst := hin 0 (Nat.zero_le _) m₁ (.refl m₁) rfl
    by_cases hkn : k < n'
    · have := hin' k hkn s hks hsf
      omega
    · obtain ⟨j, rfl⟩ := Nat.exists_eq_add_of_le (Nat.le_of_not_lt hkn)
      obtain ⟨s₁, hs₁, hj⟩ := hks.split
      obtain rfl := hs₁.unique hs'
      have := hin j (by omega) s hj (hsf.trans hframes.symm)
      omega

end HasEffect

end Machine

namespace Act

variable {α β : Type} {m : Machine}

/-- The effect of an act, unless it stops the machine in another way than by a trap. -/
def effect (a : Act Unit) (m : Machine) : Option Effect :=
  match a m with
  | (.ok _, m') => some ⟨none, m'.unplaced⟩
  | (.error (.failed t), m') => some ⟨some t, m'.unplaced⟩
  | (.error _, _) => none

/-- The act neither looks at the place and the frames of the machine nor changes them. -/
def Placeless (a : Act α) : Prop :=
  ∀ m pc frames, a { m with pc, frames } = ((a m).1, { (a m).2 with pc, frames })

namespace Placeless

theorem pop : Placeless pop := by
  rintro ⟨_, _, _ | ⟨x, rest⟩, memory, heap, input, output, files⟩ pc frames <;> rfl

theorem push (x : Item) : Placeless (push x) := by
  intro m pc frames
  by_cases h : m.stack.length < stackLimit
  · rw [run_push (m := { m with pc, frames }) h, run_push h]
  · rw [run_push_full (m := { m with pc, frames }) (Nat.le_of_not_lt h),
      run_push_full (Nat.le_of_not_lt h)]

theorem block (n : Nat) : Placeless (block n) := fun _ _ _ => rfl

theorem readBlock (n offset width : Nat) : Placeless (Act.readBlock n offset width) := by
  intro m pc frames
  unfold Act.readBlock
  rw [run_get_bind, run_get_bind]
  cases m.heap.read n offset width <;> rfl

theorem writeBlock (n : Nat) (w : UInt32) (offset width : Nat) :
    Placeless (Act.writeBlock n w offset width) := by
  intro m pc frames
  unfold Act.writeBlock
  rw [run_get_bind, run_get_bind]
  dsimp only
  cases m.heap.write n w offset width <;> rfl

theorem bind {a : Act α} {f : α → Act β} (ha : Placeless a) (hf : ∀ x, Placeless (f x)) :
    Placeless (a >>= f) := by
  intro m pc frames
  rw [run_bind, run_bind, ha]
  rcases a m with ⟨_ | x, m'⟩
  · rfl
  · exact hf x m' pc frames

theorem elementAt (i : Nat) : Placeless (elementAt i) :=
  bind pop fun _ => bind (block _) fun _ => bind (readBlock _ _ _) fun _ => push _

theorem setElementAt (i : Nat) : Placeless (setElementAt i) :=
  bind pop fun _ => bind pop fun _ => bind (block _) fun _ => writeBlock _ _ _ _

theorem keeps {a : Act α} (ha : Placeless a) (m : Machine) :
    (a m).2.pc = m.pc ∧ (a m).2.frames = m.frames := by
  have h : a m = ((a m).1, { (a m).2 with pc := m.pc, frames := m.frames }) := ha m m.pc m.frames
  rw [h]
  exact ⟨rfl, rfl⟩

/-- So its effect is the same at every place. -/
theorem effect_eq {a : Act Unit} (ha : Placeless a) (m : Machine) (pc : Nat) :
    a.effect { m with pc } = a.effect m := by
  have h : a { m with pc } = ((a m).1, { (a m).2 with pc, frames := m.frames }) := ha m pc m.frames
  have hframes := (ha.keeps m).2
  unfold effect
  rw [h]
  rcases hr : a m with ⟨_ | _, m'⟩
  · rename_i e
    rw [hr] at hframes
    cases e with
    | failed t =>
      dsimp only [Machine.unplaced] at hframes ⊢
      rw [← hframes]
    | exited | stuck => rfl
  · rw [hr] at hframes
    dsimp only [Machine.unplaced] at hframes ⊢
    rw [← hframes]

end Placeless

/-- The act takes `n` items from the stack and, if no trap stops it, leaves `c` others. It traps
    for want of items just if there are fewer. -/
def Counts (a : Act Unit) (n c : Nat) : Prop :=
  ∀ m : Machine, ∃ r, a.effect m = some r ∧
    (m.stack.length < n → r.trap = some .underflow) ∧
    (n ≤ m.stack.length → r.trap ≠ some .underflow ∧
      r.left.stack.length + n = m.stack.length + if r.trap = none then c else 0)

namespace Counts

variable {n c : Nat}

theorem push (x : Item) : Counts (push x) 0 1 := by
  intro m
  by_cases h : m.stack.length < stackLimit
  · rw [effect, run_push h]
    exact ⟨_, rfl, fun h => absurd h (Nat.not_lt_zero _), fun _ => ⟨by simp, rfl⟩⟩
  · rw [effect, run_push_full (Nat.le_of_not_lt h)]
    exact ⟨_, rfl, fun h => absurd h (Nat.not_lt_zero _), fun _ => ⟨by simp, rfl⟩⟩

theorem writeBlock (k : Nat) (w : UInt32) (offset width : Nat) :
    Counts (Act.writeBlock k w offset width) 0 0 := by
  intro m
  cases hw : m.heap.write k w offset width with
  | error t =>
    rw [effect, run_writeBlock_error hw]
    refine ⟨_, rfl, fun h => absurd h (Nat.not_lt_zero _), fun _ => ⟨fun h => ?_, rfl⟩⟩
    exact Heap.write_ne_underflow (Option.some.inj h ▸ hw)
  | ok heap =>
    rw [effect, run_writeBlock hw]
    exact ⟨_, rfl, fun h => absurd h (Nat.not_lt_zero _), fun _ => ⟨by simp, rfl⟩⟩

theorem readBlock {f : UInt32 → Act Unit} (hf : ∀ w, Counts (f w) 0 c) (k offset width : Nat) :
    Counts (Act.readBlock k offset width >>= f) 0 c := by
  intro m
  cases hw : m.heap.read k offset width with
  | error t =>
    rw [effect, run_bind_error (run_readBlock_error hw)]
    refine ⟨_, rfl, fun h => absurd h (Nat.not_lt_zero _), fun _ => ⟨fun h => ?_, rfl⟩⟩
    exact Heap.read_ne_underflow (Option.some.inj h ▸ hw)
  | ok w =>
    rw [effect, run_bind_ok (run_readBlock hw)]
    exact hf w m

theorem block {f : Block → Act Unit} (hf : ∀ b, Counts (f b) n c) (k : Nat) :
    Counts (block k >>= f) n c := fun m => hf (m.heap.block k) m

/-- An act that begins with taking an item takes one more than the rest of it. -/
theorem pop {f : Item → Act Unit} (hf : ∀ x, Counts (f x) n c) :
    Counts (pop >>= f) (n + 1) c := by
  intro m
  cases hs : m.stack with
  | nil =>
    rw [effect, run_bind_error (run_pop_nil hs)]
    exact ⟨_, rfl, fun _ => rfl, fun h => absurd h (Nat.not_succ_le_zero n)⟩
  | cons x rest =>
    obtain ⟨r, hr, hunder, hcount⟩ := hf x { m with stack := rest }
    rw [effect, run_bind_ok (run_pop hs)]
    refine ⟨r, hr, fun h => hunder (Nat.lt_of_succ_lt_succ h), fun h => ?_⟩
    obtain ⟨hne, hlen⟩ := hcount (Nat.le_of_succ_le_succ h)
    refine ⟨hne, ?_⟩
    rw [List.length_cons, ← Nat.add_assoc, hlen, Nat.add_right_comm]

theorem elementAt (i : Nat) : Counts (elementAt i) 1 1 :=
  pop fun _ => block (fun _ => readBlock (fun _ => push _) _ _ _) _

theorem setElementAt (i : Nat) : Counts (setElementAt i) 2 0 :=
  pop fun _ => pop fun _ => block (fun _ => writeBlock _ _ _ _) _

end Counts

/-- Run where there is one item more, an act that counts has another effect. -/
theorem effects_differ {a a' : Act Unit} {n c : Nat} (ha : Counts a n c) (ha' : Counts a' n c)
    {m m' : Machine} {r r' : Effect} (hr : a.effect m = some r) (hr' : a'.effect m' = some r')
    (hlen : m'.stack.length = m.stack.length + 1) (hn : n ≤ m'.stack.length) : r ≠ r' := by
  obtain ⟨r₁, hr₁, hunder, hcount⟩ := ha m
  obtain ⟨r₂, hr₂, -, hcount'⟩ := ha' m'
  obtain rfl : r = r₁ := Option.some.inj (hr.symm.trans hr₁)
  obtain rfl : r' = r₂ := Option.some.inj (hr'.symm.trans hr₂)
  obtain ⟨hne', hleft'⟩ := hcount' hn
  rintro rfl
  by_cases hshort : m.stack.length < n
  · exact hne' (hunder hshort)
  · obtain ⟨-, hleft⟩ := hcount (Nat.le_of_not_lt hshort)
    omega

end Act

/-! ### Access and assignment -/

/-- What is done with an element of a list, by an instruction that has its index: when the index
    stands in the instruction, which instruction it is, and what it does. -/
structure ElementUse where
  inPlace : Node → Bool
  code : Nat
  act : Nat → Act Unit
  /-- How many items it takes besides the index. -/
  takes : Nat
  leaves : Nat
  inPlace_of_number : ∀ k v, k ≠ "VARIABLE" → inPlace (.literal k v) = true
  perform : ∀ arg, ∃ op, Operation.ofCode? code.toUInt8.toNat = some op ∧
    Act.perform op arg = Act.index arg >>= act
  placeless : ∀ i, (act i).Placeless
  counts : ∀ i, (act i).Counts takes leaves

/-- An access. -/
def ElementUse.access : ElementUse where
  inPlace := Node.isUnary
  code := Op.listAccess
  act := Act.elementAt
  takes := 1
  leaves := 1
  inPlace_of_number _ _ _ := rfl
  perform _ := ⟨.element, rfl, rfl⟩
  placeless := .elementAt
  counts := .elementAt

/-- An assignment. -/
def ElementUse.assignment : ElementUse where
  inPlace := Gen.isConstant
  code := Op.listSet
  act := Act.setElementAt
  takes := 2
  leaves := 0
  inPlace_of_number _ _ h := by simp [Gen.isConstant, h]
  perform _ := ⟨.setElement, rfl, rfl⟩
  placeless := .setElementAt
  counts := .setElementAt

/-- An integer as it is written. -/
abbrev Node.int (k : Int) : Node := .literal "INT_LITERAL" (.int k)

/-- A written index stands in the instruction. -/
theorem Gen.ends_indexCode_int {inPlace : Node → Bool} {code : Nat} {k : Int} {g g' : Generator}
    (h : inPlace (.int k) = true) : Ends (indexCode inPlace code (.node (.int k))) g () g' ↔
      g' = g.push (.instruction code (.int k)) := by
  rw [indexCode, if_pos h]
  simp [selectorArgument]

/-- A place where an element of a list is named: the name of the list, its address, the reference
    to it that memory holds there, and the generator and the machine that have come there. -/
structure ElementSite where
  list : Atom
  address : Nat
  reference : Item
  code : Generator
  machine : Machine
  sound : code.Sound
  here : machine.pc = code.length
  filed : code.identifiers.get? list = some address
  held : machine.memory.load (intWord address) = .ok reference
  room : machine.stack.length < stackLimit

namespace ElementSite

open Gen Machine

variable (p : ElementSite)

/-- An access to an element. -/
def access (n : Node) : Node := .member (.atom p.list) (.node n) true

/-- An assignment to an element. -/
def assignment (v n : Node) : Node := .assign (.node (p.access n)) v

/-- The generator once the list is loaded. -/
def base : Generator := p.code.push (.instruction Op.load (.int p.address))

/-- The machine once the list is loaded. -/
def loaded : Machine :=
  { p.machine with pc := p.base.length, stack := p.reference :: p.machine.stack }

/-- The code of the expression ends in `h`. Run behind the load of the list it leaves an integer,
    and changes nothing else. -/
structure Evaluates (P : Program) (e : Node) (k : Int) (h : Generator) : Prop where
  ends : Ends (generate e) p.base () h
  runs : p.loaded.Runs P h.length
    { p.loaded with pc := h.length, stack := ⟨.int, intWord k⟩ :: p.loaded.stack }

variable {p} {u : ElementUse} {P Q : Program} {k : Int} {e : Node} {g h : Generator} {r : Effect}

/-- An instruction on the element has the effect of its act. -/
theorem hasEffect_instruction {m : Machine} {w : UInt32}
    (hi : m.fetch P = some ⟨u.code.toUInt8, w⟩) {x : Nat} {s : Machine}
    (hindex : index w m.onward = (.ok x, s)) (hpc : s.pc = m.pc + 1)
    (hframes : s.frames = m.frames) (hr : (u.act x).effect s = some r) :
    m.HasEffect P (m.pc + 1) r := by
  obtain ⟨op, hop, hperform⟩ := u.perform w
  obtain ⟨hpc', hframes'⟩ := (u.placeless x).keeps s
  have hact : perform op w m.onward = u.act x s := by
    rw [hperform, run_bind_ok hindex]
  rw [effect] at hr
  rcases hrun : u.act x s with ⟨e | _, s'⟩
  · rw [hrun] at hr hact
    cases e with
    | failed t =>
      cases hr
      refine .trapped (.refl m) (fun k hk r' hr' _ => ?_) hi hop hact
      obtain rfl : k = 0 := by omega
      cases hr'
      exact ⟨Nat.le_refl _, Nat.lt_succ_self _⟩
    | exited | stuck => cases hr
  · rw [hrun] at hr hact hpc' hframes'
    cases hr
    exact .done (.single (step_of_perform hi hop hact) (hpc'.trans hpc) (hframes'.trans hframes))

/-- The list is loaded where the code says so. -/
theorem runs_load (hP : P.Carries g p.code.length) (hk : Keeps 0 p.base.length p.base g) :
    p.machine.Runs P p.base.length p.loaded := by
  obtain ⟨w, hw, hi⟩ := (hP.of_keeps (p.sound.push _) hk).last p.sound (Nat.le_refl _)
  obtain rfl := Site.word_of_int hw
  have hfetch : p.machine.fetch P = some ⟨0x14, intWord p.address⟩ := by
    rw [fetch, p.here]
    exact hi
  have hrun := (pushes_of_load hfetch p.held).runs p.room
  rw [p.here] at hrun
  exact hrun

theorem ends_written : Ends (indexCode u.inPlace u.code (.node (.int k)))
    p.base () g ↔ g = p.base.push (.instruction u.code (.int k)) :=
  ends_indexCode_int (u.inPlace_of_number _ _ (by decide))

/-- A computed index is on the stack. An expression that is no literal has no place in the
    instruction. -/
theorem ends_computed (he : Scope.isLiteral e = false) (hgen : Ends (generate e) p.base () h) :
    Ends (indexCode u.inPlace u.code (.node e)) p.base () g ↔
      u.inPlace e = false ∧ g = h.push (.instruction u.code (.int (-1))) := by
  rw [indexCode]
  cases hin : u.inPlace e with
  | true =>
    have hnone : ∀ {x g'}, ¬Ends (selectorArgument e) p.base x g' := by
      intro x g' hx
      cases e with
      | literal k v | listLiteral k xs => cases he
      | _ => exact ends_throw hx
    rw [if_pos rfl]
    refine iff_of_false (fun hends => ?_) (by simp)
    obtain ⟨x, g', hx, -⟩ := ends_bind.1 hends
    exact hnone hx
  | false =>
    rw [if_neg (by simp)]
    simp only [ends_bind, ends_emitInt, true_and]
    constructor
    · rintro ⟨_, h', hgen', rfl⟩
      rw [show h' = h from hgen'.after_eq.symm.trans hgen.after_eq]
    · rintro rfl
      exact ⟨(), h, hgen, rfl⟩

/-- The effect of a written index: unless it is minus one, it is the index. Minus one takes the
    list for the index. -/
theorem hasEffect_written (hk : fitsWord k)
    (hP : P.Carries (p.base.push (.instruction u.code (.int k))) p.base.length)
    (hr : (if k = -1 then (u.act p.reference.word.toNat).effect p.machine
      else (u.act (intWord k).toNat).effect p.loaded) = some r) :
    p.loaded.HasEffect P (p.base.length + 1) r := by
  obtain ⟨w, hw, hi⟩ := hP.last (p.sound.push _) (Nat.le_refl _)
  obtain rfl := Site.word_of_int hw
  by_cases hone : k = -1
  · rw [if_pos hone, ← (u.placeless _).effect_eq p.machine (p.base.length + 1)] at hr
    subst hone
    exact hasEffect_instruction hi (run_index_top rfl) rfl rfl hr
  · rw [if_neg hone, ← (u.placeless _).effect_eq p.loaded (p.base.length + 1)] at hr
    have hne : intWord k ≠ endAddress := by
      intro heq
      refine hone ?_
      rw [← wordInt_intWord hk, heq]
      rfl
    exact hasEffect_instruction hi (run_index hne) rfl rfl hr

/-- The effect of a computed index. -/
theorem hasEffect_computed (hev : p.Evaluates P e k h)
    (hP : P.Carries (h.push (.instruction u.code (.int (-1)))) p.base.length)
    (hr : (u.act (intWord k).toNat).effect p.loaded = some r) :
    p.loaded.HasEffect P (h.length + 1) r := by
  have hbuilt := built_of_ends (p.sound.push _) hev.ends
  have hle := hbuilt.keeps.length_le
  obtain ⟨w, hw, hi⟩ := hP.last hbuilt.sound hle
  obtain rfl := Site.word_of_int hw
  rw [← (u.placeless _).effect_eq p.loaded (h.length + 1)] at hr
  refine .of_runs hev.runs hle (Nat.le_succ _) ?_
  exact hasEffect_instruction hi (run_index_top rfl) rfl rfl hr

end ElementSite

/-! ### When they are alike -/

/-- The node compiles, and its code has the effect when it is run from the machine. -/
def Node.HasEffect (n : Node) (P : Program) (g : Generator) (m : Machine) (r : Effect) : Prop :=
  ∃ g', Gen.Ends (Gen.generate n) g () g' ∧ m.HasEffect P g'.length r

theorem Node.HasEffect.unique {n : Node} {P : Program} {g : Generator} {m : Machine} {r r' : Effect}
    (h : n.HasEffect P g m r) (h' : n.HasEffect P g m r') : r = r' := by
  obtain ⟨g₁, he, hr⟩ := h
  obtain ⟨g₂, he', hr'⟩ := h'
  obtain rfl : g₁ = g₂ := he.after_eq.symm.trans he'.after_eq
  exact Machine.HasEffect.unique hr hr'

/-- The codes of two nodes, each in a program of its own, have the same effect. -/
def Node.Alike (n n' : Node) (P Q : Program) (g : Generator) (m : Machine) : Prop :=
  ∃ r, n.HasEffect P g m r ∧ n'.HasEffect Q g m r

/-- The program has the code of the node, if it compiles. -/
def Program.Holds (P : Program) (g : Generator) (n : Node) : Prop :=
  ∀ g', Gen.Ends (Gen.generate n) g () g' → P.Carries g' g.length

namespace ElementSite

open Gen Machine

variable {p : ElementSite} {u : ElementUse} {P Q : Program} {k : Int} {e : Node} {h : Generator}

/-- A statement `N n` ends with what is done with the element of index `n`, and it begins with
    code that comes to the load of the list. -/
structure Ending (p : ElementSite) (u : ElementUse) (N : Node → Node) (g : Generator)
    (m : Machine) : Prop where
  ends : ∀ {n g'}, Ends (generate (N n)) g () g' ↔
    Ends (indexCode u.inPlace u.code (.node n)) p.base () g'
  place : m.pc = g.length
  length_le : g.length ≤ p.code.length
  takes : u.takes ≤ p.machine.stack.length + 1

namespace Ending

variable {N : Node → Node} {g : Generator} {m : Machine} {r : Effect} (hN : p.Ending u N g m)

include hN

theorem hasEffect_written (hk : fitsWord k) (hP : P.Holds g (N (.int k)))
    (hrun : m.Runs P p.code.length p.machine)
    (hr : (if k = -1 then (u.act p.reference.word.toNat).effect p.machine
      else (u.act (intWord k).toNat).effect p.loaded) = some r) :
    (N (.int k)).HasEffect P g m r := by
  have hends := hN.ends.2 (ends_written (k := k).2 rfl)
  have hP := hP _ hends
  have hle := hN.length_le
  have hload := runs_load (hP.mono hle) (.push (p.sound.push _) _ (Nat.le_refl _))
  have hall := hrun.trans hload (hN.place ▸ hle) (Nat.le_succ _)
  refine ⟨_, hends, .of_runs hall (hN.place ▸ Nat.le_succ_of_le hle) (Nat.le_succ _) ?_⟩
  exact ElementSite.hasEffect_written hk (hP.mono (Nat.le_succ_of_le hle)) hr

theorem hasEffect_computed (he : Scope.isLiteral e = false) (hin : u.inPlace e = false)
    (hev : p.Evaluates Q e k h) (hQ : Q.Holds g (N e)) (hrun : m.Runs Q p.code.length p.machine)
    (hr : (u.act (intWord k).toNat).effect p.loaded = some r) : (N e).HasEffect Q g m r := by
  have hends := hN.ends.2 ((ends_computed he hev.ends).2 ⟨hin, rfl⟩)
  have hQ := hQ _ hends
  have hle := hN.length_le
  have hbuilt := built_of_ends (p.sound.push _) hev.ends
  have hle' := hbuilt.keeps.length_le
  have hkeeps : Keeps 0 p.base.length p.base (h.push (.instruction u.code (.int (-1)))) :=
    hbuilt.keeps.trans (.push hbuilt.sound _ hle') (Nat.le_refl _)
  have hall := hrun.trans (runs_load (hQ.mono hle) hkeeps) (hN.place ▸ hle) (Nat.le_succ _)
  refine ⟨_, hends, .of_runs hall (hN.place ▸ Nat.le_succ_of_le hle) (Nat.le_succ_of_le hle') ?_⟩
  exact ElementSite.hasEffect_computed hev (hQ.mono (Nat.le_succ_of_le hle)) hr

/-- The two have the same effect unless the index is minus one, provided that the expression
    compiles as an index. -/
theorem alike_iff (hk : fitsWord k) (he : Scope.isLiteral e = false)
    (hP : P.Holds g (N (.int k))) (hQ : Q.Holds g (N e))
    (hrunP : m.Runs P p.code.length p.machine) (hrunQ : m.Runs Q p.code.length p.machine)
    (hev : p.Evaluates Q e k h) :
    (N (.int k)).Alike (N e) P Q g m ↔ k ≠ -1 ∧ u.inPlace e = false := by
  obtain ⟨r₂, hr₂, -⟩ := u.counts (intWord k).toNat p.loaded
  constructor
  · rintro ⟨r, hwritten, g₂, hends₂, hr⟩
    obtain ⟨hin, -⟩ := (ends_computed he hev.ends).1 (hN.ends.1 hends₂)
    refine ⟨?_, hin⟩
    rintro rfl
    obtain ⟨r₁, hr₁, -⟩ := u.counts p.reference.word.toNat p.machine
    have h₁ : r = r₁ := hwritten.unique (hN.hasEffect_written hk hP hrunP hr₁)
    have h₂ : r = r₂ :=
      Node.HasEffect.unique ⟨g₂, hends₂, hr⟩ (hN.hasEffect_computed he hin hev hQ hrunQ hr₂)
    exact effects_differ (u.counts _) (u.counts _) hr₁ hr₂ rfl hN.takes (h₁.symm.trans h₂)
  · rintro ⟨hone, hin⟩
    exact ⟨r₂, hN.hasEffect_written hk hP hrunP (by rw [if_neg hone, hr₂]),
      hN.hasEffect_computed he hin hev hQ hrunQ hr₂⟩

end Ending

theorem ending_access : p.Ending .access p.access p.code p.machine where
  ends {n g'} := by
    rw [access, generate_member_plain (by simp), if_pos rfl]
    simp only [addressOf, ends_bind, ends_address, ends_emitInt]
    constructor
    · rintro ⟨a, _, ⟨ha, rfl⟩, _, _, rfl, hends⟩
      rw [p.filed, Option.some_inj] at ha
      subst ha
      exact hends
    · intro hends
      exact ⟨_, _, ⟨p.filed, rfl⟩, (), _, rfl, hends⟩
  place := p.here
  length_le := Nat.le_refl _
  takes := Nat.le_add_left _ _

theorem ending_assignment {v : Node} {g : Generator} {m : Machine} {x : Item} (hg : g.Sound)
    (hpc : m.pc = g.length) (hv : Ends (generate v) g () p.code)
    (hstack : p.machine.stack = x :: m.stack) :
    p.Ending .assignment (p.assignment v) g m where
  ends {n g'} := by
    rw [assignment, access, generate_assign_element]
    simp only [indexedBase, addressOf, generateSetters, ends_bind, ends_address, ends_emitInt,
      ends_pure]
    constructor
    · rintro ⟨_, g₁, hv', a, _, ⟨ha, rfl⟩, _, _, rfl, _, _, ⟨-, rfl⟩, hends⟩
      rw [show _ = p.code from hv'.after_eq.symm.trans hv.after_eq] at ha hends
      rw [p.filed, Option.some_inj] at ha
      subst ha
      exact hends
    · intro hends
      exact ⟨(), _, hv, _, _, ⟨p.filed, rfl⟩, (), _, rfl, (), _, ⟨trivial, rfl⟩, hends⟩
  place := hpc
  length_le := (built_of_ends hg hv).keeps.length_le
  takes := by
    rw [hstack]
    exact Nat.le_add_left 2 m.stack.length

end ElementSite

section

open Gen Machine

/-- A written index and an expression with its value have the same effect in an access just if the
    index is not minus one and the expression is an operation. In an assignment they have it just
    if the index is not minus one. -/
theorem index_alike_iff (p : ElementSite) {k : Int} (hk : fitsWord k) {e : Node}
    (he : Scope.isLiteral e = false) {h : Generator} {P Q : Program} (hev : p.Evaluates Q e k h) :
    (P.Holds p.code (p.access (.int k)) → Q.Holds p.code (p.access e) →
      ((p.access (.int k)).Alike (p.access e) P Q p.code p.machine ↔
        k ≠ -1 ∧ e.isUnary = false)) ∧
    ∀ (v : Node) (x : Item) (g : Generator) (m : Machine), g.Sound → m.pc = g.length →
      Ends (generate v) g () p.code → p.machine.stack = x :: m.stack →
      m.Runs P p.code.length p.machine → m.Runs Q p.code.length p.machine →
      P.Holds g (p.assignment v (.int k)) → Q.Holds g (p.assignment v e) →
      ((p.assignment v (.int k)).Alike (p.assignment v e) P Q g m ↔ k ≠ -1) := by
  constructor
  · intro hP hQ
    have hrun : ∀ R, p.machine.Runs R p.code.length p.machine := fun R => p.here ▸ .refl R p.machine
    exact ElementSite.ending_access.alike_iff hk he hP hQ (hrun P) (hrun Q) hev
  · intro v x g m hg hpc hv hstack hrunP hrunQ hP hQ
    have hconstant : isConstant e = false := by
      cases e with
      | literal k v => cases he
      | listLiteral k xs => cases he
      | _ => rfl
    have hN := ElementSite.ending_assignment hg hpc hv hstack
    rw [hN.alike_iff hk he hP hQ hrunP hrunQ hev]
    exact and_iff_left hconstant

/-- The generator behind the declaration of a list at address zero. -/
def pairCode : Generator := { identifiers := [(.text "a", 0)], memory := 4 }

/-- The list has two integers, and a seven is on the stack. -/
def pairSite : ElementSite where
  list := .text "a"
  address := 0
  reference := ⟨.pointer, 0⟩
  code := Gen.after (generate (.int 7)) pairCode
  machine :=
    { pc := 1
      stack := [⟨.int, 7⟩]
      memory := { cells := ⟨4, #[0, 0]⟩, tags := #[.pointer] }
      heap := ⟨#[⟨.int, ⟨8, #[1, 0, 0, 0, 2]⟩⟩]⟩ }
  sound := ⟨rfl, fun h => absurd rfl h.2⟩
  here := rfl
  filed := rfl
  held := rfl
  room := by decide

/-- The sum of zero and one. -/
def sumOne : Node := .binary "+" (.int 0) (some (.int 1))

/-- The program of which the code of a node is the last part. -/
def Node.program (n : Node) (g : Generator) : Program := (Gen.after (generate n) g).program

theorem Node.holds_program {n : Node} {g : Generator} (hw : (Gen.after (generate n) g).Whole) :
    (n.program g).Holds g n := by
  intro h hends
  rw [Node.program, hends.after_eq] at *
  exact .of_whole hw _

theorem evaluates_sumOne {Q : Program} (hzero : Q[2]? = some ⟨15, 0⟩) (hone : Q[3]? = some ⟨15, 1⟩)
    (hadd : Q[4]? = some ⟨1, 0⟩) :
    pairSite.Evaluates Q sumOne 1 (Gen.after (generate sumOne) pairSite.base) where
  ends := rfl
  runs := by
    have h₁ : pairSite.loaded.Runs Q 3
        { pairSite.loaded with pc := 3, stack := ⟨.int, 0⟩ :: pairSite.loaded.stack } :=
      .single (step_push hzero (by decide)) rfl rfl
    have h₂ : Machine.Runs Q
        { pairSite.loaded with pc := 3, stack := ⟨.int, 0⟩ :: pairSite.loaded.stack } 4
        { pairSite.loaded with pc := 4, stack := ⟨.int, 1⟩ :: ⟨.int, 0⟩ :: pairSite.loaded.stack } :=
      .single (step_push hone (by decide)) rfl rfl
    have h₃ : Machine.Runs Q
        { pairSite.loaded with pc := 4, stack := ⟨.int, 1⟩ :: ⟨.int, 0⟩ :: pairSite.loaded.stack } 5
        { pairSite.loaded with pc := 5, stack := ⟨.int, 1⟩ :: pairSite.loaded.stack } :=
      .single (step_compute .add hadd rfl fun m hm =>
        run_compute_items rfl rfl hm (by decide)) rfl rfl
    exact (h₁.trans h₂ (by decide) (by decide)).trans h₃ (by decide) (by decide)

/-- The index one is the same written and as the sum of zero and one. -/
theorem index_alike_sumOne :
    (pairSite.access (.int 1)).Alike (pairSite.access sumOne)
      ((pairSite.access (.int 1)).program pairSite.code)
      ((pairSite.access sumOne).program pairSite.code) pairSite.code pairSite.machine ∧
    (pairSite.assignment (.int 7) (.int 1)).Alike (pairSite.assignment (.int 7) sumOne)
      ((pairSite.assignment (.int 7) (.int 1)).program pairCode)
      ((pairSite.assignment (.int 7) sumOne).program pairCode) pairCode
      { pairSite.machine with pc := 0, stack := [] } := by
  have hfits : fitsWord 1 := by decide
  constructor
  · have hiff := (index_alike_iff pairSite hfits rfl (evaluates_sumOne rfl rfl rfl)).1
      (Node.holds_program (by decide)) (Node.holds_program (by decide))
    exact hiff.2 (by decide)
  · have hiff := (index_alike_iff pairSite hfits rfl (evaluates_sumOne rfl rfl rfl)).2
      (.int 7) ⟨.int, 7⟩ pairCode { pairSite.machine with pc := 0, stack := [] }
      ⟨rfl, fun h => absurd rfl h.2⟩ rfl rfl rfl
      (.single (step_push (w := 7) rfl (by decide)) rfl rfl)
      (.single (step_push (w := 7) rfl (by decide)) rfl rfl)
      (Node.holds_program (by decide)) (Node.holds_program (by decide))
    exact hiff.2 (by decide)

/-- How the run of a source text finishes. -/
def finishOf (source : String) : Option Finish :=
  (Compilation.codeOf source).toOption.map fun g => (runFrom g.program 0 100 {}).finish

/-- An element of index minus one is not there, which only the computed index says. -/
theorem index_differs_minusOne :
    finishOf "int[] a = [1, 2]; int x = a[-1];" = some (.halted (.failed .underflow)) ∧
      finishOf "int[] a = [1, 2]; int x = a[0 - 1];" =
        some (.halted (.failed (.readOutside 4 4294967296 8))) := by
  decide +kernel

end

end StackLang
