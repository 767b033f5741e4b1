import Mathlib.Data.Option.Basic
import StackLang.Proofs.Deposit

/-!
# Bytes kept and bytes stored

If a declaration stores another number of bytes than are kept for its variable, everything that is
declared later lies elsewhere than the generator takes it to be. A program of declarations executes
them one after the other, so that is the only way for it to go wrong, and it can be told from the
program: as long as all is in place, a variable that is read has the bytes that are kept for it.

* `Deposited`: a run executes some declarations, one after the other;
* `Deposited.sizes_iff`: it finds memory as large as the generator takes it to be if and only if all
  declarations that it executes, but the last one, store what fits;
* `reserved_stored_iff`: what is kept and what is stored, of the source text of a program.
-/

namespace StackLang

open Gen List Option

variable {g : Generator} {p : List Node} {t : Task} {k : Generator} {m : Machine}

/-! ### Runs through a declaration -/

/-- An instruction that computes neither steers nor stores. -/
theorem Slot.Computes.calm {c : Nat} {a : Argument} (h : (Slot.instruction c a).Computes false)
    {op : Operation} (hop : Operation.ofCode? c.toUInt8.toNat = some op) :
    op.steers = false ∧ op ≠ .storeMem := by
  obtain ⟨hc, hnot, hcall⟩ := h
  rw [Nat.toUInt8, UInt8.toNat_ofNat', Nat.mod_eq_of_lt hc] at hop
  cases op with
  | jump | jumpIf | call | giveBack | storeMem =>
    unfold Operation.ofCode? at hop
    split at hop <;> simp_all
  | _ => exact ⟨rfl, Operation.noConfusion⟩

/-- An instruction that neither steers nor stores leads to the next one. -/
theorem Machine.calm_of_step {P : Program} {m' : Machine} (h : m.step P = some (.next m'))
    (hcalm : ∀ i op, m.fetch P = some i → Operation.ofCode? i.code.toNat = some op →
      op.steers = false ∧ op ≠ .storeMem) :
    m'.pc = m.pc + 1 ∧ m'.frames = m.frames ∧ m'.memory = m.memory ∧ m.declares P = false := by
  obtain ⟨i, hi, hexec⟩ := map_eq_some_iff.1 h
  obtain ⟨op, hop, hmoved⟩ := moved_of_execute hexec
  obtain ⟨hsteers, hstore⟩ := hcalm i op hi hop
  have hgoes : m'.pc = m.pc + 1 ∧ m'.frames = m.frames := by
    have hgoes := hmoved.goes
    cases op with
    | jump | jumpIf | call | giveBack => cases hsteers
    | _ => exact hgoes
  refine ⟨hgoes.1, hgoes.2, hmoved.memory hstore, ?_⟩
  rw [declares, hi, decide_eq_false_iff_not, some.injEq]
  rintro rfl
  exact hstore (some.inj hop).symm

/-- What is stored at the end of memory makes it grow, and leaves its tag there. -/
theorem Memory.end_of_store {m m' : Memory} {x : Item} (h : m.store endAddress x = .ok m') :
    m'.cells.size = m.cells.size + x.tag.width ∧
      ∀ j, m'.tag j = if j = m.cells.size then x.tag else m.tag j := by
  obtain ⟨a, hw, htag⟩ := Memory.store_eq_ok h
  obtain ⟨s', hw', hsize⟩ := m.cells.write_end x.word x.tag.width_pos x.tag.width_le
  obtain ⟨hcells, rfl⟩ := Prod.mk.inj (Except.ok.inj (hw.symm.trans hw'))
  exact ⟨hcells ▸ hsize, htag⟩

/-- The machine that declares stores the top of its stack at the end of memory. -/
theorem Machine.store_of_declares {P : Program} {m' : Machine} (hd : m.declares P)
    (h : m.step P = some (.next m')) : ∃ x, m.stack.head? = some x ∧ m'.pc = m.pc + 1 ∧
      m.memory.store endAddress x = .ok m'.memory := by
  obtain ⟨i, hi, hexec⟩ := map_eq_some_iff.1 h
  obtain rfl : i = declaring := some.inj (hi.symm.trans (of_decide_eq_true hd))
  obtain ⟨x, rest, memory, hs, hstore, rfl⟩ := store_of_execute hexec rfl
  exact ⟨x, by rw [hs]; rfl, rfl, hstore⟩

/-- A run into a declaration that calls nothing stores nothing, or it comes to the store of the
    declaration and goes on behind it. -/
theorem Task.Deposits.trail (hd : t.Deposits false k) (h : generateProgram p = .ok g) (hw : g.Whole)
    (ht : t ∈ allTasks p {}) (n : Nat) (hstart : t.start.length ≤ m.pc) (hle : m.pc ≤ k.length) :
    (Machine.trail g.program n m).filter (Machine.declares g.program) = [] ∨
      ∃ i j s m', Machine.InFrame g.program i m s ∧ s.pc = k.length ∧ s.memory = m.memory ∧
        s.step g.program = some (.next m') ∧
        (Machine.trail g.program n m).filter (Machine.declares g.program) =
          s :: (Machine.trail g.program j m').filter (Machine.declares g.program) := by
  induction n generalizing m with
  | zero => exact .inl rfl
  | succ n ih =>
    rw [Machine.trail]
    split
    · rename_i m₁ hstep
      rcases Nat.lt_or_eq_of_le hle with hlt | heq
      · obtain ⟨hpc, hframes, hmemory, hdeclares⟩ := Machine.calm_of_step hstep fun i op hi hop => by
          obtain ⟨c, a, w, hs, hfetch⟩ := hd.fetch h hw ht hstart hlt
          obtain rfl : _ = i := some.inj (hfetch.symm.trans hi)
          exact hs.calm hop
        rw [filter_cons_of_neg (by simp [hdeclares])]
        rcases ih (m := m₁) (by omega) (by omega) with hnil | ⟨i, j, s, m', hrun, hs, hmem, hnext, hrest⟩
        · exact .inl hnil
        · exact .inr ⟨i + 1, j, s, m', hrun.next hstep hframes, hs, hmem.trans hmemory, hnext, hrest⟩
      · exact .inr ⟨0, n, m, m₁, .refl m, heq, rfl, hstep,
          filter_cons_of_pos (hd.declares h hw ht heq)⟩
    · exact .inl rfl

/-- Behind the code there is nothing. -/
theorem Generator.Whole.trail_length (hw : g.Whole) (hg : g.Sound) {m : Machine} (n : Nat)
    (hm : m.pc = g.length) : Machine.trail g.program n m = [] := by
  have hfetch : m.fetch g.program = none := by
    rw [Machine.fetch, hm]
    exact Array.getElem?_eq_none (Nat.le_of_eq (hw.size.trans hg.size))
  cases n with
  | zero => rfl
  | succ n => rw [Machine.trail, Machine.step, hfetch, map_none]

/-! ### Declarations one after the other -/

/-- A run executes some of the declarations, one after the other from the first one, and is in the
    given states when it stores. -/
inductive Deposited : List Task → Machine → List Machine → Prop
  | stop {ts : List Task} {m : Machine} : Deposited ts m []
  | store {t : Task} {ts : List Task} {m s m' : Machine} {ss : List Machine} {x : Item}
    (place : s.pc + 1 = t.finish.length) (memory : s.memory = m.memory)
    (top : s.stack.head? = some x) (stored : s.memory.store endAddress x = .ok m'.memory)
    (yields : t.Yields s x) (rest : Deposited ts m' ss) : Deposited (t :: ts) m (s :: ss)

/-- A run of declarations that call nothing executes them one after the other. -/
theorem deposited_of_trail (h : generateProgram p = .ok g) (hw : g.Whole) {ns : List Node}
    {h₀ : Generator} (hp : ∀ t ∈ allTasks ns h₀, t ∈ allTasks p {})
    (hns : ∀ n ∈ ns, n.Numeric false) (e : Ends (generateAll ns) h₀ () g) {n : Nat}
    (hm : m.pc = h₀.length) : Deposited (allTasks ns h₀) m
      ((Machine.trail g.program n m).filter (Machine.declares g.program)) := by
  induction ns generalizing h₀ m n with
  | nil =>
    obtain ⟨-, rfl⟩ := ends_pure.1 e
    rw [hw.trail_length ((course_of_generateProgram h).laid .initial).sound n hm]
    exact .stop
  | cons x ns ih =>
    rw [generateAll, ends_bind] at e
    obtain ⟨_, h₁, e₁, e₂⟩ := e
    rw [allTasks, e₁.after_eq] at hp ⊢
    obtain ⟨ht, hp⟩ := forall_mem_cons.1 hp
    obtain ⟨hx, hns⟩ := forall_mem_cons.1 hns
    obtain ⟨k, hd⟩ := (inside_of_mem_allTasks h ht).done.deposits hx
    rcases hd.trail h hw ht n (Nat.le_of_eq hm.symm) (hm ▸ hd.start_le) with
      hnil | ⟨i, j, s, m', hrun, hpc, hmemory, hstep, htrail⟩
    · rw [hnil]
      exact .stop
    · obtain ⟨y, hy, hnext, hstore⟩ := Machine.store_of_declares (hd.declares h hw ht hpc) hstep
      have hplace : s.pc + 1 = (Task.finish ⟨x, h₀⟩).length := by rw [hd.length, hpc]
      rw [htrail]
      refine .store hplace hmemory hy hstore (hd.yields h hw ht hm hplace hrun hy) ?_
      refine ih hp hns e₂ ?_
      rw [hnext, hplace, Task.finish, e₁.after_eq]

/-- The task gives a variable the next address and keeps bytes for it, as many as `known` says of its
    name. -/
structure Task.Reserves (known : Atom → Option Nat) (name : Atom) (t : Task) : Prop where
  identifiers : t.finish.identifiers = t.start.identifiers.put name t.start.memory
  memory : t.finish.memory = t.start.memory + t.node.kept
  known : ∀ a w, name.same a → known a = some w → w = t.node.kept

/-- The variables of the generator lie below its next address, and memory has tags of the widths that
    are known of them. -/
def Tagged (known : Atom → Option Nat) (h : Generator) (m : Memory) : Prop :=
  ∀ a i, h.identifiers.get? a = some i → i < h.memory ∧ ∀ w, known a = some w → (m.tag i).width = w

namespace Task.Reserves

variable {known : Atom → Option Nat} {name : Atom} {s : Machine} {x : Item} {m' : Memory}

/-- As long as all is in place, what is known of variables is so: the variable of the declaration
    itself cannot be read yet. -/
theorem fits_iff (hr : t.Reserves known name) (hy : t.Yields s x)
    (hsize : s.memory.cells.size = t.start.memory) (htagged : Tagged known t.start s.memory) :
    t.Fits known x ↔ t.node.kept = x.tag.width := by
  refine hy.fits_iff fun a w i ha hi hlt => ?_
  rw [hr.identifiers, Table.get?_put] at hi
  split at hi
  · rw [hsize, ← some.inj hi] at hlt
    exact absurd hlt (Nat.lt_irrefl _)
  · exact (htagged a i hi).2 w ha

/-- A store that fits leaves all in place. -/
theorem tagged (hr : t.Reserves known name) (hsize : s.memory.cells.size = t.start.memory)
    (htagged : Tagged known t.start s.memory) (hstore : s.memory.store endAddress x = .ok m')
    (hkept : t.node.kept = x.tag.width) : Tagged known t.finish m' := by
  intro a i hi
  have htag := (Memory.end_of_store hstore).2 i
  have hpos := x.tag.width_pos
  have hmemory := hr.memory
  rw [hr.identifiers, Table.get?_put] at hi
  split at hi
  · rename_i hsame
    have hend : i = s.memory.cells.size := hsize ▸ (some.inj hi).symm
    rw [htag, if_pos hend, ← hkept]
    exact ⟨by omega, fun w hw => (hr.known a w hsame hw).symm⟩
  · obtain ⟨hlt, hwidth⟩ := htagged a i hi
    rw [htag, if_neg (by omega)]
    exact ⟨by omega, hwidth⟩

end Task.Reserves

namespace Deposited

variable {ts : List Task} {ss : List Machine} {m : Machine} {ns : List Node}

theorem length_le (h : Deposited ts m ss) : ss.length ≤ ts.length := by
  induction h with
  | stop => exact Nat.zero_le _
  | store _ _ _ _ _ _ ih => exact Nat.succ_le_succ ih

theorem of_mem (h : Deposited ts m ss) : ∀ d ∈ ts.zip ss,
    d.2.pc + 1 = d.1.finish.length ∧ ∃ x, d.2.stack.head? = some x := by
  induction h with
  | stop => simp
  | store place _ top _ _ _ ih =>
    rw [zip_cons_cons, forall_mem_cons]
    exact ⟨⟨place, _, top⟩, ih⟩

theorem size_of_first {h : Generator} (hd : Deposited (allTasks ns h) m ss)
    (hne : (allTasks ns h).zip ss ≠ [])
    (hall : ∀ d ∈ (allTasks ns h).zip ss, d.2.memory.cells.size = d.1.start.memory) :
    m.memory.cells.size = h.memory := by
  cases ns with
  | nil => exact absurd rfl hne
  | cons n ns =>
    cases hd with
    | stop => exact absurd zip_nil_right hne
    | store _ memory => exact memory ▸ hall _ mem_cons_self

/-- The run finds memory as large as the generator takes it to be if and only if all declarations
    that it executes, but the last one, store what fits. -/
theorem sizes_iff {known : Atom → Option Nat} {h : Generator} (hd : Deposited (allTasks ns h) m ss)
    (hr : ∀ t ∈ allTasks ns h, ∃ name, t.Reserves known name) (hm : m.memory.cells.size = h.memory)
    (htagged : Tagged known h m.memory) :
    (∀ d ∈ (allTasks ns h).zip ss, d.2.memory.cells.size = d.1.start.memory) ↔
      ∀ d ∈ ((allTasks ns h).zip ss).dropLast, ∃ x ∈ d.2.stack.head?, d.1.Fits known x := by
  induction ns generalizing h m ss with
  | nil => simp [allTasks]
  | cons n ns ih =>
    rw [allTasks] at hd hr ⊢
    obtain ⟨⟨name, hfirst⟩, hr⟩ := forall_mem_cons.1 hr
    cases hd with
    | stop => simp
    | @store _ _ _ s m' ss x place memory top stored yields rest =>
      rw [← memory] at hm htagged
      have hsize := (Memory.end_of_store stored).1
      have hmemory := hfirst.memory
      have hfits := hfirst.fits_iff yields hm htagged
      -- the next declaration finds memory as the generator takes it to be if this one fits
      have hnext : m'.memory.cells.size = (after (generate n) h).memory ↔
          Task.Fits known ⟨n, h⟩ x := by
        rw [hfits, hsize, hm, show (after (generate n) h).memory = _ from hmemory]
        exact ⟨fun heq => (Nat.add_left_cancel heq).symm, fun heq => by rw [heq]⟩
      have htagged' := fun hf => hfirst.tagged hm htagged stored (hfits.1 hf)
      by_cases hz : (allTasks ns (after (generate n) h)).zip ss = []
      · simp [hz, hm]
      rw [zip_cons_cons, dropLast_cons_of_ne_nil hz, forall_mem_cons,
        forall_mem_cons]
      constructor
      · rintro ⟨-, hall⟩
        have hm' := rest.size_of_first hz hall
        exact ⟨⟨x, top, hnext.1 hm'⟩, (ih rest hr hm' (htagged' (hnext.1 hm'))).1 hall⟩
      · rintro ⟨⟨y, hy, hf⟩, hall⟩
        obtain rfl : y = x := some.inj (hy.symm.trans top)
        exact ⟨hm, (ih rest hr (hnext.2 hf) (htagged' hf)).2 hall⟩

end Deposited

/-! ### Programs of declarations -/

namespace Node

/-- The node declares a variable of the name. -/
def declaresName (a : Atom) : Node → Bool
  | .declare b _ _ => b.same a
  | _ => false

theorem declare_of_declaresName {n : Node} {a : Atom} (h : n.declaresName a) :
    ∃ b type v, n = .declare b type v ∧ b.same a := by
  cases n with
  | declare b type v => exact ⟨b, type, v, rfl, h⟩
  | _ => cases h

end Node

/-- How many bytes a program keeps for the variable of a name. -/
def keptFor (p : List Node) (a : Atom) : Option Nat := (p.find? (Node.declaresName a)).map Node.kept

theorem keptFor_of_mem {name a : Atom} {type : String} {v : Option Node}
    (hp : p.Pairwise Node.NamesApart) (hmem : .declare name type v ∈ p) (ha : name.same a) :
    keptFor p a = some (Node.declare name type v).kept := by
  induction p with
  | nil => cases hmem
  | cons n p ih =>
    obtain ⟨hapart, hp⟩ := pairwise_cons.1 hp
    rw [keptFor, find?_cons]
    rcases mem_cons.1 hmem with rfl | hlater
    · rw [Node.declaresName, ha]
      rfl
    · cases hn : n.declaresName a with
      | false => exact ih hp hlater
      | true =>
        obtain ⟨b, u, w, rfl, hb⟩ := Node.declare_of_declaresName hn
        have hsame := Atom.same_trans hb (Atom.same_symm ha)
        exact absurd hsame (Bool.eq_false_iff.1 (hapart _ hlater b u w name type v rfl rfl))

/-- If no two variables have the same name, each keeps the address that it is given. -/
theorem identifiers_of_allTasks {ns : List Node} {h₀ : Generator}
    (hdone : ∀ t ∈ allTasks ns h₀, t.Done) (hns : ∀ n ∈ ns, n.Numeric false)
    (hnames : ns.Pairwise Node.NamesApart) (e : Ends (generateAll ns) h₀ () g) :
    (∀ a, (∀ b u w, .declare b u w ∈ ns → a.same b = false) →
      g.identifiers.get? a = h₀.identifiers.get? a) ∧
    ∀ t ∈ allTasks ns h₀, ∀ name type v, t.node = .declare name type v →
      g.identifiers.get? name = some t.start.memory := by
  induction ns generalizing h₀ with
  | nil =>
    obtain ⟨-, rfl⟩ := ends_pure.1 e
    simp [allTasks]
  | cons x ns ih =>
    rw [generateAll, ends_bind] at e
    obtain ⟨_, h₁, e₁, e₂⟩ := e
    rw [allTasks, e₁.after_eq] at hdone ⊢
    obtain ⟨hx, hdone⟩ := forall_mem_cons.1 hdone
    obtain ⟨hnumeric, hns⟩ := forall_mem_cons.1 hns
    obtain ⟨hapart, hnames⟩ := pairwise_cons.1 hnames
    obtain ⟨hkept, hrest⟩ := ih hdone hns hnames e₂
    obtain ⟨k, hd⟩ := hx.deposits hnumeric
    obtain ⟨name, type, -, v, rfl, -⟩ := hnumeric
    have hput : h₁.identifiers = h₀.identifiers.put name h₀.memory := by
      rw [← e₁.after_eq]
      exact hd.identifiers rfl
    refine ⟨fun a ha => ?_, forall_mem_cons.2 ⟨?_, hrest⟩⟩
    · have hne : ¬name.same a := fun hsame =>
        Bool.eq_false_iff.1 (ha name type v mem_cons_self) (Atom.same_symm hsame)
      rw [hkept a fun b u w hb => ha b u w (mem_cons_of_mem _ hb), hput, Table.get?_put,
        if_neg hne]
    · intro name' type' v' heq
      obtain ⟨rfl, -, -⟩ := Node.declare.inj heq
      have hsame : name.same name := by simp [Atom.same]
      rw [hkept name fun b u w hb => hapart _ hb name type v b u w rfl rfl, hput, Table.get?_put,
        if_pos hsame]

theorem node_mem_of_allTasks {h₀ : Generator} (ht : t ∈ allTasks p h₀) : t.node ∈ p :=
  map_allTasks p ▸ mem_map_of_mem ht

theorem numeric_of_parse {s : Scan} {scope : Scope} (h : parse s = .ok (p, scope)) {n : Node}
    (hn : n ∈ p) (hd : n.declaresNumeric) : n.Numeric true := by
  obtain ⟨name, type, htype, v, rfl⟩ := Node.declare_of_declaresNumeric hd
  refine ⟨name, type, htype, v, rfl, ?_⟩
  rintro x rfl
  obtain ⟨functions, hx⟩ := evaluable_of_parse h hn
  exact hx.mono fun m hm => ⟨hm.expression, fun _ => rfl⟩

theorem Declarations.numeric (h : Declarations p) {n : Node} (hn : n ∈ p)
    (hd : n.declaresNumeric) : n.Numeric false := by
  obtain ⟨name, type, htype, v, rfl⟩ := Node.declare_of_declaresNumeric hd
  refine ⟨name, type, htype, v, rfl, ?_⟩
  rintro x rfl
  exact (h.values _ _ _ hn).mono fun m hm => ⟨hm.expression, fun hc => hm.mayCall ▸ hc⟩

namespace Task

/-- Where the generator takes the variable to be that the task declares. -/
def address? (g : Generator) (t : Task) : Option Nat :=
  match t.node with
  | .declare name _ _ => g.identifiers.get? name
  | _ => none

/-- The machine, about to store the first value of the variable, stores it there. -/
def InPlace (g : Generator) (t : Task) (s : Machine) : Prop := ∃ a ∈ t.address? g, s.StoresAt a

theorem inPlace_iff {a : Nat} {s : Machine} {x : Item} (ha : t.address? g = some a)
    (hx : s.stack.head? = some x) : t.InPlace g s ↔ s.memory.cells.size = a := by
  rw [← Machine.storesAt_iff hx]
  constructor
  · rintro ⟨b, hb, hs⟩
    obtain rfl : b = a := some.inj (hb.symm.trans ha)
    exact hs
  · exact fun hs => ⟨a, ha, hs⟩

end Task

namespace Declarations

variable (hdecl : Declarations p) (hn : ∀ n ∈ p, n.declaresNumeric) (h : generateProgram p = .ok g)
  (ht : t ∈ allTasks p {})

include hdecl hn h ht

/-- The program gives each variable the next address, and keeps the bytes that it says for it. -/
theorem reserves : ∃ name, t.Reserves (keptFor p) name := by
  have hmem := node_mem_of_allTasks ht
  have hnumeric := hdecl.numeric hmem (hn _ hmem)
  obtain ⟨k, hd⟩ := (inside_of_mem_allTasks h ht).done.deposits hnumeric
  obtain ⟨name, type, -, v, hnode, -⟩ := hnumeric
  refine ⟨name, hd.identifiers hnode, hd.memory, fun a w hsame hw => ?_⟩
  rw [hnode] at hmem ⊢
  exact some.inj (hw.symm.trans (keptFor_of_mem hdecl.names hmem hsame))

/-- Each variable keeps the address that it is given. -/
theorem address : t.address? g = some t.start.memory := by
  have hmem := node_mem_of_allTasks ht
  obtain ⟨name, type, -, v, hnode⟩ := Node.declare_of_declaresNumeric (hn _ hmem)
  rw [Task.address?, hnode]
  exact (identifiers_of_allTasks (fun t ht => (inside_of_mem_allTasks h ht).done)
    (fun n hm => hdecl.numeric hm (hn n hm)) hdecl.names (ends_of_generateProgram h)).2
      t ht name type v hnode

end Declarations

/-- The width of what memory has at the address of a variable. -/
def Machine.widthOf (g : Generator) (s : Machine) (a : Atom) : Option Nat :=
  (g.identifiers.get? a).map fun i => (s.memory.tag i).width

open Machine in
/-- A declaration of a number or a truth value keeps as many bytes as it stores if and only if its
    first value fits. A program that consists of such declarations executes them in their order, and
    it stores each variable where the generator takes it to be if and only if all that it executes,
    but the last one, store what fits. -/
theorem reserved_stored_iff {source : String} {p : List Node} {scope : Scope}
    (hparse : parse (scan source) = .ok (p, scope)) {g : Generator}
    (hg : generateProgram p = .ok g) (hw : g.Whole) :
    (∀ t ∈ allTasks p {}, t.node.declaresNumeric → ∀ (m s : Machine) (n : Nat) (x : Item),
      m.pc = t.start.length → s.pc + 1 = t.finish.length → InFrame g.program n m s →
      s.stack.head? = some x → s.declares g.program ∧
        (t.finish.memory = t.start.memory + x.tag.width ↔ t.Fits (s.widthOf t.finish) x)) ∧
    ((∀ n ∈ p, n.declaresNumeric) → ∀ n : Nat,
      let ss := (trail g.program n {}).filter (declares g.program)
      let ds := (allTasks p {}).zip ss
      ss.length ≤ p.length ∧ (∀ d ∈ ds, d.2.pc + 1 = d.1.finish.length) ∧
        ((∀ d ∈ ds, d.1.InPlace g d.2) ↔
          ∀ d ∈ ds.dropLast, ∃ x ∈ d.2.stack.head?, d.1.Fits (keptFor p) x)) := by
  constructor
  · intro t ht hn m s n x hm hs hrun hx
    obtain ⟨k, hd⟩ := (inside_of_mem_allTasks hg ht).done.deposits
      (numeric_of_parse hparse (node_mem_of_allTasks ht) hn)
    have hpc : s.pc = k.length := Nat.succ.inj (hs.trans hd.length)
    refine ⟨hd.declares hg hw ht hpc, ?_⟩
    rw [(hd.yields hg hw ht hm hs hrun hx).fits_iff, hd.memory, Nat.add_left_cancel_iff]
    intro a w i ha hi _
    rw [widthOf, hi] at ha
    exact Option.some.inj ha
  · intro hn n ss ds
    have hdecl : Declarations p := declarations_of_parse hparse fun x hx => by
      obtain ⟨name, type, -, v, rfl⟩ := Node.declare_of_declaresNumeric (hn x hx)
      exact ⟨name, type, v, rfl⟩
    have hdep : Deposited (allTasks p {}) {} ss :=
      deposited_of_trail hg hw (fun _ ht => ht) (fun n hm => hdecl.numeric hm (hn n hm))
        (ends_of_generateProgram hg) rfl
    refine ⟨?_, fun d hd => (hdep.of_mem d hd).1, ?_⟩
    · rw [← map_allTasks (g := {}) p, List.length_map]
      exact hdep.length_le
    · rw [← hdep.sizes_iff (fun t ht => hdecl.reserves hn hg ht) rfl (by simp [Tagged, Table.get?])]
      refine forall₂_congr fun d hd => ?_
      obtain ⟨x, hx⟩ := (hdep.of_mem d hd).2
      exact Task.inPlace_iff (hdecl.address hn hg (List.of_mem_zip hd).1) hx

/-- What is computed from the tree of a source text and its code holds of them. -/
theorem exists_of_parse (source : String) (Q : List Node → Generator → Prop)
    [∀ p g, Decidable (Q p g)]
    (h : (do
      let r ← (parse (scan source)).toOption
      let g ← (generateProgram r.1).toOption
      guard (Q r.1 g)) = some ()) :
    ∃ p scope g, parse (scan source) = .ok (p, scope) ∧ generateProgram p = .ok g ∧ Q p g := by
  obtain ⟨r, hr, h⟩ := bind_eq_some_iff.1 h
  obtain ⟨g, hg, h⟩ := bind_eq_some_iff.1 h
  have hq : Q r.1 g := (guard_eq_some' ()).1 h
  obtain ⟨g', hg', rfl⟩ := exists_of_toOption (f := id) (congrArg (Option.map id) hg)
  cases hp : parse (scan source) with
  | error e =>
    rw [hp] at hr
    cases hr
  | ok r' =>
    rw [hp] at hr
    cases hr
    exact ⟨r.1, r.2, g', rfl, hg', hq⟩

/-- Declarations of all types: each of them stores as many bytes as are kept, also the one that reads
    a variable, and all are in place. -/
theorem reserved_stored_allTypes : ∃ p scope g,
    parse (scan "float f;\nbyte c = 7;\nbool b = true;\nint x = 5 + 1;\nint y = x;\n") =
      .ok (p, scope) ∧
    generateProgram p = .ok g ∧ g.Whole ∧ (∀ n ∈ p, n.declaresNumeric) ∧
    (∃ t ∈ allTasks p {}, ∃ m s x, m.pc = t.start.length ∧ s.pc + 1 = t.finish.length ∧
      Machine.InFrame g.program 1 m s ∧ s.stack.head? = some x ∧
      t.finish.memory = t.start.memory + x.tag.width) ∧
    ((Machine.trail g.program 12 {}).filter (Machine.declares g.program)).length = 5 ∧
    ∀ d ∈ (allTasks p {}).zip ((Machine.trail g.program 12 {}).filter (Machine.declares g.program)),
      d.1.InPlace g d.2 := by
  obtain ⟨p, scope, g, hp, hg, hw, hn, ⟨t, ht, htn, m, -, hm, s, hs, hpc, hframes, x, hx, hfits⟩,
      hlen, hall⟩ := exists_of_parse
    "float f;\nbyte c = 7;\nbool b = true;\nint x = 5 + 1;\nint y = x;\n" (fun p g =>
      g.Whole ∧ (∀ n ∈ p, n.declaresNumeric) ∧
      (∃ t ∈ allTasks p {}, t.node.declaresNumeric ∧ ∃ m ∈ Machine.advance? g.program 10 {},
        m.pc = t.start.length ∧ ∃ s ∈ m.advance? g.program 1, s.pc + 1 = t.finish.length ∧
          s.frames = m.frames ∧ ∃ x ∈ s.stack.head?, t.Fits (s.widthOf t.finish) x) ∧
      ((Machine.trail g.program 12 {}).filter (Machine.declares g.program)).length = 5 ∧
      ∀ d ∈ ((allTasks p {}).zip
          ((Machine.trail g.program 12 {}).filter (Machine.declares g.program))).dropLast,
        ∃ x ∈ d.2.stack.head?, d.1.Fits (keptFor p) x) (by decide +kernel)
  obtain ⟨hone, hsteps⟩ := reserved_stored_iff hp hg hw
  have hrun : Machine.InFrame g.program 1 m s := by
    cases Machine.steps_iff.2 hs with
    | next hstep hrest =>
      cases hrest
      exact .next hstep hframes (.refl s)
  refine ⟨p, scope, g, hp, hg, hw, hn, ⟨t, ht, m, s, x, hm, hpc, hrun, hx, ?_⟩, hlen, ?_⟩
  · exact (hone t ht htn m s 1 x hm hpc hrun hx).2.2 hfits
  · exact (hsteps hn 12).2.2.2 hall

/-- For a byte four bytes are kept and one is stored, and the next variable is not where it is loaded
    from. -/
theorem reserved_exceeds_byte : ∃ p scope g,
    parse (scan "byte b;\nint x = 5;\nint y = x;\n") = .ok (p, scope) ∧
    generateProgram p = .ok g ∧ g.Whole ∧ (∀ n ∈ p, n.declaresNumeric) ∧
    (∃ d ∈ (allTasks p {}).zip ((Machine.trail g.program 4 {}).filter (Machine.declares g.program)),
      d.1.finish.memory = d.1.start.memory + 4 ∧ ∃ x ∈ d.2.stack.head?, x.tag.width = 1) ∧
    (Machine.runFrom g.program 0 6 {}).finish = .halted (.failed (.readOutside 4 8 5)) ∧
    ¬∀ d ∈ (allTasks p {}).zip ((Machine.trail g.program 4 {}).filter (Machine.declares g.program)),
      d.1.InPlace g d.2 := by
  obtain ⟨p, scope, g, hp, hg, hw, hn, hfirst, hfinish, d, hd, a, ha, x, hx, hsize⟩ :=
    exists_of_parse "byte b;\nint x = 5;\nint y = x;\n" (fun p g =>
      g.Whole ∧ (∀ n ∈ p, n.declaresNumeric) ∧
      (∃ d ∈ (allTasks p {}).zip
          ((Machine.trail g.program 4 {}).filter (Machine.declares g.program)),
        d.1.finish.memory = d.1.start.memory + 4 ∧ ∃ x ∈ d.2.stack.head?, x.tag.width = 1) ∧
      (Machine.runFrom g.program 0 6 {}).finish = .halted (.failed (.readOutside 4 8 5)) ∧
      ∃ d ∈ (allTasks p {}).zip
          ((Machine.trail g.program 4 {}).filter (Machine.declares g.program)),
        ∃ a ∈ d.1.address? g, ∃ x ∈ d.2.stack.head?, d.2.memory.cells.size ≠ a)
      (by decide +kernel)
  refine ⟨p, scope, g, hp, hg, hw, hn, hfirst, hfinish, fun hall => hsize ?_⟩
  exact (Task.inPlace_iff ha hx).1 (hall d hd)

end StackLang
