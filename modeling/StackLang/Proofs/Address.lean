import StackLang.Proofs.Declaration
import StackLang.Proofs.Loading
import StackLang.Proofs.Exchange
import StackLang.Proofs.Storage

/-!
# Addresses while generating and while running

The generator gives each declaration the next free address when it comes to it in the
text. The machine makes room for it at the end of its memory whenever it executes it.
The two agree as long as the machine executes the declarations in the order of the text,
each of them once and none of them left out.

* `Machine.sizes_of_trail`: with integers only, memory grows by four with each
  declaration that is executed, and by nothing else.
* `addresses_agree_iff`: every declaration that a run executes stores at its own address
  if and only if the declarations executed are the first ones of the program, in their
  order.
-/

namespace StackLang

open Gen List Option

variable {g : Generator}

/-! ### Runs -/

/-- The number of a store is 19. -/
theorem Operation.storeMem_of_code {n : Nat} (h : Operation.ofCode? n = some .storeMem) :
    n = Op.storeMem := by
  unfold Operation.ofCode? at h
  split at h <;> simp_all

namespace Machine

variable {P : Program} {m m' : Machine} {n : Nat}

/-- The states in which the machine executes the first `n` instructions, as far as none of
    them stops it. -/
def trail (P : Program) : Nat → Machine → List Machine
  | 0, _ => []
  | n + 1, m =>
    match m.step P with
    | some (.next m') => m :: trail P n m'
    | _ => []

/-- The instruction that ends a declaration. -/
def declaring : Instruction := ⟨0x13, endAddress⟩

/-- The machine is about to execute such an instruction. -/
def declares (P : Program) (m : Machine) : Bool := m.fetch P = some declaring

/-- If the machine stores the top of its stack at the end of memory, it does so at this
    address. -/
def StoresAt (m : Machine) (a : Nat) : Prop :=
  ∃ x cells, m.stack.head? = some x ∧
    m.memory.cells.write endAddress x.word x.tag.width = .ok (cells, a)

theorem storesAt_iff {x : Item} (hx : m.stack.head? = some x) {a : Nat} :
    m.StoresAt a ↔ m.memory.cells.size = a := by
  obtain ⟨s', hw, -⟩ := m.memory.cells.write_end x.word x.tag.width_pos x.tag.width_le
  constructor
  · rintro ⟨y, cells, hy, h⟩
    obtain rfl : x = y := by rwa [hx, some.injEq] at hy
    rw [hw] at h
    cases h
    rfl
  · rintro rfl
    exact ⟨x, s', hx, hw⟩

/-- An instruction makes memory grow only if it declares, and then by the width of what it
    stores. -/
theorem size_of_step (h : m.step P = some (.next m')) :
    m'.memory.cells.size = m.memory.cells.size +
      if m.declares P then (m.stack.head?.map fun x => x.tag.width).getD 0 else 0 := by
  obtain ⟨i, hi, hexec⟩ := map_eq_some_iff.1 h
  by_cases hop : Operation.ofCode? i.code.toNat = some .storeMem
  · obtain ⟨x, rest, memory, hs, hm, rfl⟩ := store_of_execute hexec hop
    obtain ⟨a, hw, -⟩ := Memory.store_eq_ok hm
    have hcode : i.code = 0x13 := UInt8.toNat_inj.1 (Operation.storeMem_of_code hop)
    by_cases ha : i.arg = endAddress
    · have hd : m.declares P = true := by
        rw [declares, hi, decide_eq_true_eq, some.injEq, declaring, ← hcode, ← ha]
      obtain ⟨s', hw', hsize⟩ := m.memory.cells.write_end x.word x.tag.width_pos
        x.tag.width_le
      rw [ha, hw'] at hw
      cases hw
      rw [if_pos hd, hs]
      exact hsize
    · have hd : m.declares P = false := by
        rw [declares, hi, decide_eq_false_iff_not, some.injEq]
        rintro rfl
        exact ha rfl
      rw [if_neg (by simp [hd])]
      exact Segment.write_ne ha hw
  · have hd : m.declares P = false := by
      rw [declares, hi, decide_eq_false_iff_not, some.injEq]
      rintro rfl
      exact hop rfl
    rw [if_neg (by simp [hd]), memory_of_execute hexec hop]
    rfl

/-- With integers only, the declarations executed find memory four bytes larger each
    time. -/
theorem sizes_of_trail (htag : ∀ s ∈ trail P n m, s.declares P →
      s.stack.head?.map Item.tag = some .int) :
    ((trail P n m).filter (declares P)).map (fun s => s.memory.cells.size) =
      List.range' m.memory.cells.size ((trail P n m).filter (declares P)).length 4 := by
  induction n generalizing m with
  | zero => rfl
  | succ n ih =>
    rw [trail] at htag ⊢
    split
    · rename_i m' hstep
      rw [hstep] at htag
      have hsize := size_of_step hstep
      have hrest := ih fun s hs => htag s (mem_cons_of_mem _ hs)
      rw [filter_cons]
      cases hd : m.declares P with
      | true =>
        have htop := htag m mem_cons_self hd
        obtain ⟨x, hx, hint⟩ := map_eq_some_iff.1 htop
        simp only [hd, hx, if_true, map_some, getD_some, hint] at hsize
        simp only [if_true, map_cons, length_cons, range'_succ, hrest, hsize]
        rfl
      | false =>
        simp only [hd, Bool.false_eq_true, if_false, Nat.add_zero] at hsize
        rw [if_neg (by simp), hrest, hsize]
    · rfl

end Machine

/-! ### Stores of a program -/

/-- What a slot of generated code can be: its number fits into a byte, a store goes to an
    address or to the end of memory, and a jump has a place as its target. -/
def Slot.Regular : Slot → Prop
  | .instruction c a => c < 256 ∧ (c = Op.storeMem → ∃ x : Int, -1 ≤ x ∧ a = .int x) ∧
      (c = Op.jump ∨ c = Op.jumpIf → ∃ t : Nat, a = .int t)
  | _ => True

theorem Plain.regular {n : Node} {c : Nat} {a : Argument} (h : Plain n g c a) :
    (Slot.instruction c a).Regular := by
  refine ⟨h.small, fun hc => ?_, fun hc => ?_⟩
  · obtain ⟨x, hx⟩ := h.address hc
    exact ⟨x, by omega, hx⟩
  · exact absurd hc (not_or.2 ⟨h.not_jump, h.not_jumpIf⟩)

/-- The slots of a generator are regular. -/
def Generator.Regular (g : Generator) : Prop := ∀ s ∈ g.code, s.Regular

namespace Generator.Regular

variable {g : Generator}

theorem push (hg : g.Regular) {s : Slot} (hs : s.Regular) : (g.push s).Regular := by
  intro s' hs'
  rcases Array.mem_push.1 hs' with h | rfl
  · exact hg s' h
  · exact hs

theorem fill (hg : g.Regular) {c : Nat} (hc : c = Op.jump ∨ c = Op.jumpIf ∨ c = Op.store)
    (i t : Nat) : (g.fill i c t).Regular := by
  intro s hs
  rcases Array.mem_or_eq_of_mem_setIfInBounds hs with h | rfl
  · exact hg s h
  · rcases hc with rfl | rfl | rfl
    all_goals exact ⟨by decide, fun h => absurd h (by decide), fun _ => ⟨t, rfl⟩⟩

theorem settled (hg : g.Regular) (e : Exit) : (g.settled e).Regular := by
  unfold Generator.settled
  split
  · exact hg.fill (.inl rfl) _ _
  · exact hg

end Generator.Regular

theorem Course.regular {n : Node} {h : Generator} {ts : List Task} {ks fs : List Nat}
    (c : Course n g ts ks fs h) (hg : g.Regular)
    (hts : ∀ t ∈ ts, t.start.Regular → ∀ k, Ends (generate t.node) t.start () k → k.Regular) :
    h.Regular := by
  induction c with
  | start => exact hg
  | write c hp ih => exact (ih hts).push hp.regular
  | note heap records objects c ih | reserve name type c _ ih => exact ih hts
  | declare c _ ih =>
    exact (ih hts).push ⟨by decide, fun _ => ⟨-1, by omega, rfl⟩, fun h => absurd h (by decide)⟩
  | @keep ts ks fs h s c ho ih =>
    refine (ih hts).push ?_
    cases s with
    | instruction code a =>
      obtain rfl : code = 0 := by simpa [Slot.isOpen] using ho
      exact ⟨by decide, fun h => absurd h (by decide), fun h => absurd h (by decide)⟩
    | label text | bare n => trivial
  | fill c _ _ hx ih => exact (ih hts).fill hx _ _
  | back c _ _ ih =>
    exact (ih hts).push ⟨by decide, fun h => absurd h (by decide), fun _ => ⟨_, rfl⟩⟩
  | flag b c _ ih => exact ih hts
  | settle e c _ _ ih => exact (ih hts).settled e
  | wait c _ _ ih => exact (ih hts).push trivial
  | part c e ih =>
    exact hts _ mem_concat_self
      (ih fun t ht => hts t (mem_append_left _ ht)) _ e

/-- The code of a node is regular if that before it is. -/
theorem Gen.regular_of_ends {n : Node} {h : Generator} (hg : g.Regular)
    (e : Ends (generate n) g () h) : h.Regular := by
  refine ends_induction (P := fun _ g k => g.Regular → k.Regular) (fun c _ ih hg => ?_) e hg
  exact c.regular hg fun t ht hr k e => ih t ht k e hr

theorem regular_of_generateProgram {p : List Node} (h : generateProgram p = .ok g) : g.Regular :=
  (course_of_generateProgram h).regular (by intro s hs; simp at hs) fun _ _ ht _ e =>
    Gen.regular_of_ends ht e

/-- Of a whole image, every instruction that the machine fetches is one of the code. -/
theorem Generator.Whole.slot_of_fetch (hw : g.Whole) (hr : g.Regular) {i : Nat} {j : Instruction}
    (hi : g.program[i]? = some j) :
    ∃ a, g.code[i]? = some (.instruction j.code.toNat a) ∧
      (Slot.instruction j.code.toNat a).Regular ∧ Image.argumentWord? a = .ok (some j.arg) := by
  have hlt := (Array.getElem?_eq_some_iff.1 hi).1
  rw [hw.size] at hlt
  have hs := Array.getElem?_eq_getElem hlt
  obtain ⟨c, a, w, hslot, harg, hfetch⟩ := hw.fetch hs
  have hreg : (Slot.instruction c a).Regular := hslot ▸ hr _ (Array.getElem_mem hlt)
  rw [hi, some.injEq] at hfetch
  subst hfetch
  -- numbers of instructions are below 256, so none is lost in its byte
  have hcode : c.toUInt8.toNat = c := by
    rw [Nat.toUInt8, UInt8.toNat_ofNat', Nat.mod_eq_of_lt hreg.1]
  rw [hcode]
  exact ⟨a, by rw [hs, hslot], hreg, harg⟩

/-- So is every store. -/
theorem Generator.Whole.store_of_fetch (hw : g.Whole) (hr : g.Regular) {i : Nat} {w : UInt32}
    (hi : g.program[i]? = some ⟨0x13, w⟩) :
    ∃ x : Int, -1 ≤ x ∧ g.code[i]? = some (.instruction Op.storeMem (.int x)) ∧
      Image.argumentWord? (.int x) = .ok (some w) := by
  obtain ⟨a, hs, hreg, harg⟩ := hw.slot_of_fetch hr hi
  obtain ⟨x, hx, rfl⟩ := hreg.2.1 rfl
  exact ⟨x, hx, hs, harg⟩

/-- Of a whole image, the stores at the end of memory are those of the code. -/
theorem Generator.Whole.declares_iff (hw : g.Whole) (hr : g.Regular) {m : Machine} :
    m.declares g.program ↔ g.code[m.pc]? = some .declaring := by
  rw [Machine.declares, Machine.fetch, decide_eq_true_eq]
  constructor
  · intro h
    obtain ⟨x, hx, hs, harg⟩ := hw.store_of_fetch hr h
    rw [hs, (eq_neg_one_of_word hx harg).1 rfl]
  · intro h
    obtain ⟨c, a, w, hslot, harg, hfetch⟩ := hw.fetch h
    obtain ⟨rfl, rfl⟩ := Slot.instruction.inj hslot
    rw [hfetch, (eq_neg_one_of_word (by omega) harg).2 rfl]
    rfl

/-! ### Declarations that are executed -/

/-- States that find memory larger by four each time find it as large as their
    declarations say if and only if those are the first ones. -/
theorem agree_iff_prefix {ss : List Machine} {ds : List Declaration}
    (hsizes : ss.map (fun s => s.memory.cells.size) = List.range' 0 ss.length 4)
    (haddresses : ds.map Declaration.address = List.range' 0 ds.length 4)
    (hdistinct : (ds.map Declaration.place).Nodup)
    (hfound : ∀ s ∈ ss, ∃ d ∈ ds, d.place = s.pc) :
    (∀ s ∈ ss, ∀ d ∈ ds, d.place = s.pc → s.memory.cells.size = d.address) ↔
      ss.map Machine.pc <+: ds.map Declaration.place := by
  have hsize : ∀ (i : Nat) (h : i < ss.length), (ss[i]).memory.cells.size = 4 * i := by
    intro i h
    have := congrArg (fun l => l[i]?) hsizes
    simpa [h] using this
  have haddress : ∀ (i : Nat) (h : i < ds.length), (ds[i]).address = 4 * i := by
    intro i h
    have := congrArg (fun l => l[i]?) haddresses
    simpa [h] using this
  rw [prefix_iff_getElem?]
  constructor
  · intro h i hi
    rw [length_map] at hi
    obtain ⟨d, hd, hp⟩ := hfound _ (getElem_mem hi)
    have heq := h _ (getElem_mem hi) d hd hp
    obtain ⟨j, hj, rfl⟩ := getElem_of_mem hd
    rw [hsize i hi, haddress j hj] at heq
    obtain rfl : i = j := by omega
    simp [hj, hp]
  · intro h s hs d hd hp
    obtain ⟨i, hi, rfl⟩ := getElem_of_mem hs
    obtain ⟨j, hj, rfl⟩ := getElem_of_mem hd
    have hplace := h i (by simpa using hi)
    have hpi : i < ds.length := by
      have := (List.getElem?_eq_some_iff.1 hplace).1
      simpa using this
    -- the places are distinct, so the declaration is the one in the same position
    have hij : i = j := by
      obtain ⟨hi', hplace⟩ := List.getElem?_eq_some_iff.1 hplace
      have hj' : j < (ds.map Declaration.place).length := by simpa using hj
      have heq : (ds.map Declaration.place)[i] = (ds.map Declaration.place)[j] := by
        rw [hplace]
        simp [hp]
      exact (getElem_inj hdistinct).1 heq
    subst hij
    rw [hsize i hi, haddress i hj]

/-- If a program declares only integers, and a run of it stores only integers when it
    declares, then every declaration that the run executes stores at its own address if and
    only if the declarations executed are the first ones of the program, in their order. -/
theorem addresses_agree_iff {p : List Node} {g : Generator} (h : generateProgram p = .ok g)
    (hint : ∀ n ∈ p.flatMap Node.reached, n.declaresInts) (hw : g.Whole) {m : Machine}
    (hm : m.memory.cells.size = 0) {n : Nat}
    (htag : ∀ s ∈ Machine.trail g.program n m, s.declares g.program →
      s.stack.head?.map Item.tag = some .int) :
    g.identifiers = (declarations p).foldl (fun t d => t.put d.name d.address) ({} : Generator).identifiers ∧
    (∀ s ∈ (Machine.trail g.program n m).filter (Machine.declares g.program),
      ∃ d ∈ declarations p, d.place = s.pc) ∧
    ((∀ s ∈ (Machine.trail g.program n m).filter (Machine.declares g.program), ∀ d ∈ declarations p,
        d.place = s.pc → s.StoresAt d.address) ↔
      ((Machine.trail g.program n m).filter (Machine.declares g.program)).map Machine.pc <+:
        (declarations p).map Declaration.place) := by
  have d := declared_of_generateProgram h hint
  have hr := regular_of_generateProgram h
  have hsizes := Machine.sizes_of_trail htag
  rw [hm] at hsizes
  have hfound : ∀ s ∈ (Machine.trail g.program n m).filter (Machine.declares g.program),
      ∃ x ∈ declarations p, x.place = s.pc := fun s hs =>
    d.complete s.pc (Nat.zero_le _) ((hw.declares_iff hr).1 (List.mem_filter.1 hs).2)
  refine ⟨d.identifiers, hfound, ?_⟩
  rw [← agree_iff_prefix hsizes d.addresses d.distinct hfound]
  -- what is stored is there, so it is stored where memory ends
  refine forall_congr' fun s => forall_congr' fun hs => forall_congr' fun x =>
    forall_congr' fun _ => imp_congr_right fun _ => ?_
  obtain ⟨hmem, hd⟩ := List.mem_filter.1 hs
  obtain ⟨y, hy, -⟩ := Option.map_eq_some_iff.1 (htag s hmem hd)
  exact Machine.storesAt_iff hy

/-- Whether the image of the code is whole, and what the first `n` steps of a run find when
    they declare: the place, the size of memory and the tag of what is stored. -/
def Generator.findings (g : Generator) (n : Nat) : Bool × List (Nat × Nat × Option Tag) :=
  ((Image.write g).fault.isNone && (Image.write g).bytes.length == 5 * g.code.size,
    ((Machine.trail g.program n {}).filter (Machine.declares g.program)).map fun s =>
      (s.pc, s.memory.cells.size, s.stack.head?.map Item.tag))

theorem Generator.whole_of_findings {n : Nat} {xs : List (Nat × Nat × Option Tag)}
    (h : g.findings n = (true, xs)) : g.Whole := by
  have h := (Prod.mk.inj h).1
  rw [Bool.and_eq_true, isNone_iff_eq_none, beq_iff_eq] at h
  exact ⟨h.1, h.2⟩

theorem Generator.tag_of_findings {n : Nat} {b : Bool} {xs : List (Nat × Nat × Option Tag)}
    (h : g.findings n = (b, xs)) (hxs : ∀ x ∈ xs, x.2.2 = some .int) :
    ∀ s ∈ Machine.trail g.program n {},
      s.declares g.program → s.stack.head?.map Item.tag = some .int := by
  intro s hs hd
  have hmem := mem_map_of_mem
    (f := fun s : Machine => (s.pc, s.memory.cells.size, s.stack.head?.map Item.tag))
    (mem_filter.2 ⟨hs, hd⟩)
  rw [show List.map _ _ = xs from (Prod.mk.inj h).2] at hmem
  exact hxs _ hmem

/-- A function with a parameter, and a variable: `func f(int a) -> int { return a; }` and
    `int x = 7;`. -/
def functionAndVariable : List Node :=
  [.function (.text "f") "INT" [⟨"INT", .text "a"⟩]
      [.giveBack (some (.literal "VARIABLE" (.text "f.a")))],
    .declare (.text "x") "INT" (some (.literal "INT_LITERAL" (.int 7)))]

/-- The variable is declared behind the function, and so is its address. -/
theorem addresses_agree_function : ∃ g, generateProgram functionAndVariable = .ok g ∧ g.Whole ∧
    ((Machine.trail g.program 9 {}).filter (Machine.declares g.program)).map Machine.pc =
      [1, 3, 9] ∧
    ∀ s ∈ (Machine.trail g.program 9 {}).filter (Machine.declares g.program),
      ∀ d ∈ declarations functionAndVariable, d.place = s.pc → s.StoresAt d.address := by
  have hplaces : (declarations functionAndVariable).map Declaration.place = [1, 3, 9] := by
    simp only [declarations, programTasks, functionAndVariable, allTasks, Task.all_eq, Task.parts,
      tasksOf, optionTasks, List.flatMap_cons, List.flatMap_nil, List.append_nil,
      List.cons_append, List.nil_append]
    rfl
  have hint : ∀ n ∈ functionAndVariable.flatMap Node.reached, n.declaresInts := by
    simp [functionAndVariable, Node.reached_eq, Node.turns, Node.declaresInts]
  obtain ⟨g, hg, hf⟩ : ∃ g, generateProgram functionAndVariable = .ok g ∧ g.findings 9 =
      (true, [(1, 0, some .int), (3, 4, some .int), (9, 8, some .int)]) :=
    exists_of_toOption (by decide +kernel)
  have hpcs : ((Machine.trail g.program 9 {}).filter (Machine.declares g.program)).map Machine.pc =
      [1, 3, 9] := by
    have := congrArg (List.map Prod.fst) (Prod.mk.inj hf).2
    rwa [List.map_map] at this
  have hwhole := Generator.whole_of_findings hf
  have htag := Generator.tag_of_findings hf (by decide)
  refine ⟨g, hg, hwhole, hpcs, (addresses_agree_iff hg hint hwhole rfl htag).2.2.2 ?_⟩
  simp only [hpcs, hplaces, List.prefix_refl]

/-- A loop with a declaration in its body: `int i = 0; while (i < 2) { int x = i; i = i + 1; }`. -/
def declaringLoop : List Node :=
  let i := Node.literal "VARIABLE" (.text "i")
  let number (n : Int) := Node.literal "INT_LITERAL" (.int n)
  [.declare (.text "i") "INT" (some (number 0)),
    .whileLoop (.binary "<" i (some (number 2)))
      [.declare (.text "x") "INT" (some i),
        .assign (.atom (.text "i")) (.binary "+" i (some (number 1)))]]

/-- The second round does not find its variable where the first one did. -/
theorem addresses_differ_loop : ∃ g, generateProgram declaringLoop = .ok g ∧ g.Whole ∧
    (∀ n ∈ declaringLoop.flatMap Node.reached, n.declaresInts) ∧
    (∀ s ∈ Machine.trail g.program 31 {}, s.declares g.program →
      s.stack.head?.map Item.tag = some .int) ∧
    ¬∀ s ∈ (Machine.trail g.program 31 {}).filter (Machine.declares g.program),
      ∀ d ∈ declarations declaringLoop, d.place = s.pc → s.StoresAt d.address := by
  have hint : ∀ n ∈ declaringLoop.flatMap Node.reached, n.declaresInts := by
    simp [declaringLoop, Node.reached_eq, Node.turns, Node.declaresInts, Operand.targets]
  obtain ⟨g, hg, hf⟩ : ∃ g, generateProgram declaringLoop = .ok g ∧ g.findings 31 =
      (true, [(1, 0, some .int), (8, 4, some .int), (8, 8, some .int)]) :=
    exists_of_toOption (by decide +kernel)
  have hwhole := Generator.whole_of_findings hf
  have htag := Generator.tag_of_findings hf (by decide)
  refine ⟨g, hg, hwhole, hint, htag, fun hall => ?_⟩
  -- the two rounds execute the same declaration with memory of different sizes
  have hround : ∀ size : Nat, (8, size, some .int) ∈ (g.findings 31).2 →
      ∀ d ∈ declarations declaringLoop, d.place = 8 → size = d.address := by
    intro size hmem d hd hplace
    obtain ⟨s, hs, heq⟩ := List.mem_map.1 hmem
    obtain ⟨hpc, hsize, htop⟩ : s.pc = 8 ∧ s.memory.cells.size = size ∧
        s.stack.head?.map Item.tag = some .int := by simpa using heq
    obtain ⟨x, hx, -⟩ := Option.map_eq_some_iff.1 htop
    rw [← hsize]
    exact (Machine.storesAt_iff hx).1 (hall s hs d hd (hplace.trans hpc.symm))
  obtain ⟨d, hd, hplace⟩ : ∃ d ∈ declarations declaringLoop, d.place = 8 := by
    have hmem : (8, 4, some .int) ∈ (g.findings 31).2 := by
      rw [hf]
      decide
    obtain ⟨s, hs, heq⟩ := List.mem_map.1 hmem
    rw [← (Prod.mk.inj heq).1]
    exact (declared_of_generateProgram hg hint).complete s.pc (Nat.zero_le _)
      ((hwhole.declares_iff (regular_of_generateProgram hg)).1 (List.mem_filter.1 hs).2)
  rw [hf] at hround
  have h₁ := hround 4 (by decide) d hd hplace
  have h₂ := hround 8 (by decide) d hd hplace
  omega

end StackLang
