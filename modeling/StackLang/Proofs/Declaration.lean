import StackLang.Proofs.Layout

/-!
# Declarations

A declaration gives its name the next free address and ends with an instruction that
stores at the end of memory. A function declares its name and its parameters in this
way before its body. `declarations` lists the declarations of a program in the order in
which they get their addresses.

`Declared` says what a stretch of generation with given declarations does: with integers
only, the addresses go up by four, the table of identifiers takes over each of them, and
the stores at the end of memory are those of the declarations, each at a place of its
own. `Task.Done.declared` proves it of every task, `declared_of_generateProgram` of whole
programs.
-/

namespace StackLang

open Gen List

variable {g : Generator}

/-- The instruction that ends a declaration. -/
abbrev Slot.declaring : Slot := .instruction Op.storeMem (.int (-1))

/-- A declaration: its name, the address it gives to the name, and the place of its
    store. -/
structure Declaration where
  name : Atom
  address : Nat
  place : Nat
  deriving Repr

namespace Node

/-- Whether what the node declares are integers. -/
def declaresInts : Node → Bool
  | .declare _ t _ => t = "INT"
  | .function _ _ ps _ => ps.all fun p => p.type = "INT"
  | _ => true

end Node

/-- The declarations of parameters: the first one gets the given address, and its code
    begins at the given place. -/
def parameterDeclarations (function : Atom) : List Parameter → (address place : Nat) →
    List Declaration
  | [], _, _ => []
  | p :: ps, a, i =>
    ⟨.text (function.shown ++ "." ++ p.name.shown), a, i + 1⟩ ::
      parameterDeclarations function ps
        (a + if p.type = "BOOL" ∨ p.type = "CHAR" then 1 else 4) (i + 2)

namespace Task

/-- The declarations of the node itself. -/
def ownDeclarations (t : Task) : List Declaration :=
  match t.node with
  | .declare n _ _ => [⟨n, t.start.memory, t.finish.length - 1⟩]
  | .function n _ ps _ =>
    ⟨n, t.start.memory, t.start.length + 1⟩ ::
      parameterDeclarations n ps (t.start.memory + 4) (t.start.length + 2)
  | _ => []

/-- The declarations of a task and of all those below it. -/
def declarations (t : Task) : List Declaration := t.all.flatMap ownDeclarations

theorem declarations_eq (t : Task) :
    t.declarations = t.ownDeclarations ++ t.parts.flatMap declarations := by
  rw [declarations, all_eq, flatMap_cons, flatMap_assoc]
  rfl

end Task

/-- The declarations of a program, in the order of their addresses. -/
def declarations (p : List Node) : List Declaration :=
  (programTasks p).flatMap Task.ownDeclarations

/-- Generation from `g` to `h` has made the declarations `ds`. -/
structure Declared (g : Generator) (ds : List Declaration) (h : Generator) : Prop where
  memory : h.memory = g.memory + 4 * ds.length
  addresses : ds.map Declaration.address = List.range' g.memory ds.length 4
  identifiers : h.identifiers = ds.foldl (fun t d => t.put d.name d.address) g.identifiers
  within : ∀ d ∈ ds, g.length ≤ d.place ∧ d.place < h.length
  stores : ∀ d ∈ ds, h.code[d.place]? = some .declaring
  distinct : (ds.map Declaration.place).Nodup
  /-- There are no other stores at the end of memory. -/
  complete : ∀ i, g.length ≤ i → h.code[i]? = some .declaring → ∃ d ∈ ds, d.place = i

/-- The stores at the end of memory are the same in the code that is kept. -/
theorem Keeps.declaring_iff {a b : Nat} {h : Generator} (hk : Keeps a b g h) (hg : g.Sound)
    {i : Nat} (ha : a ≤ i) (hb : i < b) :
    h.code[i]? = some .declaring ↔ g.code[i]? = some .declaring := by
  rcases hk.slot i ha hb with hc | ⟨hw, -, t, -, -, hc⟩
  · rw [hc]
  · rw [hc, hg.waiting hw]
    simp

namespace Declared

variable {g h k : Generator} {ds es : List Declaration} {s : Slot}

theorem start (hg : g.Sound) : Declared g [] g where
  memory := by simp
  addresses := by simp
  identifiers := rfl
  within := by simp
  stores := by simp
  distinct := by simp
  complete i hi hs := by
    rw [hg.code_none hi] at hs
    cases hs

section

variable (d : Declared g ds h)

include d

theorem trans (e : Declared h es k) (hg : g.length ≤ h.length) (hk : h.length ≤ k.length)
    (hcode : ∀ i < h.length, k.code[i]? = some .declaring ↔ h.code[i]? = some .declaring) :
    Declared g (ds ++ es) k where
  memory := by
    rw [e.memory, d.memory, length_append]
    omega
  addresses := by
    rw [map_append, d.addresses, e.addresses, d.memory, length_append,
      range'_append]
  identifiers := by rw [foldl_append, ← d.identifiers, e.identifiers]
  within x hx := by
    rcases mem_append.1 hx with hx | hx
    · have := d.within x hx
      omega
    · have := e.within x hx
      omega
  stores x hx := by
    rcases mem_append.1 hx with hx | hx
    · exact (hcode _ (d.within x hx).2).2 (d.stores x hx)
    · exact e.stores x hx
  distinct := by
    rw [map_append]
    refine nodup_append.2 ⟨d.distinct, e.distinct, ?_⟩
    intro i hi j hj
    obtain ⟨x, hx, rfl⟩ := mem_map.1 hi
    obtain ⟨y, hy, rfl⟩ := mem_map.1 hj
    have := (d.within x hx).2
    have := (e.within y hy).1
    omega
  complete i hi hs := by
    rcases Nat.lt_or_ge i h.length with hlt | hge
    · obtain ⟨x, hx, h⟩ := d.complete i hi ((hcode i hlt).1 hs)
      exact ⟨x, mem_append_left _ hx, h⟩
    · obtain ⟨x, hx, h⟩ := e.complete i hge hs
      exact ⟨x, mem_append_right _ hx, h⟩

/-- A step that declares nothing. -/
theorem step (hg : g.length ≤ h.length) (hm : k.memory = h.memory)
    (hi : k.identifiers = h.identifiers) (hl : h.length ≤ k.length)
    (hcode : ∀ i < h.length, k.code[i]? = some .declaring ↔ h.code[i]? = some .declaring)
    (hnew : ∀ i, h.length ≤ i → k.code[i]? ≠ some .declaring) : Declared g ds k := by
  have e : Declared h [] k :=
    ⟨by simp [hm], by simp, hi, by simp, by simp, by simp, fun i hi hs => absurd hs (hnew i hi)⟩
  simpa using d.trans e hg hl hcode

/-- A step that leaves the length alone declares nothing. -/
theorem same (hg : g.length ≤ h.length) (hk : k.Sound) (hm : k.memory = h.memory)
    (hi : k.identifiers = h.identifiers) (hl : k.length = h.length)
    (hcode : ∀ i < h.length, k.code[i]? = some .declaring ↔ h.code[i]? = some .declaring) :
    Declared g ds k := by
  refine d.step hg hm hi (Nat.le_of_eq hl.symm) hcode fun i hi hs => ?_
  rw [hk.code_none (hl ▸ hi)] at hs
  cases hs

/-- Another slot is put at the end of the code. -/
theorem push (hh : h.Sound) (hg : g.length ≤ h.length) (hs : s ≠ .declaring) :
    Declared g ds (h.push s) := by
  refine d.step hg rfl rfl (Nat.le_succ _) (fun i hi => ?_) fun i hi hc => ?_
  · rw [hh.push_code_lt s hi]
  · exact hs (Laid.push_new hh hi hc).2.symm

/-- A place that is no declaration's is filled. -/
theorem fill (hh : h.Sound) {i c : Nat} (hg : g.length ≤ i) (hi : i < h.length) (hw : ¬h.Waits i)
    (hne : ∀ x ∈ ds, x.place ≠ i) (hc : c ≠ Op.storeMem) (t : Nat) : Declared g ds (h.fill i c t) := by
  refine d.same (by omega) (hh.fill hw c t) rfl rfl rfl fun j hj => ?_
  by_cases hij : i = j
  · subst hij
    rw [hh.fill_code_self hi]
    refine ⟨fun heq => ?_, fun hs => ?_⟩
    · exact absurd (Slot.instruction.inj (Option.some.inj heq)).1 hc
    · obtain ⟨x, hx, rfl⟩ := d.complete i hg hs
      exact absurd rfl (hne x hx)
  · rw [Generator.fill_code_ne hij]

end

/-- A declaration at the end of the code. -/
theorem declare (hh : h.Sound) (name : Atom) (type : String) (ht : ¬(type = "BOOL" ∨ type = "CHAR"))
    (hs : s ≠ .declaring) :
    Declared h [⟨name, h.memory, h.length + 1⟩]
      (((h.reserved name type).push s).push .declaring) := by
  have hr := hh.reserved name type
  refine ⟨?_, rfl, rfl, by simp, ?_, by simp, fun i hi hc => ?_⟩
  · simp [Generator.reserved, ht]
  · simpa using (hr.push s).push_code_length .declaring
  · rcases Nat.lt_or_ge i (h.length + 1) with hlt | hge
    · rw [(hr.push s).push_code_lt _ hlt] at hc
      exact absurd (Laid.push_new hr hi hc).2.symm hs
    · exact ⟨_, mem_singleton.2 rfl, (Laid.push_new (hr.push s) hge hc).1.symm⟩

end Declared

theorem Plain.ne_declaring {n : Node} {c : Nat} {a : Argument} (h : Plain n g c a) :
    Slot.instruction c a ≠ .declaring := by
  rintro heq
  obtain ⟨rfl, rfl⟩ := Slot.instruction.inj heq
  obtain ⟨x, hx⟩ := h.address rfl
  simp at hx

/-- The course of a node that declares nothing itself makes the declarations of its
    parts. -/
theorem Course.declared {n : Node} {h : Generator} {ts : List Task} {ks fs : List Nat}
    (c : Course n g ts ks fs h) (hg : g.Sound) (hn : n.declares = false)
    (hts : ∀ t ∈ ts, t.Done → Declared t.start t.declarations t.finish) :
    Declared g (ts.flatMap Task.declarations) h := by
  have noDeclaration : ∀ {p : Prop}, n.declares → p := fun h => by simp [hn] at h
  induction c with
  | start => exact .start hg
  | write c hp ih =>
    exact (ih hts).push (c.laid hg).sound c.length_le hp.ne_declaring
  | note heap records objects c ih =>
    have hsound := (c.laid hg).sound
    exact (ih hts).same c.length_le ⟨hsound.size, hsound.waiting⟩ rfl rfl rfl fun _ _ => Iff.rfl
  | reserve name type c hd ih | declare c hd ih => exact noDeclaration hd
  | keep c ho ih =>
    refine (ih hts).push (c.laid hg).sound c.length_le ?_
    rintro rfl
    cases ho
  | fill c _ hi hx ih =>
    have la := c.laid hg
    obtain ⟨hge, hlt, hw⟩ := la.kept _ hi
    refine (ih hts).fill la.sound hge hlt hw (fun x hx => ?_) ?_ _
    · -- the place was kept by the node, and what declares lies in the parts
      obtain ⟨t, ht, hx⟩ := mem_flatMap.1 hx
      have := (hts t ht (Task.inside_of_course c hg ht).done).within x hx
      have := la.apart t ht _ hi
      omega
    · rcases hx with rfl | rfl | rfl <;> decide
  | back c _ _ ih => exact (ih hts).push (c.laid hg).sound c.length_le (by simp)
  | flag b c _ ih =>
    exact (ih hts).same c.length_le ((c.laid hg).sound.flag b) rfl rfl rfl fun _ _ => Iff.rfl
  | settle e c _ he ih =>
    have hsound := (c.laid hg).sound
    exact (ih hts).same c.length_le (hsound.settled e) (by simp) (by simp) (by simp) fun i hi =>
      (Keeps.settled hsound he).declaring_iff hsound (Nat.zero_le _) hi
  | wait c _ _ ih =>
    have hsound := (c.laid hg).sound
    refine (ih hts).step c.length_le rfl rfl (Nat.le_succ _) (fun i hi => ?_) fun i hi hs => ?_
    · exact (Keeps.waitFor hsound _ (Nat.le_refl _)).declaring_iff hsound (Nat.zero_le _) hi
    · cases (Laid.push_new hsound hi hs).2
  | @part ts ks fs h k m c e ih =>
    have hsound := (c.laid hg).sound
    obtain rfl : Task.finish ⟨m, h⟩ = k := e.after_eq
    have hb := built_of_ends hsound e
    have hlast := hts ⟨m, h⟩ mem_concat_self ⟨hsound, e⟩
    rw [flatMap_append, flatMap_singleton]
    exact (ih fun t ht => hts t (mem_append_left _ ht)).trans hlast c.length_le
      hb.keeps.length_le fun i hi => hb.keeps.declaring_iff hsound (Nat.zero_le _) hi

/-- The parameters of a function are declared one after the other. -/
theorem Declared.parameters {f : Atom} {ps : List Parameter} {h : Generator} (hg : g.Sound)
    (hps : ∀ p ∈ ps, p.type = "INT") (e : Ends (declareParameters f ps) g () h) :
    Declared g (parameterDeclarations f ps g.memory g.length) h := by
  induction ps generalizing g with
  | nil =>
    obtain ⟨-, rfl⟩ := ends_pure.1 e
    exact .start hg
  | cons p ps ih =>
    have htype : ¬(p.type = "BOOL" ∨ p.type = "CHAR") := by
      rw [hps p mem_cons_self]
      decide
    obtain ⟨objects, e⟩ := ends_declareParameters_cons e
    have hnoted : Generator.Sound { g with objects } := ⟨hg.size, hg.waiting⟩
    have hr := ((hnoted.reserved (f.parameter p) p.type).push
      (.instruction Op.store (.int 0))).push .declaring
    have c : Course (.function f "" ps []) _ [] [] [] h := Course.start.parameters rfl e
    have hk := (c.laid hr).keeps
    have d := (Declared.declare hnoted (f.parameter p) p.type htype
      (s := .instruction Op.store (.int 0)) (by simp)).trans
      (ih hr (fun q hq => hps q (mem_cons_of_mem _ hq)) e) (by simp; omega) hk.length_le
      fun i hi => hk.declaring_iff hr (Nat.zero_le _) hi
    -- the names of records do not matter
    have d : Declared { g with objects } (parameterDeclarations f (p :: ps) g.memory g.length) h := by
      simpa [parameterDeclarations, Generator.reserved] using d
    exact ⟨d.memory, d.addresses, d.identifiers, d.within, d.stores, d.distinct, d.complete⟩

namespace Task

variable {t : Task} {name : Atom}

/-- A declaration of a variable declares it before what its value declares. -/
theorem Done.declared_declare (ht : t.Done) {type : String} {v : Option Node}
    (hn : t.node = .declare name type v) (htype : type = "INT")
    (hts : ∀ u ∈ t.parts, u.Done → Declared u.start u.declarations u.finish) :
    Declared t.start t.declarations t.finish := by
  have e := ht.ends
  rw [hn] at e
  have c₀ : Course .plain (t.start.reserved name type) [] [] [] _ := .start
  obtain ⟨k, c, hf⟩ := c₀.value (fun _ _ => trivial) e
  have hr := ht.sound.reserved name type
  have hk := (c.laid hr).sound
  have hle : t.start.length ≤ k.length := c.length_le
  have hparts : [] ++ tasksOf (.declare name type v) t.start = t.parts := by rw [parts, hn]; rfl
  rw [hparts] at c
  have d := c.declared hr rfl hts
  have hmem : (t.start.reserved name type).memory = t.start.memory + 4 := by
    simp [Generator.reserved, htype]
  rw [declarations_eq, ownDeclarations, hn, hf]
  refine ⟨?_, ?_, d.identifiers, ?_, ?_, ?_, fun i hi hs => ?_⟩
  · simp [d.memory, hmem]
    omega
  · simp [d.addresses, hmem, range'_succ]
  · intro x hx
    rcases mem_cons.1 hx with rfl | hx
    · simpa using hle
    · have := d.within x hx
      simp at this ⊢
      omega
  · intro x hx
    rcases mem_cons.1 hx with rfl | hx
    · simpa using hk.push_code_length .declaring
    · rw [hk.push_code_lt _ (d.within x hx).2]
      exact d.stores x hx
  · refine nodup_cons.2 ⟨fun hmem => ?_, d.distinct⟩
    obtain ⟨x, hx, hp⟩ := mem_map.1 hmem
    have := (d.within x hx).2
    simp at hp
    omega
  · rcases Nat.lt_or_ge i k.length with hlt | hge
    · rw [hk.push_code_lt _ hlt] at hs
      obtain ⟨x, hx, h⟩ := d.complete i hi hs
      exact ⟨x, mem_cons_of_mem _ hx, h⟩
    · refine ⟨_, mem_cons_self, ?_⟩
      simpa using (Laid.push_new hk hge hs).1.symm

/-- A function declares its name and its parameters before its body. -/
theorem Done.declared_function (ht : t.Done) {r : String} {ps : List Parameter} {body : List Node}
    (hn : t.node = .function name r ps body) (hps : ∀ p ∈ ps, p.type = "INT")
    (hts : ∀ u ∈ t.parts, u.Done → Declared u.start u.declarations u.finish) :
    Declared t.start t.declarations t.finish := by
  have e := ht.ends
  rw [hn] at e
  obtain ⟨g₁, g₂, g₃, g₄, e₁, e₂, e₃, e₄, hfinish, hparts⟩ := ends_function e
  have c₃ := course_entry r body e₁
  have l₃ := c₃.laid ht.sound
  -- the name and the parameters
  have henter : (t.start.enterFunction name).Sound := ((ht.sound.reserved name "").push _).push _
  have hparameters := Declared.parameters henter hps e₁
  have hkeeps := ((Course.start (n := .function name r ps body)).parameters rfl e₁).laid henter
  have hlen : t.start.length + 2 ≤ g₁.length := hkeeps.keeps.length_le
  have d₁ := (Declared.declare ht.sound name "" (by decide) (s := .instruction 0 (.int 0))
    (by simp)).trans hparameters (Nat.le_add_right _ 2) hlen fun i hi =>
      hkeeps.keeps.declaring_iff henter (Nat.zero_le _) hi
  have howned : [⟨name, t.start.memory, t.start.length + 1⟩] ++ parameterDeclarations name ps
      (t.start.enterFunction name).memory (t.start.enterFunction name).length =
      t.ownDeclarations := by
    rw [ownDeclarations, hn]
    rfl
  have hplaces : ∀ x ∈ t.ownDeclarations, t.start.length < x.place ∧ x.place < g₁.length := by
    intro x hx
    rw [← howned] at hx
    refine ⟨?_, (d₁.within x hx).2⟩
    rcases mem_cons.1 hx with rfl | hx
    · exact Nat.lt_succ_self _
    · have : t.start.length + 2 ≤ x.place := (hparameters.within x hx).1
      omega
  -- the jump over the function, and its entry
  have d₂ := (d₁.push hkeeps.sound (by omega) (s := .instruction 0 (.int 0)) (by simp)).fill
    (hkeeps.sound.push _) (Nat.le_refl _) (by simp; omega) (l₃.kept t.start.length (by simp)).2.2
    (fun x hx => Nat.ne_of_gt (hplaces x (howned ▸ hx)).1) (c := Op.store) (by decide)
    (g₁.length + 1)
  -- the body
  have c₄ : Course .plain ((g₁.push (.instruction 0 (.int 0))).fill t.start.length Op.store
      (g₁.length + 1)) t.parts [] [] g₄ := by
    rw [parts, hn, hparts]
    exact ((Course.start.stores (n := .plain) (fun _ _ _ _ _ => trivial) e₂).all e₃).close rfl e₄
  have d₄ := c₄.declared l₃.sound rfl hts
  have d₅ := d₂.trans d₄ (by simp; omega) c₄.length_le fun i hi =>
    (c₄.laid l₃.sound).keeps.declaring_iff l₃.sound (Nat.zero_le _) hi
  have l₅ := (((c₃.stores (fun p hp _ _ ha => ⟨p, hp, ha⟩) e₂).all e₃).close rfl e₄).laid ht.sound
  obtain ⟨-, hlt, hw⟩ := l₅.kept g₁.length (by simp)
  rw [declarations_eq, hfinish]
  rw [howned] at d₅
  refine d₅.fill l₅.sound (by omega) hlt hw (fun x hx => ?_) (by decide) _
  rcases mem_append.1 hx with hx | hx
  · exact Nat.ne_of_lt (hplaces x hx).2
  · have : g₁.length + 1 ≤ x.place := (d₄.within x hx).1
    omega

/-- The declarations of a task that declares only integers. -/
theorem Done.declared (ht : t.Done) (hint : ∀ u ∈ t.all, u.node.declaresInts) :
    Declared t.start t.declarations t.finish := by
  induction t using Task.induction with
  | h t ih =>
    have hts : ∀ u ∈ t.parts, u.Done → Declared u.start u.declarations u.finish := fun u hu hd =>
      ih u hu hd fun v hv => hint v (mem_all.2 (.inr ⟨u, hu, hv⟩))
    have hown := hint t (mem_all_self t)
    cases hn : t.node with
    | declare name type v =>
      rw [hn] at hown
      exact ht.declared_declare hn (by simpa [Node.declaresInts] using hown) hts
    | function name r ps body =>
      rw [hn] at hown
      exact ht.declared_function hn (by simpa [Node.declaresInts] using hown) hts
    | _ =>
      obtain ⟨ks, fs, c, -⟩ := ht.course
      have d := c.declared ht.sound (by rw [hn]; rfl) hts
      rwa [declarations_eq, ownDeclarations, hn]

end Task

/-- The declarations of a program that declares only integers. -/
theorem declared_of_generateProgram {p : List Node} (h : generateProgram p = .ok g)
    (hint : ∀ n ∈ p.flatMap Node.reached, n.declaresInts) : Declared {} (declarations p) g := by
  have c := course_of_generateProgram h
  have d := c.declared .initial rfl fun t ht hd => hd.declared fun u hu => by
    refine hint _ ?_
    rw [← map_programTasks h]
    exact mem_map_of_mem (mem_flatMap.2 ⟨t, ht, hu⟩)
  rw [declarations, programTasks, flatMap_assoc]
  exact d

end StackLang
