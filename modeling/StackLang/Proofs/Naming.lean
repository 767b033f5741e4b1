import StackLang.Proofs.Declaration
import StackLang.Proofs.Origin

/-!
# Names and their addresses

Whatever the types of its variables are, a program gives no address to two names. So a store
into the middle of memory tells which variable it is meant for: the name that its node
assigns to is the one that got the address.

* `Filed`: a stretch of generation hands out the addresses of its declarations, each of them
  behind the one before, and names have no other addresses than these and the old ones;
* `Task.Done.filed`: every task does so;
* `Task.Done.store_origin`: a store at an address comes from a task that assigns to a name with
  that address;
* `declaration_of_store` and `assigns_of_store`: in a program, that name is the one that was
  declared there.
-/

namespace StackLang

open Gen List

variable {n : Node} {g : Generator} {ts : List Task} {fs ks : List Nat} {a : Nat}

/-! ### Addresses that are handed out -/

theorem Atom.same_trans {x y z : Atom} (h : x.same y) (h' : y.same z) : x.same z := by
  simp only [Atom.same, beq_iff_eq] at h h' ⊢
  rw [h, h']

theorem Atom.same_symm {x y : Atom} (h : x.same y) : y.same x := by
  simp only [Atom.same, beq_iff_eq] at h ⊢
  rw [h]

namespace Declaration

variable {t : Table Nat} {ds : List Declaration} {x : Atom}

/-- Declarations of other names leave a name its address. -/
theorem get?_of_others (h : ∀ d ∈ ds, ¬d.name.same x) :
    (ds.foldl (fun t d => t.put d.name d.address) t).get? x = t.get? x := by
  induction ds generalizing t with
  | nil => rfl
  | cons d ds ih =>
    obtain ⟨hd, hds⟩ := forall_mem_cons.1 h
    rw [foldl_cons, ih hds, Table.get?_put, if_neg hd]

/-- A name that is declared gets the address of one of its declarations. -/
theorem get?_of_same {d : Declaration} (hd : d ∈ ds) (hx : d.name.same x) :
    ∃ e ∈ ds, e.name.same x ∧
      (ds.foldl (fun t d => t.put d.name d.address) t).get? x = some e.address := by
  induction ds generalizing t d with
  | nil => cases hd
  | cons c ds ih =>
    by_cases hlater : ∃ e ∈ ds, e.name.same x
    · -- a later declaration takes the name over
      obtain ⟨e, he, hex⟩ := hlater
      obtain ⟨e', he', hsame, hget⟩ := ih he hex
      exact ⟨e', mem_cons_of_mem _ he', hsame, hget⟩
    · have hothers : ∀ e ∈ ds, ¬e.name.same x := fun e he hex => hlater ⟨e, he, hex⟩
      obtain rfl : d = c := (mem_cons.1 hd).resolve_right fun hd => hothers d hd hx
      refine ⟨d, mem_cons_self, hx, ?_⟩
      rw [foldl_cons, get?_of_others hothers, Table.get?_put, if_pos hx]

end Declaration

/-- Generation from `g` to `h` has given the declarations `ds` their addresses, and no name
    another one. -/
structure Filed (g : Generator) (ds : List Declaration) (h : Generator) : Prop where
  memory_le : g.memory ≤ h.memory
  within : ∀ d ∈ ds, g.memory ≤ d.address ∧ d.address < h.memory
  ordered : ds.Pairwise fun d e => d.address < e.address
  identifiers : h.identifiers = ds.foldl (fun t d => t.put d.name d.address) g.identifiers

namespace Filed

variable {g h k : Generator} {ds es : List Declaration}

/-- The address of a name is an old one, or that of a declaration. -/
theorem entries (d : Filed g ds h) {x : Atom} (hx : h.identifiers.get? x = some a) :
    g.identifiers.get? x = some a ∨ ∃ d ∈ ds, d.name.same x ∧ d.address = a := by
  rw [d.identifiers] at hx
  by_cases hnew : ∃ e ∈ ds, e.name.same x
  · obtain ⟨e, he, hex⟩ := hnew
    obtain ⟨e', he', hsame, hget⟩ := Declaration.get?_of_same (t := g.identifiers) he hex
    exact .inr ⟨e', he', hsame, Option.some.inj (hget.symm.trans hx)⟩
  · rw [Declaration.get?_of_others fun e he hex => hnew ⟨e, he, hex⟩] at hx
    exact .inl hx

theorem start (g : Generator) : Filed g [] g := ⟨Nat.le_refl _, by simp, .nil, rfl⟩

theorem trans (d : Filed g ds h) (e : Filed h es k) : Filed g (ds ++ es) k where
  memory_le := Nat.le_trans d.memory_le e.memory_le
  within x hx := by
    have := d.memory_le
    have := e.memory_le
    rcases mem_append.1 hx with hx | hx
    · have := d.within x hx
      omega
    · have := e.within x hx
      omega
  ordered := by
    refine pairwise_append.2 ⟨d.ordered, e.ordered, fun x hx y hy => ?_⟩
    exact Nat.lt_of_lt_of_le (d.within x hx).2 (e.within y hy).1
  identifiers := by rw [foldl_append, ← d.identifiers, e.identifiers]

/-- Only the memory and the table matter. -/
theorem congr (d : Filed g ds h) (hm : k.memory = h.memory)
    (hi : k.identifiers = h.identifiers) : Filed g ds k :=
  ⟨hm ▸ d.memory_le, hm ▸ d.within, d.ordered, hi ▸ d.identifiers⟩

theorem congr_start (d : Filed g ds h) (hm : k.memory = g.memory)
    (hi : k.identifiers = g.identifiers) : Filed k ds h :=
  ⟨hm ▸ d.memory_le, hm ▸ d.within, d.ordered, hi ▸ d.identifiers⟩

/-- A name gets the next free bytes. -/
theorem reserve (g : Generator) (name : Atom) (type : String) (place : Nat) :
    Filed g [⟨name, g.memory, place⟩] (g.reserved name type) := by
  have hlt : g.memory < (g.reserved name type).memory := by
    simp only [Generator.reserved]
    split <;> omega
  exact ⟨Nat.le_of_lt hlt, by simpa using hlt, pairwise_singleton _ _, rfl⟩

end Filed

/-- The course of a node that declares nothing itself hands out the addresses of its parts. -/
theorem Course.filed {h : Generator} (c : Course n g ts ks fs h) (hg : g.Sound)
    (hn : n.declares = false) (hts : ∀ t ∈ ts, t.Done → Filed t.start t.declarations t.finish) :
    Filed g (ts.flatMap Task.declarations) h := by
  induction c with
  | start => exact .start g
  | write _ _ ih | note _ _ _ _ ih
  | keep _ _ ih | fill _ _ _ _ ih | back _ _ _ ih | flag _ _ _ ih | wait _ _ _ ih =>
    exact (ih hts).congr rfl rfl
  | reserve _ _ _ hd _ | declare _ hd _ => simp [hn] at hd
  | settle _ _ _ _ ih => exact (ih hts).congr (by simp) (by simp)
  | @part ts ks fs h k m c e ih =>
    obtain rfl : Task.finish ⟨m, h⟩ = k := e.after_eq
    have hlast := hts ⟨m, h⟩ mem_concat_self ⟨(c.laid hg).sound, e⟩
    rw [flatMap_append, flatMap_singleton]
    exact (ih fun t ht => hts t (mem_append_left _ ht)).trans hlast

/-- A course comes by the generator that each of its tasks starts from. -/
theorem Course.upTo {h : Generator} (c : Course n g ts ks fs h) {t : Task} (ht : t ∈ ts) :
    ∃ ts' ks' fs', ts' ⊆ ts ∧ Course n g ts' ks' fs' t.start := by
  induction c with
  | start => cases ht
  | part c e ih =>
    rcases mem_append.1 ht with ht | ht
    · obtain ⟨ts', ks', fs', hsub, c'⟩ := ih ht
      exact ⟨ts', ks', fs', subset_append_of_subset_left _ hsub, c'⟩
    · obtain rfl := mem_singleton.1 ht
      exact ⟨_, _, _, subset_append_left _ _, c⟩
  | _ => rename_i ih; exact ih ht

/-! ### Parameters -/

section

variable {f : Atom} {ps : List Parameter} {h : Generator} (e : Ends (declareParameters f ps) g () h)

include e

theorem Filed.parameters : Filed g (parameterDeclarations f ps g.memory g.length) h := by
  induction ps generalizing g with
  | nil =>
    obtain ⟨-, rfl⟩ := ends_pure.1 e
    exact .start _
  | cons p ps ih =>
    obtain ⟨objects, e⟩ := ends_declareParameters_cons e
    exact (Filed.reserve g (f.parameter p) p.type (g.length + 1)).trans
      ((ih e).congr_start rfl rfl)

/-- A parameter has the address of its declaration, or that of one of the same name. -/
theorem declaration_of_parameter {p : Parameter} (hp : p ∈ ps)
    (ha : h.identifiers.get? (f.parameter p) = some a) :
    ∃ d ∈ parameterDeclarations f ps g.memory g.length,
      d.name.same (f.parameter p) ∧ d.address = a := by
  induction ps generalizing g with
  | nil => cases hp
  | cons q ps ih =>
    obtain ⟨objects, e⟩ := ends_declareParameters_cons e
    rcases mem_cons.1 hp with rfl | hp
    · -- either the name still has its first address, or a later parameter took it over
      rcases (Filed.parameters e).entries ha with hfirst | ⟨d, hd, h⟩
      · refine ⟨_, mem_cons_self, by simp [Atom.same], ?_⟩
        simpa [Generator.push, Generator.reserved, Table.get?_put, Atom.same] using hfirst
      · exact ⟨d, mem_cons_of_mem _ hd, h⟩
    · obtain ⟨d, hd, h⟩ := ih e hp
      exact ⟨d, mem_cons_of_mem _ hd, h⟩

end

namespace Task

variable {t u v : Task} {f : Atom} {ps : List Parameter} {r : String} {body : List Node}

/-- A function declares its name and its parameters before its body. -/
theorem filed_function (hn : t.node = .function f r ps body)
    (e : Ends (declareParameters f ps) (t.start.enterFunction f) () g) :
    Filed t.start t.ownDeclarations g := by
  have howned : t.ownDeclarations = [⟨f, t.start.memory, t.start.length + 1⟩] ++
      parameterDeclarations f ps (t.start.enterFunction f).memory
        (t.start.enterFunction f).length := by
    rw [ownDeclarations, hn]
    rfl
  have henter : Filed t.start [⟨f, t.start.memory, t.start.length + 1⟩]
      (t.start.enterFunction f) := (Filed.reserve t.start f "" _).congr rfl rfl
  rw [howned]
  exact henter.trans (Filed.parameters e)

/-- How a function comes about: `g` is the generator behind its declarations, `b` that at its
    entry, `h` that behind the stores of its arguments, and `k` that behind its return. -/
structure Entered (t : Task) (f : Atom) (ps : List Parameter) (g b h k : Generator) : Prop where
  declares : Ends (declareParameters f ps) (t.start.enterFunction f) () g
  entry : b = (g.push (.instruction 0 (.int 0))).fill t.start.length Op.store (g.length + 1)
  sound : b.Sound
  stores : Ends (storeParameters f ps) b () h
  course : Course .plainExpression h t.parts [] [] k
  finish : t.finish = k.fill g.length Op.jump k.length

theorem Done.entered (ht : t.Done) (hn : t.node = .function f r ps body) :
    ∃ g b h k, t.Entered f ps g b h k := by
  have e := ht.ends
  rw [hn] at e
  obtain ⟨g, h, _, k, e₁, e₂, e₃, e₄, hfinish, hparts⟩ := ends_function e
  -- the entry is sound because everything before it is on the course of the function
  have l := (course_entry r body e₁).laid ht.sound
  refine ⟨g, _, h, k, e₁, rfl, l.sound, e₂, ?_, hfinish⟩
  rw [parts, hn, hparts]
  exact (Course.start.all e₃).close rfl e₄

/-- Storing the arguments is a course of its own, without parts. -/
theorem Entered.storing {b h k : Generator} (en : t.Entered f ps g b h k) :
    Course .plain b [] [] [] h :=
  Course.start.stores (fun _ _ _ _ _ => trivial) en.stores

/-- How a task comes about as to names: it makes its own declarations first, up to `b`, and
    then takes the course of a node that declares nothing, over its parts. -/
structure DeclaresFirst (t : Task) (n : Node) (b k : Generator) : Prop where
  own : Filed t.start t.ownDeclarations b
  sound : b.Sound
  quiet : n.declares = false
  course : ∃ ks fs, Course n b t.parts ks fs k
  memory : t.finish.memory = k.memory
  identifiers : t.finish.identifiers = k.identifiers

theorem Done.declaresFirst (ht : t.Done) : ∃ n b k, t.DeclaresFirst n b k := by
  cases hn : t.node with
  | declare name type v =>
    have e := ht.ends
    rw [hn] at e
    have c₀ : Course .plain (t.start.reserved name type) [] [] [] _ := .start
    obtain ⟨k, c, hf⟩ := c₀.value (fun _ _ => trivial) e
    have hparts : [] ++ tasksOf (.declare name type v) t.start = t.parts := by rw [parts, hn]; rfl
    rw [hparts] at c
    refine ⟨.plain, _, k, ?_, ht.sound.reserved name type, rfl, ⟨_, _, c⟩, ?_, ?_⟩
    · rw [ownDeclarations, hn]
      exact .reserve ..
    · rw [hf, Generator.push_memory]
    · rw [hf]
      rfl
  | function f r ps body =>
    obtain ⟨g, b, h, k, en⟩ := ht.entered hn
    have hown : Filed t.start t.ownDeclarations b := by
      rw [en.entry]
      exact (filed_function hn en.declares).congr rfl rfl
    have hstores := en.storing.filed en.sound rfl (by simp)
    refine ⟨.plainExpression, h, k, ?_, (en.storing.laid en.sound).sound, rfl, ⟨_, _, en.course⟩,
      ?_, ?_⟩
    · simpa using hown.trans hstores
    · rw [en.finish]
      rfl
    · rw [en.finish]
      rfl
  | _ =>
    obtain ⟨ks, fs, c, -⟩ := ht.course
    refine ⟨t.node, t.start, t.finish, ?_, ht.sound, by rw [hn]; rfl, ⟨ks, fs, c⟩, rfl, rfl⟩
    rw [ownDeclarations, hn]
    exact .start _

/-- A task hands out the addresses of its declarations. -/
theorem Done.filed (ht : t.Done) : Filed t.start t.declarations t.finish := by
  induction t using Task.induction with
  | h t ih =>
    obtain ⟨n, b, k, d⟩ := ht.declaresFirst
    obtain ⟨ks, fs, c⟩ := d.course
    rw [declarations_eq]
    exact (d.own.trans (c.filed d.sound d.quiet ih)).congr d.memory d.identifiers

end Task

/-! ### The names that generation knows -/

/-- Every name that the generator knows has its address from one of the declarations. -/
def Generator.NamesFrom (g : Generator) (ds : List Declaration) : Prop :=
  ∀ x a, g.identifiers.get? x = some a → ∃ d ∈ ds, d.name.same x ∧ d.address = a

theorem Filed.namesFrom {h : Generator} {ds es : List Declaration} (d : Filed g ds h)
    (hg : g.NamesFrom es) (hds : ds ⊆ es) : h.NamesFrom es := by
  intro x a hx
  rcases d.entries hx with hx | ⟨y, hy, hname⟩
  · exact hg x a hx
  · exact ⟨y, hds hy, hname⟩

/-- Where a course stands, it knows only names from before it or from its tasks. -/
theorem Course.namesFrom {h : Generator} (c : Course n g ts ks fs h) (hg : g.Sound)
    (hn : n.declares = false) {es : List Declaration} (hes : g.NamesFrom es)
    (hts : ∀ t ∈ ts, t.declarations ⊆ es) : h.NamesFrom es := by
  refine (c.filed hg hn fun t _ ht => ht.filed).namesFrom hes fun d hd => ?_
  obtain ⟨t, ht, hd⟩ := mem_flatMap.1 hd
  exact hts t ht hd

namespace Task

variable {t u v : Task} {es : List Declaration}

theorem ownDeclarations_subset (t : Task) : t.ownDeclarations ⊆ t.declarations := by
  rw [declarations_eq]
  exact subset_append_left _ _

theorem declarations_subset_of_mem_parts (h : u ∈ t.parts) : u.declarations ⊆ t.declarations := by
  rw [t.declarations_eq]
  intro d hd
  exact mem_append_right _ (mem_flatMap.2 ⟨u, h, hd⟩)

/-- A task below another one knows only names from before that one or from its declarations. -/
theorem Done.namesFrom (hv : v.Done) (ht : t ∈ v.all) (h : v.start.NamesFrom es)
    (hes : v.declarations ⊆ es) : t.start.NamesFrom es ∧ t.declarations ⊆ es := by
  induction v using Task.induction with
  | h v ih =>
    rcases mem_all.1 ht with rfl | ⟨w, hw, ht⟩
    · exact ⟨h, hes⟩
    · obtain ⟨n, b, k, d⟩ := hv.declaresFirst
      obtain ⟨ks, fs, c⟩ := d.course
      have hparts : ∀ u ∈ v.parts, u.declarations ⊆ es := fun u hu =>
        List.Subset.trans (declarations_subset_of_mem_parts hu) hes
      have hb := d.own.namesFrom h (List.Subset.trans v.ownDeclarations_subset hes)
      -- what the part starts from has come after the declarations and the parts before it
      obtain ⟨ts', ks', fs', hsub, c'⟩ := c.upTo hw
      have hstart := c'.namesFrom d.sound d.quiet hb fun u hu => hparts u (hsub hu)
      exact ih w hw (hv.of_mem_parts hw) ht hstart (hparts w hw)

end Task

/-! ### Stores -/

namespace Node

/-- The names of the parameters of a function. -/
def parameterNames : Node → List Atom
  | .function f _ ps _ => ps.map fun p => .text (f.shown ++ "." ++ p.name.shown)
  | _ => []

/-- The names that a node assigns to: a function to its parameters, on entry, and a loop to the
    variable that it counts with. -/
def targets : Node → List Atom
  | .assign (.atom x) _ => [x]
  | .forLoop v _ _ => v.counter?.toList
  | n => n.parameterNames

/-- A node that assigns declares nothing, unless it is a function. -/
theorem declares_of_target {x : Atom} (hx : x ∈ n.targets)
    (hn : ∀ f r ps body, n ≠ .function f r ps body) : n.declares = false := by
  cases n with
  | function f r ps body => exact absurd rfl (hn f r ps body)
  | declare name type v => cases hx
  | _ => rfl

/-- What a node stores at an address other than the first is for a name that it assigns to. -/
theorem MayStore.exists_target (h : n.MayStore g a) (ha : 0 < a) (hn : n ≠ .plain) :
    ∃ x ∈ n.targets, g.identifiers.get? x = some a := by
  cases n with
  | function f r ps body =>
    obtain ⟨p, hp, hx⟩ := h
    exact ⟨_, mem_map_of_mem hp, hx⟩
  | assign t v =>
    obtain ⟨x, rfl, hx⟩ := h
    exact ⟨x, mem_singleton_self x, hx⟩
  | forLoop v c body =>
    obtain ⟨x, hv, hx⟩ := h
    exact ⟨x, by simp [targets, hv], hx⟩
  | declare name type v =>
    cases v with
    | none => exact absurd h (Nat.ne_of_gt ha)
    | some v => exact h.elim
  | plain => exact absurd rfl hn
  | _ => exact h.elim

end Node

/-- A function stores its arguments at the addresses of its parameters. -/
theorem code_of_storeParameters {f : Atom} {ps : List Parameter} {h : Generator} (hg : g.Sound)
    (e : Ends (storeParameters f ps) g () h) {i : Nat} {s : Slot} (hs : h.code[i]? = some s) :
    g.code[i]? = some s ∨ ∃ p ∈ ps, ∃ a : Nat,
      g.identifiers.get? (f.parameter p) = some a ∧
        s = .instruction Op.storeMem (.int a) := by
  induction ps generalizing g with
  | nil =>
    obtain ⟨-, rfl⟩ := ends_pure.1 e
    exact .inl hs
  | cons p ps ih =>
    simp only [storeParameters, ends_bind, ends_address, ends_emitInt] at e
    obtain ⟨a, _, ⟨ha, rfl⟩, _, _, rfl, e⟩ := e
    rcases ih (hg.push _) e with hs | ⟨q, hq, h⟩
    · rcases hg.of_push_code hs with hs | ⟨-, rfl⟩
      · exact .inl hs
      · exact .inr ⟨p, mem_cons_self, a, ha, rfl⟩
    · exact .inr ⟨q, mem_cons_of_mem _ hq, h⟩

/-- An instruction that stores at an address. -/
abbrev Slot.storing (a : Nat) : Slot := .instruction Op.storeMem (.int a)

theorem Argument.nat_inj {b : Nat} (h : Argument.int a = Argument.int b) : a = b := by
  simp only [Argument.int, Argument.atom.injEq, Atom.int.injEq] at h
  omega

theorem not_framing_storing (a : Nat) : ¬Framing Op.storeMem (.int a) := fun h => by
  have := h.store rfl
  simp at this

/-- Filling in a jump or an entry does not make a store. -/
theorem code_of_fill_storing {i j c n : Nat} (hc : c ≠ Op.storeMem)
    (hs : (g.fill j c n).code[i]? = some (.storing a)) : g.code[i]? = some (.storing a) := by
  by_cases hij : j = i
  · subst hij
    simp only [Generator.fill, Array.getElem?_setIfInBounds_self] at hs
    split at hs
    · exact absurd (Slot.instruction.inj (Option.some.inj hs)).1 hc
    · cases hs
  · rwa [Generator.fill_code_ne hij] at hs

/-- On the course of a node that does not assign, every new store is in a part. -/
theorem Course.storing {h : Generator} (c : Course n g ts ks fs h) (hg : g.Sound)
    (hn : ∀ k a, ¬n.MayStore k a) {i : Nat} (hs : h.code[i]? = some (.storing a)) :
    g.code[i]? = some (.storing a) ∨
      ∃ t ∈ ts, t.Covers i ∧ t.finish.code[i]? = some (.storing a) := by
  rcases Nat.lt_or_ge i g.length with hlt | hge
  · rcases (c.laid hg).keeps.slot i (Nat.zero_le i) hlt with heq | ⟨-, -, _, -, -, heq⟩
    · exact .inl (heq ▸ hs)
    · rw [heq] at hs
      cases hs
  · rcases c.origin hg hge hs with hpart | ⟨_, _, _, k, -, -, hp⟩ | hf | hc
    · exact .inr hpart
    · obtain ⟨_, -, hm⟩ := hp.stored rfl
      exact absurd hm (hn k _)
    · exact absurd hf (not_framing_storing a)
    · cases hc

namespace Task

variable {t u : Task} {es : List Declaration} {i a : Nat} {f : Atom} {r : String}
  {ps : List Parameter} {body : List Node}

/-- The names that the body of a function finds, with its own name and its parameters. -/
def bodyNames (t : Task) : Table Nat :=
  match t.node with
  | .function f _ ps _ => (after (declareParameters f ps) (t.start.enterFunction f)).identifiers
  | _ => t.start.identifiers

theorem Entered.bodyNames (hn : t.node = .function f r ps body) {b h k : Generator}
    (en : t.Entered f ps g b h k) : t.bodyNames = b.identifiers := by
  have hg := congrArg Generator.identifiers en.declares.after_eq
  rw [Task.bodyNames, hn, en.entry]
  exact hg

/-- A store in the code of a function is in a part of it, or it stores an argument at the
    address of a parameter. -/
theorem Done.storing_function (ht : t.Done) (hn : t.node = .function f r ps body)
    (hi : t.start.length ≤ i) (hs : t.finish.code[i]? = some (.storing a)) :
    (∃ u ∈ t.parts, u.Covers i ∧ u.finish.code[i]? = some (.storing a)) ∨
      ∃ x ∈ t.node.targets, t.bodyNames.get? x = some a := by
  obtain ⟨g, b, h, k, en⟩ := ht.entered hn
  have hsound := (en.storing.laid en.sound).sound
  rw [en.finish] at hs
  rcases en.course.storing hsound (fun _ _ h => h) (code_of_fill_storing (by decide) hs) with
    hs | hpart
  · rcases code_of_storeParameters en.sound en.stores hs with hs | ⟨p, hp, x, hx, heq⟩
    · -- up to its entry, a function does what the declaration of a variable does
      have c₀ : Course (.declare f "" (some .plain)) t.start [] [] [] t.start := .start
      have c₁ := ((c₀.reserve f "" rfl).keep (s := .instruction 0 (.int 0)) rfl).declare rfl
      have c₂ := (c₁.parameters rfl en.declares).keep (s := .instruction 0 (.int 0)) rfl
      rw [en.entry] at hs
      rcases c₂.storing ht.sound (fun _ _ h => h) (code_of_fill_storing (by decide) hs) with
        hs | ⟨_, hnil, -⟩
      · rw [ht.sound.code_none hi] at hs
        cases hs
      · cases hnil
    · obtain rfl : a = x := Argument.nat_inj (Slot.instruction.inj heq).2
      rw [en.bodyNames hn, hn]
      exact .inr ⟨_, mem_map_of_mem hp, hx⟩
  · exact .inl hpart

/-- The names that the body of a function finds come from before it or from its own
    declarations. -/
theorem Done.bodyNames_from (ht : t.Done) (h : t.start.NamesFrom es) (hes : t.declarations ⊆ es)
    {x : Atom} (hx : t.bodyNames.get? x = some a) : ∃ d ∈ es, d.name.same x ∧ d.address = a := by
  cases hn : t.node with
  | function f r ps body =>
    obtain ⟨g, b, _, _, en⟩ := ht.entered hn
    rw [en.bodyNames hn, en.entry] at hx
    exact (filed_function hn en.declares).namesFrom h
      (List.Subset.trans t.ownDeclarations_subset hes) x a hx
  | _ =>
    rw [bodyNames, hn] at hx
    exact h x a hx

/-- A store in the code of a task comes from a task at or below it that assigns to a name with
    the address. -/
theorem Done.store_origin (ht : t.Done) (ha : 0 < a) (hi : t.Covers i)
    (hs : t.finish.code[i]? = some (.storing a)) (h : t.start.NamesFrom es)
    (hes : t.declarations ⊆ es) :
    ∃ u ∈ t.all, u.Covers i ∧ ∃ x ∈ u.node.targets, ∃ d ∈ es, d.name.same x ∧ d.address = a := by
  induction t using Task.induction with
  | h t ih =>
    have below : ∀ u ∈ t.parts, u.Covers i → u.finish.code[i]? = some (.storing a) →
        ∃ u ∈ t.all, u.Covers i ∧
          ∃ x ∈ u.node.targets, ∃ d ∈ es, d.name.same x ∧ d.address = a := by
      intro w hw hcov hs
      obtain ⟨hstart, hdecl⟩ := ht.namesFrom (mem_all.2 (.inr ⟨w, hw, mem_all_self w⟩)) h hes
      obtain ⟨u, hu, h⟩ := ih w hw (ht.of_mem_parts hw) hcov hs hstart hdecl
      exact ⟨u, mem_all.2 (.inr ⟨w, hw, hu⟩), h⟩
    by_cases hf : ∃ f r ps body, t.node = .function f r ps body
    · obtain ⟨f, r, ps, body, hn⟩ := hf
      rcases ht.storing_function hn hi.1 hs with ⟨w, hw, hcov, hs⟩ | ⟨x, hx, hk⟩
      · exact below w hw hcov hs
      · exact ⟨t, mem_all_self t, hi, x, hx, ht.bodyNames_from h hes hk⟩
    · obtain ⟨ks, fs, c, -⟩ := ht.course
      rcases c.origin ht.sound hi.1 hs with ⟨w, hw, hcov, hs⟩ | ⟨ts', _, _, k, hsub, c', hp⟩ | hf | hc
      · exact below w hw hcov hs
      · -- the task writes it itself, with a name that it finds at that point of its course
        obtain ⟨a', heq, hm⟩ := hp.stored rfl
        obtain rfl : a = a' := Argument.nat_inj heq
        have hplain : t.node ≠ .plain := fun hn => by
          -- such a node has no code
          have e := ht.ends
          rw [hn, generate, ends_pure] at e
          have := hi.2
          rw [e.2] at this
          exact Nat.not_lt_of_ge hi.1 this
        obtain ⟨x, hx, hk⟩ := hm.exists_target ha hplain
        have hquiet := Node.declares_of_target hx (fun f r ps body hn => hf ⟨f, r, ps, body, hn⟩)
        refine ⟨t, mem_all_self t, hi, x, hx, c'.namesFrom ht.sound hquiet h (fun u hu => ?_) x a hk⟩
        exact List.Subset.trans (declarations_subset_of_mem_parts (hsub hu)) hes
      · exact absurd hf (not_framing_storing a)
      · cases hc

end Task

/-! ### Programs -/

section Program

variable {p : List Node} {g : Generator} (h : generateProgram p = .ok g) {d : Declaration} {i : Nat}

include h

theorem filed_of_generateProgram : Filed {} (declarations p) g := by
  rw [declarations, programTasks, flatMap_assoc]
  exact (course_of_generateProgram h).filed .initial rfl fun t _ ht => ht.filed

/-- No two declarations of a program get the same address. -/
theorem eq_of_address {e : Declaration} (hd : d ∈ declarations p) (he : e ∈ declarations p)
    (hde : d.address = e.address) : d = e := by
  obtain ⟨i, hi, rfl⟩ := mem_iff_getElem.1 hd
  obtain ⟨j, hj, rfl⟩ := mem_iff_getElem.1 he
  have hlt := pairwise_iff_getElem.1 (filed_of_generateProgram h).ordered
  rcases Nat.lt_trichotomy i j with hij | rfl | hij
  · exact absurd hde (Nat.ne_of_lt (hlt i j hi hj hij))
  · rfl
  · exact absurd hde (Nat.ne_of_gt (hlt j i hj hi hij))

/-- The tasks of a program know only the names that it declares. -/
theorem namesFrom_of_mem_programTasks {t : Task} (ht : t ∈ programTasks p) :
    t.start.NamesFrom (declarations p) ∧ t.declarations ⊆ declarations p := by
  have c := course_of_generateProgram h
  have hnone : Generator.NamesFrom {} (declarations p) := fun x a hx => by cases hx
  have hdecl : ∀ v ∈ allTasks p {}, v.declarations ⊆ declarations p := fun v hv d hd => by
    rw [declarations, programTasks, flatMap_assoc]
    exact mem_flatMap.2 ⟨v, hv, hd⟩
  obtain ⟨v, hv, ht⟩ := mem_flatMap.1 ht
  obtain ⟨ts', ks', fs', hsub, c'⟩ := c.upTo hv
  have hstart := c'.namesFrom .initial rfl hnone fun u hu => hdecl u (hsub hu)
  exact (Task.inside_of_course c .initial hv).done.namesFrom ht hstart (hdecl v hv)

/-- A store at an address comes from a task that assigns to a name that was declared there. -/
theorem declaration_of_store (ha : 0 < a) (hs : g.code[i]? = some (.storing a)) :
    ∃ u ∈ programTasks p, u.Covers i ∧ ∃ x ∈ u.node.targets,
      ∃ d ∈ declarations p, d.name.same x ∧ d.address = a := by
  have c := course_of_generateProgram h
  rcases c.storing .initial (fun _ _ h => h) hs with hs | ⟨v, hv, hcov, hs⟩
  · cases hs
  · have hmem : v ∈ programTasks p := mem_flatMap.2 ⟨v, hv, Task.mem_all_self v⟩
    obtain ⟨hstart, hdecl⟩ := namesFrom_of_mem_programTasks h hmem
    obtain ⟨u, hu, h⟩ :=
      (Task.inside_of_course c .initial hv).done.store_origin ha hcov hs hstart hdecl
    exact ⟨u, mem_flatMap.2 ⟨v, hv, hu⟩, h⟩

/-- A store at the address of a declaration comes from a task that assigns to its name. -/
theorem assigns_of_store (hd : d ∈ declarations p) (hpos : 0 < d.address)
    (hs : g.code[i]? = some (.storing d.address)) :
    ∃ u ∈ programTasks p, u.Covers i ∧ ∃ x ∈ u.node.targets, x.same d.name := by
  obtain ⟨u, hu, hcov, x, hx, e, he, hsame, heq⟩ := declaration_of_store h hpos hs
  obtain rfl := eq_of_address h he hd heq
  exact ⟨u, hu, hcov, x, hx, Atom.same_symm hsame⟩

end Program

end StackLang
