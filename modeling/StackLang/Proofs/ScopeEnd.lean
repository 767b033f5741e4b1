import StackLang.Proofs.Naming
import StackLang.Proofs.NestedBlock

/-!
# The end of a scope

To the type checker a name that a body declares is another one than the same name outside.
Generation has one table of addresses for all scopes: a body that declares a name of an
enclosing scope takes the address of that name over, and the name does not get it back when the
body ends.

* `Body`: the statements of a conditional, a loop or a function, with the generator when
  generation comes to them, and `Scoped`: the bodies of a program with the names in scope there;
* `Task.Done.opens`: the way from a node to its body only adds names;
* `scope_end_keeps_iff`: a name in scope has the same address behind a body as before it if and
  only if nothing in the body declares the name.
-/

namespace StackLang

open Gen List Node

/-! ### Names that nodes declare -/

namespace Node

/-- The names that a node declares itself. -/
def declaredNames : Node → List Atom
  | .declare x _ _ => [x]
  | .function f r ps body => f :: (Node.function f r ps body).parameterNames
  | _ => []

/-- The names that a statement leaves to those behind it in the same scope. -/
def leftNames : Node → List Atom
  | .declare x _ _ => [x]
  | .function f _ _ _ => [f]
  | _ => []

/-- The names that a node declares for its body: a function itself and its parameters, a loop
    the variable that it counts with. -/
def headNames : Node → List Atom
  | .function f r ps body => (Node.function f r ps body).declaredNames
  | .forLoop v _ _ => v.nodes.flatMap declaredNames
  | _ => []

theorem leftNames_subset (n : Node) : n.leftNames ⊆ n.declaredNames := by
  cases n with
  | function f r ps body => exact cons_subset_cons _ (nil_subset _)
  | _ => exact List.Subset.refl _

end Node

theorem map_parameterDeclarations (f : Atom) (ps : List Parameter) (a i : Nat) :
    (parameterDeclarations f ps a i).map Declaration.name =
      ps.map fun p => f.parameter p := by
  induction ps generalizing a i with
  | nil => rfl
  | cons p ps ih => rw [parameterDeclarations, map_cons, map_cons, ih]

namespace Task

variable {t : Task}

theorem map_ownDeclarations (t : Task) :
    t.ownDeclarations.map Declaration.name = t.node.declaredNames := by
  unfold ownDeclarations
  split
  · rename_i hn
    rw [hn]
    rfl
  · rename_i hn
    rw [hn, map_cons, map_parameterDeclarations]
    rfl
  · rename_i hd hf
    cases hn : t.node with
    | declare x type v => exact absurd hn (hd x type v)
    | function f r ps body => exact absurd hn (hf f r ps body)
    | _ => rfl

theorem declares_of_own {x : Atom} (hx : x ∈ t.node.declaredNames) :
    ∃ d ∈ t.declarations, d.name = x := by
  rw [← t.map_ownDeclarations] at hx
  obtain ⟨d, hd, hname⟩ := mem_map.1 hx
  exact ⟨d, t.ownDeclarations_subset hd, hname⟩

/-- The names that a task gives addresses to are those that the nodes reached from its own
    declare. -/
theorem Done.map_declarations (ht : t.Done) :
    t.declarations.map Declaration.name = t.node.reached.flatMap declaredNames := by
  rw [declarations, List.map_flatMap, ← ht.map_all, List.flatMap_map]
  exact congrArg (t.all.flatMap ·) (funext map_ownDeclarations)

end Task

/-! ### What a stretch of generation does to names -/

namespace Filed

variable {g h : Generator} {ds : List Declaration} {x : Atom} {a : Nat}

/-- A name that has an address keeps one. -/
theorem known (d : Filed g ds h) (hx : (g.identifiers.get? x).isSome) :
    (h.identifiers.get? x).isSome := by
  rw [d.identifiers]
  by_cases hnew : ∃ e ∈ ds, e.name.same x
  · obtain ⟨e, he, hex⟩ := hnew
    obtain ⟨e', -, -, hget⟩ := Declaration.get?_of_same (t := g.identifiers) he hex
    rw [hget]
    rfl
  · rwa [Declaration.get?_of_others fun e he hex => hnew ⟨e, he, hex⟩]

theorem known_of_mem (d : Filed g ds h) {e : Declaration} (he : e ∈ ds) :
    (h.identifiers.get? e.name).isSome := by
  obtain ⟨e', -, -, hget⟩ :=
    Declaration.get?_of_same (t := g.identifiers) he (x := e.name) (by simp [Atom.same])
  rw [d.identifiers, hget]
  rfl

/-- Addresses stay below the end of memory. -/
theorem bounded (d : Filed g ds h) (hg : ∀ x a, g.identifiers.get? x = some a → a < g.memory)
    (hx : h.identifiers.get? x = some a) : a < h.memory := by
  rcases d.entries hx with hx | ⟨e, he, -, rfl⟩
  · exact Nat.lt_of_lt_of_le (hg x a hx) d.memory_le
  · exact (d.within e he).2

/-- A name with an address from before keeps it if and only if it is not declared again. -/
theorem get?_eq_iff (d : Filed g ds h) (hx : g.identifiers.get? x = some a) (ha : a < g.memory) :
    h.identifiers.get? x = some a ↔ ∀ e ∈ ds, ¬e.name.same x := by
  constructor
  · intro hsame e he hex
    -- the new address lies behind all old ones
    obtain ⟨e', he', -, hget⟩ := Declaration.get?_of_same (t := g.identifiers) he hex
    rw [d.identifiers, hget, Option.some.injEq] at hsame
    have := (d.within e' he').1
    omega
  · intro hothers
    rw [d.identifiers, Declaration.get?_of_others hothers, hx]

end Filed

/-! ### Bodies -/

/-- The statements of a body, and the generator when generation comes to them. -/
structure Body where
  statements : List Node
  start : Generator

namespace Body

/-- The generator behind the body. -/
def finish (b : Body) : Generator := after (generateAll b.statements) b.start

/-- The body of a loop. -/
def ofLoop (v : Operand) (c : Node) (body : List Node) (g : Generator) : Body :=
  ⟨body, after (loopHead c) (after (generateOperand v) (g.flag true))⟩

/-- The bodies of further conditions. -/
def ofBranches : List Branch → (tests : List Nat) → Generator → List Body
  | .mk _ body :: bs, test :: tests, g =>
    let h := after (generateAll body) g
    ⟨body, g⟩ :: ofBranches bs tests
      ((h.fill test Op.jumpIf h.length).push (.label "To replace ELIF END"))
  | _, _, _ => []

/-- The bodies of a conditional, in the order of their code: the last block comes first, and
    that of the first condition comes last. -/
def ofConditional (c : Node) (thenBlock : List Node) (bs : List Branch)
    (elseBlock : Option (List Node)) (g : Generator) : List Body :=
  let test := (after (generate c) g).length
  let g₁ := (after (generate c) g).push (.label "To replace IF")
  let tests := (result? (generateTests bs) g₁).getD []
  let g₂ := after (generateTests bs) g₁
  let g₃ := (after (elseCode elseBlock) g₂).push (.label "To replace ELSE")
  let g₄ := after (generateBranches bs tests) g₃
  elseBlock.toList.map (⟨·, g₂⟩) ++ ofBranches bs tests g₃ ++
    [⟨thenBlock, g₄.fill test Op.jumpIf g₄.length⟩]

end Body

/-- The bodies that a task comes to. -/
def Task.bodies (t : Task) : List Body :=
  match t.node with
  | .function f _ ps body => [⟨body, after (functionHead f ps) t.start⟩]
  | .conditional c thenBlock bs elseBlock => Body.ofConditional c thenBlock bs elseBlock t.start
  | .whileLoop c body => [.ofLoop (.atom .nothing) c body t.start]
  | .forLoop v c body => [.ofLoop v c body t.start]
  | _ => []

/-- Generation comes from `g` to a body, and gives addresses to the declarations `ds` on the
    way. -/
structure Body.Opened (b : Body) (g : Generator) (ds : List Declaration) : Prop where
  filed : Filed g ds b.start
  sound : b.start.Sound
  ends : Ends (generateAll b.statements) b.start () b.finish

theorem Course.opened {n : Node} {g : Generator} {ts : List Task} {ks fs : List Nat} {b : Body}
    (c : Course n g ts ks fs b.start) (hg : g.Sound) (hn : n.declares = false) {h : Generator}
    (e : Ends (generateAll b.statements) b.start () h) :
    b.Opened g (ts.flatMap Task.declarations) := by
  refine ⟨c.filed hg hn fun t _ ht => ht.filed, (c.laid hg).sound, ?_⟩
  rw [Body.finish, e.after_eq]
  exact e

namespace Gen

variable {n c : Node} {g g' h k : Generator} {ts : List Task} {ks fs : List Nat} {b : Body}
  {bs : List Branch}

/-- The body of a loop comes behind its first value and its test. -/
theorem opened_loop {v : Operand} {body : List Node} {tail : Nat → Nat → Gen Unit} (hg : g.Sound)
    (hn : n.isLoop) (e : Ends (loopCode v c body tail) g () g') :
    ∃ ts, (Body.ofLoop v c body g).Opened g (ts.flatMap Task.declarations) ∧
      operandTasks v (g.flag true) ⊆ ts := by
  obtain ⟨g₁, g₂, g₃, ev, ec, eb, -⟩ := ends_loopCode e
  have hbody : Body.ofLoop v c body g = ⟨body, g₂.enterBody⟩ := by
    rw [Body.ofLoop, ev.after_eq, after_loopHead ec]
  have hquiet : n.declares = false := by cases n <;> simp_all [isLoop, declares]
  have c₁ := ((Course.start (g := g)).flag true hn).operand ev
  have c₂ := (c₁.part ec).write (c := Op.not) (.of_code (x := 0) rfl)
  have c₃ := c₂.keep (s := .bare Op.jumpIf) (by decide)
  rw [hbody]
  refine ⟨_, Course.opened c₃ hg hquiet eb, ?_⟩
  rw [nil_append]
  exact subset_append_left _ _

/-- The course of a conditional comes by the bodies of its further conditions. -/
theorem opened_branches {tests xs : List Nat} (d : Course n g ts ks fs h) (hg : g.Sound)
    (hn : n.jumps) (hquiet : n.declares = false) (hks : ∀ i ∈ tests, i ∈ ks)
    (e : Ends (generateBranches bs tests) h xs k) (hb : b ∈ Body.ofBranches bs tests h) :
    ∃ ds, b.Opened g ds := by
  induction bs generalizing ts ks fs h xs tests with
  | nil => simp [Body.ofBranches] at hb
  | cons br bs ih =>
    obtain ⟨m, body⟩ := br
    cases tests with
    | nil => simp [Body.ofBranches] at hb
    | cons test tests =>
      simp only [generateBranches, ends_bind, ends_here, ends_append, ends_patch, ends_pure] at e
      obtain ⟨_, h₁, e₁, _, _, ⟨rfl, rfl⟩, _, _, rfl, _, _, rfl, xs, _, e₂, -, rfl⟩ := e
      rw [Body.ofBranches, e₁.after_eq] at hb
      rcases mem_cons.1 hb with rfl | hb
      · exact ⟨_, Course.opened d hg hquiet e₁⟩
      · have d₁ := ((d.all e₁).fill hn (hks test (by simp)) (.inr (.inl rfl))).keep
          (s := .label "To replace ELIF END") rfl
        exact ih d₁ (fun i hi => by simp [hks i (by simp [hi])]) e₂ hb

theorem opened_conditional {thenBlock : List Node} {elseBlock : Option (List Node)} (hg : g.Sound)
    (e : Ends (generate (.conditional c thenBlock bs elseBlock)) g () g')
    (hb : b ∈ Body.ofConditional c thenBlock bs elseBlock g) : ∃ ds, b.Opened g ds := by
  obtain ⟨g₁, tests, g₂, g₃, ends, g₄, g₅, e₁, e₂, e₃, e₄, e₅, -, -⟩ := ends_conditional e
  simp only [Body.ofConditional, e₁.after_eq, e₂.after_eq, e₂.result_eq, e₃.after_eq, e₄.after_eq,
    Option.getD_some, mem_append, mem_singleton, mem_map, Option.mem_toList] at hb
  have c₀ : Course (.conditional c thenBlock bs elseBlock) g [] [] [] g := .start
  have c₁ := (c₀.part e₁).keep (s := .label "To replace IF") rfl
  obtain ⟨c₂, hlen⟩ := c₁.tests e₂
  have c₃ := (c₂.last e₃).keep (s := .label "To replace ELSE") rfl
  have hks : ∀ i ∈ tests, i ∈ g₃.length :: (tests.reverse ++ [g₁.length]) := by simp +contextual
  rcases hb with (⟨ss, rfl, rfl⟩ | hb) | rfl
  · exact ⟨_, Course.opened c₂ hg rfl e₃⟩
  · exact opened_branches c₃ hg rfl rfl hks e₄ hb
  · have c₄ := c₃.branches rfl hks hlen e₄
    have c₅ := c₄.fill rfl (i := g₁.length) (by simp) (.inr (.inl rfl))
    exact ⟨_, Course.opened c₅ hg rfl e₅⟩

end Gen

namespace Task

variable {t : Task} {b : Body}

/-- The body of a function comes behind the declarations of the function. -/
theorem Done.opened_function (ht : t.Done) {f : Atom} {r : String} {ps : List Parameter}
    {body : List Node} (hn : t.node = .function f r ps body) :
    (Body.mk body (after (functionHead f ps) t.start)).Opened t.start t.ownDeclarations := by
  obtain ⟨g, b, h, k, en⟩ := ht.entered hn
  have hhead : after (functionHead f ps) t.start = h :=
    after_functionHead en.declares (en.entry ▸ en.stores)
  have hown : Filed t.start t.ownDeclarations b := by
    rw [en.entry]
    exact (filed_function hn en.declares).congr rfl rfl
  have hstores := en.storing.filed en.sound rfl (by simp)
  have e := ht.ends
  rw [hn] at e
  obtain ⟨_, _, _, _, e₁, e₂, e₃, -, -, -⟩ := ends_function e
  rw [← after_functionHead e₁ e₂] at e₃
  refine ⟨?_, ?_, ?_⟩
  · rw [hhead]
    simpa using hown.trans hstores
  · rw [hhead]
    exact (en.storing.laid en.sound).sound
  · rw [Body.finish, e₃.after_eq]
    exact e₃

/-- A task comes to its bodies with the names from before it and those that it declares for
    them. -/
theorem Done.opens (ht : t.Done) (hb : b ∈ t.bodies) :
    ∃ ds, b.Opened t.start ds ∧ ∀ x ∈ t.node.headNames, ∃ d ∈ ds, d.name = x := by
  have e := ht.ends
  unfold bodies at hb
  split at hb
  · rename_i f r ps body hn
    obtain rfl := mem_singleton.1 hb
    refine ⟨_, ht.opened_function hn, fun x hx => ?_⟩
    rw [hn, headNames, ← hn, ← t.map_ownDeclarations] at hx
    exact mem_map.1 hx
  · rename_i hn
    rw [hn] at e
    obtain ⟨ds, ho⟩ := opened_conditional ht.sound e hb
    refine ⟨ds, ho, fun x hx => ?_⟩
    rw [hn] at hx
    cases hx
  · rename_i c body hn
    rw [hn, generate_whileLoop] at e
    obtain rfl := mem_singleton.1 hb
    obtain ⟨ts, ho, -⟩ := opened_loop (n := .whileLoop c body) ht.sound rfl e
    refine ⟨_, ho, fun x hx => ?_⟩
    rw [hn] at hx
    cases hx
  · rename_i v c body hn
    rw [hn, generate_forLoop] at e
    obtain rfl := mem_singleton.1 hb
    obtain ⟨ts, ho, hv⟩ := opened_loop (n := .forLoop v c body) ht.sound rfl e
    refine ⟨_, ho, fun x hx => ?_⟩
    -- what declares the variable of the loop is one of the tasks on the way
    rw [hn, headNames, ← map_operandTasks (g := t.start.flag true), List.flatMap_map] at hx
    obtain ⟨u, hu, hx⟩ := mem_flatMap.1 hx
    obtain ⟨d, hd, hname⟩ := declares_of_own hx
    exact ⟨d, mem_flatMap.2 ⟨u, hv hu, hd⟩, hname⟩
  · cases hb

end Task

/-! ### Scopes -/

/-- The bodies of a program, each with the names that are in scope when generation comes to it:
    those of the bodies around it, those that statements before it have declared there, and those
    that are declared for it. -/
inductive Scoped (p : List Node) : List Atom → Body → Prop
  | program : Scoped p [] ⟨p, {}⟩
  | inner {xs : List Atom} {b c : Body} (pre : List Node) {post : List Node} {n : Node} :
      Scoped p xs b → b.statements = pre ++ n :: post →
        c ∈ Task.bodies ⟨n, after (generateAll pre) b.start⟩ →
          Scoped p (xs ++ pre.flatMap Node.leftNames ++ n.headNames) c

/-- A body that generation comes to and leaves again, with names that have addresses. -/
structure Body.Ready (b : Body) (xs : List Atom) : Prop where
  sound : b.start.Sound
  ends : Ends (generateAll b.statements) b.start () b.finish
  bounded : ∀ x a, b.start.identifiers.get? x = some a → a < b.start.memory
  known : ∀ x ∈ xs, (b.start.identifiers.get? x).isSome

/-- The names of statements in a row are those that their nodes declare. -/
theorem filed_of_generateAll {ns : List Node} {g h : Generator} (hg : g.Sound)
    (e : Ends (generateAll ns) g () h) :
    ∃ ds, Filed g ds h ∧
      ds.map Declaration.name = (ns.flatMap reached).flatMap declaredNames := by
  have c : Course .plain g (allTasks ns g) [] [] h := by simpa using Course.start.all e
  refine ⟨_, c.filed hg rfl fun t _ ht => ht.filed, ?_⟩
  have hnodes : (allTasks ns g).flatMap (fun t => t.node.reached) = ns.flatMap reached := by
    rw [← List.flatMap_map, map_allTasks]
  rw [← hnodes, List.map_flatMap, flatMap_assoc]
  refine flatMap_congr fun t ht => ?_
  exact (Task.inside_of_course c hg ht).done.map_declarations

theorem Scoped.ready {p : List Node} {g : Generator} (h : generateProgram p = .ok g)
    {xs : List Atom} {b : Body} (hs : Scoped p xs b) : b.Ready xs := by
  induction hs with
  | program =>
    have e := ends_of_generateProgram h
    refine ⟨.initial, ?_, fun x a hx => ?_, by simp⟩
    · rw [Body.finish, e.after_eq]
      exact e
    · cases hx
  | @inner xs b c pre post n _ hsplit hc ih =>
    -- the statements before `n`, then `n` itself
    have e := ih.ends
    rw [hsplit, generateAll_append] at e
    simp only [generateAll, ends_bind] at e
    obtain ⟨_, k, e₁, _, k', e₂, -⟩ := e
    rw [e₁.after_eq] at hc
    have hpre : Course .plain b.start (allTasks pre b.start) [] [] k := by
      simpa using Course.start.all e₁
    have ht : Task.Done ⟨n, k⟩ := by
      refine ⟨(hpre.laid ih.sound).sound, ?_⟩
      rw [Task.finish, e₂.after_eq]
      exact e₂
    obtain ⟨ds, hds, hnames⟩ := filed_of_generateAll ih.sound e₁
    obtain ⟨es, ho, hhead⟩ := ht.opens hc
    have hall := hds.trans ho.filed
    refine ⟨ho.sound, ho.ends, fun x a hx => hall.bounded ih.bounded hx, fun x hx => ?_⟩
    rcases mem_append.1 hx with hx | hx
    · rcases mem_append.1 hx with hx | hx
      · exact hall.known (ih.known x hx)
      · obtain ⟨m, hm, hx⟩ := mem_flatMap.1 hx
        have hmem : x ∈ (pre.flatMap reached).flatMap declaredNames :=
          mem_flatMap.2 ⟨m, mem_flatMap.2 ⟨m, hm, by simp [reached_eq m]⟩,
            m.leftNames_subset hx⟩
        rw [← hnames] at hmem
        obtain ⟨d, hd, rfl⟩ := mem_map.1 hmem
        exact hall.known_of_mem (mem_append_left _ hd)
    · obtain ⟨d, hd, rfl⟩ := hhead x hx
      exact hall.known_of_mem (mem_append_right _ hd)

/-- A name in scope has an address when generation comes to a body, and the same one behind the
    body if and only if nothing in the body declares that name. -/
theorem scope_end_keeps_iff {p : List Node} {g : Generator} (h : generateProgram p = .ok g)
    {xs : List Atom} {b : Body} (hs : Scoped p xs b) {x : Atom} (hx : x ∈ xs) :
    ∃ a, b.start.identifiers.get? x = some a ∧
      (b.finish.identifiers.get? x = some a ↔
        ∀ n ∈ b.statements.flatMap Node.reached, ∀ y ∈ n.declaredNames, ¬y.same x) := by
  have hb := hs.ready h
  obtain ⟨a, ha⟩ := Option.isSome_iff_exists.1 (hb.known x hx)
  obtain ⟨ds, hds, hnames⟩ := filed_of_generateAll hb.sound hb.ends
  refine ⟨a, ha, ?_⟩
  have hdeclared : (∀ y ∈ ds.map Declaration.name, ¬y.same x) ↔ ∀ d ∈ ds, ¬d.name.same x :=
    List.forall_mem_map
  rw [hds.get?_eq_iff ha (hb.bounded x a ha), ← hdeclared, hnames, List.forall_mem_flatMap]

/-- A loop in a function: `func f(int a) -> int { for (int i = 0; i < 2) { int b = 1; a = 2; }
    return a; }`. -/
def scopedLoop : List Node :=
  let number (n : Int) := Node.literal "INT_LITERAL" (.int n)
  [.function (.text "f") "INT" [⟨"INT", .text "a"⟩]
    [.forLoop (.node (.declare (.text "i") "INT" (some (number 0))))
        (.binary "<" (.literal "VARIABLE" (.text "i")) (some (number 2)))
        [.declare (.text "b") "INT" (some (number 1)), .assign (.atom (.text "f.a")) (number 2)],
      .giveBack (some (.literal "VARIABLE" (.text "f.a")))]]

/-- The body of the loop declares another name than the parameter, which keeps its address. -/
theorem scope_end_keeps_parameter : ∃ g b, generateProgram scopedLoop = .ok g ∧
    Scoped scopedLoop [.text "f", .text "f.a", .text "i"] b ∧
    .text "f.a" ∈ [Atom.text "f", .text "f.a", .text "i"] ∧
    ∃ a, b.start.identifiers.get? (.text "f.a") = some a ∧
      (b.finish.identifiers.get? (.text "f.a") = some a ↔
        ∀ n ∈ b.statements.flatMap Node.reached, ∀ y ∈ n.declaredNames, ¬y.same (.text "f.a")) := by
  obtain ⟨g, hg, -⟩ := exists_of_toOption (p := scopedLoop) (f := fun _ => ()) (x := ())
    (by decide +kernel)
  have hfunction := Scoped.inner (p := scopedLoop) [] .program rfl (List.mem_singleton.2 rfl)
  have hloop := Scoped.inner [] hfunction rfl (List.mem_singleton.2 rfl)
  exact ⟨g, _, hg, hloop, by decide, scope_end_keeps_iff hg hloop (by decide)⟩

/-- A body that declares a name of the scope around it: `int x = 1; if (x == 1) { int x = 2; }
    x = 3;`. -/
def shadowing : List Node :=
  let number (n : Int) := Node.literal "INT_LITERAL" (.int n)
  [.declare (.text "x") "INT" (some (number 1)),
    .conditional (.binary "==" (.literal "VARIABLE" (.text "x")) (some (number 1)))
      [.declare (.text "x") "INT" (some (number 2))] [] none,
    .assign (.atom (.text "x")) (number 3)]

/-- Behind the body, the name has the address that it got in the body. -/
theorem scope_end_moves_shadowed : ∃ g b, generateProgram shadowing = .ok g ∧
    Scoped shadowing [.text "x"] b ∧ b.start.identifiers.get? (.text "x") = some 0 ∧
    b.finish.identifiers.get? (.text "x") = some 4 ∧
    g.identifiers.get? (.text "x") = some 4 := by
  obtain ⟨g, hg, hx⟩ := exists_of_toOption (p := shadowing)
    (f := fun g => g.identifiers.get? (.text "x")) (x := some 4) (by decide +kernel)
  let t : Task := ⟨shadowing[1], after (generateAll (shadowing.take 1)) {}⟩
  have hbodies : t.bodies.map (fun b => (b.start.identifiers.get? (.text "x"),
      b.finish.identifiers.get? (.text "x"))) = [(some 0, some 4)] := by decide +kernel
  obtain ⟨b, hb, haddresses⟩ := List.map_eq_singleton_iff.1 hbodies
  have hscoped : Scoped shadowing [.text "x"] b :=
    .inner (shadowing.take 1) .program rfl (hb ▸ List.mem_singleton_self b)
  exact ⟨g, b, hg, hscoped, (Prod.mk.inj haddresses).1, (Prod.mk.inj haddresses).2, hx⟩

end StackLang
