import StackLang.Proofs.Keeping

/-!
# What parsing gives

On tokens as a scan gives them, the parser only builds lexical literals into a tree: `Parse.Yields Q a`
says that the parser `a` takes tokens from the front only and, where they are lexical, gives results with
the property `Q`.

* `readStatements`: every literal that a statement brings into the tree is lexical, by induction on the
  fuel;
* `read_of_parse`: so is every literal of the tree of a source text.
-/

namespace StackLang

open List

/-- The tokens that are left are lexical. -/
def ParseState.Lexical (s : ParseState) : Prop := ∀ t ∈ s.tokens, t.Lexical

/-- Every literal of the tree is lexical. -/
abbrev Node.Read (n : Node) : Prop := n.Throughout Node.Lexical

namespace Parse

variable {α : Type}

/-- Tokens are taken from the front only. -/
def Shortens (s s' : ParseState) : Prop := s'.tokens <:+ s.tokens

instance : Frame ParseState.Lexical Shortens where
  refl s := suffix_refl s.tokens
  trans h h' := List.IsSuffix.trans h' h
  stable hs h := fun t ht => hs t (h.subset ht)
  advance s := tail_suffix s.tokens
  markLine s _ := suffix_refl s.tokens

instance : Forms ParseState.Lexical Node.Lexical where
  token := by
    intro s t hs ht
    have hlexical := hs t ht
    unfold Token.Lexical at hlexical
    split at hlexical
    · rw [if_pos ‹_›]
      exact hlexical
    · obtain ⟨name, hname⟩ := hlexical
      rw [if_neg ‹_›, hname]
      exact .name name
  constant h := h
  list type _ := ⟨type, rfl⟩
  call _ _ _ := trivial
  compound {x} h := by cases x <;> trivial

instance : Declaring Shortens Node.Lexical where
  declare _ := suffix_refl _
  declareRecord _ := suffix_refl _
  declared _ _ _ := trivial
  record _ _ := trivial
  assigned _ _ := trivial

/-- On lexical tokens, the parser gives what has the property. -/
abbrev Yields (Q : α → Prop) (a : Parse α) : Prop := Keeps ParseState.Lexical Shortens Q a

theorem readExpressions (n : Nat) : KeptExpressions ParseState.Lexical Shortens Node.Lexical n :=
  keptExpressions _ _ _ n

/-- A function is only declared if the names of its parameters are texts. -/
theorem texts_of_declareFunction {s s' : Scope} {name : Atom} {result : String}
    {ps : List (Atom × String)} (h : s.declareFunction name result ps = .ok s') :
    ∀ p ∈ ps, ∃ n, p.1 = .text n := by
  unfold Scope.declareFunction at h
  split at h
  · cases h
  split at h
  · obtain ⟨table, ht, -⟩ := ok_of_bind h
    clear h
    rename_i f _
    generalize s.table.put (.text f) result = t₀ at ht
    induction ps generalizing t₀ with
    | nil => exact forall_mem_nil _
    | cons p ps ih =>
      rw [foldlM_cons] at ht
      obtain ⟨t₁, h₁, ht⟩ := ok_of_bind ht
      refine forall_mem_cons.2 ⟨?_, ih t₁ ht⟩
      split at h₁
      · rename_i n hn
        exact ⟨n, hn⟩
      · cases h₁
  · cases h

/-! ### Statements -/

/-- The results of the statement parsers are read, given fuel `n`. -/
structure ReadStatements (n : Nat) : Prop where
  statement : Yields Node.Read (statement n)
  block : Yields (fun ss => ∀ x ∈ ss, x.Read) (block n)
  body : Yields (fun ss => ∀ x ∈ ss, x.Read) (body n)
  statements : Yields (fun ss => ∀ x ∈ ss, x.Read) (statements n)
  branches : Yields (fun bs => ∀ x ∈ bs.flatMap Branch.nodes, x.Read) (branches n)
  forStatement : Yields Node.Read (forStatement n)
  functionDeclaration : Yields Node.Read (functionDeclaration n)

namespace Keeps

theorem rescope (f : Scope → Scope) : Yields (fun _ => True) (Parse.modifyScope f) :=
  modifyScope fun _ => suffix_refl _

theorem conditional {c : Node} {thenBlock : List Node} {bs : List Branch}
    {elseBlock : Option (List Node)} (hc : c.Read) (ht : ∀ x ∈ thenBlock, x.Read)
    (hb : ∀ x ∈ bs.flatMap Branch.nodes, x.Read) (he : ∀ x ∈ elseBlock.getD [], x.Read) :
    (Node.conditional c thenBlock bs elseBlock).Read := by
  refine .intro trivial fun m hm => ?_
  rw [Node.children, cons_append, cons_append, mem_cons, mem_append,
    mem_append] at hm
  rcases hm with rfl | (hm | hm) | hm
  · exact hc
  · exact hb m hm
  · exact he m hm
  · exact ht m hm

theorem statement_succ {n : Nat} (ih : ReadStatements n) :
    Yields Node.Read (Parse.statement (n + 1)) := by
  unfold Parse.statement
  refine next atType fun b => ?_
  split
  · exact declaration n
  refine next kind fun k => ?_
  split
  · exact bind ih.block fun ss hss => pure (.intro trivial hss)
  · exact ih.functionDeclaration
  · exact (recordDeclaration n).mono fun _ h => h.2
  · exact nameStatement n
  · refine next advance fun _ => bind (head (P := Node.Lexical) n) fun c hc => bind ih.block fun ss hss =>
      bind ih.branches fun bs hbs => next current? fun o => ?_
    split
    · exact next advance fun _ => bind ih.block fun es hes => pure (conditional hc hss hbs hes)
    · exact pure (conditional hc hss hbs (forall_mem_nil _))
  · exact ih.forStatement
  · exact next advance fun _ => bind (head (P := Node.Lexical) n) fun c hc => bind ih.block fun ss hss =>
      pure (.intro trivial (forall_mem_cons.2 ⟨hc, hss⟩))
  · exact next advance fun _ => bind (readExpressions n).expression fun x hx =>
      next advance fun _ => pure (.intro trivial (forall_mem_singleton.2 hx))
  · exact next advance fun _ => next advance fun _ => pure (.intro trivial (forall_mem_nil _))
  · exact next advance fun _ => next advance fun _ => pure (.intro trivial (forall_mem_nil _))
  · exact reject _

theorem function_succ {n : Nat} (ih : ReadStatements n) :
    Yields Node.Read (Parse.functionDeclaration (n + 1)) := by
  unfold Parse.functionDeclaration
  refine next advance fun _ => next current fun t => next advance fun _ => next markLine fun _ =>
    next kind fun k => unless_rejected (next (parameters n) fun ps => next advance fun _ =>
      next kind fun k => ?_)
  have rest : ∀ result : String, Yields Node.Read (do
      Parse.tryScope (·.declareFunction t.value result (ps.map fun p => (p.name, p.type)))
      Parse.modifyScope (·.enter t.value.shown)
      let ss ← body n
      Parse.modifyScope (·.leave)
      return .function t.value result ps (renameAll t.value.shown (ps.map Parameter.name) ss)) := by
    intro result
    -- only texts are declared as parameters, so no number is taken for one
    refine bind (tryScope fun _ _ h => ⟨suffix_refl _, texts_of_declareFunction h⟩) fun _ hps =>
      next (rescope _) fun _ => bind ih.body fun ss hss => next (rescope _) fun _ => pure ?_
    have htexts : ∀ a ∈ ps.map Parameter.name, ∃ s, a = .text s := by
      simpa using hps
    refine .intro trivial fun m hm => ?_
    rw [Node.children, renameAll_eq] at hm
    obtain ⟨x, hx, rfl⟩ := mem_map.1 hm
    exact (hss x hx).rename htexts
  split
  · exact next advance fun _ => next kind fun k => next advance fun _ =>
      next (pure trivial) fun _ => rest _
  · exact next (pure trivial) fun _ => rest _

theorem for_succ {n : Nat} (ih : ReadStatements n) :
    Yields Node.Read (Parse.forStatement (n + 1)) := by
  unfold Parse.forStatement
  refine next advance fun _ => next kind fun k => unless_rejected (next advance fun _ =>
    next atType fun b => ?_)
  split
  · refine next (rescope _) fun _ => bind (declaration (P := Node.Lexical) n) fun v hv =>
      bind (readExpressions n).expression fun c hc => next advance fun _ =>
      bind ih.body fun ss hss => next (rescope _) fun _ => pure ?_
    exact .intro trivial (forall_mem_cons.2 ⟨hv, forall_mem_cons.2 ⟨hc, hss⟩⟩)
  · refine next kind fun k => ?_
    split
    · exact throw _
    · exact reject _

end Keeps

theorem readStatements (n : Nat) : ReadStatements n := by
  induction n with
  | zero =>
    constructor <;> exact Keeps.throw _
  | succ n ih =>
    constructor
    case statement => exact Keeps.statement_succ ih
    case block =>
      unfold block
      exact .next (Keeps.rescope _) fun _ => .bind ih.body fun ss hss =>
        .next (Keeps.rescope _) fun _ => .pure hss
    case body =>
      unfold body
      exact .next .kind fun k => .unless_rejected (.next .advance fun _ =>
        .bind ih.statements fun ss hss => .next .advance fun _ => .pure hss)
    case statements =>
      unfold statements
      refine .next .kind fun k => ?_
      split
      · exact .pure (forall_mem_nil _)
      · exact .bind ih.statement fun s hs => .bind ih.statements fun ss hss =>
          .pure (forall_mem_cons.2 ⟨hs, hss⟩)
    case branches =>
      unfold branches
      refine .next .current? fun o => ?_
      split
      · refine .next .advance fun _ => .bind (readExpressions n).expression fun c hc =>
          .bind ih.block fun ss hss => .bind ih.branches fun bs hbs => .pure ?_
        rw [flatMap_cons]
        exact forall_mem_append.2 ⟨forall_mem_cons.2 ⟨hc, hss⟩, hbs⟩
      · exact .pure (forall_mem_nil _)
    case forStatement => exact Keeps.for_succ ih
    case functionDeclaration => exact Keeps.function_succ ih

theorem Keeps.program (n : Nat) : Yields (fun ss => ∀ x ∈ ss, x.Read) (Parse.program n) := by
  induction n with
  | zero => exact throw _
  | succ n ih =>
    unfold Parse.program
    refine next current? fun o => ?_
    split
    · exact pure (forall_mem_nil _)
    · exact bind (readStatements n).statement fun s hs => bind ih fun ss hss =>
        pure (forall_mem_cons.2 ⟨hs, hss⟩)

end Parse

/-- Every literal in the tree of a source text has a value of the sort that its kind says, and
    every list a kind of lists. -/
theorem read_of_parse {source : String} {program : List Node} {scope : Scope}
    (h : parse (scan source) = .ok (program, scope)) : ∀ n ∈ program, n.Read := by
  have hstart : ParseState.Lexical ⟨(scan source).tokens, (scan source).fault, {}⟩ := lexical_of_scan
  unfold parse at h
  dsimp only at h
  split at h
  · split at h
    · cases h
    · obtain ⟨⟨ss, finish⟩, hrun, h⟩ := ok_of_bind h
      cases h
      exact (Parse.Keeps.program _ _ hstart _ _ hrun).2
  · obtain ⟨⟨ss, finish⟩, hrun, h⟩ := ok_of_bind h
    cases h
    exact (Parse.Keeps.program _ _ hstart _ _ hrun).2

end StackLang
