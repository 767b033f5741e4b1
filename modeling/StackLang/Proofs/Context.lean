import StackLang.Proofs.Parsing

/-!
# Contexts while parsing

Contexts are opened and closed by statements only. Everything below them, expressions, declarations
of variables and records, the heads of statements, leaves the open context, the contexts around it
and the number of blocks as they are: such a parser is *quiet*.
-/

namespace StackLang

/-- The same contexts are open, and as many blocks have been opened so far. -/
structure Scope.SameContexts (s t : Scope) : Prop where
  context : t.context = s.context
  history : t.history = s.history
  unnamed : t.unnamed = s.unnamed

namespace Scope.SameContexts

variable {s t u : Scope} {name : Atom}

theorem refl (s : Scope) : s.SameContexts s := ⟨rfl, rfl, rfl⟩

theorem trans (h : s.SameContexts t) (h' : t.SameContexts u) : s.SameContexts u :=
  ⟨h'.context.trans h.context, h'.history.trans h.history, h'.unnamed.trans h.unnamed⟩

theorem of_declare {type : String} (h : s.declare name type = .ok t) : s.SameContexts t := by
  obtain ⟨full, -, h⟩ := ok_of_bind h
  split at h <;> cases h
  exact ⟨rfl, rfl, rfl⟩

theorem of_declareRecord {fields : List (Atom × String)} (h : s.declareRecord name fields = .ok t) :
    s.SameContexts t := by
  unfold Scope.declareRecord at h
  split at h <;> cases h
  exact ⟨rfl, rfl, rfl⟩

theorem of_declareFunction {result : String} {parameters : List (Atom × String)}
    (h : s.declareFunction name result parameters = .ok t) : s.SameContexts t := by
  unfold Scope.declareFunction at h
  split at h
  · cases h
  split at h
  · obtain ⟨table, -, h⟩ := ok_of_bind h
    cases h
    exact ⟨rfl, rfl, rfl⟩
  · cases h

end Scope.SameContexts

namespace Parse

instance : Frame (fun _ => True) fun s t => s.scope.SameContexts t.scope where
  refl s := .refl s.scope
  trans := .trans
  stable _ _ := trivial
  advance s := .refl s.scope
  markLine _ _ := ⟨rfl, rfl, rfl⟩

instance : Forms (fun _ => True) fun _ => True where
  token _ _ := trivial
  constant _ := trivial
  list _ _ := trivial
  call _ _ _ := trivial
  compound _ := trivial

instance : Declaring (fun s t => s.scope.SameContexts t.scope) fun _ => True where
  declare := .of_declare
  declareRecord := .of_declareRecord
  declared _ _ _ := trivial
  record _ _ := trivial
  assigned _ _ := trivial

/-- The parser leaves the contexts as they are. -/
abbrev Quiet {α : Type} (Q : α → Prop) (a : Parse α) : Prop :=
  Keeps (fun _ => True) (fun s t => s.scope.SameContexts t.scope) Q a

namespace Quiet

theorem expression (n : Nat) : Quiet (Node.Throughout fun _ => True) (Parse.expression n) :=
  (keptExpressions _ _ _ n).expression

theorem declaration (n : Nat) : Quiet (Node.Throughout fun _ => True) (Parse.declaration n) :=
  Keeps.declaration n

theorem recordDeclaration (n : Nat) : Quiet (fun _ => True) (Parse.recordDeclaration n) :=
  (Keeps.recordDeclaration (P := fun _ => True) n).mono fun _ _ => trivial

theorem nameStatement (n : Nat) : Quiet (Node.Throughout fun _ => True) (Parse.nameStatement n) :=
  Keeps.nameStatement n

theorem head (n : Nat) : Quiet (Node.Throughout fun _ => True) (Parse.head n) := Keeps.head n

theorem declareFunction (name : Atom) (result : String) (ps : List (Atom × String)) :
    Quiet (fun _ => True) (Parse.tryScope (·.declareFunction name result ps)) :=
  .tryScope fun _ _ h => ⟨.of_declareFunction h, trivial⟩

end Quiet

end Parse

end StackLang
