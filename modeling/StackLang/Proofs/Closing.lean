import StackLang.Proofs.Parsing

/-!
# Closing tokens

A declaration of a variable, an assignment, a call that stands by itself, a return and an exit from
a loop end with a semicolon, the head of a conditional or a loop with a parenthesis, and an index
with a bracket. A *closing* is such a place with the token that stands there.

`placesOf` lists the places of a tree that are to be closed, in the order in which they are read.
Renaming the parameters of a function leaves them as they are (`placesOf_renameAll`), and a
converted expression has no places that it did not have before (`Parse.Converted.places`).
-/

namespace StackLang

open Node

/-- What is closed by a token of its own. -/
inductive Place where
  /-- A declaration of a variable without a value. -/
  | declaration
  /-- A declaration of a variable with a value. -/
  | initialization
  | assignment
  | call
  | giveBack
  | continueLoop
  | breakLoop
  /-- The heads of a conditional and of the loops. -/
  | conditional
  | whileLoop
  | forLoop
  /-- The first index after a name. -/
  | firstIndex
  /-- An index after another one. -/
  | furtherIndex
  deriving DecidableEq

namespace Place

/-- The kind of the token that a place is to be closed by. -/
def closer : Place → Kind
  | .conditional | .whileLoop | .forLoop => .rparen
  | .firstIndex | .furtherIndex => .endList
  | _ => .semicolon

/-- The places at which the parser looks at the closing token. -/
def Checked (p : Place) : Prop := p = .declaration ∨ p = .firstIndex

instance (p : Place) : Decidable p.Checked := inferInstanceAs (Decidable (_ ∨ _))

end Place

/-- A place and the token that stood there, if there was one left. -/
structure Closing where
  place : Place
  token : Option Token

/-- The token is of the kind that closes the place. -/
def Closing.Proper (c : Closing) : Prop := c.token.map Token.kind = some c.place.closer

instance (c : Closing) : Decidable c.Proper := inferInstanceAs (Decidable (_ = _))

/-! ### The places of a tree -/

/-- The end of a statement that is an expression: only a call stands by itself. -/
def Node.endPlaces : Node → List Place
  | .call .. => [.call]
  | _ => []

theorem Node.endPlaces_sublist (n : Node) : n.endPlaces.Sublist [.call] := by
  cases n with
  | call => exact .refl _
  | _ => exact List.nil_sublist _

/-- The end of an index; the first one stands after a name. -/
def Operand.indexPlaces : Operand → List Place
  | .atom _ => [.firstIndex]
  | .node _ => [.furtherIndex]

mutual

/-- The places in a node, without the end of a statement that is an expression. -/
def Node.places : Node → List Place
  | .block ss => placesOf ss
  | .binary _ a b => a.places ++ placesOfOption b
  | .listLiteral _ xs => placesOfAll xs
  | .call _ xs o => o.places ++ placesOfAll xs
  | .create _ xs => placesOfAll xs
  | .member o a indexed => o.places ++ (a.places ++ if indexed then o.indexPlaces else [])
  | .cast _ _ x => x.places
  | .declare _ _ none => [.declaration]
  | .declare _ _ (some x) => x.places ++ [.initialization]
  | .function _ _ _ body => placesOf body
  | .assign t x => t.places ++ (x.places ++ [.assignment])
  | .conditional c t bs e =>
    c.places ++ .conditional :: (placesOf t ++ (placesOfBranches bs ++ placesOfBlock e))
  | .whileLoop c body => c.places ++ .whileLoop :: placesOf body
  | .forLoop v c body => v.places ++ (c.places ++ .forLoop :: placesOf body)
  | .giveBack v => placesOfOption v ++ [.giveBack]
  | .breakLoop => [.breakLoop]
  | .continueLoop => [.continueLoop]
  | .literal .. | .parameter _ | .record .. | .plain | .plainExpression | .plainUnary
  | .plainDeclaration _ => []

/-- The places in an operand. -/
def Operand.places : Operand → List Place
  | .atom _ => []
  | .node n => n.places

/-- The places in expressions. -/
def placesOfAll : List Node → List Place
  | [] => []
  | x :: xs => x.places ++ placesOfAll xs

/-- The places in an expression that may be absent. -/
def placesOfOption : Option Node → List Place
  | none => []
  | some x => x.places

/-- The places in statements. -/
def placesOf : List Node → List Place
  | [] => []
  | s :: ss => s.places ++ (s.endPlaces ++ placesOf ss)

/-- The places in a block that may be absent. -/
def placesOfBlock : Option (List Node) → List Place
  | none => []
  | some ss => placesOf ss

/-- The places in further conditions, which need no parentheses. -/
def placesOfBranches : List Branch → List Place
  | [] => []
  | .mk c ss :: bs => c.places ++ (placesOf ss ++ placesOfBranches bs)

end

/-! ### Renaming and conversion -/

section Rename

variable {f : String} {ps : List Atom}

theorem places_qualify (o : Operand) : (o.qualify f ps).places = o.places := by
  cases o <;> simp only [Operand.qualify, Operand.places]

theorem indexPlaces_qualify (o : Operand) : (o.qualify f ps).indexPlaces = o.indexPlaces := by
  cases o <;> rfl

theorem endPlaces_rename (n : Node) : (n.rename f ps).endPlaces = n.endPlaces := by
  cases n <;> simp only [rename, endPlaces]

mutual

/-- Renaming leaves the places as they are. -/
theorem places_rename (n : Node) : (n.rename f ps).places = n.places := by
  cases n with
  | block ss => simp only [rename, Node.places, placesOf_renameAll ss]
  | binary o a b => simp only [rename, Node.places, places_rename a, placesOfOption_rename b]
  | call g xs o => simp only [rename, Node.places, placesOfAll_renameAll xs, places_qualify]
  | create r xs => simp only [rename, Node.places, placesOfAll_renameAll xs]
  | member o a i =>
    simp only [rename, Node.places, places_qualify, indexPlaces_qualify,
      places_rename_operand a]
  | cast t s x => simp only [rename, Node.places, places_rename x]
  | declare x t v =>
    cases v with
    | none => simp only [rename, renameOption, Node.places]
    | some v => simp only [rename, renameOption, Node.places, places_rename v]
  | assign t x => simp only [rename, Node.places, places_qualify]
  | conditional c t bs e =>
    cases e with
    | none =>
      simp only [rename, Node.places, places_rename c, placesOf_renameAll t,
        placesOfBranches_rename bs]
    | some ss =>
      simp only [rename, Node.places, placesOfBlock, places_rename c, placesOf_renameAll t,
        placesOfBranches_rename bs, placesOf_renameAll ss]
  | whileLoop c body =>
    simp only [rename, Node.places, places_rename c, placesOf_renameAll body]
  | forLoop v c body =>
    simp only [rename, Node.places, places_qualify, places_rename c, placesOf_renameAll body]
  | giveBack v => simp only [rename, Node.places, placesOfOption_rename v]
  | literal k v => simp only [rename, Node.places]
  | _ => simp only [rename]

theorem places_rename_operand (o : Operand) : (o.rename f ps).places = o.places := by
  cases o with
  | atom a => simp only [Operand.rename]
  | node n => simp only [Operand.rename, Operand.places, places_rename n]

theorem placesOfAll_renameAll (xs : List Node) :
    placesOfAll (renameAll f ps xs) = placesOfAll xs := by
  cases xs with
  | nil => simp only [renameAll]
  | cons x xs => simp only [renameAll, placesOfAll, places_rename x, placesOfAll_renameAll xs]

theorem placesOfOption_rename (v : Option Node) :
    placesOfOption (renameOption f ps v) = placesOfOption v := by
  cases v with
  | none => simp only [renameOption]
  | some x => simp only [renameOption, placesOfOption, places_rename x]

theorem placesOf_renameAll (ss : List Node) : placesOf (renameAll f ps ss) = placesOf ss := by
  cases ss with
  | nil => simp only [renameAll]
  | cons s ss =>
    simp only [renameAll, placesOf, places_rename s, endPlaces_rename, placesOf_renameAll ss]

theorem placesOfBranches_rename (bs : List Branch) :
    placesOfBranches (renameBranches f ps bs) = placesOfBranches bs := by
  cases bs with
  | nil => simp only [renameBranches]
  | cons b bs =>
    cases b with
    | mk c ss =>
      simp only [renameBranches, placesOfBranches, places_rename c, placesOf_renameAll ss,
        placesOfBranches_rename bs]

end

end Rename

/-- A converted expression has no new places. -/
theorem Parse.Converted.places {x y : Node} (h : Parse.Converted x y) :
    y.places.Sublist x.places := by
  cases h with
  | same => exact .refl _
  | cast t u => simp only [Node.places, List.Sublist.refl]
  | _ =>
    rw [Node.places]
    exact List.nil_sublist _

theorem Parse.ConvertedAll.places {xs ys : List Node} (h : Parse.ConvertedAll xs ys) :
    (placesOfAll ys).Sublist (placesOfAll xs) := by
  induction h with
  | nil xs =>
    rw [placesOfAll]
    exact List.nil_sublist _
  | cons head _ ih =>
    rw [placesOfAll, placesOfAll]
    exact head.places.append ih

end StackLang
