import StackLang.Text.Numeral
import StackLang.Text.Quoted

/-!
# Atoms

An *atom* is the value that a token carries: an integer, a real, a truth value
or a text, or nothing at all. Atoms also serve as names, since a declaration
takes whatever token stands in the place of its name. Two names are the same if
their *keys* are: numbers are compared by value, whatever their kind, and truth
values count as the numbers 0 and 1.
-/

namespace StackLang

/-- The value that a token carries. -/
inductive Atom where
  | nothing
  | int (n : Int)
  | real (x : Real64)
  | bool (b : Bool)
  | text (s : String)
  deriving DecidableEq, Repr, Inhabited

/-- What decides whether two atoms are the same name. -/
inductive Key where
  | nothing
  | whole (n : Int)
  | real (x : Real64)
  | text (s : String)
  deriving DecidableEq, Repr

namespace Atom

/-- The key of an atom. -/
def key : Atom → Key
  | .nothing => .nothing
  | .int n => .whole n
  | .real x => match x.whole? with
    | some n => .whole n
    | none => .real x
  | .bool b => .whole (if b then 1 else 0)
  | .text s => .text s

/-- Whether two atoms are the same name. -/
def same (a b : Atom) : Bool := a.key == b.key

/-- The text of an atom, as it is shown. -/
def shown : Atom → String
  | .nothing => "None"
  | .int n => signedText n
  | .real x => x.text
  | .bool b => if b then "True" else "False"
  | .text s => s

/-- The text of an atom with texts between quotes. -/
def quotedShown : Atom → String
  | .text s => quoted s
  | a => a.shown

/-- Whether the atom counts as true: a number other than zero, a text that is
    not empty. -/
def truthy : Atom → Bool
  | .nothing => false
  | .int n => n != 0
  | .real x => !x.isZero
  | .bool b => b
  | .text s => s != ""

end Atom

/-! ### Tables -/

/-- A table of values by name, in the order in which the names came. -/
abbrev Table (α : Type) := List (Atom × α)

namespace Table

variable {α : Type}

/-- The value of a name. -/
def get? (t : Table α) (a : Atom) : Option α :=
  (t.find? fun p => p.1.same a).map Prod.snd

/-- Whether the table has the name. -/
def has (t : Table α) (a : Atom) : Bool := (t.get? a).isSome

/-- The table with the value of a name set: in its place if it was there, else
    at the end. -/
def put (t : Table α) (a : Atom) (v : α) : Table α :=
  match t with
  | [] => [(a, v)]
  | p :: r => if p.1.same a then (p.1, v) :: r else p :: put r a v

end Table

end StackLang
