import StackLang.Image
import StackLang.Numeric.Decimal

/-!
# Items

What the machine computes with: a word of 32 bits with a tag that says how to
read it. A tag also fixes how many bytes a word of its sort takes in memory and
in lists, which is four, but one for bytes and characters.
-/

namespace StackLang

/-- How a word is read. -/
inductive Tag where
  | unassigned
  /-- A truth value or a small number. -/
  | byte
  | int
  | real
  | char
  /-- The number of a block of the heap. -/
  | pointer
  deriving DecidableEq, Repr, Inhabited

namespace Tag

/-- The number of a tag. -/
def code : Tag → Nat
  | unassigned => 0
  | byte => 1
  | int => 2
  | real => 3
  | char => 4
  | pointer => 5

/-- The tag of a number; numbers of no tag give `unassigned`. -/
def ofCode : Nat → Tag
  | 1 => byte
  | 2 => int
  | 3 => real
  | 4 => char
  | 5 => pointer
  | _ => unassigned

/-- How many bytes a word takes. -/
def width : Tag → Nat
  | byte | char => 1
  | _ => 4

/-- The name that programs see. -/
def name : Tag → String
  | unassigned => "UNASSIGNED"
  | byte => "BYTE"
  | int => "INT"
  | real => "FLOAT"
  | char => "CHAR"
  | pointer => "ARRAY"

@[simp] theorem ofCode_code (t : Tag) : ofCode t.code = t := by cases t <;> rfl

theorem width_pos (t : Tag) : 0 < t.width := by cases t <;> decide

theorem width_le (t : Tag) : t.width ≤ 4 := by cases t <;> decide

end Tag

/-- A word with its tag. -/
structure Item where
  tag : Tag
  word : UInt32
  deriving DecidableEq, Repr, Inhabited

/-- A word as a signed integer. -/
def wordInt (w : UInt32) : Int := w.toInt32.toInt

/-- The lowest byte of a word as a signed integer, as a word again. -/
def extendByte (w : UInt32) : UInt32 := w.toUInt8.toInt8.toInt32.toUInt32

/-- The bytes of a text of single-byte characters. -/
def textBytes (s : String) : List UInt8 := s.toList.map fun c => c.toNat.toUInt8

namespace Item

/-- A truth value. -/
def ofBool (b : Bool) : Item := ⟨.byte, if b then 1 else 0⟩

/-- A pointer to a block. -/
def ofBlock (n : Nat) : Item := ⟨.pointer, n.toUInt32⟩

/-- The number of the block that the item points to. -/
def block (x : Item) : Nat := x.word.toNat

/-- The item as a single: a real by its pattern, all else as a signed integer. -/
def real (x : Item) : Real32 :=
  match x.tag with
  | .real => ⟨x.word⟩
  | _ => Real32.ofInt (wordInt x.word)

/-- The text of a number: of a real as a real, of all else as a signed integer. -/
def numberText (x : Item) : String :=
  match x.tag with
  | .real => x.real.text
  | _ => signedText (wordInt x.word)

end Item

end StackLang
