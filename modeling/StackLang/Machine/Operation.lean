import StackLang.Machine.Item

/-!
# Operations

What the numbers of instructions mean to the machine, and the arithmetic on
items. The operators are computed on singles if one operand is a real, and for
quotient and remainder always; else on words, where sums, differences and
products wrap and comparisons are signed. A comparison gives one or zero of the
same sort. The logical operators give truth values.

An operator other than a logical one on a pointer is not arithmetic: it joins
texts (`Item.isJoin`).
-/

namespace StackLang

/-- The operators, by the numbers of their instructions. The first one gives
    zero. -/
inductive Operator where
  | zero
  | add
  | sub
  | mul
  | div
  | mod
  | and
  | or
  | not
  | eq
  | ne
  | lt
  | gt
  | le
  | ge
  deriving DecidableEq, Repr, Inhabited

namespace Operator

/-- The operator of a number. Numbers behind the last one are like the first. -/
def ofCode : Nat → Operator
  | 1 => add
  | 2 => sub
  | 3 => mul
  | 4 => div
  | 5 => mod
  | 6 => and
  | 7 => or
  | 8 => not
  | 9 => eq
  | 10 => ne
  | 11 => lt
  | 12 => gt
  | 13 => le
  | 14 => ge
  | _ => zero

/-- Whether the operator is a logical one. -/
def isLogical : Operator → Bool
  | and | or | not => true
  | _ => false

/-- Whether the operator is computed on singles always. -/
def isFractional : Operator → Bool
  | div | mod => true
  | _ => false

/-- The operator on singles. -/
def onReals (op : Operator) (x y : Real32) : Real32 :=
  let truth (b : Bool) : Real32 := if b then Real32.ofInt 1 else Real32.ofInt 0
  match op with
  | add => x.add y
  | sub => x.sub y
  | mul => x.mul y
  | div => x.div y
  | mod => x.modulo y
  | eq => truth (x.compare y = some .eq)
  | ne => truth (x.compare y ≠ some .eq)
  | lt => truth (x.compare y = some .lt)
  | gt => truth (x.compare y = some .gt)
  | le => truth (x.compare y = some .lt ∨ x.compare y = some .eq)
  | ge => truth (x.compare y = some .gt ∨ x.compare y = some .eq)
  | _ => Real32.ofInt 0

/-- The operator on words. -/
def onWords (op : Operator) (x y : UInt32) : UInt32 :=
  let truth (b : Bool) : UInt32 := if b then 1 else 0
  match op with
  | add => x + y
  | sub => x - y
  | mul => x * y
  | eq => truth (x = y)
  | ne => truth (x ≠ y)
  | lt => truth (wordInt x < wordInt y)
  | gt => truth (wordInt y < wordInt x)
  | le => truth (wordInt x ≤ wordInt y)
  | ge => truth (wordInt y ≤ wordInt x)
  | _ => 0

/-- The operator on two items of which none is a pointer. -/
def onItems (op : Operator) (x y : Item) : Item :=
  if op.isFractional ∨ x.tag = .real ∨ y.tag = .real then ⟨.real, (op.onReals x.real y.real).bits⟩
  else ⟨.int, op.onWords x.word y.word⟩

/-- The logical operator on two items. -/
def onTruths (op : Operator) (x y : Item) : Item :=
  match op with
  | and => .ofBool (x.word ≠ 0 ∧ y.word ≠ 0)
  | _ => .ofBool (x.word ≠ 0 ∨ y.word ≠ 0)

end Operator

/-- Whether an operator on these items joins texts. -/
def Item.isJoin (x y : Item) : Bool := x.tag = .pointer || y.tag = .pointer

/-- The operations of the machine. -/
inductive Operation where
  | compute (op : Operator)
  /-- Push the argument with a tag. -/
  | push (tag : Tag)
  | storeMem
  | load
  | jump
  | jumpIf
  | call
  | giveBack
  | buildList
  | element
  | setElement
  | defineType
  | create
  | cast
  | builtin
  deriving DecidableEq, Repr

/-- The operation of a number, if it has one. -/
def Operation.ofCode? (code : Nat) : Option Operation :=
  match code with
  | 0x0F => some (.push .int)
  | 0x10 => some (.push .byte)
  | 0x11 => some (.push .real)
  | 0x12 => some (.push .char)
  | 0x13 => some .storeMem
  | 0x14 => some .load
  | 0x15 => some .jump
  | 0x16 => some .jumpIf
  | 0x17 => some .call
  | 0x18 => some .giveBack
  | 0x19 => some .buildList
  | 0x1A => some .element
  | 0x1B => some .setElement
  | 0x1C => some .defineType
  | 0x1D => some .create
  | 0x1E => some .cast
  | 0xFF => some .builtin
  | n => if n < 0x0F then some (.compute (.ofCode n)) else none

end StackLang
