import StackLang.Code

/-!
# Program images

The file that a machine loads. An instruction is five bytes: its number, and its
argument as a word of four bytes, the lowest first. An integer is its two's
complement, a real the pattern of the nearest single. An argument of another
kind writes no word at all, so what follows moves up.

`Image.write` turns code into bytes; it stops at a slot without an instruction
and at an integer that is no word, and what it has written before stays.
`Image.load` turns bytes into the instructions of a machine; bytes after the
last whole instruction are left out.
-/

namespace StackLang

/-- An instruction of the machine: its number and its argument. -/
structure Instruction where
  code : UInt8
  arg : UInt32
  deriving DecidableEq, Repr, Inhabited

/-- The four bytes of a word, the lowest first. -/
def wordBytes (w : UInt32) : List UInt8 :=
  [w.toUInt8, (w >>> 8).toUInt8, (w >>> 16).toUInt8, (w >>> 24).toUInt8]

/-- The word of four bytes, the lowest first. -/
def wordOf (a b c d : UInt8) : UInt32 :=
  a.toUInt32 ||| (b.toUInt32 <<< 8) ||| (c.toUInt32 <<< 16) ||| (d.toUInt32 <<< 24)

/-- The word of an integer, modulo its range. -/
def intWord (n : Int) : UInt32 := (n % 0x100000000).toNat.toUInt32

/-- Whether an integer is the value of a signed word. -/
def fitsWord (n : Int) : Bool := -0x80000000 ≤ n && n < 0x80000000

namespace Image

/-- The word of an argument; none for an argument that writes none. -/
def argumentWord? : Argument → Except Fault (Option UInt32)
  | .atom (.int n) => if fitsWord n then .ok (some (intWord n)) else .error .wordRange
  | .atom (.bool b) => .ok (some (if b then 1 else 0))
  | .atom (.real x) => .ok (some (Real32.ofReal64 x).bits)
  | _ => .ok none

/-- What has been written, and the fault that stopped it, if one did. -/
structure Written where
  bytes : List UInt8
  fault : Option Fault
  deriving Repr

/-- The bytes of a row of slots. -/
def writeSlots : List Slot → Written
  | [] => ⟨[], none⟩
  | .bare _ :: _ => ⟨[], some .wrongKind⟩
  | .label _ :: _ => ⟨[], some .malformedNumber⟩
  | .instruction code arg :: rest =>
    match argumentWord? arg with
    | .error f => ⟨[code.toUInt8], some f⟩
    | .ok word =>
      let after := writeSlots rest
      { after with bytes := code.toUInt8 :: ((word.map wordBytes).getD [] ++ after.bytes) }

/-- The image of a generator's code. -/
def write (g : Generator) : Written := writeSlots g.code.toList

/-- The instructions of an image. -/
def loadBytes : List UInt8 → List Instruction
  | code :: a :: b :: c :: d :: rest => ⟨code, wordOf a b c d⟩ :: loadBytes rest
  | _ => []

/-- The program of an image. -/
def load (bytes : List UInt8) : Array Instruction := (loadBytes bytes).toArray

end Image

/-! ### Listings -/

namespace Listing

/-- The text of an argument. -/
def argumentText : Argument → String
  | .atom a => a.shown
  | .nodes [] => "[]"
  | .nodes _ => "[...]"

/-- What has been listed, and the fault that stopped it, if one did. -/
structure Written where
  text : String
  fault : Option Fault
  deriving Repr

/-- A row of slots as lines, with the names of the instructions or with their
    numbers. -/
def writeSlots (names : Bool) : List Slot → Written
  | [] => ⟨"", none⟩
  | .bare _ :: _ => ⟨"", some .wrongKind⟩
  | .label _ :: _ => ⟨"", some .wrongKind⟩
  | .instruction code arg :: rest =>
    let head := if names then opcodeName? (.int code) else some (decimalText code)
    match head with
    | none => ⟨"", some .wrongKind⟩
    | some head =>
      let after := writeSlots names rest
      { after with text := head ++ " " ++ argumentText arg ++ "\n" ++ after.text }

/-- The listing of a generator's code. -/
def write (names : Bool) (g : Generator) : Written := writeSlots names g.code.toList

end Listing

end StackLang
