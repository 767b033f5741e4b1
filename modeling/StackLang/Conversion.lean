import StackLang.Fault

/-!
# Conversion of values

How the value of a literal becomes an integer, a real, a byte or a text. A text
is read as a number; a value that is not a number has no integer part, and
infinities lie beyond every range.
-/

namespace StackLang

namespace Atom

/-- The integer that a value converts to. -/
def toInt : Atom → Except Fault Int
  | .int n => .ok n
  | .bool b => .ok (if b then 1 else 0)
  | .real x =>
    match x.truncate? with
    | some n => .ok n
    | none => .error (if x.isNaN then .malformedNumber else .outOfRange)
  | .text s =>
    match readInt s with
    | .ok n => .ok n
    | .error _ => .error .malformedNumber
  | .nothing => .error .wrongKind

/-- The real that a value converts to. -/
def toReal : Atom → Except Fault Real64
  | .int n =>
    match Real64.ofInt? n with
    | some x => .ok x
    | none => .error .outOfRange
  | .bool b => .ok (Real64.ofFraction false b.toNat 1 0)
  | .real x => .ok x
  | .text s =>
    match readReal? s with
    | some x => .ok x
    | none => .error .malformedNumber
  | .nothing => .error .wrongKind

/-- Whether a number is below an integer; a text or nothing has no place in
    this order. -/
def below (a : Atom) (n : Int) : Except Fault Bool :=
  match a with
  | .int m => .ok (m < n)
  | .bool b => .ok ((if b then 1 else 0) < n)
  | .real x => .ok (x.reading.compare (.finite (n < 0) n.natAbs 0) == some .lt)
  | _ => .error .wrongKind

/-- Whether a number is above an integer. -/
def above (a : Atom) (n : Int) : Except Fault Bool :=
  match a with
  | .int m => .ok (n < m)
  | .bool b => .ok (n < (if b then 1 else 0))
  | .real x => .ok (x.reading.compare (.finite (n < 0) n.natAbs 0) == some .gt)
  | _ => .error .wrongKind

/-- A number clipped to the range of bytes; inside the range it keeps its
    kind. -/
def clipToByte (a : Atom) : Except Fault Atom := do
  let upper ← if ← a.below 127 then pure a else pure (.int 127)
  if ← upper.above (-128) then pure upper else pure (.int (-128))

end Atom

/-- An integer clipped to the range of bytes. -/
def clipInt (n : Int) : Int := max (-128) (min 127 n)

end StackLang
