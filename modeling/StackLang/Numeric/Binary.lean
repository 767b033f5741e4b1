/-!
# Binary floating point

A *format* is a precision and an exponent width. Its patterns stand for dyadic
numbers `± m · 2^q`, for infinities and for the values that are not numbers.
Everything here is exact arithmetic on natural numbers: a result is the exact
one, rounded once to the nearest pattern, a tie going to the even significand.

* `Format.decode` reads a pattern, `Format.round` rounds a fraction
  `num / den · 2^e` to one;
* `Real64` and `Real32` are the patterns of the double and the single format,
  with the arithmetic that the language and the machine need on each.
-/

namespace StackLang

/-- A binary floating point format: the number of significant bits, the leading
    one included, and the number of exponent bits. -/
structure Format where
  precision : Nat
  exponentBits : Nat
  deriving DecidableEq, Repr

/-- What a pattern stands for. -/
inductive Reading where
  /-- The number `m · 2^q`, negated if `neg`. -/
  | finite (neg : Bool) (m : Nat) (q : Int)
  | infinite (neg : Bool)
  | nan (neg : Bool)
  deriving DecidableEq, Repr

namespace Format

/-- The format of doubles. -/
def double : Format := ⟨53, 11⟩

/-- The format of singles. -/
def single : Format := ⟨24, 8⟩

variable (f : Format)

/-- The bits of the significand that a pattern stores. -/
def fractionBits : Nat := f.precision - 1

/-- The exponent of the unit in the last place of the least numbers. -/
def leastExponent : Int := 3 - (Nat.pow 2 (f.exponentBits - 1) : Int) - f.precision

/-- The pattern of the positive infinity. -/
def infinity : Nat := (Nat.pow 2 f.exponentBits - 1) * Nat.pow 2 f.fractionBits

/-- The weight of the sign bit. -/
def signWeight : Nat := Nat.pow 2 (f.exponentBits + f.fractionBits)

/-- The meaning of a pattern. -/
def decode (pattern : Nat) : Reading :=
  let neg := pattern / f.signWeight % 2 == 1
  let exponent := pattern / Nat.pow 2 f.fractionBits % Nat.pow 2 f.exponentBits
  let fraction := pattern % Nat.pow 2 f.fractionBits
  if exponent = Nat.pow 2 f.exponentBits - 1 then
    if fraction = 0 then .infinite neg else .nan neg
  else if exponent = 0 then
    .finite neg fraction f.leastExponent
  else
    .finite neg (Nat.pow 2 f.fractionBits + fraction) (f.leastExponent + exponent - 1)

end Format

/-- `num / den` rounded to the nearest natural number, a tie to the even one. -/
def roundHalfEven (num den : Nat) : Nat :=
  let whole := num / den
  let rest := num % den
  if 2 * rest < den then whole
  else if den < 2 * rest then whole + 1
  else if whole % 2 = 0 then whole else whole + 1

/-- The fraction `num / den · 2^e` as a pair of natural numbers. -/
def scaleByTwo (num den : Nat) (e : Int) : Nat × Nat :=
  if 0 ≤ e then (num * Nat.pow 2 e.toNat, den) else (num, den * Nat.pow 2 (-e).toNat)

namespace Format

variable (f : Format)

/-- The pattern nearest to `num / den · 2^e`, without its sign. The exponent of
    the last place is the one that leaves `precision` bits before the point, or
    the least one; a carry out of the significand moves into the exponent by
    itself, since the fields of a pattern are adjacent. -/
def roundMagnitude (num den : Nat) (e : Int) : Nat :=
  if num = 0 then 0 else
    let high : Int := (num.log2 : Int) - den.log2 + e - f.fractionBits
    let ratio := scaleByTwo num den (e - high)
    let place := if ratio.1 < ratio.2 * Nat.pow 2 f.fractionBits then high - 1 else high
    let last := max place f.leastExponent
    let scaled := scaleByTwo num den (e - last)
    let m := roundHalfEven scaled.1 scaled.2
    let pattern :=
      if m < Nat.pow 2 f.fractionBits then m
      else (last - f.leastExponent).toNat * Nat.pow 2 f.fractionBits + m
    min pattern f.infinity

/-- The pattern nearest to `± num / den · 2^e`; what lies beyond the largest
    number becomes infinite. -/
def round (neg : Bool) (num den : Nat) (e : Int) : Nat :=
  (if neg then f.signWeight else 0) + f.roundMagnitude num den e

end Format

/-- A magnitude with its sign. -/
def signed (neg : Bool) (m : Nat) : Int := if neg then -m else m

/-- The comparison of two numbers `m · 2^q`, `m` being signed. -/
def compareDyadic (m : Int) (q : Int) (n : Int) (r : Int) : Ordering :=
  if q ≤ r then compare m (n * Nat.pow 2 (r - q).toNat) else compare (m * Nat.pow 2 (q - r).toNat) n

/-- The comparison of two readings; none if one is not a number. -/
def Reading.compare : Reading → Reading → Option Ordering
  | .nan _, _ => none
  | _, .nan _ => none
  | .infinite a, .infinite b => some (if a == b then .eq else if a then .lt else .gt)
  | .infinite a, .finite .. => some (if a then .lt else .gt)
  | .finite .., .infinite b => some (if b then .gt else .lt)
  | .finite a m q, .finite b n r =>
    some (compareDyadic (signed a m) q (signed b n) r)

/-! ### Doubles -/

/-- A double, as its pattern. -/
structure Real64 where
  bits : UInt64
  deriving DecidableEq, Repr, Inhabited

namespace Real64

/-- What the double stands for. -/
def reading (x : Real64) : Reading := Format.double.decode x.bits.toNat

/-- The double nearest to `± num / den · 2^e`. -/
def ofFraction (neg : Bool) (num den : Nat) (e : Int) : Real64 :=
  ⟨(Format.double.round neg num den e).toUInt64⟩

/-- The double nearest to an integer, if one is near: not beyond the largest. -/
def ofInt? (n : Int) : Option Real64 :=
  let pattern := Format.double.round (n < 0) n.natAbs 1 0
  if pattern % Format.double.signWeight = Format.double.infinity then none
  else some ⟨pattern.toUInt64⟩

def isNaN (x : Real64) : Bool := match x.reading with | .nan _ => true | _ => false

def isInfinite (x : Real64) : Bool := match x.reading with | .infinite _ => true | _ => false

/-- Whether the value is zero, of either sign. -/
def isZero (x : Real64) : Bool := match x.reading with | .finite _ 0 _ => true | _ => false

/-- The positive and negative infinity and the quiet value that is no number. -/
def infinity (neg : Bool) : Real64 := ⟨if neg then 0xfff0000000000000 else 0x7ff0000000000000⟩

@[inherit_doc infinity]
def nan (neg : Bool) : Real64 := ⟨if neg then 0xfff8000000000000 else 0x7ff8000000000000⟩

/-- The integer part, rounding towards zero; none for what is not finite. -/
def truncate? (x : Real64) : Option Int :=
  match x.reading with
  | .finite neg m q =>
    some (signed neg (if 0 ≤ q then m * Nat.pow 2 q.toNat else m / Nat.pow 2 (-q).toNat))
  | _ => none

/-- The integer that the double equals, if it is one. -/
def whole? (x : Real64) : Option Int :=
  match x.reading with
  | .finite neg m q =>
    if 0 ≤ q then some (signed neg (m * Nat.pow 2 q.toNat))
    else if m % Nat.pow 2 (-q).toNat = 0 then some (signed neg (m / Nat.pow 2 (-q).toNat))
    else none
  | _ => none

/-- The order of two doubles; none if one is not a number. -/
def compare (x y : Real64) : Option Ordering := x.reading.compare y.reading

/-- The double as a fraction: sign, numerator and denominator. -/
def fraction? (x : Real64) : Option (Bool × Nat × Nat) :=
  match x.reading with
  | .finite neg m q => let p := scaleByTwo m 1 q; some (neg, p.1, p.2)
  | _ => none

end Real64

/-! ### Singles -/

/-- A single, as its pattern. -/
structure Real32 where
  bits : UInt32
  deriving DecidableEq, Repr, Inhabited

namespace Real32

/-- What the single stands for. -/
def reading (x : Real32) : Reading := Format.single.decode x.bits.toNat

/-- The single nearest to `± num / den · 2^e`. -/
def ofFraction (neg : Bool) (num den : Nat) (e : Int) : Real32 :=
  ⟨(Format.single.round neg num den e).toUInt32⟩

/-- The single nearest to an integer. -/
def ofInt (n : Int) : Real32 := ofFraction (n < 0) n.natAbs 1 0

/-- The value that invalid operations give: the quiet one with its sign set. -/
def invalid : Real32 := ⟨0xffc00000⟩

def infinity (neg : Bool) : Real32 := ⟨if neg then 0xff800000 else 0x7f800000⟩

def zero (neg : Bool) : Real32 := ⟨if neg then 0x80000000 else 0⟩

/-- The same value that is not a number, made quiet. -/
def quiet (x : Real32) : Real32 := ⟨x.bits ||| 0x00400000⟩

def neg (x : Real32) : Real32 := ⟨x.bits ^^^ 0x80000000⟩

/-- An operation on numbers, made total: a first operand that is not a number
    is the result, else a second one, each made quiet. -/
def propagate (x y : Real32) (op : Reading → Reading → Real32) : Real32 :=
  match x.reading, y.reading with
  | .nan _, _ => x.quiet
  | _, .nan _ => y.quiet
  | a, b => op a b

/-- The sum. An exact zero is positive unless both operands are negative. -/
def add (x y : Real32) : Real32 :=
  propagate x y fun
    | .infinite a, .infinite b => if a == b then infinity a else invalid
    | .infinite a, _ => infinity a
    | _, .infinite b => infinity b
    | .finite a m q, .finite b n r =>
      let low := min q r
      let i := signed a m * Nat.pow 2 (q - low).toNat
      let j := signed b n * Nat.pow 2 (r - low).toNat
      if i + j = 0 then zero (a && b) else ofFraction (i + j < 0) (i + j).natAbs 1 low
    | _, _ => invalid

/-- The difference. -/
def sub (x y : Real32) : Real32 :=
  match y.reading with
  | .nan _ => propagate x y fun _ _ => invalid
  | _ => add x y.neg

/-- The product. -/
def mul (x y : Real32) : Real32 :=
  propagate x y fun
    | .infinite a, .infinite b => infinity (a ^^ b)
    | .infinite a, .finite b n _ => if n = 0 then invalid else infinity (a ^^ b)
    | .finite a m _, .infinite b => if m = 0 then invalid else infinity (a ^^ b)
    | .finite a m q, .finite b n r => ofFraction (a ^^ b) (m * n) 1 (q + r)
    | _, _ => invalid

/-- The quotient. A number over zero is infinite, zero over zero invalid. -/
def div (x y : Real32) : Real32 :=
  propagate x y fun
    | .infinite _, .infinite _ => invalid
    | .infinite a, .finite b _ _ => infinity (a ^^ b)
    | .finite a _ _, .infinite b => zero (a ^^ b)
    | .finite a m q, .finite b n r =>
      if n = 0 then if m = 0 then invalid else infinity (a ^^ b)
      else ofFraction (a ^^ b) m n (q - r)
    | _, _ => invalid

/-- The largest whole number not above the single. Zeros and what is not finite
    stay as they are. -/
def floor (x : Real32) : Real32 :=
  match x.reading with
  | .finite neg m q =>
    if 0 ≤ q ∨ m = 0 then x
    else
      let d := Nat.pow 2 (-q).toNat
      let n := if neg then (m + d - 1) / d else m / d
      if n = 0 then zero neg else ofFraction neg n 1 0
  | .infinite _ => x
  | .nan _ => x.quiet

/-- The remainder `x - y · ⌊x / y⌋`, each operation rounded. -/
def modulo (x y : Real32) : Real32 := sub x (mul y (floor (div x y)))

/-- The order of two singles; none if one is not a number. -/
def compare (x y : Real32) : Option Ordering := x.reading.compare y.reading

/-- The word of the integer part, rounding towards zero; what has none in 32
    bits gives the word of the least integer. -/
def truncateWord (x : Real32) : UInt32 :=
  match x.reading with
  | .finite neg m q =>
    let n : Nat := if 0 ≤ q then m * Nat.pow 2 q.toNat else m / Nat.pow 2 (-q).toNat
    if n < 0x80000000 then (if neg then 0 - n.toUInt32 else n.toUInt32) else 0x80000000
  | _ => 0x80000000

/-- The single nearest to a double; a number beyond the largest one becomes
    infinite. -/
def ofReal64 (x : Real64) : Real32 :=
  match x.reading with
  | .finite neg m q => ofFraction neg m 1 q
  | .infinite neg => infinity neg
  | .nan neg =>
    let fraction := (x.bits.toNat / 0x20000000 % 0x400000).toUInt32
    ⟨(if neg then 0xffc00000 else 0x7fc00000) ||| fraction⟩

end Real32

end StackLang
