import StackLang.Machine.Item

/-!
# Reading from the input

How the machine reads integers, reals and words from a stream of bytes. Blanks
before them are skipped. A reading takes as many bytes as can begin what it looks
for, and leaves the rest; if what it took is nothing of the sort, there is no
result.

* An integer is a sign and decimal digits; beyond 64 bits it is clamped, and the
  word is its lowest 32 bits (`takeInt`).
* A real is a sign and digits with a point and an exponent, in base ten or, after
  `0x`, in base sixteen with a binary exponent; or a name (`takeReal`).
* A word is everything up to the next blank, at most `wordLimit` bytes
  (`takeWord`).
-/

namespace StackLang

namespace Input

/-- Whether a byte is a blank. -/
def isBlankByte (b : UInt8) : Bool := b == 32 || (9 ≤ b && b ≤ 13)

/-- The input without the blanks at its front. -/
def skipBlanks (bs : List UInt8) : List UInt8 := bs.dropWhile isBlankByte

/-- Whether a byte is a decimal digit. -/
def isDigit (b : UInt8) : Bool := 48 ≤ b && b ≤ 57

/-- The byte of a letter, in lower case. -/
def lower (b : UInt8) : UInt8 := if 65 ≤ b && b ≤ 90 then b + 32 else b

/-- Whether a byte is a digit of base sixteen. -/
def isHexDigit (b : UInt8) : Bool := isDigit b || (97 ≤ lower b && lower b ≤ 102)

/-- The value of a digit. -/
def digitValue (b : UInt8) : Nat :=
  if isDigit b then b.toNat - 48 else (lower b).toNat - 87

/-- The value of digits in a base. -/
def digitsIn (base : Nat) (bs : List UInt8) : Nat :=
  bs.foldl (fun n b => base * n + digitValue b) 0

/-- A sign, if there is one, and the rest. -/
def takeSign : List UInt8 → Bool × List UInt8
  | b :: r => if b = 45 then (true, r) else if b = 43 then (false, r) else (false, b :: r)
  | [] => (false, [])

/-- An integer as a word. -/
def takeInt (bs : List UInt8) : Option UInt32 × List UInt8 :=
  let p := takeSign (skipBlanks bs)
  let digits := p.2.takeWhile isDigit
  let rest := p.2.dropWhile isDigit
  if digits = [] then (none, rest)
  else
    let n := digitsIn 10 digits
    let value := if p.1 then max (-(n : Int)) (-0x8000000000000000)
      else min (n : Int) 0x7fffffffffffffff
    (some (intWord value), rest)

/-- The most bytes of a word. -/
def wordLimit : Nat := 2047

/-- The bytes up to the next blank. -/
def takeWord (bs : List UInt8) : List UInt8 × List UInt8 :=
  let bs := skipBlanks bs
  let word := (bs.takeWhile fun b => !isBlankByte b).take wordLimit
  (word, bs.drop word.length)

/-- Digits, a point and digits behind it: the digits before and behind, and the
    rest. -/
def takeMantissa (digit : UInt8 → Bool) (bs : List UInt8) :
    List UInt8 × List UInt8 × List UInt8 :=
  let whole := bs.takeWhile digit
  match bs.dropWhile digit with
  | 46 :: r => (whole, r.takeWhile digit, r.dropWhile digit)
  | r => (whole, [], r)

/-- An exponent behind a given letter, and the rest. -/
def takeExponent (letter : UInt8) : List UInt8 → Int × List UInt8
  | b :: r =>
    if lower b = letter then
      let p := takeSign r
      (signed p.1 (digitsIn 10 (p.2.takeWhile isDigit)), p.2.dropWhile isDigit)
    else (0, b :: r)
  | [] => (0, [])

/-- The single nearest to `± digits · 10^e`. -/
def decimalSingle (neg : Bool) (digits : List UInt8) (e : Int) : Real32 :=
  let n := digitsIn 10 digits
  -- far beyond the range of singles the power itself need not be computed
  if n = 0 ∨ e < -(digits.length : Int) - 100 then .ofFraction neg 0 1 0
  else if e > 100 then .infinity neg
  else
    let r := scaleByTen n 1 e
    .ofFraction neg r.1 r.2 0

/-- The single nearest to `± digits · 2^e`, the digits in base sixteen. -/
def binarySingle (neg : Bool) (digits : List UInt8) (e : Int) : Real32 :=
  let n := digitsIn 16 digits
  if n = 0 ∨ e < -4 * (digits.length : Int) - 300 then .ofFraction neg 0 1 0
  else if e > 300 then .infinity neg
  else .ofFraction neg n 1 e

/-- The digits of a real, its sign already read. -/
def takeDigitsReal (neg : Bool) (bs : List UInt8) : Option Real32 × List UInt8 :=
  let base (digit : UInt8 → Bool) (letter : UInt8) (bs : List UInt8)
      (value : List UInt8 → Int → Nat → Real32) : Option Real32 × List UInt8 :=
    let (whole, part, rest) := takeMantissa digit bs
    if whole = [] ∧ part = [] then (none, rest)
    else
      let (e, rest) := takeExponent letter rest
      (some (value (whole ++ part) e part.length), rest)
  match bs with
  | 48 :: b :: r =>
    if lower b = 120 then base isHexDigit 112 r fun ds e k => binarySingle neg ds (e - 4 * k)
    else base isDigit 101 bs fun ds e k => decimalSingle neg ds (e - k)
  | bs => base isDigit 101 bs fun ds e k => decimalSingle neg ds (e - k)

/-- What follows a name, if the input begins with it in any case. -/
def afterName? : List UInt8 → List UInt8 → Option (List UInt8)
  | [], bs => some bs
  | _ :: _, [] => none
  | n :: ns, b :: bs => if lower b = n then afterName? ns bs else none

/-- A real. -/
def takeReal (bs : List UInt8) : Option Real32 × List UInt8 :=
  let (neg, bs) := takeSign (skipBlanks bs)
  match afterName? (textBytes "nan") bs with
  | some rest => (some ⟨if neg then 0xffc00000 else 0x7fc00000⟩, rest)
  | none =>
    match afterName? (textBytes "inf") bs with
    | some rest =>
      (some (.infinity neg), (afterName? (textBytes "inity") rest).getD rest)
    | none => takeDigitsReal neg bs

end Input

end StackLang
