import StackLang.Numeric.Binary

/-!
# Decimal text of binary numbers

A positive number is written from its *decimal digits*: a digit string and the
place of its point. There are three ways to choose the digits, and all of them
are exact: the fewest that read back as the same double (`shortestDigits`), a
fixed number of significant ones (`roundedDigits`), and a fixed number of places
after the point (`fixedPoint`). How the digits are laid out is a `Layout`: when
the number is written positionally, and how a whole number ends.
-/

namespace StackLang

/-- Decimal digits: the number `0.d₁d₂… · 10^point`. -/
structure Digits where
  digits : String
  point : Int
  deriving DecidableEq, Repr

/-- The decimal text of a natural number. -/
def decimalText (n : Nat) : String := String.ofList (Nat.toDigits 10 n)

/-- The decimal text of an integer. -/
def signedText (n : Int) : String :=
  if n < 0 then "-" ++ decimalText n.natAbs else decimalText n.natAbs

/-- A text of `n` zeros. -/
def zeros (n : Nat) : String := String.ofList (List.replicate n '0')

/-- The digit string without the zeros at its end. -/
def trimZeros (s : String) : String :=
  String.ofList (s.toList.reverse.dropWhile (· == '0')).reverse

/-- The place of the point of the positive number `num / den`: the `p` with
    `10^(p-1) ≤ num / den < 10^p`. -/
def pointOf (num den : Nat) : Int :=
  if den ≤ num then (Nat.toDigits 10 (num / den)).length
  else 1 - ((Nat.toDigits 10 ((den - 1) / num)).length : Int)

/-- The fraction `num / den · 10^e` as a pair of natural numbers. -/
def scaleByTen (num den : Nat) (e : Int) : Nat × Nat :=
  if 0 ≤ e then (num * Nat.pow 10 e.toNat, den) else (num, den * Nat.pow 10 (-e).toNat)

/-- The first `n` significant digits of the positive number `num / den`, rounded
    to the nearest, a tie to the even digit. -/
def roundedDigits (n num den : Nat) : Digits :=
  let p := pointOf num den
  let scaled := scaleByTen num den (n - p)
  let c := roundHalfEven scaled.1 scaled.2
  if c = Nat.pow 10 n then ⟨decimalText (c / 10), p + 1⟩ else ⟨decimalText c, p⟩

/-- The interval of numbers that round to the double `m · 2^q`: over the common
    denominator, its lower end, the number, its upper end; the denominator; and
    whether the ends belong to it. The gap below a power of two is half as
    wide, except at the least exponent. -/
structure Neighbourhood where
  low : Nat
  mid : Nat
  high : Nat
  den : Nat
  closed : Bool

@[inherit_doc Neighbourhood]
def neighbourhood (m : Nat) (q : Int) : Neighbourhood :=
  let below :=
    if m = Nat.pow 2 Format.double.fractionBits ∧ Format.double.leastExponent < q then 1 else 2
  let up := Nat.pow 2 q.toNat
  { low := (4 * m - below) * up
    mid := 4 * m * up
    high := (4 * m + 2) * up
    den := 4 * Nat.pow 2 (-q).toNat
    closed := m % 2 == 0 }

/-- Whether the decimal `c · 10^s` lies in the interval. -/
def Neighbourhood.holds (v : Neighbourhood) (c : Nat) (s : Int) : Bool :=
  let d := scaleByTen c 1 s
  let x := d.1 * v.den
  let low := v.low * d.2
  let high := v.high * d.2
  if v.closed then low ≤ x && x ≤ high else low < x && x < high

/-- The decimal of `n` digits that reads back as the double, if there is one:
    of the two neighbours of the number on the grid of such decimals, the one
    in the interval, and of two the nearer, a tie to the even one. -/
def Neighbourhood.decimal? (v : Neighbourhood) (p : Int) (n : Nat) : Option Digits :=
  let s := p - n
  let scaled := scaleByTen v.mid v.den (-s)
  let c := scaled.1 / scaled.2
  let near := roundHalfEven scaled.1 scaled.2
  let far := if near = c then c + 1 else c
  let found := if v.holds near s then some near else if v.holds far s then some far else none
  found.map fun d =>
    if d = Nat.pow 10 n then ⟨"1", p + 1⟩ else ⟨trimZeros (decimalText d), p⟩

/-- The fewest digits that read back as the double `m · 2^q`, `m` positive. -/
def shortestDigits (m : Nat) (q : Int) : Digits :=
  let v := neighbourhood m q
  let p := pointOf v.mid v.den
  ((List.range 17).findSome? fun n => v.decimal? p (n + 1)).getD (roundedDigits 17 v.mid v.den)

/-- How digits are laid out. -/
structure Layout where
  /-- The least decimal exponent that is written positionally. -/
  positionalFrom : Int
  /-- The first decimal exponent that is not. -/
  positionalTo : Int
  /-- What stands after a whole number. -/
  wholeEnd : String

/-- A decimal exponent: its sign and two digits at least. -/
def exponentText (e : Int) : String :=
  let body := decimalText e.natAbs
  (if e < 0 then "e-" else "e+") ++ (if body.length < 2 then "0" ++ body else body)

/-- The text of a positive number, by its layout. -/
def Layout.text (l : Layout) (d : Digits) : String :=
  let n := d.digits.length
  if l.positionalFrom ≤ d.point - 1 ∧ d.point - 1 < l.positionalTo then
    if d.point ≤ 0 then "0." ++ zeros (-d.point).toNat ++ d.digits
    else if (n : Int) ≤ d.point then d.digits ++ zeros (d.point - n).toNat ++ l.wholeEnd
    else
      let k := d.point.toNat
      String.ofList (d.digits.toList.take k) ++ "." ++ String.ofList (d.digits.toList.drop k)
  else
    let mantissa := match d.digits.toList with
      | [] => "0"
      | [c] => String.ofList [c]
      | c :: rest => String.ofList (c :: '.' :: rest)
    mantissa ++ exponentText (d.point - 1)

/-- The layout of doubles: exponents from -4 to 15 positionally, and a whole
    number ends in `.0`. -/
def Real64.layout : Layout := ⟨-4, 16, ".0"⟩

/-- The text of a double: the fewest digits that read back. -/
def Real64.text (x : Real64) : String :=
  match x.reading with
  | .nan _ => "nan"
  | .infinite neg => if neg then "-inf" else "inf"
  | .finite neg m q =>
    (if neg then "-" else "") ++ (if m = 0 then "0.0" else Real64.layout.text (shortestDigits m q))

/-- The number `num / den` with `places` digits after the point, rounded to the
    nearest, a tie to the even digit. -/
def fixedPoint (places num den : Nat) : String :=
  let c := decimalText (roundHalfEven (num * Nat.pow 10 places) den)
  let padded := if c.length ≤ places then zeros (places + 1 - c.length) ++ c else c
  if places = 0 then padded
  else
    let k := padded.length - places
    String.ofList (padded.toList.take k) ++ "." ++ String.ofList (padded.toList.drop k)

/-- A double with `places` digits after the point. -/
def Real64.fixedText (places : Nat) (x : Real64) : String :=
  match x.reading with
  | .nan _ => "nan"
  | .infinite neg => if neg then "-inf" else "inf"
  | .finite neg m q =>
    let r := scaleByTwo m 1 q
    (if neg then "-" else "") ++ fixedPoint places r.1 r.2

/-- The double nearest to a double rounded to `places` decimal places. -/
def Real64.roundPlaces (places : Nat) (x : Real64) : Real64 :=
  match x.reading with
  | .finite neg m q =>
    let r := scaleByTwo m 1 q
    .ofFraction neg (roundHalfEven (r.1 * Nat.pow 10 places) r.2) (Nat.pow 10 places) 0
  | _ => x

/-- The layout of singles: exponents from -4 to 5 positionally, and a whole
    number ends plainly. -/
def Real32.layout : Layout := ⟨-4, 6, ""⟩

/-- The text of a single: six significant digits, without zeros at the end. -/
def Real32.text (x : Real32) : String :=
  match x.reading with
  | .nan neg => if neg then "-nan" else "nan"
  | .infinite neg => if neg then "-inf" else "inf"
  | .finite neg m q =>
    let r := scaleByTwo m 1 q
    let d := roundedDigits 6 r.1 r.2
    (if neg then "-" else "") ++
      (if m = 0 then "0" else Real32.layout.text ⟨trimZeros d.digits, d.point⟩)

end StackLang
