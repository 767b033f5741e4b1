import StackLang.Numeric.Decimal
import StackLang.Text.CharClass

/-!
# Numerals

How a text is read as a number. Decimal digits of every script count, by their
value. `readInt?` and `readReal?` read a whole text, with blanks around it and
single low lines between its digits; `digitsValue` and `realOfDigits` are the
values of digit strings that a scanner has already found.
-/

namespace StackLang

/-- The most digits an integer numeral can have. -/
def maxIntDigits : Nat := 4300

/-- The value of a string of decimal digits. -/
def digitsValue (cs : List Char) : Nat :=
  cs.foldl (fun n c => 10 * n + (decimalDigit? c).getD 0) 0

/-- The double nearest to `± digits · 10^e`. -/
def realOfDigits (neg : Bool) (digits : List Char) (e : Int) : Real64 :=
  let n := digitsValue digits
  let bound := digits.length + e.natAbs
  -- far beyond the range of doubles the power itself need not be computed
  if bound > 5000 ∧ e < -(digits.length : Int) - 400 then .ofFraction neg 0 1 0
  else if bound > 5000 ∧ e > 400 ∧ n ≠ 0 then .infinity neg
  else
    let r := scaleByTen n 1 e
    .ofFraction neg r.1 r.2 0

/-- A text without the blanks around it. -/
def trimBlanks (cs : List Char) : List Char :=
  ((cs.dropWhile isBlank).reverse.dropWhile isBlank).reverse

/-- An optional sign and the rest. -/
def splitSign : List Char → Bool × List Char
  | '-' :: r => (true, r)
  | '+' :: r => (false, r)
  | r => (false, r)

/-- The digits at the front of a text, single low lines between them left out,
    and the rest. A low line stays in the rest unless a digit is on both sides
    of it (`after` says that one has just been taken). -/
def takeGroups (after : Bool) : List Char → List Char × List Char
  | [] => ([], [])
  | c :: r =>
    if isDecimalDigit c then
      let p := takeGroups true r
      (c :: p.1, p.2)
    else if after && c == '_' && (r.head?.map isDecimalDigit).getD false then takeGroups false r
    else ([], c :: r)

@[inherit_doc takeGroups]
def takeDigits (cs : List Char) : List Char × List Char := takeGroups false cs

/-- Why a text is no integer. -/
inductive NumeralFault where
  | malformed
  | tooLong
  deriving DecidableEq, Repr

/-- The integer that a text denotes. -/
def readInt (s : String) : Except NumeralFault Int :=
  let p := splitSign (trimBlanks s.toList)
  let d := takeDigits p.2
  if d.1 = [] ∨ d.2 ≠ [] then .error .malformed
  else if d.1.length > maxIntDigits then .error .tooLong
  else .ok (signed p.1 (digitsValue d.1))

/-- The named numbers, in lower case. -/
def namedReal? (neg : Bool) (cs : List Char) : Option Real64 :=
  match String.ofList (cs.map Char.toLower) with
  | "inf" => some (.infinity neg)
  | "infinity" => some (.infinity neg)
  | "nan" => some (.nan neg)
  | _ => none

/-- The exponent part of a numeral; none if it is malformed. -/
def readExponent? : List Char → Option Int
  | [] => some 0
  | c :: r =>
    if c == 'e' || c == 'E' then
      let p := splitSign r
      let d := takeDigits p.2
      if d.1 = [] ∨ d.2 ≠ [] then none else some (signed p.1 (digitsValue d.1))
    else none

/-- The double that a text denotes. -/
def readReal? (s : String) : Option Real64 :=
  let p := splitSign (trimBlanks s.toList)
  (namedReal? p.1 p.2).orElse fun _ =>
    let whole := takeDigits p.2
    let parts : List Char × List Char := match whole.2 with
      | '.' :: r => takeDigits r
      | r => ([], r)
    if whole.1 = [] ∧ parts.1 = [] then none
    else (readExponent? parts.2).map fun e =>
      realOfDigits p.1 (whole.1 ++ parts.1) (e - parts.1.length)

end StackLang
