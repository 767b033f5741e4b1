import StackLang.Text.Numeral
import StackLang.Text.Quoted

/-!
# JSON documents

JSON values in which objects keep the order of their members, with a writer and
a reader. The writer puts a blank after each comma and colon and escapes all
that is not ASCII. The reader takes the integers as integers and all other
numbers as doubles; of two members of one name the later value counts, in the
place of the first. Reading goes by *fuel*, one unit for each nested value, of
which the length of the text is always enough.
-/

namespace StackLang

/-- A JSON value. -/
inductive Json where
  | null
  | bool (b : Bool)
  | int (n : Int)
  | real (x : Real64)
  | text (s : String)
  | list (xs : List Json)
  | object (members : List (String × Json))
  deriving Repr, Inhabited

namespace Json

/-- The value of a member. -/
def get? (name : String) : Json → Option Json
  | .object ms => ms.lookup name
  | _ => none

/-! ### Writing -/

/-- One character between quotes, in ASCII. -/
def escape (c : Char) : List Char :=
  if c == '"' || c == '\\' then ['\\', c]
  else if c == '\n' then ['\\', 'n']
  else if c == '\r' then ['\\', 'r']
  else if c == '\t' then ['\\', 't']
  else if c.toNat == 8 then ['\\', 'b']
  else if c.toNat == 12 then ['\\', 'f']
  else if 32 ≤ c.toNat && c.toNat < 127 then [c]
  else if c.toNat < 0x10000 then '\\' :: 'u' :: hexDigits 4 c.toNat
  else
    let v := c.toNat - 0x10000
    '\\' :: 'u' :: hexDigits 4 (0xd800 + v / 1024) ++
      '\\' :: 'u' :: hexDigits 4 (0xdc00 + v % 1024)

/-- A text between quotes. -/
def quote (s : String) : String :=
  String.ofList ('"' :: (s.toList.flatMap escape ++ ['"']))

/-- A double as a JSON number, or the name of what is none. -/
def realText (x : Real64) : String :=
  match x.reading with
  | .nan _ => "NaN"
  | .infinite neg => if neg then "-Infinity" else "Infinity"
  | .finite .. => x.text

mutual

/-- The text of a value. -/
def write : Json → String
  | .null => "null"
  | .bool b => if b then "true" else "false"
  | .int n => signedText n
  | .real x => realText x
  | .text s => quote s
  | .list [] => "[]"
  | .list (x :: xs) => "[" ++ write x ++ writeRest xs ++ "]"
  | .object [] => "\x7b\x7d"
  | .object ((k, x) :: ms) => "\x7b" ++ quote k ++ ": " ++ write x ++ writeMembers ms ++ "\x7d"

/-- The elements after the first. -/
def writeRest : List Json → String
  | [] => ""
  | x :: xs => ", " ++ write x ++ writeRest xs

/-- The members after the first. -/
def writeMembers : List (String × Json) → String
  | [] => ""
  | (k, x) :: ms => ", " ++ quote k ++ ": " ++ write x ++ writeMembers ms

end

/-! ### Reading -/

/-- Whether the character can stand between the parts of a document. -/
def isGap (c : Char) : Bool := c == ' ' || c == '\t' || c == '\n' || c == '\r'

/-- The text after the gap at its front. -/
def skipGap (cs : List Char) : List Char := cs.dropWhile isGap

/-- The value of a hexadecimal digit. -/
def hexValue? (c : Char) : Option Nat :=
  if '0' ≤ c ∧ c ≤ '9' then some (c.toNat - 48)
  else if 'a' ≤ c ∧ c ≤ 'f' then some (c.toNat - 87)
  else if 'A' ≤ c ∧ c ≤ 'F' then some (c.toNat - 55)
  else none

/-- The unit of four hexadecimal digits. -/
def unit? (a b c d : Char) : Option Nat := do
  let a ← hexValue? a
  let b ← hexValue? b
  let c ← hexValue? c
  let d ← hexValue? d
  some (((a * 16 + b) * 16 + c) * 16 + d)

/-- The character of an escape by one letter. -/
def letterEscape? : Char → Option Char
  | '"' => some '"'
  | '\\' => some '\\'
  | '/' => some '/'
  | 'b' => some (Char.ofNat 8)
  | 'f' => some (Char.ofNat 12)
  | 'n' => some '\n'
  | 'r' => some '\r'
  | 't' => some '\t'
  | _ => none

/-- The rest of a quoted text after its first quote: its units, and what follows
    the last quote. -/
def readUnits : List Char → Option (List Nat × List Char)
  | [] => none
  | '"' :: r => some ([], r)
  | '\\' :: 'u' :: a :: b :: c :: d :: r => do
    let v ← unit? a b c d
    let (us, r) ← readUnits r
    some (v :: us, r)
  | '\\' :: c :: r => do
    let c ← letterEscape? c
    let (us, r) ← readUnits r
    some (c.toNat :: us, r)
  | c :: r =>
    if c.toNat < 32 then none
    else do
      let (us, r) ← readUnits r
      some (c.toNat :: us, r)

/-- The text of a list of units: a pair of surrogates is one character. -/
def joinUnits : List Nat → List Char
  | [] => []
  | [v] => [Char.ofNat v]
  | v :: w :: r =>
    if 0xd800 ≤ v ∧ v ≤ 0xdbff ∧ 0xdc00 ≤ w ∧ w ≤ 0xdfff then
      Char.ofNat (0x10000 + (v - 0xd800) * 1024 + (w - 0xdc00)) :: joinUnits r
    else Char.ofNat v :: joinUnits (w :: r)

/-- The rest of a quoted text after its first quote, and what follows it. -/
def readQuoted (cs : List Char) : Option (String × List Char) :=
  (readUnits cs).map fun p => (String.ofList (joinUnits p.1), p.2)

/-- Whether the character is one of the ten digits. -/
def isDigit (c : Char) : Bool := '0' ≤ c && c ≤ '9'

/-- The digits of an integer part: a zero alone, or digits that start with
    another one. -/
def wholeDigits (cs : List Char) : List Char × List Char :=
  match cs with
  | '0' :: r => (['0'], r)
  | _ => cs.span isDigit

/-- The digits after a point, if there are a point and digits. -/
def placeDigits (cs : List Char) : List Char × List Char :=
  match cs with
  | '.' :: r =>
    match r.span isDigit with
    | ([], _) => ([], cs)
    | p => p
  | _ => ([], cs)

/-- The exponent, if there is one. -/
def exponent? (cs : List Char) : Option (Int × List Char) :=
  match cs with
  | c :: r =>
    if c == 'e' || c == 'E' then
      let p := splitSign r
      match p.2.span isDigit with
      | ([], _) => none
      | (ds, rest) => some (signed p.1 (digitsValue ds), rest)
    else none
  | [] => none

/-- A number and the rest. -/
def readNumber (cs : List Char) : Option (Json × List Char) :=
  let p : Bool × List Char := match cs with
    | '-' :: r => (true, r)
    | _ => (false, cs)
  match wholeDigits p.2 with
  | ([], _) => none
  | (whole, r) =>
    let places := placeDigits r
    match places.1, exponent? places.2 with
    | [], none =>
      if whole.length > maxIntDigits then none
      else some (.int (signed p.1 (digitsValue whole)), places.2)
    | ps, none => some (.real (realOfDigits p.1 (whole ++ ps) (-ps.length)), places.2)
    | ps, some (e, rest) => some (.real (realOfDigits p.1 (whole ++ ps) (e - ps.length)), rest)

/-- The members with one set: in its place if it was there, else at the end. -/
def putMember (ms : List (String × Json)) (k : String) (x : Json) : List (String × Json) :=
  match ms with
  | [] => [(k, x)]
  | m :: r => if m.1 == k then (k, x) :: r else m :: putMember r k x

mutual

/-- A value at the front of a text, and the rest. -/
def readValue : (fuel : Nat) → List Char → Option (Json × List Char)
  | 0, _ => none
  | n + 1, cs =>
    match cs with
    | '"' :: r => (readQuoted r).map fun p => (.text p.1, p.2)
    | '[' :: r =>
      match skipGap r with
      | ']' :: r => some (.list [], r)
      | r => (readElements n r).map fun p => (.list p.1, p.2)
    | '\x7b' :: r =>
      match skipGap r with
      | '\x7d' :: r => some (.object [], r)
      | r => (readMembers n [] r).map fun p => (.object p.1, p.2)
    | 'n' :: 'u' :: 'l' :: 'l' :: r => some (.null, r)
    | 't' :: 'r' :: 'u' :: 'e' :: r => some (.bool true, r)
    | 'f' :: 'a' :: 'l' :: 's' :: 'e' :: r => some (.bool false, r)
    | 'N' :: 'a' :: 'N' :: r => some (.real (.nan false), r)
    | 'I' :: 'n' :: 'f' :: 'i' :: 'n' :: 'i' :: 't' :: 'y' :: r => some (.real (.infinity false), r)
    | '-' :: 'I' :: 'n' :: 'f' :: 'i' :: 'n' :: 'i' :: 't' :: 'y' :: r =>
      some (.real (.infinity true), r)
    | _ => readNumber cs

/-- The elements of a list, one at least, and what follows its end. -/
def readElements : (fuel : Nat) → List Char → Option (List Json × List Char)
  | 0, _ => none
  | n + 1, cs => do
    let (x, r) ← readValue n cs
    match skipGap r with
    | ']' :: r => some ([x], r)
    | ',' :: r =>
      let (xs, r) ← readElements n (skipGap r)
      some (x :: xs, r)
    | _ => none

/-- The members of an object after those read so far, one at least, and what
    follows its end. -/
def readMembers : (fuel : Nat) → List (String × Json) → List Char →
    Option (List (String × Json) × List Char)
  | 0, _, _ => none
  | n + 1, ms, cs =>
    match cs with
    | '"' :: r => do
      let (k, r) ← readQuoted r
      match skipGap r with
      | ':' :: r =>
        let (x, r) ← readValue n (skipGap r)
        let ms := putMember ms k x
        match skipGap r with
        | '\x7d' :: r => some (ms, r)
        | ',' :: r => readMembers n ms (skipGap r)
        | _ => none
      | _ => none
    | _ => none

end

/-- The value that a text writes, if it writes one. -/
def read? (s : String) : Option Json :=
  let cs := s.toList
  match readValue (2 * cs.length + 2) (skipGap cs) with
  | some (x, r) => if skipGap r = [] then some x else none
  | none => none

end Json

end StackLang
