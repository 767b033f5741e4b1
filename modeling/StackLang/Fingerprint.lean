import StackLang.Digest
import StackLang.Numeric.Decimal
import StackLang.Text.Search

/-!
# Fingerprints

The values that a benchmark can return, their texts, and their fingerprints. A
fingerprint is the digest of a stream of bytes (`Value.stream`): scalars by their
text, texts behind a letter, lists behind a letter and their length. Entries of a
dictionary and elements of a set come in the order of their own fingerprints, one
level deeper, so that the order of insertion does not show. Values are followed to
a depth of eight.

`Bench.inspect` runs a benchmark twice, and once for each of its parameter sets,
and gathers the fingerprints.
-/

namespace StackLang

/-- A value that a benchmark can return. -/
inductive Value where
  | nothing
  | bool (b : Bool)
  | int (n : Int)
  | real (x : Real64)
  | text (s : String)
  | bytes (growable : Bool) (bs : List UInt8)
  | list (xs : List Value)
  | tuple (xs : List Value)
  | set (frozen : Bool) (xs : List Value)
  | dict (entries : List (Value × Value))
  /-- A value of another kind: the name of the kind, its plain text and the text
      that tells it apart. -/
  | other (kind shown told : String)
  /-- The parameter of a name. -/
  | param (name : String)
  deriving Inhabited

namespace Value

/-- Zero inside a number of lists. -/
def nest : Nat → Value
  | 0 => .int 0
  | n + 1 => .list [nest n]

/-- The name of a value's kind. -/
def kind : Value → String
  | .nothing => "NoneType"
  | .bool _ => "bool"
  | .int _ => "int"
  | .real _ => "float"
  | .text _ => "str"
  | .bytes growable _ => if growable then "bytearray" else "bytes"
  | .list _ => "list"
  | .tuple _ => "tuple"
  | .set frozen _ => if frozen then "frozenset" else "set"
  | .dict _ => "dict"
  | .other k _ _ => k
  | .param _ => "param"

/-- One byte of a quoted row of bytes. -/
def escapeByte (quote : Char) (b : UInt8) : List Char :=
  let c := Char.ofNat b.toNat
  if c == quote || c == '\\' then ['\\', c]
  else if c == '\n' then ['\\', 'n']
  else if c == '\r' then ['\\', 'r']
  else if c == '\t' then ['\\', 't']
  else if 32 ≤ b && b < 127 then [c]
  else '\\' :: 'x' :: hexDigits 2 b.toNat

/-- A row of bytes between quotes. -/
def quotedBytes (bs : List UInt8) : String :=
  let quote := if bs.contains 39 && !bs.contains 34 then '"' else '\''
  String.ofList ('b' :: quote :: (bs.flatMap (escapeByte quote) ++ [quote]))

mutual

/-- The text that tells a value apart. -/
def told : Value → String
  | .nothing => "None"
  | .bool b => if b then "True" else "False"
  | .int n => signedText n
  | .real x => x.text
  | .text s => quoted s
  | .bytes growable bs =>
    if growable then "bytearray(" ++ quotedBytes bs ++ ")" else quotedBytes bs
  | .list xs => "[" ++ String.intercalate ", " (toldAll xs) ++ "]"
  | .tuple [x] => "(" ++ told x ++ ",)"
  | .tuple xs => "(" ++ String.intercalate ", " (toldAll xs) ++ ")"
  | .set frozen xs =>
    let inner := if xs.isEmpty then "" else "\x7b" ++ String.intercalate ", " (toldAll xs) ++ "\x7d"
    if frozen then "frozenset(" ++ inner ++ ")" else if xs.isEmpty then "set()" else inner
  | .dict es => "\x7b" ++ String.intercalate ", " (toldEntries es) ++ "\x7d"
  | .other _ _ t => t
  | .param name => name

@[inherit_doc told]
def toldAll : List Value → List String
  | [] => []
  | x :: xs => told x :: toldAll xs

@[inherit_doc told]
def toldEntries : List (Value × Value) → List String
  | [] => []
  | (k, x) :: es => (told k ++ ": " ++ told x) :: toldEntries es

end

/-- The plain text of a value. -/
def shown : Value → String
  | .text s => s
  | .other _ s _ => s
  | v => v.told

/-! ### Values of other kinds -/

/-- A number padded with zeros to a width. -/
def padNumber (width n : Nat) : String := zeros (width - (decimalText n).length) ++ decimalText n

/-- The text of a part of a complex number: whole numbers end plainly. -/
def partText (x : Real64) : String :=
  let t := x.text
  if t.endsWith ".0" then String.ofList (t.toList.take (t.length - 2)) else t

/-- A complex number. -/
def complex (re im : Real64) : Value :=
  let t :=
    if re.bits = 0 then partText im ++ "j"
    else
      "(" ++ partText re ++ (if (partText im).startsWith "-" then "" else "+") ++ partText im ++ "j)"
  .other "complex" t t

/-- A fraction in lowest terms. -/
def fraction (num den : Int) : Value :=
  let g : Int := Int.gcd num den
  let sign : Int := if den < 0 then -1 else 1
  let n := sign * num / g
  let d := sign * den / g
  .other "Fraction" (if d = 1 then signedText n else signedText n ++ "/" ++ signedText d)
    ("Fraction(" ++ signedText n ++ ", " ++ signedText d ++ ")")

/-- A decimal number, by its text. -/
def decimal (s : String) : Value := .other "Decimal" s ("Decimal('" ++ s ++ "')")

/-- A day. -/
def date (y m d : Nat) : Value :=
  .other "date" (padNumber 4 y ++ "-" ++ padNumber 2 m ++ "-" ++ padNumber 2 d)
    ("datetime.date(" ++ decimalText y ++ ", " ++ decimalText m ++ ", " ++ decimalText d ++ ")")

/-- An identifier of 32 hexadecimal digits. -/
def uuid (hex : String) : Value :=
  let cs := (hex.toList.filter (· ≠ '-')).map Char.toLower
  let cut (i n : Nat) : String := String.ofList ((cs.drop i).take n)
  let t := cut 0 8 ++ "-" ++ cut 8 4 ++ "-" ++ cut 12 4 ++ "-" ++ cut 16 4 ++ "-" ++ cut 20 12
  .other "UUID" t ("UUID('" ++ t ++ "')")

/-- A path, without empty steps and steps that stay. -/
def path (s : String) : Value :=
  let steps := ((cutAt '/' s.toList).map String.ofList).filter fun p => p ≠ "" && p ≠ "."
  let body := String.intercalate "/" steps
  let t := if s.startsWith "/" then "/" ++ body else if body = "" then "." else body
  .other "PurePosixPath" t ("PurePosixPath(" ++ quoted t ++ ")")

/-- An object of which only the kind is known. -/
def blank : Value := .other "Opaque" "<bench.Opaque>" "<bench.Opaque>"

/-! ### Streams -/

/-- The bytes of a text. -/
def utf8 (s : String) : List UInt8 := s.toUTF8.toList

/-- The most elements of a list that are all taken. -/
def longList : Nat := 2000

/-- How deep values are followed. -/
def depthLimit : Nat := 8

/-- The bytes that a value is known by, followed for a number of levels. -/
def stream : (levels : Nat) → Value → List UInt8
  | 0, _ => utf8 "..."
  | levels + 1, v =>
    let fingerprint (x : Value) : String := Digest.sha256 (stream levels x)
    let sequence (xs : List Value) : List UInt8 :=
      utf8 ("L" ++ decimalText xs.length) ++
        if xs.length ≤ longList then xs.flatMap (stream levels)
        else
          (xs.take (longList / 2)).flatMap (stream levels) ++ utf8 "..." ++
            (xs.drop (xs.length - longList / 2)).flatMap (stream levels)
    match v with
    | .text s => utf8 ("s" ++ s)
    | .bytes _ bs => utf8 "b" ++ bs
    | .list xs => sequence xs
    | .tuple xs => sequence xs
    | .set _ xs =>
      utf8 ("S" ++ decimalText xs.length) ++
        ((xs.map fingerprint).mergeSort (fun a b => a ≤ b)).flatMap utf8
    | .dict es =>
      utf8 ("D" ++ decimalText es.length) ++
        (((es.map fun e => (fingerprint e.1, e)).mergeSort fun a b => a.1 ≤ b.1).flatMap fun e =>
          stream levels e.2.1 ++ stream levels e.2.2)
    | v => utf8 v.told

/-- The fingerprint of a value. -/
def fingerprint (v : Value) : String := Digest.sha256 (stream (depthLimit + 1) v)

end Value

/-! ### Benchmarks -/

/-- The parameters of a run, by name. -/
abbrev Params := List (String × Value)

/-- The text that a set of parameters is known by. -/
def Params.label (ps : Params) : String :=
  if ps.isEmpty then "-" else String.intercalate "," (ps.map fun p => p.1 ++ "=" ++ p.2.shown)

mutual

/-- A value with its parameters filled in; none if one is not given. -/
def Value.fill (ps : Params) : Value → Option Value
  | .param name => ps.lookup name
  | .list xs => (Value.fillAll ps xs).map .list
  | .tuple xs => (Value.fillAll ps xs).map .tuple
  | .set frozen xs => (Value.fillAll ps xs).map (.set frozen)
  | .dict es => (Value.fillEntries ps es).map .dict
  | v => some v

@[inherit_doc Value.fill]
def Value.fillAll (ps : Params) : List Value → Option (List Value)
  | [] => some []
  | x :: xs => do return (← Value.fill ps x) :: (← Value.fillAll ps xs)

@[inherit_doc Value.fill]
def Value.fillEntries (ps : Params) : List (Value × Value) → Option (List (Value × Value))
  | [] => some []
  | (k, x) :: es => do
    return (← Value.fill ps k, ← Value.fill ps x) :: (← Value.fillEntries ps es)

end

/-- What a benchmark does. -/
inductive Work where
  /-- It fails with an error of a kind. -/
  | fails (kind : String)
  | timesOut
  /-- It returns how often such a benchmark has run. -/
  | counts
  | gives (v : Value)
  deriving Inhabited

/-- A benchmark. -/
structure Bench where
  name : String
  params : List Params
  work : Work
  callable : Bool
  deriving Inhabited

/-- One run: its value, or what it stopped with; and the count after it. -/
def Work.run (w : Work) (ps : Params) (count : Nat) : Except String Value × Nat :=
  match w with
  | .fails kind => (.error kind, count)
  | .timesOut => (.error "timeout", count)
  | .counts => (.ok (.int (count + 1 : Nat)), count + 1)
  | .gives v =>
    match v.fill ps with
    | some v => (.ok v, count)
    | none => (.error "KeyError", count)

/-- What is known of a benchmark after its runs. -/
structure Inspection where
  /-- The kind of its value, or what it stopped with. -/
  kind : String
  /-- The fingerprints of two runs without parameters. -/
  stable : List String := []
  /-- The fingerprint for each set of parameters. -/
  byParams : List (String × String) := []
  /-- The fingerprints of the parameters themselves. -/
  ofParams : List String := []
  /-- The runs that were timed. -/
  timed : List String := []
  deriving Repr

/-- Set the entry of a name. -/
def putEntry (es : List (String × String)) (name value : String) : List (String × String) :=
  if es.any (·.1 == name) then es.map fun e => if e.1 == name then (name, value) else e
  else es ++ [(name, value)]

/-- The runs for sets of parameters, added to what is known. -/
def Bench.runParams (b : Bench) : List Params → Inspection → Nat → Inspection × Nat
  | [], r, count => (r, count)
  | ps :: rest, r, count =>
    match b.work.run ps count with
    | (.ok v, count) =>
      b.runParams rest
        { r with
          byParams := putEntry r.byParams ps.label v.fingerprint
          ofParams := r.ofParams ++ ps.map fun p => p.2.fingerprint
          timed := if r.timed.contains ps.label then r.timed else r.timed ++ [ps.label] } count
    | (.error _, count) => b.runParams rest r count

/-- Run a benchmark and gather its fingerprints. -/
def Bench.inspect (b : Bench) (count : Nat) : Inspection × Nat :=
  match b.work.run [] count with
  | (.error kind, count) => (⟨"<" ++ kind ++ ">", [], [], [], []⟩, count)
  | (.ok v, count) =>
    match b.work.run [] count with
    | (.error kind, count) => (⟨"<" ++ kind ++ ">", [], [], [], []⟩, count)
    | (.ok w, count) =>
      let r := b.runParams b.params
        ⟨v.kind, [v.fingerprint, w.fingerprint], [], [], ["<default>"]⟩ count
      ({ r.1 with timed := r.1.timed.mergeSort fun x y => x ≤ y }, r.2)

/-- Whether a name is that of a benchmark. -/
def isBenchName (name : String) : Bool := name.startsWith "bench_"

/-- Inspect benchmarks one after the other. -/
def inspectFrom (count : Nat) : List Bench → List (String × Inspection)
  | [] => []
  | b :: bs =>
    let r := b.inspect count
    (b.name, r.1) :: inspectFrom r.2 bs

/-- Inspect all benchmarks of a collection, in the order of their names. -/
def inspectAll (bs : List Bench) : List (String × Inspection) :=
  inspectFrom 0 <|
    (bs.filter fun b => b.callable && isBenchName b.name).mergeSort fun a b => a.name ≤ b.name

end StackLang
