import StackLang.Token

/-!
# Scanning

How a source text becomes tokens. At each position the first rule that finds
something wins, in this order: decimal numerals, integer numerals, quoted
strings, truth values, line comments, block comments, words, line breaks, and
then the operators, longest first. Blanks and tabs are passed over. A numeral
owns a minus sign in front of it.

Only line breaks found by their own rule advance the line: those inside a block
comment do not. The scanner walks the text character by character and carries
how many of them the last lexeme still covers, so it recurses on the text
itself; `Scan` is the tokens, the last line, and the fault that stopped it, if
one did.
-/

namespace StackLang

/-- What a rule finds at the front of a text. -/
inductive Found where
  /-- A token of this kind and value, so many characters long. -/
  | token (kind : Kind) (value : Atom) (length : Nat)
  /-- A comment, so many characters long. -/
  | comment (length : Nat)
  /-- So many line breaks. -/
  | breaks (count : Nat)
  /-- A numeral with too many digits. -/
  | overlong
  deriving DecidableEq, Repr

/-! ### The rules -/

/-- An optional minus sign and the digits after it. -/
def numeralHead : List Char → Bool × List Char × List Char
  | '-' :: r => (true, r.span isDecimalDigit)
  | r => (false, r.span isDecimalDigit)

/-- A numeral with digits on both sides of a point. -/
def findReal (cs : List Char) : Option Found :=
  match numeralHead cs with
  | (neg, whole, '.' :: rest) =>
    let places := rest.takeWhile isDecimalDigit
    if whole = [] ∨ places = [] then none
    else
      some (.token .floatLiteral (.real (realOfDigits neg (whole ++ places) (-places.length)))
        (neg.toNat + whole.length + 1 + places.length))
  | _ => none

/-- A numeral without a point. -/
def findInt (cs : List Char) : Option Found :=
  match numeralHead cs with
  | (neg, digits, _) =>
    if digits = [] then none
    else if digits.length > maxIntDigits then some .overlong
    else some (.token .intLiteral (.int (signed neg (digitsValue digits))) (neg.toNat + digits.length))

/-- The body of a quoted string, up to the first quote that no backslash
    precedes; none if a line break or the end comes first. -/
def stringBody? : List Char → Option (List Char)
  | [] => none
  | '"' :: _ => some []
  | '\n' :: _ => none
  | '\\' :: '\n' :: _ => none
  | '\\' :: c :: r => (stringBody? r).map fun body => '\\' :: c :: body
  | '\\' :: [] => none
  | c :: r => (stringBody? r).map (c :: ·)

/-- A quoted string. Its value is the body as it stands. -/
def findString : List Char → Option Found
  | '"' :: r =>
    (stringBody? r).map fun body =>
      .token .stringLiteral (.text (String.ofList body)) (body.length + 2)
  | _ => none

/-- Whether no word goes on after the text's front. -/
def wordEnds : List Char → Bool
  | [] => true
  | c :: _ => !isWordChar c

/-- A truth value, if no character of a word touches it on either side. -/
def findBool (before : Option Char) : List Char → Option Found
  | 't' :: 'r' :: 'u' :: 'e' :: r =>
    if !(before.map isWordChar).getD false && wordEnds r then
      some (.token .boolLiteral (.bool true) 4)
    else none
  | 'f' :: 'a' :: 'l' :: 's' :: 'e' :: r =>
    if !(before.map isWordChar).getD false && wordEnds r then
      some (.token .boolLiteral (.bool false) 5)
    else none
  | _ => none

/-- A comment up to the end of its line. -/
def findLineComment : List Char → Option Found
  | '/' :: '/' :: r => some (.comment (2 + (r.takeWhile (· != '\n')).length))
  | _ => none

/-- How many characters there are up to the end of a block comment. -/
def commentEnd? : List Char → Option Nat
  | [] => none
  | '*' :: '/' :: _ => some 2
  | _ :: r => (commentEnd? r).map (· + 1)

/-- A comment between its marks, over any number of lines. -/
def findBlockComment : List Char → Option Found
  | '/' :: '*' :: r => (commentEnd? r).map fun n => .comment (n + 2)
  | _ => none

/-- Whether the character can begin a word. -/
def isWordStart (c : Char) : Bool := c.isAlpha || c == '_'

/-- Whether the character can go on in a word of a source text. -/
def isWordRest (c : Char) : Bool := c.isAlphanum || c == '_'

/-- A reserved word or a name. -/
def findWord : List Char → Option Found
  | [] => none
  | c :: r =>
    if isWordStart c then
      let word := c :: r.takeWhile isWordRest
      let text := String.ofList word
      some (.token (.ofWord text) (.text text) word.length)
    else none

/-- A run of line breaks. -/
def findBreaks : List Char → Option Found
  | '\n' :: r => some (.breaks (1 + (r.takeWhile (· == '\n')).length))
  | _ => none

/-- The operators of two characters. -/
def pairOperator? : Char → Char → Option Kind
  | '[', ']' => some .emptyArr
  | '-', '>' => some .ret
  | '=', '=' => some .eq
  | '!', '=' => some .neq
  | '<', '=' => some .le
  | '>', '=' => some .ge
  | _, _ => none

/-- The operators of one character; any other character is a point. -/
def singleOperator : Char → Kind
  | '+' => .plus
  | '*' => .multiply
  | '%' => .mod
  | '^' => .pow
  | '(' => .lparen
  | ')' => .rparen
  | '[' => .startList
  | ']' => .endList
  | '\x7b' => .lbrace
  | '\x7d' => .rbrace
  | '-' => .minus
  | '/' => .divide
  | '=' => .assign
  | ';' => .semicolon
  | ',' => .comma
  | '<' => .lt
  | '>' => .gt
  | _ => .point

/-- An operator, the longer one first. -/
def findOperator : List Char → Option Found
  | [] => none
  | [c] => some (.token (singleOperator c) (.text (String.ofList [c])) 1)
  | c :: d :: _ =>
    match pairOperator? c d with
    | some k => some (.token k (.text (String.ofList [c, d])) 2)
    | none => some (.token (singleOperator c) (.text (String.ofList [c])) 1)

/-- What stands at the front of a text, by the first rule that finds something;
    `before` is the character in front of it. -/
def findFirst (before : Option Char) (cs : List Char) : Option Found :=
  (findReal cs).orElse fun _ =>
  (findInt cs).orElse fun _ =>
  (findString cs).orElse fun _ =>
  (findBool before cs).orElse fun _ =>
  (findLineComment cs).orElse fun _ =>
  (findBlockComment cs).orElse fun _ =>
  (findWord cs).orElse fun _ =>
  (findBreaks cs).orElse fun _ =>
  findOperator cs

/-! ### The scanner -/

/-- The tokens of a text, the line after it, and what stopped the scan. -/
structure Scan where
  tokens : List Token
  line : Nat
  fault : Option Fault
  deriving Repr

/-- Scan a text of which the last lexeme still covers the first `covered`
    characters. -/
def scanFrom (covered : Nat) (before : Option Char) (offset line : Nat) : List Char → Scan
  | [] => ⟨[], line, none⟩
  | c :: r =>
    match covered with
    | k + 1 => scanFrom k (some c) (offset + 1) line r
    | 0 =>
      if c == ' ' || c == '\t' then scanFrom 0 (some c) (offset + 1) line r
      else
        match findFirst before (c :: r) with
        | none => scanFrom 0 (some c) (offset + 1) line r
        | some .overlong => ⟨[], line, some .malformedNumber⟩
        | some (.comment n) => scanFrom (n - 1) (some c) (offset + 1) line r
        | some (.breaks n) => scanFrom (n - 1) (some c) (offset + 1) (line + n) r
        | some (.token kind value n) =>
          let rest := scanFrom (n - 1) (some c) (offset + 1) line r
          { rest with tokens := ⟨kind, value, line, offset⟩ :: rest.tokens }

/-- The tokens of a source text, whose first line is line 1. -/
def scan (source : String) : Scan := scanFrom 0 none 0 1 source.toList

/-- A text with every carriage return, and the line feed after it, replaced by a
    line feed, as source files are read. -/
def normalizeBreaks : List Char → List Char
  | [] => []
  | '\r' :: '\n' :: r => '\n' :: normalizeBreaks r
  | '\r' :: r => '\n' :: normalizeBreaks r
  | c :: r => c :: normalizeBreaks r

/-- The text of a source file. -/
def sourceText (file : String) : String := String.ofList (normalizeBreaks file.toList)

end StackLang
