import StackLang.Atom

/-!
# Faults

Why a compilation stops. A fault is a cause with what it needs to be told; the
wording is in one place, `Fault.message?`. Faults of structure and of typing
carry the line on which they were found.
-/

namespace StackLang

/-- A fault of structure: what was expected, and what was found instead. -/
inductive SyntaxCause where
  | unexpected (found : String)
  | blockStart (found : String)
  | closingParen (found : String)
  /-- An index that is not closed. -/
  | closingIndex (found : String)
  /-- The head of a conditional or a loop that does not begin. -/
  | headStart (found : String)
  | emptyArgument
  | assignment (found : String)
  /-- An assignment statement without its sign. -/
  | assignmentSign (found : String)
  | parameterStart (found : String)
  | fieldStart (found : String)
  | fieldName (found : String)
  | fieldEnd (found : String)
  | loopVariable (found : String)
  deriving DecidableEq, Repr

/-- The wording of a fault of structure. -/
def SyntaxCause.message : SyntaxCause → String
  | .unexpected f => "Unexpected '" ++ f ++ "' token found"
  | .blockStart f => "Expected a '\x7b' to start a block, but got '" ++ f ++ "' instead"
  | .closingParen f => "Expected a ')' to close the expression, but found '" ++ f ++ "' instead"
  | .closingIndex f => "Expected a ']' symbol, but found '" ++ f ++ "' instead"
  | .headStart f => "Expected a ']' symbol, but found '" ++ f ++ "' instead"
  | .emptyArgument =>
    "Unexpected ',' found. Expected a valid expression or operator before the comma"
  | .assignment f => "Expected an assignment operator '=', but got '" ++ f ++ "' instead"
  | .assignmentSign f => "Expected an assignment operator '=', but got '" ++ f ++ "' instead."
  | .parameterStart f => "Expected a '(' symbol, but found '" ++ f ++ "' instead"
  | .fieldStart f => "Expected a '(' symbol, but found '" ++ f ++ "' instead"
  | .fieldName f => "Expected an identifier, but found '" ++ f ++ "' instead"
  | .fieldEnd f => "Expected a semicolon ';', but found '" ++ f ++ "' instead"
  | .loopVariable f =>
    "Expected a variable identifier for the 'for' loop, but found '" ++ f ++ "' instead"

/-- A fault of typing. Types are atoms, since they are the names of types. -/
inductive TypingCause where
  | mismatch (given expected : Atom)
  | structDeclared (name : Atom)
  | nameDeclared (name : Atom)
  /-- An operand that is no primitive: the operator's verb, both types, and
      whether the second one is a primitive. -/
  | leftOperand (verb : String) (left right : Atom) (rightPrimitive : Bool)
  | rightOperand (verb : String) (left right : Atom)
  | textOperand (verb : String) (left right : Atom)
  | undefined (name : Atom)
  | element (given expected : Atom)
  | tooMany (expected given : Nat)
  | tooFew (expected given : Nat)
  | argument (function : Atom) (expected given : Atom)
  deriving DecidableEq, Repr

/-- The wording of a fault of typing. -/
def TypingCause.message : TypingCause → String
  | .mismatch g e =>
    "Type mismatch: Cannot assign a " ++ g.shown ++ " value to a " ++ e.shown ++ " variable"
  | .structDeclared n => "TypeError: Struct " ++ n.shown ++ " is already declared"
  | .nameDeclared n => "NameError: Variable " ++ n.shown ++ " is already declared"
  | .leftOperand v l r p =>
    "TypeError: Cannot " ++ v ++ " " ++ l.shown ++ " struct with " ++ r.shown ++ " " ++
      (if p then "type" else "struct")
  | .rightOperand v l r =>
    "TypeError: Cannot " ++ v ++ " " ++ l.shown ++ " type with " ++ r.shown ++ " struct"
  | .textOperand v l r =>
    "TypeError: Cannot " ++ v ++ " " ++ l.shown ++ " type with " ++ r.shown ++ " type"
  | .undefined n => "NameError: Undefined variable '" ++ n.shown ++ "'"
  | .element g e =>
    "Type mismatch: Cannot insert a value of type " ++ g.shown ++ " into a " ++ e.shown ++ " list"
  | .tooMany e g =>
    "TypeError: Too many arguments provided. Expected " ++ decimalText e ++ ", but got " ++
      decimalText g
  | .tooFew e g =>
    "TypeError: Too few arguments provided. Expected " ++ decimalText e ++ ", but got " ++
      decimalText g
  | .argument f e g =>
    "TypeError: Argument of '" ++ f.shown ++ "' function has an invalid type. Expected " ++
      e.shown ++ " value, but got " ++ g.shown ++ " value"

/-- Why a compilation stops. -/
inductive Fault where
  | grammar (cause : SyntaxCause) (line : Int)
  | typing (cause : TypingCause) (line : Int)
  /-- A token was asked for after the last one. -/
  | endOfTokens
  /-- A loop head that names a variable instead of declaring one. -/
  | loopOverName
  /-- An array type where only plain types can stand. -/
  | arrayElement
  /-- Something without a value or a type was asked for it. -/
  | valueless
  /-- A value of the wrong kind. -/
  | wrongKind
  /-- A text that is no number where one is needed, or a value that is not a
      number. -/
  | malformedNumber
  /-- A number beyond the range of the target. -/
  | outOfRange
  /-- An integer that does not fit the argument of an instruction. -/
  | wordRange
  | unknownKey (key : Atom)
  /-- A literal that has no conversion to the type. -/
  | notConvertible (expected given : Atom)
  /-- A node that no code can be generated for, by its group. -/
  | uncontrolled (group : String)
  | unfound (name : Atom)
  | noInput
  | noSuchFile (name : String)
  /-- A file that cannot be opened for the result. -/
  | unwritable
  /-- A path that is a folder. -/
  | isFolder
  /-- A parse was given too little fuel. -/
  | exhausted
  deriving DecidableEq, Repr

/-- The wording of a fault, for those that have one. -/
def Fault.message? : Fault → Option String
  | .grammar c line => some ("SyntaxError: " ++ c.message ++ " at line " ++ signedText line ++ ".")
  | .typing c line => some (c.message ++ " at line " ++ signedText line ++ ".")
  | .unknownKey k => some k.shown
  | .notConvertible e g => some ("Expected a " ++ e.shown ++ " but " ++ g.shown ++ " given")
  | .uncontrolled group => some group
  | .unfound n => some ("Unfound identifier '" ++ n.shown ++ "'")
  | .noInput => some "File to compile is needed"
  | .noSuchFile n => some ("No such file or directory: " ++ n)
  | _ => none

end StackLang
