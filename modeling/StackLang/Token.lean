import StackLang.Fault

/-!
# Tokens

A *token* is a lexeme of a source text with its kind, the value it carries, the
line it is counted on and its offset. Kinds are closed: literals, names,
operators and punctuation, and one kind for each reserved word. The kind `point`
also takes every character that no other rule knows.
-/

namespace StackLang

/-- The kinds of tokens. -/
inductive Kind where
  | intLiteral | floatLiteral | stringLiteral | boolLiteral | identifier
  | plus | minus | multiply | divide | mod | pow
  | lparen | rparen | lbrace | rbrace | assign | semicolon | comma
  | eq | neq | lt | gt | le | ge
  | startList | endList | emptyArr | point | ret
  | ifWord | elseWord | elifWord | whileWord | forWord | returnWord | funcWord
  | tryWord | catchWord | throwWord | newWord | objectWord | extendsWord
  | intWord | byteWord | floatWord | boolWord | stringWord | trueWord | falseWord
  | andWord | orWord | notWord | arrayWord | structWord | continueWord | breakWord
  deriving DecidableEq, Repr, Inhabited

/-- The name of a kind, which is also the name of the type that a type word
    stands for. -/
def Kind.name : Kind → String
  | .intLiteral => "INT_LITERAL"
  | .floatLiteral => "FLOAT_LITERAL"
  | .stringLiteral => "STRING_LITERAL"
  | .boolLiteral => "BOOL_LITERAL"
  | .identifier => "IDENTIFIER"
  | .plus => "PLUS"
  | .minus => "MINUS"
  | .multiply => "MULTIPLY"
  | .divide => "DIVIDE"
  | .mod => "MOD"
  | .pow => "POW"
  | .lparen => "LPAREN"
  | .rparen => "RPAREN"
  | .lbrace => "LBRACE"
  | .rbrace => "RBRACE"
  | .assign => "ASSIGN"
  | .semicolon => "SEMICOLON"
  | .comma => "COMMA"
  | .eq => "EQ"
  | .neq => "NEQ"
  | .lt => "LT"
  | .gt => "GT"
  | .le => "LE"
  | .ge => "GE"
  | .startList => "START_LIST"
  | .endList => "END_LIST"
  | .emptyArr => "EMPTY_ARR"
  | .point => "POINT"
  | .ret => "RET"
  | .ifWord => "IF"
  | .elseWord => "ELSE"
  | .elifWord => "ELIF"
  | .whileWord => "WHILE"
  | .forWord => "FOR"
  | .returnWord => "RETURN"
  | .funcWord => "FUNC"
  | .tryWord => "TRY"
  | .catchWord => "CATCH"
  | .throwWord => "THROW"
  | .newWord => "NEW"
  | .objectWord => "OBJECT"
  | .extendsWord => "EXTENDS"
  | .intWord => "INT"
  | .byteWord => "BYTE"
  | .floatWord => "FLOAT"
  | .boolWord => "BOOL"
  | .stringWord => "STRING"
  | .trueWord => "TRUE"
  | .falseWord => "FALSE"
  | .andWord => "AND"
  | .orWord => "OR"
  | .notWord => "NOT"
  | .arrayWord => "ARRAY"
  | .structWord => "STRUCT"
  | .continueWord => "CONTINUE"
  | .breakWord => "BREAK"

/-- The reserved words. -/
def reservedWords : List (String × Kind) :=
  [("if", .ifWord), ("else", .elseWord), ("elif", .elifWord), ("while", .whileWord),
   ("for", .forWord), ("return", .returnWord), ("func", .funcWord), ("try", .tryWord),
   ("catch", .catchWord), ("throw", .throwWord), ("new", .newWord), ("object", .objectWord),
   ("extends", .extendsWord), ("int", .intWord), ("byte", .byteWord), ("float", .floatWord),
   ("bool", .boolWord), ("string", .stringWord), ("true", .trueWord), ("false", .falseWord),
   ("and", .andWord), ("or", .orWord), ("not", .notWord), ("Array", .arrayWord),
   ("struct", .structWord), ("continue", .continueWord), ("break", .breakWord)]

/-- The kind of a word: reserved, or a name. -/
def Kind.ofWord (w : String) : Kind := (reservedWords.lookup w).getD .identifier

/-- A lexeme with its place. -/
structure Token where
  kind : Kind
  value : Atom
  line : Nat
  offset : Nat
  deriving DecidableEq, Repr, Inhabited

/-- A token as it is listed: kind, value, line, offset. -/
def Token.shown (t : Token) : String :=
  "LexToken(" ++ t.kind.name ++ "," ++ t.value.quotedShown ++ "," ++ decimalText t.line ++ "," ++
    decimalText t.offset ++ ")"

/-- What a fault calls the token. -/
def Token.described (t : Token) : String :=
  match t.kind with
  | .intLiteral => "int literal"
  | .floatLiteral => "float literal"
  | .stringLiteral => "string literal"
  | .boolLiteral => "bool literal"
  | .plus => "plus symbol"
  | .minus => "minus symbol"
  | .multiply => "multiply symbol"
  | .divide => "divide symbol"
  | .mod => "mod symbol"
  | .pow => "pow symbol"
  | .lparen | .rparen | .lbrace | .rbrace | .assign | .startList | .endList | .emptyArr | .point
  | .ret => t.value.shown
  | .eq | .neq | .lt | .gt | .le | .ge => "logic operator"
  | k => k.name.toLower

end StackLang
