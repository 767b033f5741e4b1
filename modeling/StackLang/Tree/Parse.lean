import StackLang.Token.Scan
import StackLang.Tree.Rename
import StackLang.Typing

/-!
# Parsing

How tokens become a tree. The parser looks one token ahead and checks names and
types as it goes, so its state is the tokens that are left and a `Scope`. Many
closing tokens are passed over without a look at them; asking for a token after
the last one is a fault.

Every function of the grammar takes *fuel*, one unit for each nested call. A
call reads a token or goes one level down in the grammar, of which there are
fewer than sixteen, so `fuelFor` is enough for any list of tokens.

* `statement` and `block` read statements; a block without a name opens a
  context of its own;
* `expression` reads an operator `not` and what it negates, or operators by
  their groups, the weakest first, each group from left to right;
* `parse` reads a whole program.
-/

namespace StackLang

/-- What a parser has left: the tokens, the fault that the scan ended in, and
    what is known about names. -/
structure ParseState where
  tokens : List Token
  fault : Option Fault
  scope : Scope

/-- A parser: it takes tokens and gives a result, or stops with a fault. -/
abbrev Parse := StateT ParseState (Except Fault)

namespace Parse

/-! ### Tokens -/

/-- The current token. -/
def current : Parse Token := do
  match (← get).tokens with
  | t :: _ => pure t
  | [] => throw .endOfTokens

/-- The current token, if there is one. -/
def current? : Parse (Option Token) := do return (← get).tokens.head?

/-- Go on to the next token. A scan that ended in a fault ends here. -/
def advance : Parse Unit := do
  let s ← get
  match s.tokens.tail, s.fault with
  | [], some f => throw f
  | rest, _ => set { s with tokens := rest }

/-- The kind of the current token. -/
def kind : Parse Kind := do return (← current).kind

/-- Stop with a fault of structure at the current token, which the fault may
    describe. -/
def reject {α : Type} (cause : String → SyntaxCause) : Parse α := do
  let t ← current
  throw (.grammar (cause t.described) t.line)

/-! ### Names -/

/-- What is known about names. -/
def scope : Parse Scope := do return (← get).scope

/-- Change what is known about names. -/
def modifyScope (f : Scope → Scope) : Parse Unit := modify fun s => { s with scope := f s.scope }

/-- Change what is known about names, or stop. -/
def tryScope (f : Scope → Except Fault Scope) : Parse Unit := do
  let s ← get
  set { s with scope := (← f s.scope) }

/-- Ask what is known about names, or stop. -/
def ask {α : Type} (f : Scope → Except Fault α) : Parse α := do f (← scope)

/-- Report the faults of typing that follow on the line of the current token. -/
def markLine : Parse Unit := do
  let t ← current
  modifyScope fun s => { s with line := t.line }

/-- Whether the current token begins a declaration: its kind or its value names
    a type. -/
def atType : Parse Bool := do
  let t ← current
  let s ← scope
  return s.isType (.text t.kind.name) || s.isType t.value

/-- The name of the type that the current token stands for. -/
def typeName : Parse String := do
  let t ← current
  match t.kind with
  | .identifier => return t.value.shown
  | .emptyArr => return "[]"
  | k => return k.name

/-- The groups of operators, the weakest first. -/
def groups : List (List Kind) :=
  [[.andWord, .orWord], [.eq, .neq, .lt, .gt, .le, .ge], [.plus, .minus],
   [.multiply, .divide, .mod], [.pow]]

/-- Whether the current token is an operator of the group. -/
def atOperator (group : Nat) : Parse Bool := do
  match ← current? with
  | some t => return (groups.getD group []).contains t.kind
  | none => return false

/-- Whether a literal stands for itself. -/
def isLiteralKind : Kind → Bool
  | .intLiteral | .floatLiteral | .stringLiteral | .boolLiteral => true
  | _ => false

/-! ### The grammar -/

/-- Pairs of brackets after a type. -/
def bracketPairs : (fuel : Nat) → String → Parse String
  | 0, _ => throw .exhausted
  | n + 1, type => do
    if (← kind) = .emptyArr then
      advance
      bracketPairs n (type ++ "[]")
    else return type

/-- The parameters of a function, up to the closing parenthesis. -/
def parameters : (fuel : Nat) → Parse (List Parameter)
  | 0 => throw .exhausted
  | n + 1 => do
    if (← kind) = .rparen then return []
    advance
    let type ← typeName
    advance
    if (← kind) = .emptyArr then
      advance
      throw .arrayElement
    let name := (← current).value
    advance
    return ⟨type, name⟩ :: (← parameters n)

/-- The fields of a record, up to the closing brace. -/
def fields : (fuel : Nat) → Parse (List Parameter)
  | 0 => throw .exhausted
  | n + 1 => do
    if (← kind) = .rbrace then return []
    let t ← current
    let type := if t.kind = .identifier then t.value.shown else t.kind.name
    advance
    if (← kind) = .emptyArr then
      advance
      throw .arrayElement
    if (← kind) ≠ .identifier then reject .fieldName
    let name := (← current).value
    advance
    if (← kind) ≠ .semicolon then reject .fieldEnd
    advance
    return ⟨type, name⟩ :: (← fields n)

mutual

/-- An expression. -/
def expression : (fuel : Nat) → Parse Node
  | 0 => throw .exhausted
  | n + 1 => do
    match ← current? with
    | some ⟨.notWord, op, _, _⟩ =>
      advance
      let operand ← operators n 0
      return .binary op.shown operand none
    | _ => operators n 0

/-- The operators of a group and of the stronger ones. -/
def operators : (fuel : Nat) → (group : Nat) → Parse Node
  | 0, _ => throw .exhausted
  | n + 1, group => do
    if group = groups.length then unary n
    else
      let first ← operators n (group + 1)
      operatorsAfter n group first

/-- The operators of a group after its first operand. -/
def operatorsAfter : (fuel : Nat) → (group : Nat) → Node → Parse Node
  | 0, _, _ => throw .exhausted
  | n + 1, group, first => do
    if ← atOperator group then
      let op := (← current).value
      advance
      let second ← operators n (group + 1)
      operatorsAfter n group (.binary op.shown first (some second))
    else return first

/-- An expression without operators outside of parentheses. -/
def unary : (fuel : Nat) → Parse Node
  | 0 => throw .exhausted
  | n + 1 => do
    if (← kind) = .emptyArr then
      advance
      return .listLiteral "[]" []
    markLine
    match ← kind with
    | .startList =>
      let xs ← items n
      advance
      let type ← ask (·.listType xs)
      return .listLiteral type.shown xs
    | .lparen =>
      advance
      let x ← operators n 0
      if (← current?).map Token.kind ≠ some .rparen then reject .closingParen
      advance
      return x
    | .newWord =>
      advance
      let record := (← current).value
      advance
      let xs ← arguments n
      advance
      return .create record xs
    | k =>
      let t ← current
      advance
      if isLiteralKind k then return .literal k.name t.value
      match ← kind with
      | .lparen => call n t.value .system
      | .point =>
        advance
        let selector := (← current).value
        advance
        if (← kind) ≠ .lparen then return .member (.atom t.value) (.atom selector) false
        call n selector (.atom t.value)
      | _ =>
        markLine
        let _ ← ask (·.typeOfName t.value)
        if (← kind) = .startList then
          let x ← firstIndex n
          indices n (.member (.atom t.value) (.node x) true)
        else return .literal "VARIABLE" t.value

/-- The items of a list, up to the closing bracket. -/
def items : (fuel : Nat) → Parse (List Node)
  | 0 => throw .exhausted
  | n + 1 => do
    if (← kind) = .endList then return []
    advance
    let x ← expression n
    return x :: (← items n)

/-- The first index after a name, which has to be closed. -/
def firstIndex : (fuel : Nat) → Parse Node
  | 0 => throw .exhausted
  | n + 1 => do
    advance
    let x ← expression n
    if (← kind) ≠ .endList then reject .closingIndex
    advance
    return x

/-- Further indices; the token after each is passed over. -/
def indices : (fuel : Nat) → Node → Parse Node
  | 0, _ => throw .exhausted
  | n + 1, object => do
    if (← kind) = .startList then
      advance
      let x ← expression n
      advance
      indices n (.member (.node object) (.node x) true)
    else return object

/-- The arguments of a call, up to the closing parenthesis. -/
def arguments : (fuel : Nat) → Parse (List Node)
  | 0 => throw .exhausted
  | n + 1 => do
    if (← kind) = .rparen then return []
    advance
    match ← kind with
    | .rparen => return []
    | .comma => reject fun _ => .emptyArgument
    | _ =>
      let x ← expression n
      return x :: (← arguments n)

/-- A call of the function on a receiver, and the calls on its result. -/
def call : (fuel : Nat) → (function : Atom) → (receiver : Operand) → Parse Node
  | 0, _, _ => throw .exhausted
  | n + 1, function, receiver => do
    markLine
    let xs ← arguments n
    advance
    let xs ← ask (·.checkCall function xs)
    let result := Node.call function.shown xs receiver
    if (← kind) = .point then
      advance
      let next := (← current).value
      advance
      call n next (.node result)
    else return result

end

/-- A declaration of a variable. -/
def declaration (n : Nat) : Parse Node := do
  let type ← typeName
  markLine
  advance
  let type ← bracketPairs n type
  let name := (← current).value
  advance
  tryScope (·.declare name type)
  match ← kind with
  | .semicolon =>
    advance
    return .declare name type none
  | .assign =>
    advance
    let value ← expression n
    advance
    let value ← ask (·.checkAssignment (.atom name) (some value))
    return .declare name type value
  | _ => reject .assignment

/-- A declaration of a record. -/
def recordDeclaration (n : Nat) : Parse Node := do
  advance
  let name := (← current).value
  advance
  if (← kind) ≠ .lbrace then reject .fieldStart
  advance
  markLine
  let fs ← fields n
  advance
  tryScope (·.declareRecord name (fs.map fun p => (p.name, p.type)))
  return .record name fs

/-- The value of an assignment and its end. -/
def assigned (n : Nat) (target : Operand) : Parse Node := do
  advance
  let value ← expression n
  advance
  let value ← ask (·.checkAssignment target (some value))
  return .assign target (value.getD .plain)

/-- The end of an assignment statement, after its target. -/
def assignmentEnd (n : Nat) (target : Operand) : Parse Node := do
  if (← kind) ≠ .assign then reject .assignmentSign
  assigned n target

/-- A call as a statement. -/
def callStatement (n : Nat) (function : Atom) (receiver : Operand) : Parse Node := do
  let x ← call n function receiver
  advance
  return x

/-- What follows the target of a statement that begins with a name: a field or
    a method after a point, or the arguments of a call, or an assignment. Only a
    name by itself can be called. -/
def assignmentOrCall (n : Nat) (target : Operand) : Parse Node := do
  if (← kind) = .point then
    advance
    let selector := (← current).value
    advance
    if (← kind) = .lparen then callStatement n selector target
    else assignmentEnd n (.node (.member target (.atom selector) false))
  else if (← kind) = .lparen then
    match target with
    | .atom name => callStatement n name .system
    | .node _ => callStatement n .nothing .system
  else assignmentEnd n target

/-- A statement that begins with a name. -/
def nameStatement (n : Nat) : Parse Node := do
  let name := (← current).value
  advance
  markLine
  if (← kind) = .startList then
    let x ← firstIndex n
    let target ← indices n (.member (.atom name) (.node x) true)
    if (← kind) = .assign then assigned n (.node target)
    else assignmentOrCall n (.node target)
  else assignmentOrCall n (.atom name)

/-- The head of a conditional or a loop: its condition in parentheses, of which
    only the first is looked at. -/
def head (n : Nat) : Parse Node := do
  if (← kind) ≠ .lparen then reject .headStart
  advance
  let condition ← expression n
  advance
  return condition

mutual

/-- A statement. -/
def statement : (fuel : Nat) → Parse Node
  | 0 => throw .exhausted
  | n + 1 => do
    if ← atType then declaration n
    else
      match ← kind with
      | .lbrace => return .block (← block n)
      | .funcWord => functionDeclaration n
      | .structWord => recordDeclaration n
      | .identifier => nameStatement n
      | .ifWord =>
        advance
        let condition ← head n
        let thenBlock ← block n
        let bs ← branches n
        match ← current? with
        | some ⟨.elseWord, _, _, _⟩ =>
          advance
          return .conditional condition thenBlock bs (some (← block n))
        | _ => return .conditional condition thenBlock bs none
      | .forWord => forStatement n
      | .whileWord =>
        advance
        let condition ← head n
        return .whileLoop condition (← block n)
      | .returnWord =>
        advance
        let value ← expression n
        advance
        return .giveBack (some value)
      | .continueWord =>
        advance
        advance
        return .continueLoop
      | .breakWord =>
        advance
        advance
        return .breakLoop
      | _ => reject .unexpected

/-- A block in a context of its own. -/
def block : (fuel : Nat) → Parse (List Node)
  | 0 => throw .exhausted
  | n + 1 => do
    modifyScope (·.enterBlock)
    let ss ← body n
    modifyScope (·.leave)
    return ss

/-- The statements between braces. -/
def body : (fuel : Nat) → Parse (List Node)
  | 0 => throw .exhausted
  | n + 1 => do
    if (← kind) ≠ .lbrace then reject .blockStart
    advance
    let ss ← statements n
    advance
    return ss

/-- The statements up to the closing brace. -/
def statements : (fuel : Nat) → Parse (List Node)
  | 0 => throw .exhausted
  | n + 1 => do
    if (← kind) = .rbrace then return []
    let s ← statement n
    return s :: (← statements n)

/-- The further conditions of a conditional; they need no parentheses. -/
def branches : (fuel : Nat) → Parse (List Branch)
  | 0 => throw .exhausted
  | n + 1 => do
    match ← current? with
    | some ⟨.elifWord, _, _, _⟩ =>
      advance
      let condition ← expression n
      let ss ← block n
      return .mk condition ss :: (← branches n)
    | _ => return []

/-- A loop that declares its counter. Its context holds the counter and the
    body. -/
def forStatement : (fuel : Nat) → Parse Node
  | 0 => throw .exhausted
  | n + 1 => do
    advance
    if (← kind) ≠ .lparen then reject .headStart
    advance
    if ← atType then
      modifyScope (·.enterBlock)
      let counter ← declaration n
      let condition ← expression n
      advance
      let ss ← body n
      modifyScope (·.leave)
      return .forLoop (.node counter) condition ss
    else if (← kind) = .identifier then throw .loopOverName
    else reject .loopVariable

/-- A declaration of a function. Its body is read in a context of its name, and
    its parameters are qualified there. -/
def functionDeclaration : (fuel : Nat) → Parse Node
  | 0 => throw .exhausted
  | n + 1 => do
    advance
    let name := (← current).value
    advance
    markLine
    if (← kind) ≠ .lparen then reject .parameterStart
    let ps ← parameters n
    advance
    let result ← do
      if (← kind) = .ret then
        advance
        let k ← kind
        advance
        pure k.name
      else pure "VOID"
    tryScope (·.declareFunction name result (ps.map fun p => (p.name, p.type)))
    modifyScope (·.enter name.shown)
    let ss ← body n
    modifyScope (·.leave)
    return .function name result ps (renameAll name.shown (ps.map Parameter.name) ss)

end

/-- The statements up to the last token. -/
def program : (fuel : Nat) → Parse (List Node)
  | 0 => throw .exhausted
  | n + 1 => do
    match ← current? with
    | none => return []
    | some _ =>
      let s ← statement n
      return s :: (← program n)

/-- Fuel that is enough for so many tokens. -/
def fuelFor (tokens : Nat) : Nat := 16 * tokens + 32

end Parse

/-- The tree of a program, and what is known about its names. -/
def parse (s : Scan) : Except Fault (List Node × Scope) := do
  let start : ParseState := ⟨s.tokens, s.fault, {}⟩
  if s.tokens.isEmpty then
    if let some f := s.fault then throw f
  let (ss, finish) ← (Parse.program (Parse.fuelFor s.tokens.length)).run start
  return (ss, finish.scope)

end StackLang
