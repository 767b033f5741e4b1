import StackLang.Proofs.Closing

/-!
# The recording parser

The parser, step for step, with a record of the places that it closes and the tokens it finds there.
It stops at a closing that does not pass its *check*.

* `recorded`: every closing passes, as in the parser;
* `parseStrictly`: only proper closings pass.
-/

namespace StackLang

/-- Which closings pass. -/
abbrev Check := Closing → Bool

/-- A parser that checks and records closings. -/
abbrev Recorder := ReaderT Check (StateT (List Closing) Parse)

namespace Recorder

open Parse hiding expression operators operatorsAfter unary items firstIndex indices arguments call
  declaration assigned assignmentEnd callStatement assignmentOrCall nameStatement head statement
  block body statements branches forStatement functionDeclaration program

/-- Pass over the token that closes a place, if it passes the check. -/
def close (place : Place) : Recorder Unit := do
  let check ← read
  let t ← current?
  if check ⟨place, t⟩ then
    modify (· ++ [⟨place, t⟩])
    advance
  else reject .unexpected

mutual

/-- An expression. -/
def expression : (fuel : Nat) → Recorder Node
  | 0 => throw .exhausted
  | n + 1 => do
    match ← current? with
    | some ⟨.notWord, op, _, _⟩ =>
      advance
      let operand ← operators n 0
      return .binary op.shown operand none
    | _ => operators n 0

/-- The operators of a group and of the stronger ones. -/
def operators : (fuel : Nat) → (group : Nat) → Recorder Node
  | 0, _ => throw .exhausted
  | n + 1, group => do
    if group = groups.length then unary n
    else
      let first ← operators n (group + 1)
      operatorsAfter n group first

/-- The operators of a group after its first operand. -/
def operatorsAfter : (fuel : Nat) → (group : Nat) → Node → Recorder Node
  | 0, _, _ => throw .exhausted
  | n + 1, group, first => do
    if ← atOperator group then
      let op := (← current).value
      advance
      let second ← operators n (group + 1)
      operatorsAfter n group (.binary op.shown first (some second))
    else return first

/-- An expression without operators outside of parentheses. -/
def unary : (fuel : Nat) → Recorder Node
  | 0 => throw .exhausted
  | n + 1 => do
    if (← kind) = .emptyArr then
      advance
      return .listLiteral "[]" []
    markLine
    match ← kind with
    | .startList =>
      let xs ← items n
      advance
      let type ← ask (·.listType xs)
      return .listLiteral type.shown xs
    | .lparen =>
      advance
      let x ← operators n 0
      if (← current?).map Token.kind ≠ some .rparen then reject .closingParen
      advance
      return x
    | .newWord =>
      advance
      let record := (← current).value
      advance
      let xs ← arguments n
      advance
      return .create record xs
    | k =>
      let t ← current
      advance
      if isLiteralKind k then return .literal k.name t.value
      match ← kind with
      | .lparen => call n t.value .system
      | .point =>
        advance
        let selector := (← current).value
        advance
        if (← kind) ≠ .lparen then return .member (.atom t.value) (.atom selector) false
        call n selector (.atom t.value)
      | _ =>
        markLine
        let _ ← ask (·.typeOfName t.value)
        if (← kind) = .startList then
          let x ← firstIndex n
          indices n (.member (.atom t.value) (.node x) true)
        else return .literal "VARIABLE" t.value

/-- The items of a list, up to the closing bracket. -/
def items : (fuel : Nat) → Recorder (List Node)
  | 0 => throw .exhausted
  | n + 1 => do
    if (← kind) = .endList then return []
    advance
    let x ← expression n
    return x :: (← items n)

/-- The first index after a name, which has to be closed. -/
def firstIndex : (fuel : Nat) → Recorder Node
  | 0 => throw .exhausted
  | n + 1 => do
    advance
    let x ← expression n
    if (← kind) ≠ .endList then reject .closingIndex
    close .firstIndex
    return x

/-- Further indices. -/
def indices : (fuel : Nat) → Node → Recorder Node
  | 0, _ => throw .exhausted
  | n + 1, object => do
    if (← kind) = .startList then
      advance
      let x ← expression n
      close .furtherIndex
      indices n (.member (.node object) (.node x) true)
    else return object

/-- The arguments of a call, up to the closing parenthesis. -/
def arguments : (fuel : Nat) → Recorder (List Node)
  | 0 => throw .exhausted
  | n + 1 => do
    if (← kind) = .rparen then return []
    advance
    match ← kind with
    | .rparen => return []
    | .comma => reject fun _ => .emptyArgument
    | _ =>
      let x ← expression n
      return x :: (← arguments n)

/-- A call of the function on a receiver, and the calls on its result. -/
def call : (fuel : Nat) → (function : Atom) → (receiver : Operand) → Recorder Node
  | 0, _, _ => throw .exhausted
  | n + 1, function, receiver => do
    markLine
    let xs ← arguments n
    advance
    let xs ← ask (·.checkCall function xs)
    let result := Node.call function.shown xs receiver
    if (← kind) = .point then
      advance
      let next := (← current).value
      advance
      call n next (.node result)
    else return result

end

/-- A declaration of a variable. -/
def declaration (n : Nat) : Recorder Node := do
  let type ← typeName
  markLine
  advance
  let type ← bracketPairs n type
  let name := (← current).value
  advance
  tryScope (·.declare name type)
  match ← kind with
  | .semicolon =>
    close .declaration
    return .declare name type none
  | .assign =>
    advance
    let value ← expression n
    close .initialization
    let value ← ask (·.checkAssignment (.atom name) (some value))
    return .declare name type value
  | _ => reject .assignment

/-- The value of an assignment and its end. -/
def assigned (n : Nat) (target : Operand) : Recorder Node := do
  advance
  let value ← expression n
  close .assignment
  let value ← ask (·.checkAssignment target (some value))
  return .assign target (value.getD .plain)

/-- The end of an assignment statement, after its target. -/
def assignmentEnd (n : Nat) (target : Operand) : Recorder Node := do
  if (← kind) ≠ .assign then reject .assignmentSign
  assigned n target

/-- A call as a statement. -/
def callStatement (n : Nat) (function : Atom) (receiver : Operand) : Recorder Node := do
  let x ← call n function receiver
  close .call
  return x

/-- What follows the target of a statement that begins with a name. -/
def assignmentOrCall (n : Nat) (target : Operand) : Recorder Node := do
  if (← kind) = .point then
    advance
    let selector := (← current).value
    advance
    if (← kind) = .lparen then callStatement n selector target
    else assignmentEnd n (.node (.member target (.atom selector) false))
  else if (← kind) = .lparen then
    match target with
    | .atom name => callStatement n name .system
    | .node _ => callStatement n .nothing .system
  else assignmentEnd n target

/-- A statement that begins with a name. -/
def nameStatement (n : Nat) : Recorder Node := do
  let name := (← current).value
  advance
  markLine
  if (← kind) = .startList then
    let x ← firstIndex n
    let target ← indices n (.member (.atom name) (.node x) true)
    if (← kind) = .assign then assigned n (.node target)
    else assignmentOrCall n (.node target)
  else assignmentOrCall n (.atom name)

/-- The head of a conditional or a loop. -/
def head (place : Place) (n : Nat) : Recorder Node := do
  if (← kind) ≠ .lparen then reject .headStart
  advance
  let condition ← expression n
  close place
  return condition

mutual

/-- A statement. -/
def statement : (fuel : Nat) → Recorder Node
  | 0 => throw .exhausted
  | n + 1 => do
    if ← atType then declaration n
    else
      match ← kind with
      | .lbrace => return .block (← block n)
      | .funcWord => functionDeclaration n
      | .structWord => recordDeclaration n
      | .identifier => nameStatement n
      | .ifWord =>
        advance
        let condition ← head .conditional n
        let thenBlock ← block n
        let bs ← branches n
        match ← current? with
        | some ⟨.elseWord, _, _, _⟩ =>
          advance
          return .conditional condition thenBlock bs (some (← block n))
        | _ => return .conditional condition thenBlock bs none
      | .forWord => forStatement n
      | .whileWord =>
        advance
        let condition ← head .whileLoop n
        return .whileLoop condition (← block n)
      | .returnWord =>
        advance
        let value ← expression n
        close .giveBack
        return .giveBack (some value)
      | .continueWord =>
        advance
        close .continueLoop
        return .continueLoop
      | .breakWord =>
        advance
        close .breakLoop
        return .breakLoop
      | _ => reject .unexpected

/-- A block in a context of its own. -/
def block : (fuel : Nat) → Recorder (List Node)
  | 0 => throw .exhausted
  | n + 1 => do
    modifyScope (·.enterBlock)
    let ss ← body n
    modifyScope (·.leave)
    return ss

/-- The statements between braces. -/
def body : (fuel : Nat) → Recorder (List Node)
  | 0 => throw .exhausted
  | n + 1 => do
    if (← kind) ≠ .lbrace then reject .blockStart
    advance
    let ss ← statements n
    advance
    return ss

/-- The statements up to the closing brace. -/
def statements : (fuel : Nat) → Recorder (List Node)
  | 0 => throw .exhausted
  | n + 1 => do
    if (← kind) = .rbrace then return []
    let s ← statement n
    return s :: (← statements n)

/-- The further conditions of a conditional. -/
def branches : (fuel : Nat) → Recorder (List Branch)
  | 0 => throw .exhausted
  | n + 1 => do
    match ← current? with
    | some ⟨.elifWord, _, _, _⟩ =>
      advance
      let condition ← expression n
      let ss ← block n
      return .mk condition ss :: (← branches n)
    | _ => return []

/-- A loop that declares its counter. -/
def forStatement : (fuel : Nat) → Recorder Node
  | 0 => throw .exhausted
  | n + 1 => do
    advance
    if (← kind) ≠ .lparen then reject .headStart
    advance
    if ← atType then
      modifyScope (·.enterBlock)
      let counter ← declaration n
      let condition ← expression n
      close .forLoop
      let ss ← body n
      modifyScope (·.leave)
      return .forLoop (.node counter) condition ss
    else if (← kind) = .identifier then throw .loopOverName
    else reject .loopVariable

/-- A declaration of a function. -/
def functionDeclaration : (fuel : Nat) → Recorder Node
  | 0 => throw .exhausted
  | n + 1 => do
    advance
    let name := (← current).value
    advance
    markLine
    if (← kind) ≠ .lparen then reject .parameterStart
    let ps ← parameters n
    advance
    let result ← do
      if (← kind) = .ret then
        advance
        let k ← kind
        advance
        pure k.name
      else pure "VOID"
    tryScope (·.declareFunction name result (ps.map fun p => (p.name, p.type)))
    modifyScope (·.enter name.shown)
    let ss ← body n
    modifyScope (·.leave)
    return .function name result ps (renameAll name.shown (ps.map Parameter.name) ss)

end

/-- The statements up to the last token. -/
def program : (fuel : Nat) → Recorder (List Node)
  | 0 => throw .exhausted
  | n + 1 => do
    match ← current? with
    | none => return []
    | some _ =>
      let s ← statement n
      return s :: (← program n)

end Recorder

/-- The tree of a program, what is known about its names, and the closings in it, all of which pass
    the check. -/
def recordedWith (check : Check) (s : Scan) :
    Except Fault (List Node × Scope × List Closing) := do
  let start : ParseState := ⟨s.tokens, s.fault, {}⟩
  if s.tokens.isEmpty then
    if let some f := s.fault then throw f
  let recorder := ((Recorder.program (Parse.fuelFor s.tokens.length)).run check).run []
  let ((ss, closings), finish) ← recorder.run start
  return (ss, finish.scope, closings)

/-- The tree of a program, what is known about its names, and the closings in it. -/
def recorded : Scan → Except Fault (List Node × Scope × List Closing) := recordedWith fun _ => true

/-- The tree of a program that is closed properly, and what is known about its names. -/
def parseStrictly (s : Scan) : Except Fault (List Node × Scope) :=
  (recordedWith (fun c => c.Proper) s).map fun r => (r.1, r.2.1)

end StackLang
