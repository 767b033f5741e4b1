import StackLang.Code
import StackLang.Conversion

/-!
# Generation

How a tree becomes code. Operands come in the order in which they are written,
arguments and items from the last to the first. A conditional puts its tests
first, then the last block, then the others; its jumps are filled in when their
targets are known. A loop negates its test and jumps over its body.

A node that the generator does not know as a statement, a block among them,
writes nothing.
-/

namespace StackLang

/-- The text of a string literal: the escapes of line breaks stand for them. -/
def breakEscapes : List Char → List Char
  | [] => []
  | '\\' :: 'n' :: r => '\n' :: breakEscapes r
  | c :: r => c :: breakEscapes r

/-- The text of a string literal: the escapes of tabs stand for them. -/
def tabEscapes : List Char → List Char
  | [] => []
  | '\\' :: 't' :: r => '\t' :: tabEscapes r
  | c :: r => c :: tabEscapes r

/-- The characters of a string literal. -/
def stringChars (s : String) : List Char := tabEscapes (breakEscapes s.toList)

/-- The number that stands for the type of a field. -/
def fieldNumber (type : String) : Nat :=
  if type = "BOOL" then 1
  else if type = "STRING" ∨ holds "[]" type then 4
  else if type = "INT" then 1
  else if type = "FLOAT" then 2
  else if type = "ARRAY" then 4
  else 5

/-- The name of the instruction that gives a variable its first value. -/
def initialInstruction (type : String) : String :=
  if holds "[]" type then "BUILD_LIST"
  else if type = "STRING" then "BUILD_LIST"
  else if type = "BOOL" then "STORE_BYTE"
  else if type = "INT" then "STORE"
  else "STORE_" ++ type

namespace Gen

/-- The code of a literal or a variable. -/
def literalCode (kind : String) (value : Atom) : Gen Unit := do
  match kind with
  | "INT_LITERAL" => emitInt Op.store (← value.toInt)
  | "FLOAT_LITERAL" => emit Op.storeFloat (.atom value)
  | "BOOL_LITERAL" => emitInt Op.storeByte (if value.truthy then 1 else 0)
  | "BYTE_LITERAL" => emit Op.storeByte (.atom value)
  | "STRING_LITERAL" =>
    match value with
    | .text s =>
      let cs := stringChars s
      cs.reverse.forM fun c => emitInt Op.storeChar c.toNat
      emitInt Op.buildList cs.length
    | _ => throw .valueless
  | _ =>
    if holds "[]" kind then
      match value with
      | .text s => emitInt Op.buildList s.length
      | _ => throw .wrongKind
    else if kind = "VARIABLE" then emitInt Op.load (← address value)
    else throw (.uncontrolled "Literal Node")

/-- Declare the parameters of a function: each gets an address, and code that
    makes room for it. -/
def declareParameters (function : Atom) : List Parameter → Gen Unit
  | [] => pure ()
  | p :: ps => do
    let name := Atom.text (function.shown ++ "." ++ p.name.shown)
    if (← get).records.has (.text p.type) then
      modify fun g => { g with objects := g.objects.put name (.text p.type) }
    reserve name p.type
    emitInt Op.store 0
    emitInt Op.storeMem (-1)
    declareParameters function ps

/-- Store the arguments of a call at the addresses of the parameters. -/
def storeParameters (function : Atom) : List Parameter → Gen Unit
  | [] => pure ()
  | p :: ps => do
    emitInt Op.storeMem (← address (.text (function.shown ++ "." ++ p.name.shown)))
    storeParameters function ps

/-- End a function with a return, unless its last instruction is one. -/
def closeFunction : Gen Unit := do
  match (← get).code.back? with
  | some (.instruction code _) => if code ≠ Op.ret then emitInt Op.ret 0
  | some (.bare _) => throw .wrongKind
  | _ => emitInt Op.ret 0

/-- The code of a record declaration, field after field. -/
def fieldCode (record : Atom) : List Parameter → Gen Unit
  | [] => pure ()
  | p :: ps => do
    let number := fieldNumber p.type
    modify fun g =>
      { g with heap := g.heap ++ ["PARAM-" ++ decimalText number ++ "-" ++ record.shown] }
    emitInt Op.store number
    fieldCode record ps

/-- The code of a record declaration. -/
def recordCode (name : Atom) (fields : List Parameter) : Gen Unit := do
  modify fun g =>
    { g with
      records := g.records.put name ⟨g.heap.length, fields.length, fields.map Parameter.name⟩
      heap := g.heap ++ ["OBJ-" ++ name.shown] }
  fieldCode name fields
  emitInt Op.defineType fields.length

/-- Keep a place for an exit from a loop. Outside of loops it writes nothing. -/
def exitCode (exit : Exit) : Gen Unit := do
  let g ← get
  if g.inLoop then
    set { g with pending := (g.length, exit) }
    append (.bare 0)

/-- The name that a loop counts with. -/
def counterName : Operand → Gen Atom
  | .node (.declare n _ _) => return n
  | .node (.call f _ _) => return .text f
  | .node (.function n _ _ _) => return n
  | .node (.record n _) => return n
  | .node (.parameter p) => return p.name
  | .node (.plainDeclaration n) => return n
  | .node (.assign (.atom a) _) => return a
  | _ => throw .valueless

/-- The value that stands as the argument of an access, for the nodes that have
    one. -/
def selectorArgument : Node → Gen Argument
  | .literal _ v => return .atom v
  | .listLiteral _ xs => return .nodes xs
  | _ => throw .valueless

/-- Whether a node is a literal that is no variable. -/
def isConstant : Node → Bool
  | .literal k _ => k ≠ "VARIABLE"
  | .listLiteral k _ => k ≠ "VARIABLE"
  | _ => false

/-- The name at the bottom of a chain of indexed accesses. -/
def indexedBase : Operand → Operand
  | .node (.member o _ true) => indexedBase o
  | o => o

mutual

/-- The code of a node. -/
def generate : Node → Gen Unit
  | .binary op a b => do
    generate a
    generateOption b
    match operatorCode? op with
    | some code => emitInt code 0
    | none => throw (.unknownKey (.text op))
  | .literal k v => literalCode k v
  | .listLiteral k xs => do
    match k with
    | "INT_LITERAL" => throw .wrongKind
    | "FLOAT_LITERAL" => emit Op.storeFloat (.nodes xs)
    | "BOOL_LITERAL" => emitInt Op.storeByte (if xs.isEmpty then 0 else 1)
    | "BYTE_LITERAL" => emit Op.storeByte (.nodes xs)
    | "STRING_LITERAL" => throw .valueless
    | _ =>
      if holds "[]" k then
        generateReversed xs
        emitInt Op.buildList xs.length
      else if k = "VARIABLE" then throw .wrongKind
      else throw (.uncontrolled "Literal Node")
  | .call f xs o => do
    generateReversed xs
    let known ← match o with
      | .atom a => pure ((← get).objects.has a)
      | .node _ => pure false
    if !known then
      match o with
      | .node n => generate n
      | .atom a => if a ≠ .text "System" then emitInt Op.load (← address a)
      match builtinNumber? f with
      | some n => emitInt Op.syscall n
      | none =>
        match (← get).identifiers.get? (.text f) with
        | some a => emitInt Op.call a
        | none => throw (.unfound (.text f))
  | .create r xs => do
    generateFields r xs
    match (← get).records.get? r with
    | some info => emitInt Op.new info.position
    | none => throw (.unknownKey r)
  | .member o a indexed => do
    let nested ← match o with
      | .node (.member o' a' i') => do
        generate (.member o' a' i')
        pure true
      | _ => pure false
    if indexed then
      if !nested then emitInt Op.load (← addressOf o)
      match a with
      | .atom _ => emitInt Op.listAccess (-1)
      | .node n =>
        if n.isUnary then emit Op.listAccess (← selectorArgument n)
        else
          generate n
          emitInt Op.listAccess (-1)
  | .cast t s x => do
    generate x
    emitInt Op.cast (← castArgument s t)
  | .plainUnary => throw (.uncontrolled "UnaryExpressionNode")
  | .declare n t v => do
    reserve n t
    match v with
    | some (.create r _) => modify fun g => { g with objects := g.objects.put n r }
    | _ => pure ()
    match v with
    | none =>
      let name := initialInstruction t
      match opcodes.lookup name with
      | some code => emitInt code 0
      | none => throw (.unknownKey (.text name))
    | some x => generate x
    emitInt Op.storeMem (-1)
  | .function name _ ps body => do
    let start ← here
    reserve name ""
    emitInt 0 0
    emitInt Op.storeMem (-1)
    declareParameters name ps
    let skip ← here
    emitInt 0 0
    patch start Op.store (← here)
    storeParameters name ps
    generateAll body
    closeFunction
    patch skip Op.jump (← here)
  | .record n fs => recordCode n fs
  | .plainDeclaration _ => throw (.uncontrolled "DeclarationNode")
  | .assign t v => do
    generate v
    match t with
    | .node (.member o a true) =>
      emitInt Op.load (← addressOf (indexedBase o))
      generateSetters o
      match a with
      | .atom _ => emitInt Op.listSet (-1)
      | .node n =>
        if isConstant n then emit Op.listSet (← selectorArgument n)
        else
          generate n
          emitInt Op.listSet (-1)
    | .node (.member _ _ false) => pure ()
    | t => emitInt Op.storeMem (← addressOf t)
  | .conditional c thenBlock bs elseBlock => do
    generate c
    let test ← here
    append (.label "To replace IF")
    let tests ← generateTests bs
    match elseBlock with
    | none => pure ()
    | some ss => generateAll ss
    append (.label "To replace ELSE")
    let last := (← here) - 1
    let ends ← generateBranches bs tests
    patch test Op.jumpIf (← here)
    generateAll thenBlock
    let finish ← here
    patch last Op.jump finish
    ends.forM fun e => patch e Op.jump finish
  | .whileLoop c body => do
    modify fun g => { g with inLoop := true }
    let start ← here
    generate c
    emitInt Op.not 0
    let test ← here
    append (.bare Op.jumpIf)
    generateAll body
    settle .continue
    emitInt Op.jump start
    patch test Op.jumpIf (← here)
    settle .break
    modify fun g => { g with inLoop := false }
  | .forLoop v c body => do
    modify fun g => { g with inLoop := true }
    generateOperand v
    let start ← here
    generate c
    emitInt Op.not 0
    let test ← here
    append (.bare Op.jumpIf)
    generateAll body
    settle .continue
    let counter ← address (← counterName v)
    emitInt Op.load counter
    emitInt Op.store 1
    emitInt Op.add 0
    emitInt Op.storeMem counter
    emitInt Op.jump start
    patch test Op.jumpIf (← here)
    settle .break
    modify fun g => { g with inLoop := false }
  | .giveBack v => do
    generateOption v
    emitInt Op.ret 0
  | .breakLoop => exitCode .break
  | .continueLoop => exitCode .continue
  | .block _ | .parameter _ | .plain | .plainExpression => pure ()

/-- The code of a node that may be absent. -/
def generateOption : Option Node → Gen Unit
  | none => pure ()
  | some n => generate n

/-- The code of an operand; a name has none. -/
def generateOperand : Operand → Gen Unit
  | .atom _ => pure ()
  | .node n => generate n

/-- The code of statements. -/
def generateAll : List Node → Gen Unit
  | [] => pure ()
  | n :: ns => do
    generate n
    generateAll ns

/-- The code of nodes from the last to the first. -/
def generateReversed : List Node → Gen Unit
  | [] => pure ()
  | n :: ns => do
    generateReversed ns
    generate n

/-- The code of the fields of a new record, each with its heap entry. -/
def generateFields (record : Atom) : List Node → Gen Unit
  | [] => pure ()
  | n :: ns => do
    modify fun g => { g with heap := g.heap ++ ["DATA-" ++ record.shown] }
    generate n
    generateFields record ns

/-- The tests of the further conditions, and where their jumps are. -/
def generateTests : List Branch → Gen (List Nat)
  | [] => return []
  | .mk c _ :: bs => do
    generate c
    let test ← here
    append (.label "To replace ELIF START")
    return test :: (← generateTests bs)

/-- The blocks of the further conditions. The jump of each test goes behind its
    block, to the jump that ends it, whose place is given back. -/
def generateBranches : List Branch → (tests : List Nat) → Gen (List Nat)
  | .mk _ body :: bs, test :: tests => do
    generateAll body
    let finish ← here
    patch test Op.jumpIf finish
    append (.label "To replace ELIF END")
    return finish :: (← generateBranches bs tests)
  | _, _ => return []

/-- The accesses to the lists that an assigned element lies in, from the
    outermost index to the innermost. -/
def generateSetters : Operand → Gen Unit
  | .node (.member o a true) => do
    match a with
    | .atom _ => emitInt Op.listAccess (-1)
    | .node n =>
      if isConstant n then emit Op.listAccess (← selectorArgument n)
      else
        generate n
        emitInt Op.listAccess (-1)
    generateSetters o
  | _ => pure ()

end

end Gen

/-- A generator after a step, and the fault that stopped it, if one did. -/
def Generator.run (g : Generator) (step : Gen Unit) : Generator × Option Fault :=
  match step.run.run g with
  | (.ok _, g) => (g, none)
  | (.error f, g) => (g, some f)

/-- The generator after a whole program, or the fault that stopped it. -/
def generateProgram (program : List Node) : Except Fault Generator :=
  match ({} : Generator).run (Gen.generateAll program) with
  | (g, none) => .ok g
  | (_, some f) => .error f

end StackLang
