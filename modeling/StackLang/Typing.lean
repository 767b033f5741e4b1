import StackLang.Conversion
import StackLang.Scope
import StackLang.Tree

/-!
# Typing

The types of expressions and the checks of assignments and calls. A type is the
name of a type, with a pair of brackets for each level of lists. An expression
that has none, a conversion for example, has the type `nothing`.

Binary expressions are typed from their last operand to their first. An
assignment accepts the same type; else a conversion is put in where both types
have the same number of list levels, a string counting as one, and the kinds
allow it. Literals are converted on the spot, everything else by a cast.
-/

namespace StackLang

/-! ### Names of types -/

/-- How many pairs of brackets a text holds. -/
def countPairs : List Char → Nat
  | [] => 0
  | '[' :: ']' :: r => countPairs r + 1
  | _ :: r => countPairs r

/-- A text without its first `n` pairs of brackets. -/
def dropPairs : (n : Nat) → List Char → List Char
  | 0, cs => cs
  | _, [] => []
  | n + 1, '[' :: ']' :: r => dropPairs n r
  | n + 1, c :: r => c :: dropPairs (n + 1) r

/-- The number of list levels that the brackets of a type show. -/
def listLevels (type : String) : Nat := countPairs type.toList

/-- A type without all its brackets. -/
def baseType (type : String) : String := String.ofList (dropPairs type.toList.length type.toList)

/-- A type with `n` pairs of brackets less. -/
def elementTypeName (n : Nat) (type : String) : String := String.ofList (dropPairs n type.toList)

/-- A text without every mark of a literal. -/
def dropMarks : List Char → List Char
  | [] => []
  | '_' :: 'L' :: 'I' :: 'T' :: 'E' :: 'R' :: 'A' :: 'L' :: r => dropMarks r
  | c :: r => c :: dropMarks r

/-- The type that the kind of a literal names. -/
def literalType (kind : String) : String := String.ofList (dropMarks kind.toList)

/-- Whether a type is primitive. -/
def isPrimitive (type : Atom) : Bool := primitiveTypes.any fun t => type == .text t

/-- The verb of an operator in a fault. -/
def operatorVerb : String → String
  | "+" => "add"
  | "-" => "substract"
  | "*" => "multiply"
  | "/" => "divide"
  | "%" => "modulize"
  | _ => "make logic operations with a"

/-- The arithmetic operators, whose result is a number. -/
def isArithmetic (op : String) : Bool := ["+", "-", "*", "%", "^"].contains op

namespace Scope

variable (s : Scope)

/-! ### Types of expressions -/

/-- The name at the bottom of a chain of member accesses, and how many of them
    there are. -/
def memberBase : Operand → Operand × Nat
  | .node (.member o _ _) => let p := memberBase o; (p.1, p.2 + 1)
  | o => (o, 0)

/-- The type of the variable that an operand names. -/
def typeOfOperand : Operand → Except Fault String
  | .atom a => s.typeOfName a
  | .node _ => .error .wrongKind

/-- The type of an element or a field. -/
def memberType (object selector : Operand) (indexed : Bool) : Except Fault Atom :=
  if indexed then do
    let p := memberBase object
    let t ← s.typeOfOperand p.1
    if t = "STRING" then .ok (.text "CHAR") else .ok (.text (elementTypeName (p.2 + 1) t))
  else do
    let t ← s.typeOfOperand object
    match s.records.get? (.text t) with
    | none => .error (.unknownKey (.text t))
    | some fields =>
      match selector with
      | .atom a => match fields.get? a with
        | some t => .ok (.text t)
        | none => .error (.unknownKey a)
      | .node _ => .error (.unknownKey .nothing)

/-- The type of a binary expression whose operands have the types `first` and
    `last`, in the order in which they are written; the fault names the last
    one first. -/
def operatorType (op : String) (first last : Atom) : Except Fault Atom :=
  let verb := operatorVerb op
  if !isPrimitive last then s.fail (.leftOperand verb last first (isPrimitive first))
  else if !isPrimitive first then s.fail (.rightOperand verb last first)
  else if last = first then .ok last
  else if (last == .text "STRING") ^^ (first == .text "STRING") then
    if op = "+" then .ok (.text "STRING") else s.fail (.textOperand verb last first)
  else if op = "/" then .ok (.text "FLOAT")
  else if isArithmetic op then
    if (last == .text "FLOAT") ^^ (first == .text "FLOAT") then .ok (.text "FLOAT")
    else .ok (.text "INT")
  else .ok (.text "BYTE")

mutual

/-- The type of an expression. -/
def typeOf : Node → Except Fault Atom
  | .binary op a b => do
    let last ← typeOfOption b
    let first ← typeOf a
    s.operatorType op first last
  | .literal k v => if k = "VARIABLE" then return .text (← s.typeOfName v) else .ok (.text (literalType k))
  | .listLiteral k _ => if k = "VARIABLE" then .error .wrongKind else .ok (.text (literalType k))
  | .call f _ _ =>
    match s.table.get? (.text f) with
    | some t => .ok (.text t)
    | none => .error (.unknownKey (.text f))
  | .member o a i => s.memberType o a i
  | .create r _ => .ok r
  | _ => .ok .nothing

/-- The type of an expression that may be absent. -/
def typeOfOption : Option Node → Except Fault Atom
  | none => .ok .nothing
  | some n => typeOf n

end

mutual

/-- The type that an item gives to the list it stands in. -/
def itemType : Node → Except Fault Atom
  | .listLiteral _ xs => do
    match xs with
    | [] => .ok (.text "[]")
    | x :: r =>
      let t ← itemTypes .nothing (x :: r)
      .ok (.text (t.shown ++ "[]"))
  | .binary op a b => s.typeOf (.binary op a b)
  | .literal k v => s.typeOf (.literal k v)
  | .assign _ _ => .ok .nothing
  | _ => .error .valueless

/-- The common type of the items of a list, of which those before had the type
    `before`. An empty list before takes the type of the next item. -/
def itemTypes (before : Atom) : List Node → Except Fault Atom
  | [] => .ok before
  | x :: r => do
    let t ← itemType x
    let expected := if before = .text "[]" then t else before
    if expected ≠ .nothing ∧ expected ≠ t then s.fail (.element t expected)
    else itemTypes t r

end

/-- The type of a list literal. -/
def listType : List Node → Except Fault Atom
  | [] => .ok (.text "[]")
  | x :: r => do
    let t ← s.itemTypes .nothing (x :: r)
    .ok (.text (t.shown ++ "[]"))

/-! ### Conversions -/

/-- Whether a value of one type converts to another by itself. -/
def convertsTo (expected given : Atom) : Bool :=
  expected != given && isPrimitive expected && isPrimitive given && given != .text "STRING"

/-- The value of a literal, converted to a type. -/
def convertLiteral (expected : String) : Node → Except Fault Atom
  | .literal k v =>
    match expected with
    | "BOOL" => .ok (.bool v.truthy)
    | "INT" => return .int (← v.toInt)
    | "BYTE" => v.clipToByte
    | "FLOAT" => return .real (← v.toReal)
    | "STRING" => .ok (.text v.shown)
    | _ => .error (.notConvertible (.text expected) (.text k))
  | .listLiteral k xs =>
    match expected with
    | "BOOL" => .ok (.bool !xs.isEmpty)
    | "STRING" => .ok (.text (if xs.isEmpty then "[]" else "[...]"))
    | "INT" | "BYTE" | "FLOAT" => .error .wrongKind
    | _ => .error (.notConvertible (.text expected) (.text k))
  | _ => .error .valueless

/-- The integer that the value of a literal converts to. -/
def literalInt : Node → Except Fault Int
  | .literal _ v => v.toInt
  | _ => .error .wrongKind

/-- The real that the value of a literal converts to. -/
def literalReal : Node → Except Fault Real64
  | .literal _ v => v.toReal
  | _ => .error .wrongKind

/-- Whether the value of a literal counts as true. -/
def literalTruth : Node → Bool
  | .literal _ v => v.truthy
  | .listLiteral _ xs => !xs.isEmpty
  | _ => false

/-- Whether a node is a literal or a variable. -/
def isLiteral : Node → Bool
  | .literal .. | .listLiteral .. => true
  | _ => false

/-- An expression of one primitive type, converted to another. -/
def convertPrimitive (value : Node) (given expected : String) : Except Fault Node :=
  if !isLiteral value then .ok (.cast expected given value)
  else if (given = "BOOL" ∨ given = "BYTE") ∧ expected = "INT" then .ok value
  else if given = "FLOAT" ∧ expected = "INT" then
    return .literal "INT_LITERAL" (.int (← literalInt value))
  else if given = "BOOL" ∧ expected = "BYTE" then .ok value
  else if (given = "INT" ∨ given = "FLOAT") ∧ expected = "BYTE" then
    return .literal "INT_LITERAL" (.int (clipInt (← literalInt value)))
  else if expected = "BOOL" then .ok (.literal "BOOL_LITERAL" (.bool (literalTruth value)))
  else if expected = "FLOAT" then
    return .literal "FLOAT_LITERAL" (.real (← literalReal value))
  else s.fail (.mismatch (.text given) (.text expected))

/-- The list levels of a type, a string counting as one. -/
def levels : Atom → Except Fault Nat
  | .text t => .ok (listLevels t + if t = "STRING" then 1 else 0)
  | _ => .error .valueless

/-- The type of what is assigned to. -/
def targetType : Operand → Except Fault Atom
  | .atom (.text n) => return .text (← s.typeOfName (.text n))
  | .atom _ => .ok .nothing
  | .node n => s.typeOf n

/-- Check an assignment; the value may come back converted. -/
def checkAssignment (target : Operand) (value : Option Node) : Except Fault (Option Node) := do
  let expected ← s.targetType target
  let given ← s.typeOfOption value
  if expected.same given then return value
  let n ← levels expected
  let m ← levels given
  if n ≠ m then s.fail (.mismatch given expected)
  else if m = 0 then
    if !isPrimitive expected || !isPrimitive given then s.fail (.mismatch given expected)
    else return some (← s.convertPrimitive (value.getD .plain) given.shown expected.shown)
  else
    let expected := Atom.text (baseType expected.shown)
    let given := Atom.text (baseType given.shown)
    if !isPrimitive expected || !isPrimitive given then s.fail (.mismatch given expected)
    else if expected = .text "STRING" then
      return some (.cast "STRING" given.shown (value.getD .plain))
    else if given = .text "STRING" ∧ (expected = .text "BOOL" ∨ expected = .text "BYTE") then
      return some (.cast expected.shown given.shown (value.getD .plain))
    else s.fail (.mismatch given expected)

/-- Check a list against a type by their brackets. -/
def checkList (expected given : String) : Except Fault String :=
  let levels := if holds "STRING" expected then listLevels expected + 1 else 0
  if listLevels given = levels then s.fail (.mismatch (.text given) (.text expected))
  else if given.toList = (List.replicate (listLevels given) ['[', ']']).flatten then .ok expected
  else if expected ≠ given then
    if expected = "STRING" then .ok expected
    else s.fail (.mismatch (.text given) (.text expected))
  else .ok expected

/-! ### Calls -/

/-- The arguments of a call, each converted to the type of its parameter. -/
def convertArguments (function : Atom) : List String → List Node → Except Fault (List Node)
  | t :: ts, x :: xs => do
    let given ← s.typeOf x
    if given = .text t then return x :: (← convertArguments function ts xs)
    else if convertsTo (.text t) given then
      return .cast t given.shown x :: (← convertArguments function ts xs)
    else s.fail (.argument function (.text t) given)
  | _, _ => .ok []

/-- Check a call; its arguments may come back converted. Built-in functions
    take what they are given. -/
def checkCall (function : Atom) (args : List Node) : Except Fault (List Node) :=
  if builtinFunctions.any (fun f => function == .text f) then .ok args
  else
    match s.functions.get? function with
    | none => .error (.unknownKey function)
    | some types =>
      if types.length < args.length then s.fail (.tooMany types.length args.length)
      else if args.length < types.length then s.fail (.tooFew types.length args.length)
      else s.convertArguments function types args

end Scope

end StackLang
