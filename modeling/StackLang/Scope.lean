import StackLang.Fault
import StackLang.Text.Search

/-!
# Scopes

What is known about names while a program is read. The *context* is the scope
that is open, a text of names with points between them; the contexts around it
are its history. A block without a name adds a fresh number to the context, a
function replaces it by its own name. A declared variable is filed under its
full name, the context and its own name, except in the outermost context.

`Scope.typeOfName` looks a name up: as it stands, then under the context, then
with the parts of the context taken away one after the other, from the last to
the first, each where it occurs first.
-/

namespace StackLang

/-- The primitive types. The last one is no source of implicit conversions. -/
def primitiveTypes : List String := ["INT", "BYTE", "FLOAT", "BOOL", "CHAR", "STRING"]

/-- The types of the results of the built-in functions. -/
def builtinTypes : Table String :=
  [(.text "exit", "VOID"), (.text "print", "VOID"), (.text "input", "INT"), (.text "getf", "FLOAT"),
   (.text "type", "STRING"), (.text "scan", "STRING"), (.text "read", "BYTE[]"),
   (.text "write", "INT"), (.text "append", "VOID"), (.text "size", "INT"), (.text "remove", "VOID"),
   (.text "pop", "VOID"), (.text "is_empty", "BOOL"), (.text "slice", "[]"), (.text "map", "[]"),
   (.text "filter", "[]"), (.text "min", "FLOAT"), (.text "max", "FLOAT"), (.text "lower", "STRING"),
   (.text "upper", "STRING"), (.text "toString", "STRING")]

/-- The built-in functions, by the numbers of their system calls. -/
def builtinFunctions : List String :=
  ["exit", "print", "input", "getf", "scan", "type", "read", "write", "size", "append", "remove_at",
   "is_empty", "slice", "map", "filter", "min", "max", "lower", "upper", "toString"]

/-- What is known about names. -/
structure Scope where
  /-- The line that faults are reported on. -/
  line : Int := 0
  context : String := "MAIN"
  /-- The contexts around the open one, the nearest first. -/
  history : List String := []
  /-- How many blocks without a name have been opened. -/
  unnamed : Nat := 0
  /-- The types that are not primitive. -/
  types : List Atom := [.text "[]"]
  /-- The types of variables and the result types of functions. -/
  table : Table String := builtinTypes
  /-- The types of the parameters of functions. -/
  functions : Table (List String) := []
  /-- The types of the fields of records. -/
  records : Table (Table String) := []
  deriving Repr, Inhabited

namespace Scope

/-- Stop with a fault of typing on the current line. -/
def fail {α : Type} (s : Scope) (cause : TypingCause) : Except Fault α :=
  .error (.typing cause s.line)

/-! ### Contexts -/

/-- Open a block without a name. -/
def enterBlock (s : Scope) : Scope :=
  { s with
    unnamed := s.unnamed + 1
    history := s.context :: s.history
    context := s.context ++ "." ++ decimalText (s.unnamed + 1) }

/-- Open a context of the given name. -/
def enter (s : Scope) (name : String) : Scope :=
  { s with history := s.context :: s.history, context := name }

/-- Close the open context. -/
def leave (s : Scope) : Scope :=
  match s.history with
  | [] => { s with context := "MAIN" }
  | c :: h => { s with context := c, history := h }

/-! ### Declarations -/

/-- Whether the name is the name of a type. -/
def isType (s : Scope) (name : Atom) : Bool :=
  primitiveTypes.any (fun t => name == .text t) || s.types.any (·.same name)

/-- Declare a record with its fields. -/
def declareRecord (s : Scope) (name : Atom) (fields : List (Atom × String)) : Except Fault Scope :=
  if s.records.has name then s.fail (.structDeclared name)
  else .ok
    { s with
      types := s.types ++ [name]
      records := s.records.put name (fields.foldl (fun t p => t.put p.1 p.2) []) }

/-- Declare a function with the type of its result and its parameters, which
    are filed under the name of the function. -/
def declareFunction (s : Scope) (name : Atom) (result : String) (parameters : List (Atom × String)) :
    Except Fault Scope :=
  if s.table.has name then s.fail (.nameDeclared name)
  else
    match name with
    | .text f => do
      let table ← parameters.foldlM (fun t p =>
          match p.1 with
          | .text n => .ok (Table.put t (.text (f ++ "." ++ n)) p.2)
          | _ => .error Fault.wrongKind) (s.table.put name result)
      .ok { s with table, functions := s.functions.put name (parameters.map Prod.snd) }
    | _ => .error .wrongKind

/-- The name under which a variable of the open context is filed. -/
def fullName (s : Scope) (name : Atom) : Except Fault Atom :=
  if s.context = "MAIN" then .ok name
  else
    match name with
    | .text n => .ok (.text (s.context ++ "." ++ n))
    | _ => .error .wrongKind

/-- Declare a variable in the open context. -/
def declare (s : Scope) (name : Atom) (type : String) : Except Fault Scope := do
  let full ← s.fullName name
  if s.table.has full then s.fail (.nameDeclared name)
  else .ok { s with table := s.table.put full type }

/-! ### Look-up -/

/-- The first of the candidates that the table has: the name, and what is left
    of it when the given parts, each with a point after it, are taken away one
    after the other. -/
def searchOutwards (table : Table String) : (parts : List (List Char)) → List Char → Option String
  | [], _ => none
  | p :: ps, name =>
    let shorter := removeFirst (p ++ ['.']) name
    match table.get? (.text (String.ofList shorter)) with
    | some t => some t
    | none => searchOutwards table ps shorter

/-- The type of a variable. -/
def typeOfName (s : Scope) (name : Atom) : Except Fault String :=
  match s.table.get? name with
  | some t => .ok t
  | none =>
    match name with
    | .text n =>
      let full := s.context ++ "." ++ n
      match s.table.get? (.text full) with
      | some t => .ok t
      | none =>
        match searchOutwards s.table (cutAt '.' s.context.toList).reverse full.toList with
        | some t => .ok t
        | none => s.fail (.undefined name)
    | _ => .error .wrongKind

end Scope

end StackLang
