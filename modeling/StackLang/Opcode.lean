import StackLang.Fault
import StackLang.Typing

/-!
# Operation codes

The instructions of the machine by name and number, the operators that have an
instruction, the numbers of the built-in functions, and the argument of a cast.

The argument of a cast holds three fields: the larger of the two list depths
above 16 bits, then eight bits each for the number of the source type and of the
target type. A string is a list of characters, so it counts one level more.
-/

namespace StackLang

/-- The instructions by name. -/
def opcodes : List (String × Nat) :=
  [("ADD", 0x01), ("SUB", 0x02), ("MUL", 0x03), ("DIV", 0x04), ("MOD", 0x05), ("AND", 0x06),
   ("OR", 0x07), ("NOT", 0x08), ("EQ", 0x09), ("NEQ", 0x0A), ("LT", 0x0B), ("GT", 0x0C),
   ("LE", 0x0D), ("GE", 0x0E), ("STORE", 0x0F), ("STORE_BYTE", 0x10), ("STORE_FLOAT", 0x11),
   ("STORE_CHAR", 0x12), ("STORE_MEM", 0x13), ("LOAD", 0x14), ("JUMP", 0x15), ("JUMP_IF", 0x16),
   ("CALL", 0x17), ("RETURN", 0x18), ("BUILD_LIST", 0x19), ("LIST_ACCESS", 0x1A),
   ("LIST_SET", 0x1B), ("DEFINE_TYPE", 0x1C), ("NEW", 0x1D), ("CAST", 0x1E), ("SYSCALL", 0xFF)]

/-- The name of an instruction, of which the number is given as any value. -/
def opcodeName? (code : Atom) : Option String :=
  (opcodes.find? fun p => (Atom.int p.2).same code).map Prod.fst

namespace Op

/-- The numbers of the instructions that the generator writes. -/
abbrev store : Nat := 0x0F
abbrev storeByte : Nat := 0x10
abbrev storeFloat : Nat := 0x11
abbrev storeChar : Nat := 0x12
abbrev storeMem : Nat := 0x13
abbrev load : Nat := 0x14
abbrev jump : Nat := 0x15
abbrev jumpIf : Nat := 0x16
abbrev call : Nat := 0x17
abbrev ret : Nat := 0x18
abbrev buildList : Nat := 0x19
abbrev listAccess : Nat := 0x1A
abbrev listSet : Nat := 0x1B
abbrev defineType : Nat := 0x1C
abbrev new : Nat := 0x1D
abbrev cast : Nat := 0x1E
abbrev syscall : Nat := 0xFF
abbrev add : Nat := 0x01
abbrev not : Nat := 0x08

end Op

/-- The instruction of an operator. -/
def operatorCode? : String → Option Nat
  | "+" => some 0x01
  | "-" => some 0x02
  | "*" => some 0x03
  | "/" => some 0x04
  | "%" => some 0x05
  | "and" => some 0x06
  | "or" => some 0x07
  | "not" => some 0x08
  | "==" => some 0x09
  | "!=" => some 0x0A
  | "<" => some 0x0B
  | "<=" => some 0x0D
  | ">" => some 0x0C
  | ">=" => some 0x0E
  | _ => none

/-- The number of a built-in function. -/
def builtinNumber? (name : String) : Option Nat := builtinFunctions.findIdx? (· == name)

/-! ### Casts -/

/-- The number of a type without brackets. -/
def typeNumber? : String → Option Nat
  | "BOOL" => some 1
  | "BYTE" => some 1
  | "INT" => some 2
  | "FLOAT" => some 3
  | "CHAR" => some 4
  | "STRING" => some 5
  | _ => none

/-- The number and the list depth of a type. -/
def typeInfo (type : String) : Except Fault (Nat × Nat) :=
  let depth := listLevels type
  let base := baseType type
  if base = "STRING" then .ok (4, depth + 1)
  else
    match typeNumber? base with
    | some n => .ok (n, depth)
    | none => .error (.unknownKey (.text base))

/-- The argument of a cast from one type to another. -/
def castArgument (source target : String) : Except Fault Nat := do
  let s ← typeInfo source
  let t ← typeInfo target
  return (max s.2 t.2) <<< 16 ||| s.1 <<< 8 ||| t.1

end StackLang
