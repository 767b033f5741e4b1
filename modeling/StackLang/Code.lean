import StackLang.Opcode
import StackLang.Tree

/-!
# Code

The code that a generator has written so far is a row of *slots*. A slot holds
an instruction, or something that stands for one which is not known yet: a
label, or a bare number. Instructions carry an *argument*, which is a value or,
after an index that is a list, the nodes of that list.

The `Generator` is what a generator knows: the code, the next free address and
the addresses of names, the records and the objects of record type, and the one
exit from a loop that waits for its target.
-/

namespace StackLang

/-- The argument of an instruction. -/
inductive Argument where
  | atom (a : Atom)
  | nodes (ns : List Node)
  deriving Inhabited

/-- An integer as an argument. -/
abbrev Argument.int (n : Int) : Argument := .atom (.int n)

/-- A place in the code. -/
inductive Slot where
  | instruction (code : Nat) (arg : Argument)
  /-- A place kept for an instruction of a conditional. -/
  | label (text : String)
  /-- A place kept for an exit from a loop (the number 0) or for the test of a
      loop (its instruction). -/
  | bare (n : Nat)
  deriving Inhabited

/-- What waits for the target of a jump. -/
inductive Exit where
  | none
  | break
  | continue
  deriving DecidableEq, Repr, Inhabited

/-- A record: its place in the table of heap entries, the number of its fields,
    and their names. -/
structure RecordInfo where
  position : Nat
  size : Nat
  fields : List Atom
  deriving Repr, Inhabited

/-- What a generator knows. -/
structure Generator where
  /-- How many slots there are. -/
  length : Nat := 0
  code : Array Slot := #[]
  /-- The next free address. -/
  memory : Nat := 0
  /-- The addresses of variables, parameters and functions. -/
  identifiers : Table Nat := []
  heap : List String := []
  records : Table RecordInfo := []
  /-- The record types of variables that hold records. -/
  objects : Table Atom := []
  /-- Where the waiting exit stands, and which one it is. -/
  pending : Nat × Exit := (0, .none)
  inLoop : Bool := true
  deriving Inhabited

/-- A step of generation. What has been written stays when a step stops with a
    fault. -/
abbrev Gen := ExceptT Fault (StateM Generator)

namespace Gen

/-- Put a slot at the end of the code. -/
def append (s : Slot) : Gen Unit :=
  modify fun g => { g with code := g.code.push s, length := g.length + 1 }

/-- Put an instruction at the end of the code. -/
def emit (code : Nat) (arg : Argument) : Gen Unit := append (.instruction code arg)

/-- Put an instruction with an integer argument at the end of the code. -/
def emitInt (code : Nat) (arg : Int) : Gen Unit := emit code (.int arg)

/-- The number of slots. -/
def here : Gen Nat := return (← get).length

/-- Replace a slot by a jump to a target. -/
def patch (place : Nat) (code : Nat) (target : Nat) : Gen Unit :=
  modify fun g => { g with code := g.code.setIfInBounds place (.instruction code (.int target)) }

/-- The address of a name. -/
def address (name : Atom) : Gen Nat := do
  match (← get).identifiers.get? name with
  | some a => return a
  | none => throw (.unknownKey name)

/-- The address of the variable that an operand names. -/
def addressOf : Operand → Gen Nat
  | .atom a => address a
  | .node _ => throw (.unknownKey .nothing)

/-- Give a name the next free bytes. -/
def reserve (name : Atom) (type : String) : Gen Unit :=
  modify fun g =>
    { g with
      identifiers := g.identifiers.put name g.memory
      memory := g.memory + if type = "BOOL" ∨ type = "CHAR" then 1 else 4 }

/-- The waiting exit, if it is of the given sort, jumps to the next slot. -/
def settle (exit : Exit) : Gen Unit := do
  let g ← get
  if g.pending.2 = exit then
    patch g.pending.1 Op.jump g.length
    modify fun g => { g with pending := (0, .none) }

end Gen

end StackLang
