import StackLang.Machine.Run

/-!
# Requests

The parts of a machine used one by one, without a program: its memory, its heap,
its stack and its arithmetic. A request answers with a number. Requests are
served in a row until one of them traps.
-/

namespace StackLang

/-- Something asked of a part of the machine. -/
inductive Request where
  | writeMemory (address word : UInt32) (width : Nat)
  | readMemory (address : UInt32) (width : Nat)
  | growMemory (size : Nat)
  | clearMemory
  | addBlock (tag : Tag)
  /-- Write into a block; without an offset, at its end. -/
  | writeBlock (block : Nat) (word : UInt32) (offset : Option Nat) (width : Nat)
  | readBlock (block offset width : Nat)
  | duplicate (block : Nat) (tag : Tag) (depth : Nat)
  | removeElement (block place width : Nat)
  | clearHeap
  | push (x : Item)
  | pop
  | compute (op : Operator)
  | showStack
  deriving Repr

/-- The stack as a line, its top first. -/
def stackLine (xs : List Item) : String :=
  "Stack: " ++
    String.join (xs.map fun x =>
      "[" ++ decimalText x.tag.code ++ "|" ++ signedText (wordInt x.word) ++ "], ") ++ "\n"

/-- Serve a request: its answer, and whether it asks for texts to be joined. -/
def Request.serve (r : Request) : Act (Nat × Bool) :=
  match r with
  | .writeMemory address word width => do
    let (cells, place) ← Act.lift ((← get).memory.cells.write address word width)
    modify fun m => { m with memory := { m.memory with cells } }
    return (place, false)
  | .readMemory address width => do
    return ((← Act.lift ((← get).memory.cells.read address width)).toNat, false)
  | .growMemory size => do
    modify fun m => { m with memory := { m.memory with cells := m.memory.cells.grow size } }
    return (0, false)
  | .clearMemory => do
    modify fun m => { m with memory := {} }
    return (0, false)
  | .addBlock tag => return (← Act.addBlock tag, false)
  | .writeBlock n word offset width => do
    let place := offset.getD (← Act.block n).size
    Act.writeBlock n word place width
    return (place, false)
  | .readBlock n offset width => return ((← Act.readBlock n offset width).toNat, false)
  | .duplicate n tag depth => return (← Act.duplicate n tag depth, false)
  | .removeElement n place width => do
    let heap ← Act.lift ((← get).heap.removeElement n place width)
    modify fun m => { m with heap }
    return (0, false)
  | .clearHeap => do
    modify fun m => { m with heap := {} }
    return (0, false)
  | .push x => do
    Act.push x
    return (0, false)
  | .pop => do
    let x ← Act.pop
    return (x.tag.code * 0x100000000 + x.word.toNat, false)
  | .compute op => return (0, ← Act.compute op)
  | .showStack => do
    Act.say (stackLine (← get).stack)
    return (0, false)

/-- What is known after a request: its answer, the machine, and whether texts
    were to be joined by it or by one before. -/
structure Served where
  answer : Nat
  machine : Machine
  joins : Bool
  deriving Repr

/-- Serve requests in a row: what is known after each, the output at the end, and
    whether one of them stopped the rest. -/
def serveAll (m : Machine) (joins : Bool) : List Request → List Served × Array UInt8 × Bool
  | [] => ([], m.output, false)
  | r :: rs =>
    match r.serve m with
    | (.ok (n, j), m) =>
      let after := serveAll m (joins || j) rs
      (⟨n, m, joins || j⟩ :: after.1, after.2)
    | (.error (.failed t), m) => ([], m.output ++ textBytes (t.report ⟨0, 0⟩), true)
    | (.error _, m) => ([], m.output, true)

end StackLang
