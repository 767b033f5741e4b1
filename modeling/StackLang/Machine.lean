import StackLang.Machine.Operation
import StackLang.Machine.Segment

/-!
# The machine

A stack machine. Its state holds the place in the program, the places to return
to, a stack of items, a memory for variables, a heap of lists, and what it shares
with the outside: the bytes still to be read, the bytes written, and the files.

What an instruction does is an `Act`: it changes the state, and it may stop the
machine. The state at the moment of the stop stays.
-/

namespace StackLang

/-- Why the machine stops before the end of the program. -/
inductive Halt where
  /-- The program asked for it. -/
  | exited
  | failed (t : Trap)
  /-- What follows is not determined: a return without a call, or a loop that
      never ends. -/
  | stuck
  deriving DecidableEq, Repr

/-- Files by name, in the order of their making. -/
abbrev Files := List (List UInt8 × List UInt8)

namespace Files

/-- Set the contents of a file. -/
def put (fs : Files) (name content : List UInt8) : Files :=
  match fs with
  | [] => [(name, content)]
  | f :: fs => if f.1 = name then (name, content) :: fs else f :: put fs name content

end Files

/-- The state of a machine. -/
structure Machine where
  /-- The place of the next instruction. -/
  pc : Nat := 0
  /-- The places to return to, the latest first. -/
  frames : List Nat := []
  /-- The stack, its top first. -/
  stack : List Item := []
  memory : Memory := {}
  heap : Heap := {}
  input : List UInt8 := []
  output : Array UInt8 := #[]
  files : Files := []
  deriving DecidableEq, Repr, Inhabited

/-- A program in memory. -/
abbrev Program := Array Instruction

/-- Something that a machine does. -/
abbrev Act := ExceptT Halt (StateM Machine)

/-- The most items that a stack can hold. -/
def stackLimit : Nat := 1025

/-- The most calls that can be under way. -/
def frameLimit : Nat := 129

namespace Act

/-- Stop with a trap. -/
def fail {α : Type} (t : Trap) : Act α := throw (.failed t)

/-- The result of something that may trap. -/
def lift {α : Type} : Except Trap α → Act α
  | .ok x => pure x
  | .error t => fail t

/-- Put an item on the stack. -/
def push (x : Item) : Act Unit := do
  if stackLimit ≤ (← get).stack.length then fail .overflow
  modify fun m => { m with stack := x :: m.stack }

/-- Take an item from the stack. -/
def pop : Act Item := do
  match (← get).stack with
  | [] => fail .underflow
  | x :: rest =>
    modify fun m => { m with stack := rest }
    return x

/-- Write bytes. -/
def emit (bs : List UInt8) : Act Unit := modify fun m => { m with output := m.output ++ bs }

/-- Write a text. -/
def say (s : String) : Act Unit := emit (textBytes s)

/-- The block of a number. -/
def block (n : Nat) : Act Block := return (← get).heap.block n

/-- Add a block to the heap. -/
def addBlock (t : Tag) : Act Nat := do
  let n := (← get).heap.size
  modify fun m => { m with heap := m.heap.add t }
  return n

/-- Read a word of a block. -/
def readBlock (n offset width : Nat) : Act UInt32 := do lift ((← get).heap.read n offset width)

/-- Write a word into a block. -/
def writeBlock (n : Nat) (word : UInt32) (offset width : Nat) : Act Unit := do
  let heap ← lift ((← get).heap.write n word offset width)
  modify fun m => { m with heap }

/-- Write a byte at the end of a block. -/
def appendByte (n : Nat) (b : UInt8) : Act Unit := do
  writeBlock n b.toUInt32 (← block n).size 1

/-- Write bytes at the end of a block. -/
def appendBytes (n : Nat) : List UInt8 → Act Unit
  | [] => pure ()
  | b :: bs => do
    appendByte n b
    appendBytes n bs

/-- Push a pointer to a new block of characters. -/
def pushText (bs : List UInt8) : Act Unit := do
  let n ← addBlock .char
  appendBytes n bs
  push (.ofBlock n)

/-! ### Arithmetic -/

/-- Compute an operator on the top of the stack. The result says whether texts
    are to be joined: then both operands stay, and a mark lies above them. -/
def compute (op : Operator) : Act Bool := do
  let y ← pop
  if op = .not then
    push (.ofBool (y.word = 0))
    return false
  let x ← pop
  if op.isLogical then
    push (op.onTruths x y)
    return false
  if x.isJoin y then
    push x
    push y
    push ⟨.unassigned, 0xffffffff⟩
    return true
  push (op.onItems x y)
  return false

/-- Copy the bytes of block `source` from place `i` on to the end of block
    `target`, one byte apart each, until there are none left. Copying a block
    to itself never ends, so the number of bytes to copy is bounded by `fuel`. -/
def joinFrom (source target : Nat) (fuel i : Nat) : Act Unit := do
  if (← block source).size ≤ i then return
  match fuel with
  | 0 => throw .stuck
  | fuel + 1 =>
    let b ← readBlock source i 1
    writeBlock target b ((← block target).size + 1) 1
    joinFrom source target fuel (i + 1)

/-- Write bytes behind the end of a block, each one further behind than the one
    before. -/
def scatter (n : Nat) (i : Nat) : List UInt8 → Act Unit
  | [] => pure ()
  | b :: bs => do
    writeBlock n b.toUInt32 ((← block n).size + i) 1
    scatter n (i + 1) bs

/-- Copy the bytes of block `source` from place `i` on to the same places of
    another block. -/
def copyFrom (source target : Nat) (fuel i : Nat) : Act Unit := do
  if (← block source).size ≤ i then return
  match fuel with
  | 0 => throw .stuck
  | fuel + 1 =>
    let b ← readBlock source i 1
    writeBlock target b i 1
    copyFrom source target fuel (i + 1)

/-- Join two texts, of which at least one is a pointer. The text of a number is
    its decimal. -/
def join : Act Unit := do
  let _ ← pop
  let y ← pop
  let x ← pop
  if x.tag = .pointer then
    if y.tag = .pointer then
      joinFrom y.block x.block (← block y.block).size 0
    else
      modify fun m => { m with heap := m.heap.retag x.block .char }
      scatter x.block 0 (textBytes y.numberText)
    push x
  else
    let n ← addBlock .char
    scatter x.block 0 (textBytes y.numberText)
    copyFrom y.block n (← block y.block).size 0
    push (.ofBlock n)

/-! ### Lists -/

/-- Add a block of the size of another one, to hold a copy of it; without a tag it
    gets the same one. -/
def addCopy (n : Nat) (tag : Option Tag) : Act (Block × Nat) := do
  if (← get).heap.size ≤ n then fail .outside
  let source ← block n
  let copy ← addBlock (tag.getD source.tag)
  modify fun m =>
    { m with
      heap.blocks := m.heap.blocks.modify copy fun b => { b with cells := b.cells.grow source.size } }
  return (source, copy)

/-- Copy words of the width of a tag from the front of a block to another one. -/
def copyWords (source target : Nat) (tag : Tag) (count : Nat) : Act Unit := do
  for i in List.range count do
    let w ← readBlock source (i * tag.width) tag.width
    writeBlock target w (i * tag.width) tag.width

/-- A copy of a block with elements of another tag. With a depth above one, each
    byte is taken for the number of a block that is copied in turn. -/
def duplicate (n : Nat) (tag : Tag) : (depth : Nat) → Act Nat
  | 0 => do
    let (source, copy) ← addCopy n none
    copyWords n copy tag source.size
    return copy
  | 1 => do
    let (source, copy) ← addCopy n (some tag)
    copyWords n copy tag source.size
    return copy
  | depth + 2 => do
    let (source, copy) ← addCopy n none
    for i in List.range source.size do
      let child ← duplicate (source.cells.byte i).toNat tag (depth + 1)
      writeBlock copy child.toUInt32 i 1
    return copy

/-- Take further items from the stack as the elements of a block, from place `i`
    on. -/
def fillList (n width : Nat) (i : Nat) : (count : Nat) → Act Unit
  | 0 => pure ()
  | count + 1 => do
    let x ← pop
    writeBlock n x.word (i * width) width
    fillList n width (i + 1) count

/-- Push a new list of the given number of items from the stack. The first one
    decides the tag. -/
def buildList (count : Nat) : Act Unit := do
  match count with
  | 0 => push (.ofBlock (← addBlock .unassigned))
  | count + 1 =>
    let x ← pop
    let n ← addBlock x.tag
    writeBlock n x.word 0 x.tag.width
    fillList n x.tag.width 1 count
    push (.ofBlock n)

/-- The index that an instruction means: its argument, or the top of the stack. -/
def index (arg : UInt32) : Act Nat := do
  if arg = 0xffffffff then return (← pop).word.toNat else return arg.toNat

/-- Push an element of a list. -/
def element (arg : UInt32) : Act Unit := do
  let i ← index arg
  let n := (← pop).block
  let tag := (← block n).tag
  let w ← readBlock n (i * tag.width) tag.width
  push ⟨tag, w⟩

/-- Change an element of a list. -/
def setElement (arg : UInt32) : Act Unit := do
  let i ← index arg
  let n := (← pop).block
  let x ← pop
  let tag := (← block n).tag
  writeBlock n x.word (i * tag.width) tag.width

end Act

end StackLang
