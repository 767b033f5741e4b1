import StackLang.Machine.Builtin

/-!
# Running programs

`Machine.step` executes one instruction, `Machine.run` a bounded number of them.
A program ends when the place of the next instruction is behind its last one.
A run counts the instructions that it executed; one that fails counts, but not
a number that no operation has.

`Machine.launch` is what the machine does with the arguments of its command line.
-/

namespace StackLang

namespace Act

/-- Go to a place of the program. -/
def goto (place : UInt32) : Act Unit := modify fun m => { m with pc := place.toNat }

/-- Go to the place of a function, and note where to go on behind it. -/
def enter (place : UInt32) : Act Unit := do
  if frameLimit ≤ (← get).frames.length then fail .tooDeep
  modify fun m => { m with frames := m.pc :: m.frames }
  goto place

/-- Call the function whose place is stored at an address (one byte), or lies on
    the stack. -/
def call (arg : UInt32) : Act Unit := do
  let place ←
    if arg = 0xffffffff then pure (← pop).word
    else pure ((← get).memory.cells.byte arg.toNat).toUInt32
  enter place

/-- Go back to the latest caller. -/
def giveBack : Act Unit := do
  match (← get).frames with
  | [] => throw .stuck
  | place :: rest => modify fun m => { m with pc := place, frames := rest }

/-- The fields of the argument of a conversion: the numbers of the tags to convert
    from and to, and the depth of a list. -/
structure CastFields where
  source : Nat
  target : Nat
  depth : Nat
  deriving DecidableEq, Repr

/-- The fields that an argument holds, eight bits each: the lowest name the target,
    the next the source. -/
def castFields (arg : UInt32) : CastFields :=
  ⟨((arg >>> 8) &&& 0xff).toNat, (arg &&& 0xff).toNat, ((arg >>> 16) &&& 0xff).toNat⟩

/-- Convert the top of the stack; the tag that it has now counts for nothing. Reals
    come from signed words, and integers from reals; a list is copied. -/
def cast (arg : UInt32) : Act Unit := do
  let fields := castFields arg
  let x ← pop
  match Tag.ofCode fields.target, fields.depth with
  | .real, _ => push ⟨.real, (Real32.ofInt (wordInt x.word)).bits⟩
  | .int, _ => push ⟨.int, x.real.truncateWord⟩
  | .byte, 0 => push ⟨.byte, extendByte x.word⟩
  | tag, 0 => push ⟨tag, x.word⟩
  | tag, depth => push (.ofBlock (← duplicate x.block tag depth))

/-- Store the top of the stack at an address. -/
def storeMem (address : UInt32) : Act Unit := do
  let x ← pop
  let memory ← lift ((← get).memory.store address x)
  modify fun m => { m with memory }

/-- Push the item at an address. -/
def load (address : UInt32) : Act Unit := do
  push (← lift ((← get).memory.load address))

/-- What an operation does with its argument. -/
def perform (op : Operation) (arg : UInt32) : Act Unit :=
  match op with
  | .compute op => do if ← compute op then join
  | .push tag => push ⟨tag, arg⟩
  | .storeMem => storeMem arg
  | .load => load arg
  | .jump => goto arg
  | .jumpIf => do if (← pop).word ≠ 0 then goto arg
  | .call => call arg
  | .giveBack => giveBack
  | .buildList => buildList arg.toNat
  | .element => element arg
  | .setElement => setElement arg
  | .defineType => pure ()
  | .create => pure ()
  | .cast => cast arg
  | .builtin => builtin arg

end Act

/-- What an instruction leads to. -/
inductive Transition where
  | next (m : Machine)
  | halted (h : Halt) (m : Machine)
  deriving Repr

namespace Machine

/-- Do something; a trap is reported with the instruction that it arose in. -/
def act (m : Machine) (i : Instruction) (a : Act Unit) : Transition :=
  match a m with
  | (.ok _, m) => .next m
  | (.error (.failed t), m) =>
    .halted (.failed t) { m with output := m.output ++ textBytes (t.report i) }
  | (.error h, m) => .halted h m

/-- Execute an instruction. -/
def execute (m : Machine) (i : Instruction) : Transition :=
  { m with pc := m.pc + 1 }.act i <|
    match Operation.ofCode? i.code.toNat with
    | some op => Act.perform op i.arg
    | none => Act.fail .unknown

/-- The next instruction of a program; none at its end. -/
def fetch (p : Program) (m : Machine) : Option Instruction := p[m.pc]?

/-- Execute the next instruction, if there is one. -/
def step (p : Program) (m : Machine) : Option Transition := (m.fetch p).map m.execute

/-- How a run finished. -/
inductive Finish where
  /-- Behind the last instruction. -/
  | ended
  | halted (h : Halt)
  /-- There were more instructions to execute than allowed. -/
  | limit
  deriving DecidableEq, Repr

/-- A finished run. -/
structure Result where
  finish : Finish
  /-- How many instructions were executed. -/
  steps : Nat
  machine : Machine
  deriving Repr

/-- Run a program for at most a number of instructions; `steps` have been
    executed before. -/
def runFrom (p : Program) (steps : Nat) : (limit : Nat) → Machine → Result
  | limit, m =>
    match m.fetch p with
    | none => ⟨.ended, steps, m⟩
    | some i =>
      match limit with
      | 0 => ⟨.limit, steps, m⟩
      | limit + 1 =>
        match m.execute i with
        | .next m => runFrom p (steps + 1) limit m
        | .halted h m =>
          ⟨.halted h, if (Operation.ofCode? i.code.toNat).isSome then steps + 1 else steps, m⟩

/-- Run a program for at most a number of instructions. -/
def run (p : Program) (limit : Nat) (m : Machine) : Result := runFrom p 0 limit m

/-- What can be seen of a machine before an instruction: its place, the
    instruction, the number of items on the stack, and the topmost three of them,
    the deepest first. -/
structure Snapshot where
  pc : Nat
  code : UInt8
  depth : Nat
  top : List Item
  deriving DecidableEq, Repr

/-- What is seen during a run, instruction by instruction. -/
def trace (p : Program) : (limit : Nat) → Machine → List Snapshot
  | 0, _ => []
  | limit + 1, m =>
    match m.fetch p with
    | none => []
    | some i =>
      if (Operation.ofCode? i.code.toNat).isNone then []
      else
        ⟨m.pc, i.code, m.stack.length, (m.stack.take 3).reverse⟩ ::
          match m.execute i with
          | .next m => trace p limit m
          | .halted _ _ => []

/-- Run the image that the arguments name, `output.o` if they name none: the
    exit status and the bytes written. -/
def launch (args : List String) (image? : String → Option (List UInt8)) (input : List UInt8)
    (limit : Nat) : Nat × List UInt8 :=
  match image? (args.headD "output.o") with
  | none => (1, textBytes (Trap.fileNotFound.report ⟨0, 0⟩))
  | some image =>
    let r := run (Image.load image) limit { input }
    match r.finish with
    | .halted (.failed _) => (1, r.machine.output.toList)
    | _ => (0, r.machine.output.toList)

end Machine

end StackLang
