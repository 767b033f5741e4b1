import StackLang.CommandLine
import StackLang.Machine.Run

/-!
# The program

The command line of the compiler. With the option `--run` first, the machine runs
an image instead.
-/

namespace StackLang

/-- The bytes of a file, if it can be read. -/
def fileBytes? (name : String) : IO (Option (List UInt8)) := do
  try
    return some (← IO.FS.readBinFile name).toList
  catch _ => return none

/-- Show the end of a compilation. -/
def finish (e : Ending) : IO UInt32 := do
  match e with
  | .done | .shown => return 0
  | .failed f =>
    IO.eprintln ((f.message?).getD "The program cannot be compiled.")
    return 1

/-- Compile as the arguments say. -/
def compileMain (args : List String) : IO UInt32 := do
  let text ← match args with
    | source :: _ => fileBytes? source
    | [] => pure none
  let source := text.bind fun bs => String.fromUTF8? (ByteArray.mk bs.toArray)
  let c := Compilation.run args (fun _ => source) .ok
  IO.print c.output
  if let some (name, bytes) := c.written then
    IO.FS.writeBinFile name (ByteArray.mk bytes.toArray)
  finish c.ending

/-- The most instructions that the machine executes. -/
def runLimit : Nat := 1000000000

/-- Run an image. -/
def runMain (args : List String) : IO UInt32 := do
  let image ← fileBytes? (args.headD "output.o")
  let input ← (← IO.getStdin).readToEnd
  let (status, output) := Machine.launch args (fun _ => image) input.toUTF8.toList runLimit
  let out ← IO.getStdout
  out.write (ByteArray.mk output.toArray)
  return status.toUInt32

end StackLang

/-- The command line. -/
def main (args : List String) : IO UInt32 :=
  match args with
  | "--run" :: rest => StackLang.runMain rest
  | args => StackLang.compileMain args
