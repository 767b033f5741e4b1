import StackLang.Machine.Item

/-!
# Traps

Why the machine stops before the end of a program. The report of a trap names
the instruction that it arose in; a read outside of a block is preceded by a
line that tells how much was to be read, up to where, and how much there is.
-/

namespace StackLang

/-- Why the machine stops. -/
inductive Trap where
  | fileNotFound
  /-- A call beyond the deepest level. -/
  | tooDeep
  /-- A write outside of the bytes there are. -/
  | outside
  /-- A read of some bytes that ends behind the last one. -/
  | readOutside (width stop size : Nat)
  | underflow
  | overflow
  | index
  | unknown
  deriving DecidableEq, Repr

namespace Trap

/-- The kind of a trap and what it means. -/
def cause : Trap → String × String
  | fileNotFound => ("FileNotFound", "unable to locate the specified file.")
  | tooDeep =>
    ("RecursionOverflow", "maximum recursion depth exceeded, resulting in a stack overflow.")
  | outside | readOutside .. =>
    ("MemoryViolation", "attempted access outside of allocated bounds.")
  | underflow => ("StackUnderflow", "attempted to pop from an empty stack.")
  | overflow => ("StackOverflow", "attempted to push beyond the stack's maximum capacity.")
  | index => ("IndexOutOfBounds", "the specified index is outside the valid range.")
  | unknown =>
    ("UnknownError", "an unexpected error occurred, please check the logs for more details.")

/-- What comes before the report. -/
def detail : Trap → String
  | readOutside width stop size =>
    decimalText width ++ " " ++ decimalText stop ++ " " ++ decimalText size ++ "\n"
  | _ => ""

/-- The report of a trap in an instruction. -/
def report (t : Trap) (i : Instruction) : String :=
  t.detail ++ "\n\x1b[1;31m!\x1b[0m \x1b[1;35m" ++ t.cause.1 ++ ":\x1b[0m " ++ t.cause.2 ++
    " (Instruction: " ++ decimalText i.code.toNat ++ " - " ++ signedText (wordInt i.arg) ++ ")\n"

end Trap

end StackLang
