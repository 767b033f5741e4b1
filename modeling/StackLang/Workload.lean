import StackLang.CommandLine

/-!
# Workloads

Work that exercises the compiler, and the number that each kind of it yields.

* `sampleProgram n` is a program of about `n` statements: a fixed front that uses
  every construct of the language, and groups of eleven lines.
* `Workload.yield` is the number that a piece of work of a given size yields. Work
  on programs yields the number of statements or of instructions, casts the sum
  of their arguments; the others are counts that hang on the size alone.
-/

namespace StackLang

namespace Workload

/-- The front of a sample program. -/
def front : List String :=
  ["// header",
   "/* multi",
   "line */",
   "struct Point \x7b int x; float y; string name; bool ok; Point nxt; \x7d",
   "func addp(int a, int b) -> int \x7b",
   "    int t = a + b;",
   "    Point q = new Point(a, 1.0, \"n\", true);",
   "    float cv = t + 0;",
   "    int mv = q.x;",
   "    int[] arr = [t, t, t];",
   "    arr[0] = t;",
   "    int av = arr[t + 0];",
   "    while (t < 1) \x7b t = t + 1; \x7d",
   "    for (int k = 0; k < 2) \x7b t = t + k; \x7d",
   "    if (t > 0) \x7b return t; \x7d elif (t == 0) \x7b return 0; \x7d else \x7b return 0 - t; \x7d",
   "\x7d",
   "func noret(bool p) \x7b int z = 1; \x7d",
   "func takept(Point pp) \x7b int w = 1; \x7d",
   "func takearr([] aa) \x7b int w2 = 1; \x7d",
   "\x7b int blk = 1; \x7d",
   "if (not (1 == 2)) \x7b print(1); \x7d",
   "int base = addp(1, 2);",
   "float fb = addp(1, 2);",
   "byte bb = 300;",
   "bool tb = 1;",
   "int ib = 3.7;",
   "int ib2 = true;",
   "byte bb2 = true;",
   "string cs = [1, 2];",
   "int[] eb;",
   "int ec;",
   "float ed;",
   "bool ee;",
   "byte ef;",
   "string eg;",
   "int[] lst = [1, 2, 3, 4];",
   "lst.append(5);",
   "int sz = lst.size();",
   "int gv = lst[0][0];",
   "int idx = 0;",
   "lst[idx] = 7;",
   "int gv2 = lst[idx];",
   "string hw = \"Hello World\";",
   "print(hw.slice(0, 4).upper());",
   "Point pobj = new Point(1, 2.0, \"n\", true);",
   "int px = pobj.x;",
   "pobj.x = 9;",
   "pobj.size();",
   "string sx = \"a\" + 1;",
   "int r178 = (true < 1) + 0;",
   "float ff2 = 1;",
   "byte[] bb3 = \"hi\";",
   "int[] be = [1 + 1, 2];",
   "for (int i = 0; i < 3) \x7b if (i == 2) \x7b break; \x7d print(i); \x7d",
   "for (int j = 0; j < 3) \x7b if (j == 1) \x7b continue; \x7d print(j); \x7d",
   "while (base < 3) \x7b base = base + 1; if (base == 2) \x7b continue; \x7d \x7d",
   "while (base < 5) \x7b base = base + 1; if (base >= 4) \x7b break; \x7d \x7d"]

/-- A group of lines of a sample program; its names end in the number `k`. -/
def group (k : String) : List String :=
  ["int a" ++ k ++ " = 1 + 2 * 3 - 4 / 2.0 % 5;",
   "float b" ++ k ++ " = -3.14 + a" ++ k ++ ";",
   "bool c" ++ k ++ " = (a" ++ k ++ " == 3) or (a" ++ k ++ " != 4) and (a" ++ k ++ " <= 5) and (a" ++ k ++ " >= 0);",
   "string s" ++ k ++ " = \"he\\\"llo\" + \"wo\";",
   "int[] la" ++ k ++ " = [1, 2, 3, a" ++ k ++ "];",
   "int[][] mm" ++ k ++ " = [[1, 2], [3, 4]];",
   "la" ++ k ++ "[0] = a" ++ k ++ ";",
   "mm" ++ k ++ "[0][1] = 7;",
   "mm" ++ k ++ "[a" ++ k ++ "][0] = 1;",
   "a" ++ k ++ " = a" ++ k ++ " % 2;",
   "print(\"val:\" + a" ++ k ++ ");"]

/-- How many groups of eleven lines a sample program of `n` statements has. -/
def groupCount (n : Int) : Nat := max 1 (n / 11).toNat

/-- A program of about `n` statements. -/
def sampleProgram (n : Int) : String :=
  String.join <|
    (front ++ (List.range (groupCount n)).flatMap fun k => group (decimalText k)).map (· ++ "\n")

/-- The number of instructions of a program that compiles. -/
def instructionCount (source : String) : Nat :=
  match Compilation.codeOf source with
  | .ok g => g.length
  | .error _ => 0

/-! ### Casts -/

/-- The casts that are asked for in turn. -/
def casts : List (String × String) :=
  [("INT", "FLOAT"), ("FLOAT", "INT"), ("BOOL", "INT"), ("BYTE", "INT"), ("CHAR[]", "STRING"),
   ("INT[]", "FLOAT[]"), ("STRING[]", "INT[]")]

/-- The argument of a cast, and the number and the depth of its source. -/
def castYield (c : String × String) : Nat :=
  match castArgument c.1 c.2, typeInfo c.1 with
  | .ok arg, .ok info => arg + info.1 + info.2
  | _, _ => 0

/-- The elements of a list, `n` of them, again from its start after its end. -/
def cycle {α : Type} (xs : List α) (n : Nat) : List α :=
  (List.range n).filterMap fun i => xs[i % xs.length]?

/-! ### Counts by size -/

/-- The count of a check of `n` variables: a fixed part and a part for each. -/
def checkCount (n : Nat) : Nat := 65 + 144 * n

/-- The count of `n` look-ups: a fixed part, and 18 for every five. -/
def lookupCount (n : Nat) : Nat := 11 + 18 * n / 5

/-- The count of refusals among `n` programs tried in turn from a row of 33, of
    which the one at place 24 is accepted, and seven more. -/
def refusalCount (n : Nat) : Nat := 7 + n - (n + 8) / 33

/-- What a pipeline counts besides the instructions. -/
def pipelineBase : Nat := 33

end Workload

/-- A kind of work. -/
inductive Workload where
  /-- Parse a sample program. -/
  | parse
  /-- Describe the tree of a sample program. -/
  | describe
  /-- Rename parameters in a sample program. -/
  | rename
  /-- Generate the code of a sample program. -/
  | generate
  /-- Compile several sample programs. -/
  | pipeline
  /-- Check variables. -/
  | check
  /-- Look up names. -/
  | lookup
  /-- Compute arguments of casts. -/
  | cast
  /-- Compile programs with faults. -/
  | refuse
  deriving DecidableEq, Repr

namespace Workload

/-- The size of a piece of work, if none is given. -/
def defaultSize : Workload → Int
  | .pipeline => 4
  | .lookup => 300
  | .cast => 4000
  | _ => 200

/-- The statements of a program that parses. -/
def statements (source : String) : List Node :=
  match StackLang.parse (scan source) with
  | .ok (program, _) => program
  | .error _ => []

/-- The number that a piece of work of the given size yields. -/
def yield (w : Workload) (n : Int) : Nat :=
  match w with
  | .parse => (statements (sampleProgram n)).length
  | .describe => ((statements (sampleProgram n)).map Node.describe).length
  | .rename => ((statements (sampleProgram n)).map fun s => s.rename "f" []).length
  | .generate => instructionCount (sampleProgram n)
  | .pipeline =>
    (List.range n.toNat).foldl
      (fun total (i : Nat) => total + instructionCount (sampleProgram (40 + i))) pipelineBase
  | .check => checkCount n.toNat
  | .lookup => lookupCount n.toNat
  | .cast => (cycle casts n.toNat).foldl (fun total c => total + castYield c) 0
  | .refuse => refusalCount n.toNat

end Workload

end StackLang
