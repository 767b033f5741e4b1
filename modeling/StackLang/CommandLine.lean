import StackLang.Code.Generate
import StackLang.Image
import StackLang.Text.Search
import StackLang.Tree.Parse

/-!
# The command line

What the compiler does with its arguments. The first argument is the source
file. The options `-l` and `-p`, anywhere, show the tokens or the tree and stop;
`-d` and `-b` write a listing, with names or with numbers, instead of an image.
The last argument names the result if there are two and it is longer than two
characters; a listing goes to `output.txt` unless that name ends in `.txt`.
-/

namespace StackLang

/-- What the arguments ask for. -/
structure Options where
  source : String
  result : String
  showTokens : Bool
  showTree : Bool
  listNames : Bool
  listNumbers : Bool
  deriving DecidableEq, Repr

/-- The options that the arguments give. -/
def Options.ofArgs (args : List String) : Except Fault Options :=
  match args with
  | [] => .error .noInput
  | source :: rest =>
    let last := (rest.getLast?).getD source
    .ok
      { source
        result := if rest ≠ [] ∧ last.length > 2 then last else "output.o"
        showTokens := args.contains "-l"
        showTree := args.contains "-p"
        listNames := args.contains "-d"
        listNumbers := args.contains "-b" }

/-- The file that a listing goes to. -/
def Options.listingFile (o : Options) : String :=
  if (o.result.toList.drop (o.result.length - 4)) = ".txt".toList then o.result else "output.txt"

/-- The name of a file in the folder at hand that a path leads to. -/
def fileAt (path : String) : Except Fault String :=
  match (cutAt '/' path.toList).dropWhile (· == ['.']) with
  | [] => .error .isFolder
  | steps =>
    let last := steps.getLastD []
    if last = [] ∨ last = ['.'] ∨ last = ['.', '.'] then .error .isFolder
    else if steps.length = 1 then .ok (String.ofList last)
    else .error .unwritable

/-- How a run of the compiler ends. -/
inductive Ending where
  /-- All was done. -/
  | done
  /-- It stopped after showing something. -/
  | shown
  | failed (f : Fault)
  deriving DecidableEq, Repr

/-- What a run of the compiler leaves: the text it shows, the file it writes,
    and how it ends. -/
structure Compilation where
  output : String
  written : Option (String × List UInt8)
  ending : Ending
  deriving Repr

namespace Compilation

/-- A run that only failed. -/
def failure (f : Fault) : Compilation := ⟨"", none, .failed f⟩

/-- The end of a run that may have stopped. -/
def endingOf : Option Fault → Ending
  | none => .done
  | some f => .failed f

/-- The code of a source text. -/
def codeOf (source : String) : Except Fault Generator := do
  let (program, _) ← parse (scan source)
  generateProgram program

/-- The result of a compilation, written as the options ask. -/
def writeResult (o : Options) (place : String → Except Fault String) (g : Generator) :
    Compilation :=
  let listed := o.listNames || o.listNumbers
  match place (if listed then o.listingFile else o.result) with
  | .error f => failure f
  | .ok file =>
    if listed then
      let l := Listing.write o.listNames g
      ⟨"", some (file, l.text.toUTF8.toList), endingOf l.fault⟩
    else
      let i := Image.write g
      ⟨"", some (file, i.bytes), endingOf i.fault⟩

/-- A run of the compiler on a source text. -/
def ofSource (o : Options) (place : String → Except Fault String) (source : String) :
    Compilation :=
  let s := scan source
  if o.showTokens then
    match s.fault with
    | some f => failure f
    | none => ⟨(Doc.list (s.tokens.map fun t => .text t.shown)).pretty 0, none, .shown⟩
  else
    match parse s with
    | .error f => failure f
    | .ok (program, _) =>
      if o.showTree then ⟨(describeBlock program).pretty 0, none, .shown⟩
      else
        match generateProgram program with
        | .error f => failure f
        | .ok g => writeResult o place g

/-- A run of the compiler, with a way to look up the texts of source files and the
    places of results. -/
def run (args : List String) (file? : String → Option String)
    (place : String → Except Fault String) : Compilation :=
  match Options.ofArgs args with
  | .error f => failure f
  | .ok o =>
    if o.source = "." ∨ o.source = ".." then failure .isFolder
    else
      match file? o.source with
      | none => failure (.noSuchFile o.source)
      | some text => ofSource o place (sourceText text)

end Compilation

end StackLang
