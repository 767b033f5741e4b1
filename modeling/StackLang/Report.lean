import StackLang.Json
import StackLang.Text.CharClass
import StackLang.Text.Numeral
import StackLang.Text.Search

/-!
# Reports

A round of measuring shows how much of the sources the benchmarks cover and how
much of their time is spent in the sources, and adds a line to a record of the
rounds. What other programs answered, the files and the clock are given
(`Round`); what a round shows and adds is its `Outcome`.

* A round whose coverage run fails shows that and adds nothing.
* `belowCount` is the number of benchmarks that spend less than 45 percent of
  their time in the sources; a negative share is an error and does not count.
* `Progress` follows the best such number over the rounds, and how many rounds
  have passed since. A round with enough coverage asks to stop if none is below,
  or if three rounds have brought nothing better.
-/

namespace StackLang

namespace Report

/-- What another program gave. -/
inductive Child where
  | ended (status : Int) (output errors : String)
  | timedOut
  deriving DecidableEq, Repr

/-- What is given to a round. -/
structure Round where
  /-- The text of the coverage file, if there is one. -/
  coverage : Option String
  /-- The text of the benchmarks, if there is one. -/
  benches : Option String
  runner : Child
  shares : Option Child
  checks : Option Child
  elapsedMs : Int
  now : Int
  deriving Repr

/-- What a round gives. -/
structure Outcome where
  /-- The exit status; none at the plain end. -/
  status : Option Int
  output : String
  errors : String
  /-- What was added to the record. -/
  added : String
  deriving Repr

/-! ### Reading what is given -/

/-- The members of an object; of anything else, none. -/
def members : Option Json → List (String × Json)
  | some (.object ms) => ms
  | _ => []

/-- The member of a name. -/
def member (j : Json) (name : String) : Option Json := j.get? name

/-- A number as a double. -/
def numberOf : Json → Option Real64
  | .int n => Real64.ofInt? n
  | .real x => some x
  | .bool b => Real64.ofInt? (if b then 1 else 0)
  | _ => none

/-- The double at a name, zero if there is none. -/
def realAt (ms : List (String × Json)) (name : String) : Real64 :=
  ((ms.lookup name).bind numberOf).getD ⟨0⟩

/-- The integer at a name, zero if there is none. -/
def intAt (ms : List (String × Json)) (name : String) : Int :=
  match ms.lookup name with
  | some (.int n) => n
  | _ => 0

/-- The lines of a text, without their ends. -/
def linesOf (s : String) : List String := (cutAt '\n' s.toList).map String.ofList

/-- Whether a line has nothing but blanks. -/
def isEmptyLine (s : String) : Bool := s.toList.all isBlank

/-- The last line that has something in it. -/
def lastLine (s : String) : Option String := ((linesOf s).filter fun l => !isEmptyLine l).getLast?

/-- Why what another program gave is of no use. -/
inductive Useless where
  | timedOut
  | notJson
  | notNumber
  deriving DecidableEq, Repr

/-- The last line of what another program gave, as a value; none if it gave
    nothing. -/
def answerOf : Child → Except Useless (Option Json)
  | .timedOut => .error .timedOut
  | .ended _ output _ =>
    match lastLine output with
    | none => .ok none
    | some line =>
      match Json.read? line with
      | some j => .ok (some j)
      | none => .error .notJson

/-- What another program wrote to its errors. -/
def errorsOf : Child → String
  | .timedOut => ""
  | .ended _ _ errors => errors

/-- The complaint about another program. -/
def complaint (name : String) : Useless → String
  | .timedOut => "[" ++ name ++ " runner: TimeoutExpired]\n"
  | .notJson => "[" ++ name ++ " runner: JSONDecodeError]\n"
  | .notNumber => "[" ++ name ++ " runner: ValueError]\n"

/-! ### Shares of time -/

/-- The share of a benchmark, as a number or the text of one. -/
def shareOf : Json → Except Useless Real64
  | .text s =>
    match readReal? s with
    | some x => .ok x
    | none => .error .notNumber
  | j =>
    match numberOf j with
    | some x => .ok x
    | none => .error .notNumber

/-- The shares of the benchmarks and the places where the rest went. -/
structure Shares where
  values : List (String × Real64) := []
  elsewhere : List (String × Json) := []

/-- The shares that an answer holds. -/
def sharesOf (j : Json) : Except Useless Shares := do
  let values ← (members (member j "repo_time_pct")).mapM fun m => return (m.1, ← shareOf m.2)
  return ⟨values, members (member j "hot_ext")⟩

/-- Whether a share is no error. -/
def isShare (x : Real64) : Bool :=
  match x.compare ⟨0⟩ with
  | some .lt => false
  | none => false
  | _ => true

/-- The least share that is enough. -/
def enough : Real64 := Real64.ofFraction false 45 1 0

/-- Whether a share is too small. -/
def isBelow (x : Real64) : Bool := isShare x && x.compare enough == some .lt

/-- The number of shares that are too small; none if there is no share. -/
def belowCount (values : List (String × Real64)) : Option Nat :=
  if values.any fun v => isShare v.2 then some (values.countP fun v => isBelow v.2) else none

/-! ### Text -/

/-- A text filled up on the right. -/
def padRight (width : Nat) (s : String) : String :=
  s ++ String.ofList (List.replicate (width - s.length) ' ')

/-- A text filled up on the left. -/
def padLeft (width : Nat) (s : String) : String :=
  String.ofList (List.replicate (width - s.length) ' ') ++ s

/-- A row of the table of files. -/
def tableRow (width : Nat) (name : String) (statements missing : Int) (percent : Real64) : String :=
  padRight width name ++ "  " ++ padLeft 5 (signedText statements) ++ "  " ++
    padLeft 4 (signedText missing) ++ "  " ++ padLeft 4 (percent.fixedText 0) ++ "%"

/-- The steps of a path from the root: a step up takes the one before it away, and
    empty steps and steps that stay are left out. `done` are the steps so far, the
    last one first. -/
def plainSteps (done : List (List Char)) : List (List Char) → List (List Char)
  | [] => done.reverse
  | step :: rest =>
    if step = [] ∨ step = ['.'] then plainSteps done rest
    else if step = ['.', '.'] then plainSteps done.tail rest
    else plainSteps (step :: done) rest

/-- The way from one place to another one, both given by their steps from the
    root. -/
def wayBetween : (start goal : List (List Char)) → List (List Char)
  | s :: ss, g :: gs =>
    if s = g then wayBetween ss gs else (s :: ss).map (fun _ => ['.', '.']) ++ g :: gs
  | ss, gs => ss.map (fun _ => ['.', '.']) ++ gs

/-- The folder of the sources. -/
def sourceFolder : List (List Char) := ["repo".toList]

/-- The most characters of a file's name that are shown. -/
def nameLimit : Nat := 60

/-- The name of a file as seen from the folder of the sources. -/
def localName (name : String) : String :=
  match name.toList with
  | '/' :: path =>
    match wayBetween sourceFolder (plainSteps [] (cutAt '/' path)) with
    | [] => "."
    | steps => String.ofList (['/'].intercalate steps)
  | _ => name

/-- The part of a file's name that is shown. -/
def shownName (name : String) : String := String.ofList ((localName name).toList.take nameLimit)

/-- What the table shows of a file. -/
structure FileRow where
  name : String
  statements : Int
  missing : Int
  percent : Real64
  missingLines : List Json

/-- The row of a file in the coverage. -/
def FileRow.ofMember (f : String × Json) : FileRow :=
  let summary := members (member f.2 "summary")
  { name := shownName f.1
    statements := intAt summary "num_statements"
    missing := intAt summary "missing_lines"
    percent := realAt summary "percent_covered"
    missingLines := match member f.2 "missing_lines" with
      | some (.list xs) => xs
      | _ => [] }

/-- Whether a file comes before another one: the less covered first, and of two
    that are covered alike the larger one. -/
def FileRow.before (x y : FileRow) : Bool :=
  match x.percent.compare y.percent with
  | some .lt => true
  | some .gt => false
  | _ => y.statements ≤ x.statements

/-- The first twelve missing lines. -/
def missingText (lines : List Json) : String :=
  String.intercalate "," ((lines.take 12).map Json.write) ++ if 12 < lines.length then "…" else ""

/-- The table of files. -/
def table (files totals : List (String × Json)) : String :=
  let rows := (files.map FileRow.ofMember).mergeSort FileRow.before
  let width := rows.foldl (fun w r => max w r.name.length) 4
  let rule := String.ofList (List.replicate (width + 42) '-') ++ "\n"
  let line (r : FileRow) : String :=
    tableRow width r.name r.statements r.missing r.percent ++ "  " ++ missingText r.missingLines ++ "\n"
  padRight width "Name" ++ "  Stmts  Miss  Cover  Missing\n" ++ rule ++ String.join (rows.map line) ++
    rule ++
    tableRow width "TOTAL" (intAt totals "num_statements")
      (intAt totals "num_statements" - intAt totals "covered_lines")
      (realAt totals "percent_covered") ++ "\n"

/-- A text as it is, and another value as it is written. -/
def plainText : Json → String
  | .text s => s
  | j => j.write

/-- The first eight benchmarks that failed. -/
def failures (errors : List (String × Json)) : String :=
  if errors.isEmpty then ""
  else
    "\n" ++ decimalText errors.length ++ " bench error(s):\n" ++
      String.join ((errors.take 8).map fun e => "  " ++ e.1 ++ ": " ++ plainText e.2 ++ "\n")

/-- Where the time of a benchmark went besides the sources. -/
def elsewhereText (places : List Json) : String :=
  let place : Json → String
    | .list [x, name] => ((numberOf x).getD ⟨0⟩).fixedText 0 |> fun t => plainText name ++ " " ++ t ++ "%"
    | _ => ""
  " (hot: " ++ String.intercalate " " (places.map place) ++ ")"

/-- The line of a share. -/
def shareLine (s : Shares) (v : String × Real64) : String :=
  let shown := if isShare v.2 then v.2 else ⟨0⟩
  let places := match s.elsewhere.lookup v.1 with
    | some (.list xs) => xs
    | _ => []
  (if isBelow v.2 then "  * " else "    ") ++ padRight 32 v.1 ++ padLeft 6 (shown.fixedText 1) ++ "%" ++
    (if isShare v.2 then "" else "  <error>") ++
    (if isBelow v.2 ∧ places ≠ [] then elsewhereText places else "") ++ "\n"

/-- The shares in rising order. -/
def shareText (s : Shares) : String :=
  if s.values.isEmpty then ""
  else
    "\nrepo_time (target 50%; * = below 45%):\n" ++
      String.join ((s.values.mergeSort fun a b => a.2.compare b.2 != some .gt).map (shareLine s))

/-! ### The record -/

/-- The best number so far, and how many rounds ago it was. -/
structure Progress where
  best : Int
  since : Nat
  deriving DecidableEq, Repr

/-- One more number. -/
def Progress.next : Option Progress → Int → Progress
  | none, n => ⟨n, 0⟩
  | some p, n => if n < p.best then ⟨n, 0⟩ else ⟨p.best, p.since + 1⟩

/-- What a row of numbers amounts to. -/
def progress (ns : List Int) : Option Progress := ns.foldl (fun p n => some (.next p n)) none

/-- The number that a line of the record holds. -/
def recorded (j : Json) : Option Int :=
  match j.get? "n_below_repo_time" with
  | some (.int n) => some n
  | some (.bool b) => some (if b then 1 else 0)
  | _ => none

/-- The lines of a record that have something in them. -/
def recordLines (record : String) : List String := (linesOf record).filter fun l => !isEmptyLine l

/-- The entries of a record; none if a line is no object. -/
def entries (record : String) : Option (List Json) :=
  (recordLines record).mapM fun l =>
    match Json.read? l with
    | some (.object ms) => some (.object ms)
    | _ => none

/-- The time since the last entry, in seconds with two places. -/
def sinceLast (now : Int) (es : List Json) : Real64 :=
  match (es.getLast?.bind fun e => e.get? "ts").bind numberOf with
  | none => ⟨0⟩
  | some ts =>
    match ts.fraction? with
    | none => ⟨0⟩
    | some (neg, num, den) =>
      let d : Int := now * den - signed neg num
      (Real64.ofFraction (d < 0) d.natAbs den 0).roundPlaces 2

/-- The least coverage at which a round can ask to stop. -/
def stopCoverage : Real64 := Real64.ofFraction false 60 1 0

/-- How many rounds without anything better are enough. -/
def patience : Nat := 3

/-- The request to stop, if there is one, given the numbers of all rounds. -/
def stopText (coverage : Real64) (below : Option Nat) (history : List Int) : String :=
  let ask (why : String) : String :=
    "\n>>> STOP: repo_time converged (" ++ why ++ "). Finalize microbench.py now. <<<\n"
  if coverage.compare stopCoverage == some .lt then ""
  else
    match below, progress history with
    | none, _ => ""
    | some 0, _ => ask "0 below"
    | some _, some p =>
      if patience ≤ p.since then
        ask ("no improvement in " ++ decimalText p.since ++ " rounds; best " ++ signedText p.best ++
          " below")
      else ""
    | some _, none => ""

/-! ### Benchmarks in a text -/

/-- Whether a text begins with the head of a benchmark. -/
def beginsBench (cs : List Char) : Bool :=
  match afterFront? "def bench_".toList cs with
  | none => false
  | some rest =>
    (rest.head?.map isWordChar).getD false &&
      ((rest.dropWhile isWordChar).dropWhile isBlank).head? == some '('

/-- How many benchmarks a text defines at the starts of its lines. -/
def benchCount (start : Bool) : List Char → Nat
  | [] => 0
  | c :: cs =>
    (if start && beginsBench (c :: cs) then 1 else 0) + benchCount (c == '\n') cs

/-! ### A round -/

/-- A round whose coverage run failed. -/
def failed (status : Int) (output errors : String) : Outcome :=
  ⟨some (if status = 0 then 1 else status),
   "coverage measurement failed (exit " ++ signedText status ++ ")\n" ++ output ++ "\n", errors, ""⟩

/-- A round whose coverage run gave a file. -/
def measured (r : Round) (coverage : Json) (runnerErrors record : String) : Outcome :=
  let totals := members (member coverage "totals")
  let errors := members ((member coverage "meta").bind fun m => member m "_pti_bench_errors")
  let percent := realAt totals "percent_covered"
  let (shares, shareErrors) : Shares × String :=
    match r.shares with
    | none => ({}, "")
    | some child =>
      match answerOf child with
      | .error e => ({}, errorsOf child ++ complaint "repotime" e)
      | .ok none => ({}, errorsOf child)
      | .ok (some j) =>
        match sharesOf j with
        | .ok s => (s, errorsOf child)
        | .error e => ({}, errorsOf child ++ complaint "repotime" e)
  let checkErrors : String :=
    match r.checks with
    | none => ""
    | some child =>
      match answerOf child with
      | .error e => errorsOf child ++ complaint "semcheck" e
      | .ok _ => errorsOf child
  let below := belowCount shares.values
  let round := (recordLines record).length + 1
  let count := benchCount true (r.benches.getD "").toList
  let seconds := Real64.ofFraction (r.elapsedMs < 0) r.elapsedMs.natAbs 1000 0
  let ofSize : Nat → Json := fun n => .int n
  let entry (es : List Json) : Json := .object
    [("round", ofSize round), ("ts", .real ((Real64.ofInt? r.now).getD ⟨0⟩)),
     ("wall_since_prev_s", .real (sinceLast r.now es)), ("coverage_pct", .real percent),
     ("covered_lines", .int (intAt totals "covered_lines")),
     ("num_statements", .int (intAt totals "num_statements")), ("n_bench_fns", ofSize count),
     ("n_bench_errors", ofSize errors.length), ("cov_measure_s", .real seconds),
     ("repo_time_pct", .object (shares.values.map fun v => (v.1, .real v.2))),
     ("n_below_repo_time", match below with | some n => ofSize n | none => .null),
     ("semcheck", .object []), ("n_not_self_checking", .int 0)]
  let known := entries record
  let history : List Int :=
    (known.getD []).filterMap recorded ++ (below.map fun n => (n : Int)).toList
  let belowText := match below with
    | some n =>
      decimalText n ++ "/" ++ decimalText (shares.values.countP fun v => isShare v.2) ++
        " below repo_time 45%, "
    | none => ""
  { status := none
    output :=
      table (members (member coverage "files")) totals ++ failures errors ++ shareText shares ++
        "\n[round " ++ decimalText round ++ ": " ++ decimalText count ++ " benches, " ++
        percent.fixedText 1 ++ "% covered, " ++ belowText ++ "measured in " ++
        seconds.fixedText 1 ++ "s]\n" ++ stopText percent below history
    errors := runnerErrors ++ shareErrors ++ checkErrors
    added := match known with
      | some es => (entry es).write ++ "\n"
      | none => "" }

/-- A round, with the record of those before. -/
def Round.run (r : Round) (record : String) : Outcome :=
  match r.runner with
  | .timedOut => ⟨some 1, "", "", ""⟩
  | .ended status output errors =>
    if status ≠ 0 then failed status output errors
    else
      match r.coverage with
      | none => failed status output errors
      | some text =>
        match Json.read? text with
        | none => ⟨some 1, "", errors, ""⟩
        | some coverage => measured r coverage errors record

/-- Rounds one after the other, each with the record that the ones before left. -/
def runAll (record : String) : List Round → List Outcome
  | [] => []
  | r :: rs =>
    let o := r.run record
    o :: runAll (record ++ o.added) rs

end Report

end StackLang
