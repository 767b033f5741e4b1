import StackLang.Conversion
import StackLang.Machine
import StackLang.Tree

/-!
# Integer programs

The part of the language that computes with integers: declarations, assignments,
conditionals and loops, without calls, exits and lists. Programs of this part are a
syntax of their own here, which `Expr.node`, `Stmt.node` and `Top.node` map to trees.

Programs can be read in two ways. As they are *meant*, integers are signed words that
wrap, what is not zero is true, and of a conditional the first block whose condition
holds is executed. As they are *compiled*, two things differ: the blocks of further
conditions are not entered, and an expression that needs more room than the stack has no
value. `Top.exec` is the meaning of a program in either reading, with a bound on the
rounds of its loops.
-/

namespace StackLang

namespace Source

/-! ### Syntax -/

/-- The operators that compute with numbers. -/
inductive Arithmetic where
  | add
  | sub
  | mul
  | eq
  | ne
  | lt
  | gt
  | le
  | ge
  deriving DecidableEq, Repr

/-- The operators that join truth values. -/
inductive Junction where
  | and
  | or
  deriving DecidableEq, Repr

/-- Expressions. Only those that may be `logical` use the logical operators. A number is
    given by any value that converts to it. -/
inductive Expr (logical : Bool) where
  | number (a : Atom) (n : Int32) (h : a.toInt = .ok n.toInt)
  | name (v : String)
  | arithmetic (op : Arithmetic) (a b : Expr logical)
  | junction (h : logical = true) (op : Junction) (a b : Expr logical)
  | negation (h : logical = true) (a : Expr logical)

mutual

/-- Statements. -/
inductive Stmt where
  | assign (v : String) (e : Expr false)
  | conditional (c : Expr true) (thenBlock : Block) (rest : Chain)
  | whileLoop (c : Expr true) (body : Block)

/-- Statements one after the other. -/
inductive Block where
  | nil
  | cons (s : Stmt) (b : Block)

/-- What follows the first block of a conditional: further conditions with their blocks,
    and a last block or none. -/
inductive Chain where
  | absent
  | otherwise (b : Block)
  | further (c : Expr true) (b : Block) (rest : Chain)

end

/-- Statements that stand outside of blocks. -/
inductive Top where
  | stmt (s : Stmt)
  | declare (v : String) (e : Option (Expr false))
  | forLoop (v : String) (e : Expr false) (c : Expr true) (body : Block)

/-! ### Trees -/

namespace Arithmetic

/-- How the operator is written. -/
def symbol : Arithmetic → String
  | add => "+"
  | sub => "-"
  | mul => "*"
  | eq => "=="
  | ne => "!="
  | lt => "<"
  | gt => ">"
  | le => "<="
  | ge => ">="

end Arithmetic

namespace Junction

/-- How the operator is written. -/
def symbol : Junction → String
  | and => "and"
  | or => "or"

end Junction

/-- The tree of an expression. -/
def Expr.node {l : Bool} : Expr l → Node
  | number a _ _ => .literal "INT_LITERAL" a
  | name v => .literal "VARIABLE" (.text v)
  | arithmetic op a b => .binary op.symbol a.node (some b.node)
  | junction _ op a b => .binary op.symbol a.node (some b.node)
  | negation _ a => .binary "not" a.node none

mutual

/-- The tree of a statement. -/
def Stmt.node : Stmt → Node
  | .assign v e => .assign (.atom (.text v)) e.node
  | .conditional c b rest => .conditional c.node b.nodes rest.branches rest.last
  | .whileLoop c b => .whileLoop c.node b.nodes

/-- The trees of a block. -/
def Block.nodes : Block → List Node
  | .nil => []
  | .cons s b => s.node :: b.nodes

/-- The trees of further conditions and their blocks. -/
def Chain.branches : Chain → List Branch
  | .absent => []
  | .otherwise _ => []
  | .further c b rest => .mk c.node b.nodes :: rest.branches

/-- The trees of the last block. -/
def Chain.last : Chain → Option (List Node)
  | .absent => none
  | .otherwise b => some b.nodes
  | .further _ _ rest => rest.last

end

/-- The tree of a statement outside of blocks. -/
def Top.node : Top → Node
  | stmt s => s.node
  | declare v e => .declare (.text v) "INT" (e.map Expr.node)
  | forLoop v e c b =>
    .forLoop (.node (.declare (.text v) "INT" (some e.node))) c.node b.nodes

/-! ### Names -/

/-- Whether an expression uses only the given names. -/
def Expr.uses {l : Bool} (names : List String) : Expr l → Bool
  | number .. => true
  | name v => names.contains v
  | arithmetic _ a b => a.uses names && b.uses names
  | junction _ _ a b => a.uses names && b.uses names
  | negation _ a => a.uses names

mutual

/-- Whether a statement uses only the given names. -/
def Stmt.uses (names : List String) : Stmt → Bool
  | .assign v e => names.contains v && e.uses names
  | .conditional c b rest => c.uses names && b.uses names && rest.uses names
  | .whileLoop c b => c.uses names && b.uses names

/-- Whether a block uses only the given names. -/
def Block.uses (names : List String) : Block → Bool
  | .nil => true
  | .cons s b => s.uses names && b.uses names

/-- Whether what follows the first block of a conditional uses only the given names. -/
def Chain.uses (names : List String) : Chain → Bool
  | .absent => true
  | .otherwise b => b.uses names
  | .further c b rest => c.uses names && b.uses names && rest.uses names

end

namespace Top

/-- The name that a statement declares, if it declares one. -/
def names : Top → List String
  | stmt _ => []
  | declare v _ => [v]
  | forLoop v _ _ _ => [v]

/-- Whether a statement uses only the given names and declares another one, if it declares
    one. -/
def fits (names : List String) : Top → Bool
  | stmt s => s.uses names
  | declare v e => !names.contains v && e.all (Expr.uses names)
  | forLoop v e c b =>
    !names.contains v && e.uses names && c.uses (names ++ [v]) && b.uses (names ++ [v])

end Top

section

variable {names : List String} {v : String} {e : Expr false} {c : Expr true} {b : Block}
  {rest : Chain}

theorem Stmt.uses_assign :
    (Stmt.assign v e).uses names = true ↔ v ∈ names ∧ e.uses names = true := by
  simp [Stmt.uses]

theorem Stmt.uses_conditional : (Stmt.conditional c b rest).uses names = true ↔
    (c.uses names = true ∧ b.uses names = true) ∧ rest.uses names = true := by
  simp [Stmt.uses]

theorem Chain.uses_further : (Chain.further c b rest).uses names = true ↔
    (c.uses names = true ∧ b.uses names = true) ∧ rest.uses names = true := by
  simp [Chain.uses]

theorem Top.fits_forLoop : (Top.forLoop v e c b).fits names = true ↔
    ((v ∉ names ∧ e.uses names = true) ∧ c.uses (names ++ [v]) = true) ∧
      b.uses (names ++ [v]) = true := by
  simp [Top.fits]

end

/-- Whether every statement of a program uses only names that are declared before it, and
    declares no name again. The given names are declared before the program. -/
def wellScoped (names : List String) : List Top → Bool
  | [] => true
  | t :: ts => t.fits names && wellScoped (names ++ t.names) ts

/-! ### Values -/

/-- The variables and their values, in the order of their declarations. -/
abbrev Store := List (String × Int32)

namespace Store

/-- The names of the variables. -/
abbrev names (s : Store) : List String := s.map Prod.fst

/-- Change the value of a variable. -/
def set : Store → String → Int32 → Store
  | [], _, _ => []
  | p :: s, v, x => if p.1 = v then (v, x) :: s else p :: set s v x

end Store

/-- A truth value as a number. -/
def truth (b : Bool) : Int32 := if b then 1 else 0

/-- The value of an operator. -/
def Arithmetic.apply : Arithmetic → Int32 → Int32 → Int32
  | add, x, y => x + y
  | sub, x, y => x - y
  | mul, x, y => x * y
  | eq, x, y => truth (x = y)
  | ne, x, y => truth (x ≠ y)
  | lt, x, y => truth (x < y)
  | gt, x, y => truth (y < x)
  | le, x, y => truth (x ≤ y)
  | ge, x, y => truth (y ≤ x)

/-- The value of an operator. -/
def Junction.apply : Junction → Int32 → Int32 → Int32
  | and, x, y => truth (x ≠ 0 ∧ y ≠ 0)
  | or, x, y => truth (x ≠ 0 ∨ y ≠ 0)

namespace Expr

variable {l : Bool}

/-- The value of an expression, if all its variables have one. -/
def eval (s : Store) : Expr l → Option Int32
  | number _ n _ => some n
  | name v => s.lookup v
  | arithmetic op a b => do return op.apply (← a.eval s) (← b.eval s)
  | junction _ op a b => do return op.apply (← a.eval s) (← b.eval s)
  | negation _ a => do return truth ((← a.eval s) = 0)

/-- How many items lie on the stack at the same time while the expression is computed. -/
def depth : Expr l → Nat
  | number .. => 1
  | name _ => 1
  | arithmetic _ a b => max a.depth (b.depth + 1)
  | junction _ _ a b => max a.depth (b.depth + 1)
  | negation _ a => a.depth

end Expr

/-! ### Readings -/

/-- How a program is read. -/
inductive Reading where
  | meant
  | compiled
  deriving DecidableEq, Repr

/-- The value of an expression. A compiled one has to find room on the stack. -/
def Reading.value (r : Reading) {l : Bool} (e : Expr l) (s : Store) : Option Int32 :=
  if r = .compiled ∧ stackLimit < e.depth then none else e.eval s

/-- Rounds as long as a test holds; without a result if there are too many. -/
def iterate (test : Store → Option Int32) (round : Store → Option Store) :
    (rounds : Nat) → Store → Option Store
  | 0, _ => none
  | n + 1, s => do if (← test s) ≠ 0 then iterate test round n (← round s) else return s

mutual

/-- The store after a statement; `n` bounds the rounds of each loop. -/
def Stmt.exec (r : Reading) (n : Nat) : Stmt → Store → Option Store
  | .assign v e, s => do return s.set v (← r.value e s)
  | .conditional c b rest, s => do if (← r.value c s) ≠ 0 then b.exec r n s else rest.exec r n s
  | .whileLoop c b, s => iterate (r.value c) (b.exec r n) n s

/-- The store after a block. -/
def Block.exec (r : Reading) (n : Nat) : Block → Store → Option Store
  | .nil, s => some s
  | .cons st b, s => do b.exec r n (← st.exec r n s)

/-- The store after what follows the first block of a conditional. The blocks of further
    conditions are not entered by compiled code. -/
def Chain.exec (r : Reading) (n : Nat) : Chain → Store → Option Store
  | .absent, s => some s
  | .otherwise b, s => b.exec r n s
  | .further c b rest, s => do
    if (← r.value c s) ≠ 0 then
      match r with
      | .meant => b.exec r n s
      | .compiled => return s
    else rest.exec r n s

end

/-- The store after a round of a loop that counts. -/
def countRound (r : Reading) (n : Nat) (v : String) (b : Block) (s : Store) : Option Store := do
  let s ← b.exec r n s
  return s.set v ((← s.lookup v) + 1)

/-- The store after a statement outside of blocks. -/
def Top.exec (r : Reading) (n : Nat) : Top → Store → Option Store
  | stmt st, s => st.exec r n s
  | declare v none, s => some (s ++ [(v, 0)])
  | declare v (some e), s => do return s ++ [(v, ← r.value e s)]
  | forLoop v e c b, s => do
    iterate (r.value c) (countRound r n v b) n (s ++ [(v, ← r.value e s)])

/-- The store after a program. -/
def exec (r : Reading) (n : Nat) : List Top → Store → Option Store
  | [], s => some s
  | t :: ts, s => do exec r n ts (← t.exec r n s)

end Source

end StackLang
