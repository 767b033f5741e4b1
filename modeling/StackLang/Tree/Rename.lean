import StackLang.Tree

/-!
# Parameter renaming

Inside the body of a function its parameters go by qualified names, the name of
the function and the parameter with a point between them. `Node.rename` walks a
body and qualifies the names it meets: the values of literals, called functions
and their receivers, the bases of member accesses, assigned names and loop
counters. It goes into operands, arguments, indices, initial values, conditions,
blocks and returned values; it leaves assigned values, the items of list
literals, the nodes among receivers and bases, and nested declarations of
functions as they are.
-/

namespace StackLang

/-- The qualified form of a name, if it is one of the parameters. -/
def qualify (function : String) (parameters : List Atom) (name : Atom) : Atom :=
  if parameters.any (·.same name) then .text (function ++ "." ++ name.shown) else name

/-- The qualified form of a text. -/
def qualifyText (function : String) (parameters : List Atom) (name : String) : String :=
  (qualify function parameters (.text name)).shown

/-- An operand with its name qualified; a node stays as it is. -/
def Operand.qualify (function : String) (parameters : List Atom) : Operand → Operand
  | .atom a => .atom (StackLang.qualify function parameters a)
  | .node n => .node n

variable (f : String) (ps : List Atom)

mutual

/-- The node with the names of parameters qualified. -/
def Node.rename : Node → Node
  | .block ss => .block (renameAll ss)
  | .binary op a b => .binary op a.rename (renameOption b)
  | .literal k v => .literal k (qualify f ps v)
  | .call g xs o => .call (qualifyText f ps g) (renameAll xs) (o.qualify f ps)
  | .create r xs => .create r (renameAll xs)
  | .member o a i => .member (o.qualify f ps) a.rename i
  | .cast t s x => .cast t s x.rename
  | .declare n t v => .declare n t (renameOption v)
  | .assign t v => .assign (t.qualify f ps) v
  | .conditional c t bs e =>
    .conditional c.rename (renameAll t) (renameBranches bs)
      (match e with
      | none => none
      | some ss => some (renameAll ss))
  | .whileLoop c body => .whileLoop c.rename (renameAll body)
  | .forLoop v c body => .forLoop (v.qualify f ps) c.rename (renameAll body)
  | .giveBack v => .giveBack (renameOption v)
  | n => n

/-- A selector with the names of parameters qualified: a name of a field stays
    as it is. -/
def Operand.rename : Operand → Operand
  | .atom a => .atom a
  | .node n => .node n.rename

/-- The nodes with the names of parameters qualified. -/
def renameAll : List Node → List Node
  | [] => []
  | n :: ns => n.rename :: renameAll ns

/-- The node, if there is one, with the names of parameters qualified. -/
def renameOption : Option Node → Option Node
  | none => none
  | some n => some n.rename

/-- The further conditions with the names of parameters qualified. -/
def renameBranches : List Branch → List Branch
  | [] => []
  | .mk c t :: bs => .mk c.rename (renameAll t) :: renameBranches bs

end

end StackLang
