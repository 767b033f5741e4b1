import StackLang.Atom
import StackLang.Text.Search

/-!
# Syntax trees

The tree of a program. There is one type of *nodes*, since an expression can
stand as a statement and every node can be handed to the code generator. A node
refers to a variable by an *operand*: its name, or a node that computes it.

The operands of a binary node are in the order in which they are written. A
negation is a binary node without a second operand.
-/

namespace StackLang

/-- A parameter of a function or a field of a record: its type and its name. -/
structure Parameter where
  type : String
  name : Atom
  deriving DecidableEq, Repr, Inhabited

mutual

/-- A node of a syntax tree. -/
inductive Node where
  | block (statements : List Node)
  | binary (operator : String) (first : Node) (second : Option Node)
  /-- A literal or a variable, by its kind. -/
  | literal (kind : String) (value : Atom)
  | listLiteral (kind : String) (items : List Node)
  /-- A call of a function, on the object that receives it. -/
  | call (function : String) (args : List Node) (receiver : Operand)
  /-- The creation of a record. -/
  | create (record : Atom) (args : List Node)
  /-- An element of a list if `indexed`, else a field of a record. -/
  | member (object selector : Operand) (indexed : Bool)
  | cast (target source : String) (operand : Node)
  | declare (name : Atom) (type : String) (value : Option Node)
  | parameter (p : Parameter)
  | function (name : Atom) (result : String) (parameters : List Parameter) (body : List Node)
  | record (name : Atom) (fields : List Parameter)
  | assign (target : Operand) (value : Node)
  | conditional (condition : Node) (thenBlock : List Node) (branches : List Branch)
      (elseBlock : Option (List Node))
  | whileLoop (condition : Node) (body : List Node)
  | forLoop (counter : Operand) (condition : Node) (body : List Node)
  | breakLoop
  | continueLoop
  | giveBack (value : Option Node)
  /-- A node that says nothing more than its group. -/
  | plain
  | plainExpression
  | plainUnary
  | plainDeclaration (name : Atom)

/-- What a node refers to: a name, or what a node computes. -/
inductive Operand where
  | atom (a : Atom)
  | node (n : Node)

/-- A further condition of a conditional, with its block. -/
inductive Branch where
  | mk (condition : Node) (body : List Node)

end

instance : Inhabited Node := ⟨.plain⟩

instance : Inhabited Operand := ⟨.atom .nothing⟩

instance : Inhabited Branch := ⟨.mk .plain []⟩

/-- The receiver of a call that names none. -/
def Operand.system : Operand := .atom (.text "System")

/-- The group of nodes that stand for one value, other than by an operator. -/
def Node.isUnary : Node → Bool
  | .literal .. | .listLiteral .. | .call .. | .create .. | .member .. | .cast .. | .plainUnary => true
  | _ => false

/-! ### Documents -/

/-- A description of a value: atoms, lists, and members in order. -/
inductive Doc where
  | atom (a : Atom)
  | list (items : List Doc)
  | dict (members : List (String × Doc))
  deriving Repr, Inhabited

/-- A text in a description. -/
def Doc.text (s : String) : Doc := .atom (.text s)

/-- What is absent. -/
def Doc.none : Doc := .atom .nothing

namespace Doc

/-- A text of `n` blanks. -/
def blanks (n : Nat) : String := String.ofList (List.replicate n ' ')

mutual

/-- The document as indented text, each line ended. -/
def pretty (indent : Nat) : Doc → String
  | .atom a => a.shown ++ "\n"
  | .list [] => "[]\n"
  | .list (x :: xs) => "[\n" ++ prettyItems indent (x :: xs) ++ blanks indent ++ "]\n"
  | .dict ms => "\x7b\n" ++ prettyMembers indent ms ++ blanks indent ++ "\x7d\n"

/-- The items of a list, four columns further in. -/
def prettyItems (indent : Nat) : List Doc → String
  | [] => ""
  | x :: xs => blanks (indent + 4) ++ pretty (indent + 4) x ++ prettyItems indent xs

/-- The members, four columns further in. -/
def prettyMembers (indent : Nat) : List (String × Doc) → String
  | [] => ""
  | (k, x) :: ms =>
    blanks (indent + 4) ++ k ++ ": " ++ pretty (indent + 4) x ++ prettyMembers indent ms

end

end Doc

/-- The description of a parameter. -/
def Parameter.describe (p : Parameter) : Doc :=
  .dict [("type", .text p.type), ("identifier", .atom p.name)]

mutual

/-- The description of a node. -/
def Node.describe : Node → Doc
  | .block ss => .dict [("type", .text "BlockNode"), ("statements", .list (describeAll ss))]
  | .binary op a b => .dict
    [("type", .text "BinaryExpression"), ("operator", .text op), ("left", describeOption b),
     ("right", a.describe)]
  | .literal k v => .dict
    [("type", .text "Literal"), ("value_type", .text k),
     ("value", if holds "STRING" k then .text ("'" ++ v.shown ++ "'") else .atom v)]
  | .listLiteral k xs => .dict
    [("type", .text "Literal"), ("value_type", .text k),
     ("value", if holds "STRING" k then .text (if xs.isEmpty then "'[]'" else "'[...]'")
       else .list (describeAll xs))]
  | .call f xs o => .dict
    [("type", .text "FunctionCall"), ("identifier", .text f), ("args", .list (describeAll xs)),
     ("from_obj", o.describe)]
  | .create r xs => .dict
    [("type", .text "NewCall"), ("struct", .atom r), ("args", .list (describeAll xs))]
  | .member o a _ => .dict
    [("type", .text "MemberAccess"), ("object", o.describe), ("attribute", a.describe)]
  | .cast t s x => .dict
    [("type", .text "CastingExpression"), ("new type", .text t), ("old type", .text s),
     ("expression", x.describe)]
  | .declare n t v => .dict
    [("type", .text "VariableDeclaration"), ("identifier", .atom n), ("var_type", .text t),
     ("initializer", describeOption v)]
  | .parameter p => p.describe
  | .function n r ps body => .dict
    [("type", .text "FunctionDeclaration"), ("identifier", .atom n), ("return_type", .text r),
     ("parameters", .list (ps.map Parameter.describe)), ("body", describeBlock body)]
  | .record n fs => .dict
    [("type", .text "ClassDeclaration"), ("identifier", .atom n),
     ("attributes", .list (fs.map Parameter.describe))]
  | .assign t v => .dict
    [("type", .text "AssignmentNode"), ("identifier", t.describe), ("value", v.describe)]
  | .conditional c t bs e => .dict
    [("type", .text "IfStatement"), ("condition", c.describe), ("then_block", describeBlock t),
     ("elif_statements", .list (describeBranches bs)),
     ("else_block", match e with
      | none => Doc.none
      | some ss => describeBlock ss)]
  | .whileLoop c body => .dict
    [("type", .text "WhileStatement"), ("condition", c.describe), ("body", describeBlock body)]
  | .forLoop v c body => .dict
    [("type", .text "ForStatement"), ("variable", v.describe), ("condition", c.describe),
     ("body", describeBlock body)]
  | .breakLoop => .dict [("type", .text "BreakStatement")]
  | .continueLoop => .dict [("type", .text "ContinueStatement")]
  | .giveBack v => .dict [("type", .text "ReturnStatement"), ("return", describeOption v)]
  | .plain => .dict [("type", .text "ASTNode")]
  | .plainExpression => .dict [("type", .text "ExpressionNode")]
  | .plainUnary => .dict [("type", .text "UnaryExpressionNode")]
  | .plainDeclaration n => .dict [("type", .text "DeclarationNode"), ("identifier", .atom n)]

/-- The description of an operand. -/
def Operand.describe : Operand → Doc
  | .atom a => .atom a
  | .node n => n.describe

/-- The descriptions of nodes. -/
def describeAll : List Node → List Doc
  | [] => []
  | n :: ns => n.describe :: describeAll ns

/-- The description of a node that may be absent. -/
def describeOption : Option Node → Doc
  | none => Doc.none
  | some n => n.describe

/-- The description of a block. -/
def describeBlock (ss : List Node) : Doc :=
  .dict [("type", .text "BlockNode"), ("statements", .list (describeAll ss))]

/-- The descriptions of further conditions, each as a conditional of its own. -/
def describeBranches : List Branch → List Doc
  | [] => []
  | .mk c t :: bs =>
    .dict [("type", .text "IfStatement"), ("condition", c.describe), ("then_block", describeBlock t),
      ("elif_statements", .list []), ("else_block", Doc.none)] :: describeBranches bs

end

end StackLang
