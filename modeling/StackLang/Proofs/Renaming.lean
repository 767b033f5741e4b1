import StackLang.Proofs.Literal

/-!
# What renaming of parameters reaches

`Node.substitute` is renaming as it is meant: every reference to a variable that has the name of
a parameter gets the qualified name, wherever in a tree it is, and nothing else changes.
`Node.rename` differs from it in two ways. It takes some names for variables that are none, the
values of all literals and the names of called functions among them. And it does not go everywhere:
not into the items of lists, assigned values, receivers and bases that are computed, the declaration
of a loop, and the bodies of functions.

* `Node.substitute_eq_self_iff`: substitution changes a tree if and only if the tree refers to a
  parameter;
* `Node.rename_eq_step`: where renaming and substitution of one node agree;
* `rename_exact_iff`: renaming of a body is substitution if and only if none of the names that it
  mistakes, and no reference in what it leaves out, is the name of a parameter.
-/

namespace StackLang

open List Operand

/-- The receiver of a call that names none. -/
def Operand.isSystem : Operand → Bool
  | .atom a => a == .text "System"
  | .node _ => false

/-! ### Substitution -/

section

variable (f : String) (ps : List Atom)

mutual

/-- The node with every reference to a parameter qualified. -/
def Node.substitute : Node → Node
  | .block ss => .block (substituteAll ss)
  | .binary op a b => .binary op a.substitute (substituteOption b)
  | .literal k v => .literal k (if k = "VARIABLE" then qualify f ps v else v)
  | .listLiteral k xs => .listLiteral k (substituteAll xs)
  | .call g xs o => .call g (substituteAll xs) (if o.isSystem then o else o.substitute)
  | .create r xs => .create r (substituteAll xs)
  | .member o a i => .member o.substitute a.substituteSelector i
  | .cast t s x => .cast t s x.substitute
  | .declare n t v => .declare n t (substituteOption v)
  | .function n r qs body => .function n r qs (substituteAll body)
  | .assign t v => .assign t.substitute v.substitute
  | .conditional c t bs e =>
    .conditional c.substitute (substituteAll t) (substituteBranches bs)
      (match e with
      | none => none
      | some ss => some (substituteAll ss))
  | .whileLoop c body => .whileLoop c.substitute (substituteAll body)
  | .forLoop v c body => .forLoop v.substitute c.substitute (substituteAll body)
  | .giveBack v => .giveBack (substituteOption v)
  | n => n

/-- An operand that refers to a variable by its name, or computes what it refers to. -/
def Operand.substitute : Operand → Operand
  | .atom a => .atom (StackLang.qualify f ps a)
  | .node n => .node n.substitute

/-- A selector: the name of a field is no reference. -/
def Operand.substituteSelector : Operand → Operand
  | .atom a => .atom a
  | .node n => .node n.substitute

/-- The nodes with every reference to a parameter qualified. -/
def substituteAll : List Node → List Node
  | [] => []
  | n :: ns => n.substitute :: substituteAll ns

/-- The node, if there is one, with every reference to a parameter qualified. -/
def substituteOption : Option Node → Option Node
  | none => none
  | some n => some n.substitute

/-- The further conditions with every reference to a parameter qualified. -/
def substituteBranches : List Branch → List Branch
  | [] => []
  | .mk c t :: bs => .mk c.substitute (substituteAll t) :: substituteBranches bs

end

end

/-! ### References -/

/-- The name that an operand is, if it is one. -/
def Operand.names : Operand → List Atom
  | .atom a => [a]
  | .node _ => []

namespace Node

/-- The variables that a node refers to itself. -/
def named : Node → List Atom
  | .literal k v => if k = "VARIABLE" then [v] else []
  | .call _ _ o => if o.isSystem then [] else o.names
  | .member o _ _ | .assign o _ | .forLoop o _ _ => o.names
  | _ => []

/-- The variables that a node and the nodes below it refer to. -/
def references (n : Node) : List Atom :=
  n.named ++ n.children.attach.flatMap fun m => references m.1
termination_by sizeOf n
decreasing_by exact sizeOf_children m.2

theorem references_eq (n : Node) : n.references = n.named ++ n.children.flatMap references := by
  rw [references]
  simp [List.flatMap]

/-- The names of a node that renaming treats like variables, but that are none: the values of
    other literals, the function that is called, and the receiver that stands for none. -/
def mistaken : Node → List Atom
  | .literal k v => if k = "VARIABLE" then [] else [v]
  | .call g _ o => .text g :: if o.isSystem then o.names else []
  | _ => []

/-- The nodes right below a node that renaming leaves out. -/
def skipped : Node → List Node
  | .listLiteral _ xs => xs
  | .call _ _ o | .member o _ _ | .forLoop o _ _ => o.nodes
  | .function _ _ _ body => body
  | .assign t v => v :: t.nodes
  | _ => []

/-- The nodes right below a node that renaming goes into. -/
def entered : Node → List Node
  | .call _ xs _ => xs
  | .member _ a _ => a.nodes
  | .forLoop _ c body => c :: body
  | .listLiteral .. | .function .. | .assign .. => []
  | n => n.children

theorem mem_children_of_entered {n m : Node} (h : m ∈ n.entered) : m ∈ n.children := by
  cases n with
  | call g xs o => exact mem_append_left _ h
  | member o a i | forLoop v c body => exact mem_append_right _ h
  | listLiteral k xs | function n r qs body | assign t v => cases h
  | _ => exact h

/-- The nodes that renaming comes to. -/
def visited (n : Node) : List Node :=
  n :: n.entered.attach.flatMap fun m => visited m.1
termination_by sizeOf n
decreasing_by exact sizeOf_children (mem_children_of_entered m.2)

theorem visited_eq (n : Node) : n.visited = n :: n.entered.flatMap visited := by
  rw [visited]
  simp [List.flatMap]

end Node

/-! ### Names and lists -/

section

variable {f : String} {ps : List Atom} {ns : List Node} {v : Option Node} {bs : List Branch}

/-- A qualified name is longer than the name. -/
theorem qualify_eq_self_iff {a : Atom} : qualify f ps a = a ↔ ¬ps.any (·.same a) := by
  unfold qualify
  split
  · rename_i h
    refine iff_of_false (fun heq => ?_) (not_not_intro h)
    have hshown := congrArg Atom.shown heq
    rw [Atom.shown] at hshown
    have := congrArg String.length hshown
    simp only [String.length_append] at this
    have hdot : ".".length = 1 := rfl
    omega
  · rename_i h
    exact iff_of_true rfl h

theorem qualifyText_eq_self_iff {g : String} :
    qualifyText f ps g = g ↔ ¬ps.any (·.same (.text g)) := by
  rw [← qualify_eq_self_iff (f := f), qualifyText]
  unfold qualify
  split <;> simp [Atom.shown]

/-! ### Substitution that changes nothing -/

theorem substituteAll_eq_self_iff :
    substituteAll f ps ns = ns ↔ ∀ n ∈ ns, n.substitute f ps = n := by
  induction ns with
  | nil => simp [substituteAll]
  | cons n ns ih => simp [substituteAll, ih]

theorem substituteOption_eq_self_iff :
    substituteOption f ps v = v ↔ ∀ n ∈ v.toList, n.substitute f ps = n := by
  cases v <;> simp [substituteOption]

theorem substituteBranches_eq_self_iff :
    substituteBranches f ps bs = bs ↔ ∀ n ∈ bs.flatMap Branch.nodes, n.substitute f ps = n := by
  induction bs with
  | nil => simp [substituteBranches]
  | cons b bs ih =>
    obtain ⟨c, ss⟩ := b
    rw [substituteBranches, List.cons.injEq, Branch.mk.injEq, substituteAll_eq_self_iff, ih,
      flatMap_cons, forall_mem_append, Branch.nodes, forall_mem_cons]
    rfl

namespace Operand

variable {o : Operand}

theorem substitute_eq_self_iff :
    o.substitute f ps = o ↔
      (∀ x ∈ o.names, ¬ps.any (·.same x)) ∧ ∀ n ∈ o.nodes, n.substitute f ps = n := by
  cases o with
  | atom a => simp [substitute, names, nodes, qualify_eq_self_iff]
  | node n => simp [substitute, names, nodes]

theorem substituteSelector_eq_self_iff :
    o.substituteSelector f ps = o ↔ ∀ n ∈ o.nodes, n.substitute f ps = n := by
  cases o <;> simp [substituteSelector, nodes]

/-- The receiver that stands for none is a name. -/
theorem nodes_of_isSystem (h : o.isSystem) : o.nodes = [] := by
  cases o with
  | atom a => rfl
  | node n => cases h

end Operand

namespace Node

variable {n : Node}

/-- Substitution leaves a node as it is if the node refers to no parameter itself and all nodes
    below it stay as they are. -/
theorem substitute_eq_self_step :
    n.substitute f ps = n ↔
      (∀ x ∈ n.named, ¬ps.any (·.same x)) ∧ ∀ m ∈ n.children, m.substitute f ps = m := by
  cases n with
  | literal k v =>
    by_cases hk : k = "VARIABLE"
    · simp [substitute, named, children, hk, qualify_eq_self_iff]
    · simp [substitute, named, children, hk]
  | call g xs o =>
    by_cases ho : o.isSystem
    · simp [substitute, named, children, ho, substituteAll_eq_self_iff, Operand.nodes_of_isSystem]
    · simp [substitute, named, children, ho, substituteAll_eq_self_iff,
        substitute_eq_self_iff, or_imp, forall_and, and_left_comm]
  | conditional c thenBlock bs elseBlock =>
    cases elseBlock <;>
      simp [substitute, named, children, substituteAll_eq_self_iff, substituteBranches_eq_self_iff,
        or_imp, forall_and, and_assoc, and_comm]
  | _ =>
    simp [substitute, named, children, substituteAll_eq_self_iff, substituteOption_eq_self_iff,
      substitute_eq_self_iff, substituteSelector_eq_self_iff, or_imp, forall_and,
      and_assoc, and_comm, and_left_comm]

/-- Substitution changes a tree if and only if the tree refers to a parameter. -/
theorem substitute_eq_self_iff :
    n.substitute f ps = n ↔ ∀ x ∈ n.references, ¬ps.any (·.same x) := by
  induction n using Node.childInduction with
  | h n ih =>
    rw [substitute_eq_self_step, references_eq, forall_mem_append, forall_mem_flatMap]
    exact and_congr_right fun _ => forall₂_congr ih

end Node

/-! ### Renaming that is substitution -/

theorem renameAll_eq_substituteAll_iff :
    renameAll f ps ns = substituteAll f ps ns ↔
      ∀ n ∈ ns, n.rename f ps = n.substitute f ps := by
  induction ns with
  | nil => simp [renameAll, substituteAll]
  | cons n ns ih => simp [renameAll, substituteAll, ih]

theorem renameOption_eq_iff :
    renameOption f ps v = substituteOption f ps v ↔
      ∀ n ∈ v.toList, n.rename f ps = n.substitute f ps := by
  cases v <;> simp [renameOption, substituteOption]

theorem renameBranches_eq_iff :
    renameBranches f ps bs = substituteBranches f ps bs ↔
      ∀ n ∈ bs.flatMap Branch.nodes, n.rename f ps = n.substitute f ps := by
  induction bs with
  | nil => simp [renameBranches, substituteBranches]
  | cons b bs ih =>
    obtain ⟨c, ss⟩ := b
    rw [renameBranches, substituteBranches, List.cons.injEq, Branch.mk.injEq,
      renameAll_eq_substituteAll_iff, ih, flatMap_cons, forall_mem_append, Branch.nodes,
      forall_mem_cons]
    rfl

namespace Operand

variable {o : Operand}

theorem qualify_eq_substitute_iff :
    o.qualify f ps = o.substitute f ps ↔ ∀ n ∈ o.nodes, n.substitute f ps = n := by
  cases o <;> simp [qualify, substitute, nodes, eq_comm]

theorem rename_eq_iff :
    o.rename f ps = o.substituteSelector f ps ↔
      ∀ n ∈ o.nodes, n.rename f ps = n.substitute f ps := by
  cases o <;> simp [rename, substituteSelector, nodes]

theorem qualify_eq_self_iff : o.qualify f ps = o ↔ ∀ x ∈ o.names, ¬ps.any (·.same x) := by
  cases o with
  | atom a => simp [qualify, names, StackLang.qualify_eq_self_iff]
  | node n => simp [qualify, names]

end Operand

namespace Node

variable {n : Node}

/-- Renaming of a node is substitution if it mistakes no name, if nothing is to be done in what it
    leaves out, and if it is substitution in what it goes into. -/
theorem rename_eq_step :
    n.rename f ps = n.substitute f ps ↔
      ((∀ x ∈ n.mistaken, ¬ps.any (·.same x)) ∧ ∀ m ∈ n.skipped, m.substitute f ps = m) ∧
        ∀ m ∈ n.entered, m.rename f ps = m.substitute f ps := by
  cases n with
  | literal k v =>
    by_cases hk : k = "VARIABLE"
    · simp [rename, substitute, mistaken, skipped, entered, children, hk]
    · simp [rename, substitute, mistaken, skipped, entered, children, hk, qualify_eq_self_iff]
  | listLiteral k xs =>
    simp [rename, substitute, mistaken, skipped, entered, eq_comm (a := xs),
      substituteAll_eq_self_iff]
  | call g xs o =>
    by_cases ho : o.isSystem
    · simp [rename, substitute, mistaken, skipped, entered, ho, renameAll_eq_substituteAll_iff,
        qualifyText_eq_self_iff, Operand.qualify_eq_self_iff, Operand.nodes_of_isSystem, and_comm,
        and_left_comm]
    · simp [rename, substitute, mistaken, skipped, entered, ho, renameAll_eq_substituteAll_iff,
        qualifyText_eq_self_iff, qualify_eq_substitute_iff, and_comm, and_left_comm]
  | function g r qs body =>
    simp [rename, substitute, mistaken, skipped, entered, eq_comm (a := body),
      substituteAll_eq_self_iff]
  | assign t v =>
    simp [rename, substitute, mistaken, skipped, entered, eq_comm (a := v),
      qualify_eq_substitute_iff, and_comm]
  | conditional c thenBlock bs elseBlock =>
    cases elseBlock <;>
      simp [rename, substitute, mistaken, skipped, entered, children,
        renameAll_eq_substituteAll_iff, renameBranches_eq_iff, or_imp, forall_and, and_assoc,
        and_comm]
  | _ =>
    simp [rename, substitute, mistaken, skipped, entered, children, renameAll_eq_substituteAll_iff,
      renameOption_eq_iff, qualify_eq_substitute_iff, rename_eq_iff]

theorem rename_eq_substitute_iff :
    n.rename f ps = n.substitute f ps ↔
      ∀ m ∈ n.visited, (∀ x ∈ m.mistaken, ¬ps.any (·.same x)) ∧
        ∀ k ∈ m.skipped, ∀ x ∈ k.references, ¬ps.any (·.same x) := by
  induction n using Node.childInduction with
  | h n ih =>
    rw [rename_eq_step, visited_eq, forall_mem_cons, forall_mem_flatMap]
    refine and_congr (and_congr_right fun _ => ?_) ?_
    · exact forall₂_congr fun k _ => substitute_eq_self_iff
    · exact forall₂_congr fun m hm => ih m (mem_children_of_entered hm)

end Node

/-- Renaming of a body is substitution if and only if, wherever it comes to, no name that it
    mistakes for a variable and no reference in what it leaves out is the name of a parameter. -/
theorem rename_exact_iff (f : String) (ps : List Atom) (body : List Node) :
    renameAll f ps body = substituteAll f ps body ↔
      ∀ m ∈ body.flatMap Node.visited, (∀ x ∈ m.mistaken, ¬ps.any (·.same x)) ∧
        ∀ k ∈ m.skipped, ∀ x ∈ k.references, ¬ps.any (·.same x) := by
  rw [renameAll_eq_substituteAll_iff, List.forall_mem_flatMap]
  exact forall₂_congr fun _ _ => Node.rename_eq_substitute_iff

end

/-- The body of `func f(int a) -> int { int b = 0; b = a; print("a"); return b; }`, in which an
    assigned value and a text are given. -/
def assigning (value : Atom) (text : String) : List Node :=
  [.declare (.text "b") "INT" (some (.literal "INT_LITERAL" (.int 0))),
    .assign (.atom (.text "b")) (.literal "VARIABLE" value),
    .call "print" [.literal "STRING_LITERAL" (.text text)] .system,
    .giveBack (some (.literal "VARIABLE" (.text "b")))]

/-- The parameter is assigned under its old name, and a text that is spelled like it changes. -/
theorem rename_misses_assigned :
    renameAll "f" [.text "a"] (assigning (.text "a") "a") = assigning (.text "a") "f.a" ∧
    substituteAll "f" [.text "a"] (assigning (.text "a") "a") = assigning (.text "f.a") "a" ∧
    assigning (.text "a") "f.a" ≠ assigning (.text "f.a") "a" :=
  ⟨rfl, rfl, by simp [assigning]⟩

end StackLang
