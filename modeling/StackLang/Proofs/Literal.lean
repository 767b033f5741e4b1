import StackLang.Proofs.Coverage
import StackLang.Proofs.Reach
import StackLang.Tree.Parse

/-!
# Literals of a parsed tree

The scanner gives every numeral a number and everything else that has a value a text. The
parser only makes literals from tokens, from conversions of such literals, and from the names
of parameters, which are texts. So the value of every literal in a parsed tree is of the sort
that its kind says, and every list has a kind of its own.

* `Token.Lexical` and `lexical_of_scan`: what is known of the tokens of a text;
* `Node.Throughout P`: a property of a node and of all nodes below it;
* `Node.Lexical`: what is to be known of the literals of a tree, which renaming keeps.
-/

namespace StackLang

open List

/-! ### Tokens -/

/-- A value that a literal of a kind can have. -/
inductive Lexeme : String → Atom → Prop
  | int (n : Int) : Lexeme "INT_LITERAL" (.int n)
  | real (x : Real64) : Lexeme "FLOAT_LITERAL" (.real x)
  | bool (b : Bool) : Lexeme "BOOL_LITERAL" (.bool b)
  | text (s : String) : Lexeme "STRING_LITERAL" (.text s)
  | name (s : String) : Lexeme "VARIABLE" (.text s)

/-- The value of a token is of the sort that its kind says: the literals of numbers and truth
    values have those, all other tokens have texts. -/
def Token.Lexical (t : Token) : Prop :=
  if Parse.isLiteralKind t.kind then Lexeme t.kind.name t.value else ∃ s, t.value = .text s

theorem isLiteralKind_ofWord : ∀ w, Parse.isLiteralKind (.ofWord w) = false :=
  Kind.forall_ofWord (P := fun k => Parse.isLiteralKind k = false) rfl (by decide)

theorem Token.lexical_of_text {t : Token} {s : String} (hkind : Parse.isLiteralKind t.kind = false)
    (hvalue : t.value = .text s) : t.Lexical := by
  unfold Token.Lexical
  rw [hkind]
  exact ⟨s, hvalue⟩

/-- The tokens of a text are lexical, since the characters that they were found on tell their
    values. -/
theorem lexical_of_scan {source : String} : ∀ t ∈ (scan source).tokens, t.Lexical := by
  rintro ⟨kind, value, line, offset⟩ ht
  obtain ⟨x, h | ⟨c, -, -, rfl, rfl⟩⟩ := spelled_of_scan ht
  · cases h with
    | integer => exact .int _
    | decimal => exact .real _
    | quoted => exact .text _
    | truth b => exact .bool b
    | word => exact Token.lexical_of_text (isLiteralKind_ofWord _) rfl
    | operator hmem =>
      have hsigns : ∀ p ∈ operatorSigns, Parse.isLiteralKind p.2 = false := by decide
      exact Token.lexical_of_text (hsigns _ hmem) rfl
  · exact Token.lexical_of_text rfl rfl

/-! ### Properties throughout a tree -/

namespace Node

/-- What holds of a node if it holds of the nodes right below it holds of every node. -/
theorem childInduction {P : Node → Prop} (h : ∀ n, (∀ m ∈ n.children, P m) → P n) (n : Node) :
    P n :=
  h n fun m _ => childInduction h m
termination_by sizeOf n
decreasing_by exact sizeOf_children ‹_›

/-- A property of a node and of all nodes below it. -/
inductive Throughout (P : Node → Prop) : Node → Prop
  | intro {n : Node} (self : P n) (below : ∀ m ∈ n.children, Throughout P m) : Throughout P n

variable {P : Node → Prop} {n m : Node}

theorem Throughout.self (h : n.Throughout P) : P n := by
  cases h
  assumption

theorem Throughout.child (h : n.Throughout P) (hm : m ∈ n.children) : m.Throughout P := by
  cases h with
  | intro _ below => exact below m hm

theorem Throughout.mono {Q : Node → Prop} (h : n.Throughout P) (hQ : ∀ m, P m → Q m) :
    n.Throughout Q := by
  induction h with
  | intro self _ ih => exact .intro (hQ _ self) ih

/-- The indices of an element lie below it. -/
theorem Throughout.indices {o : Operand} (h : ∀ m ∈ o.nodes, m.Throughout P) (hm : m ∈ o.indices) :
    m.Throughout P := by
  fun_induction Operand.indices o with
  | case1 o a ih =>
    have hn : (Node.member o a true).Throughout P := h _ mem_cons_self
    rcases mem_append.1 hm with hm | hm
    · exact hn.child (mem_append_right _ hm)
    · exact ih (fun x hx => hn.child (mem_append_left _ hx)) hm
  | case2 => cases hm

/-- What holds throughout a tree holds throughout the trees that generation turns to. -/
theorem Throughout.reached (h : n.Throughout P) (hm : m ∈ n.reached) : m.Throughout P := by
  induction n using Node.reached.induct with
  | case1 n ih =>
    rw [reached_eq] at hm
    rcases mem_cons.1 hm with rfl | hm
    · exact h
    · obtain ⟨x, hx, hm⟩ := mem_flatMap.1 hm
      refine ih ⟨x, hx⟩ ?_ hm
      rcases mem_turns hx with hc | ⟨o, v, rfl, hi⟩
      · exact h.child hc
      · exact .indices (fun y hy => h.child (mem_cons_of_mem _ hy)) hi

/-- The value of a literal is of its kind, and a list has a kind of lists. -/
def Lexical : Node → Prop
  | .literal k v => Lexeme k v
  | .listLiteral k _ => ∃ s, k = s ++ "[]"
  | _ => True

end Node

/-! ### Renaming -/

section Rename

variable {f : String} {ps : List Atom}

theorem renameAll_eq (ns : List Node) : renameAll f ps ns = ns.map (Node.rename f ps) := by
  induction ns with
  | nil => rfl
  | cons n ns ih => rw [renameAll, ih, map_cons]

theorem toList_renameOption (v : Option Node) :
    (renameOption f ps v).toList = v.toList.map (Node.rename f ps) := by
  cases v <;> rfl

theorem nodes_renameBranches (bs : List Branch) :
    (renameBranches f ps bs).flatMap Branch.nodes =
      (bs.flatMap Branch.nodes).map (Node.rename f ps) := by
  induction bs with
  | nil => rfl
  | cons b bs ih =>
    obtain ⟨c, ss⟩ := b
    simp [renameBranches, ih, Branch.nodes, Branch.condition, Branch.body, renameAll_eq]

theorem nodes_qualify (o : Operand) : (o.qualify f ps).nodes = o.nodes := by
  cases o <;> rfl

theorem nodes_rename (o : Operand) : (o.rename f ps).nodes = o.nodes.map (Node.rename f ps) := by
  cases o <;> rfl

/-- Below a renamed node are nodes that were below it, renamed or as they were. -/
theorem mem_children_rename {n m : Node} (h : m ∈ (n.rename f ps).children) :
    m ∈ n.children ∨ ∃ x ∈ n.children, m = x.rename f ps := by
  cases n with
  | conditional c thenBlock bs elseBlock =>
    cases elseBlock <;>
      simp only [Node.rename, Node.children, renameAll_eq, nodes_renameBranches,
        Option.getD_none, Option.getD_some, mem_cons, mem_append, mem_map,
        cons_append] at h ⊢ <;> grind
  | _ =>
    simp only [Node.rename, Node.children, renameAll_eq, toList_renameOption, nodes_qualify,
      nodes_rename, mem_cons, mem_append, mem_map, not_mem_nil] at h ⊢ <;> grind

/-- A number is never the name of a parameter, so a renamed literal keeps its sort. -/
theorem Lexeme.qualify (hps : ∀ a ∈ ps, ∃ s, a = .text s) {k : String} {v : Atom}
    (h : Lexeme k v) : Lexeme k (StackLang.qualify f ps v) := by
  -- names are compared by their keys, and only texts have the keys of texts
  have hkeep : (∀ s, v.key ≠ .text s) → StackLang.qualify f ps v = v := by
    intro hv
    refine if_neg ?_
    rw [any_eq_true]
    rintro ⟨a, ha, hs⟩
    obtain ⟨s, rfl⟩ := hps a ha
    exact hv s (eq_of_beq hs).symm
  have htext : ∀ s, ∃ s', StackLang.qualify f ps (.text s) = .text s' := by
    intro s
    unfold StackLang.qualify
    split
    · exact ⟨_, rfl⟩
    · exact ⟨s, rfl⟩
  cases h with
  | int n =>
    rw [hkeep (by simp [Atom.key])]
    exact .int n
  | real x =>
    rw [hkeep (by cases hx : x.whole? <;> simp [Atom.key, hx])]
    exact .real x
  | bool b =>
    rw [hkeep (by simp [Atom.key])]
    exact .bool b
  | text s =>
    obtain ⟨s', hs⟩ := htext s
    rw [hs]
    exact .text s'
  | name s =>
    obtain ⟨s', hs⟩ := htext s
    rw [hs]
    exact .name s'

theorem Node.Throughout.rename (hps : ∀ a ∈ ps, ∃ s, a = .text s) {n : Node}
    (h : n.Throughout Lexical) : (n.rename f ps).Throughout Lexical := by
  induction n using Node.childInduction with
  | h n ih =>
    refine .intro ?_ fun m hm => ?_
    · cases n with
      | literal k v => exact h.self.qualify hps
      | listLiteral k xs => exact h.self
      | _ => trivial
    · rcases mem_children_rename hm with hm | ⟨x, hx, rfl⟩
      · exact h.child hm
      · exact ih x hx (h.child hx)

end Rename

end StackLang
