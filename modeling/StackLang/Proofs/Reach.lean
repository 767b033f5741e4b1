import StackLang.Code.Generate

/-!
# Nodes that generation turns to

Which nodes generation turns to can be read off the tree, without a generator.
`Node.turns` lists those right below a node and `Node.reached` all of them. Some
nodes of a tree are not among them: the statements of a block that stands alone, an
index that is put into the instruction itself, the list that an element is taken
from. `Node.mem_turns` says where in the tree they are.
-/

namespace StackLang

open Gen List

/-! ### Nodes below a node -/

namespace Operand

/-- The node that an operand is, if it is one. -/
def nodes : Operand → List Node
  | .atom _ => []
  | .node n => [n]

/-- The indices of the element of a list, or of lists in lists, that an operand is. -/
def indices : Operand → List Node
  | .node (.member o a true) => a.nodes ++ indices o
  | _ => []

end Operand

namespace Branch

/-- The condition of a branch. -/
def condition : Branch → Node
  | .mk c _ => c

/-- The statements of a branch. -/
def body : Branch → List Node
  | .mk _ ss => ss

/-- The condition of a branch and its statements. -/
def nodes (b : Branch) : List Node := b.condition :: b.body

end Branch

namespace Node

variable {m : Node} {o : Operand}

/-- Whether the node is a loop. -/
def isLoop : Node → Bool
  | .whileLoop .. | .forLoop .. => true
  | _ => false

/-- The exit that a node is. -/
def exit : Node → Exit
  | .breakLoop => .break
  | .continueLoop => .continue
  | _ => .none

/-- Whether the node declares names of its own. -/
def declares : Node → Bool
  | .declare .. | .function .. => true
  | _ => false

/-- Whether the code of the node has jumps to its own end. -/
def jumps : Node → Bool
  | .conditional .. | .function .. | .whileLoop .. | .forLoop .. => true
  | _ => false

/-- The nodes right below a node, whether generation turns to them or not. -/
def children : Node → List Node
  | .block ss => ss
  | .binary _ a b => a :: b.toList
  | .listLiteral _ xs => xs
  | .call _ xs o => xs ++ o.nodes
  | .create _ xs => xs
  | .member o a _ => o.nodes ++ a.nodes
  | .cast _ _ x => [x]
  | .declare _ _ v => v.toList
  | .function _ _ _ body => body
  | .assign t v => v :: t.nodes
  | .conditional c thenBlock bs elseBlock =>
    c :: bs.flatMap Branch.nodes ++ elseBlock.getD [] ++ thenBlock
  | .whileLoop c body => c :: body
  | .forLoop v c body => v.nodes ++ c :: body
  | .giveBack v => v.toList
  | _ => []

theorem sizeOf_operand (h : m ∈ o.nodes) : sizeOf m < sizeOf o := by
  cases o with
  | atom a => simp [Operand.nodes] at h
  | node n =>
    obtain rfl := mem_singleton.1 h
    simp

theorem sizeOf_indices (h : m ∈ o.indices) : sizeOf m < sizeOf o := by
  fun_induction Operand.indices o with
  | case1 o a ih =>
    rcases mem_append.1 h with h | h
    · have := sizeOf_operand h
      simp; omega
    · have := ih h
      simp; omega
  | case2 => simp at h

theorem sizeOf_branches {bs : List Branch} (h : m ∈ bs.flatMap Branch.nodes) :
    sizeOf m < sizeOf bs := by
  obtain ⟨⟨c, body⟩, hb, hm⟩ := mem_flatMap.1 h
  have hb := sizeOf_lt_of_mem hb
  rw [Branch.mk.sizeOf_spec] at hb
  rcases mem_cons.1 hm with rfl | hm
  · omega
  · have : sizeOf m < sizeOf body := sizeOf_lt_of_mem hm
    omega

theorem sizeOf_option {v : Option Node} (h : m ∈ v.toList) : sizeOf m < sizeOf v := by
  obtain rfl := Option.mem_toList.1 h
  simp

theorem sizeOf_block {v : Option (List Node)} (h : m ∈ v.getD []) : sizeOf m < sizeOf v := by
  cases v with
  | none => simp at h
  | some ss =>
    have : sizeOf m < sizeOf ss := sizeOf_lt_of_mem h
    simp
    omega

theorem sizeOf_children {n : Node} (h : m ∈ n.children) : sizeOf m < sizeOf n := by
  have hlist : ∀ {xs : List Node}, m ∈ xs → sizeOf m < sizeOf xs := sizeOf_lt_of_mem
  cases n with
  | block ss =>
    have : sizeOf m < sizeOf ss := hlist h
    rw [block.sizeOf_spec]
    omega
  | binary op a b =>
    rw [binary.sizeOf_spec]
    rcases mem_cons.1 h with rfl | h
    · omega
    · have := sizeOf_option h
      omega
  | listLiteral k xs =>
    have : sizeOf m < sizeOf xs := hlist h
    rw [listLiteral.sizeOf_spec]
    omega
  | call f xs o =>
    rw [call.sizeOf_spec]
    rcases mem_append.1 h with h | h
    · have := hlist h
      omega
    · have := sizeOf_operand h
      omega
  | create r xs =>
    have : sizeOf m < sizeOf xs := hlist h
    rw [create.sizeOf_spec]
    omega
  | member o a i =>
    rw [member.sizeOf_spec]
    rcases mem_append.1 h with h | h
    all_goals
      have := sizeOf_operand h
      omega
  | cast t s x =>
    obtain rfl := mem_singleton.1 h
    rw [cast.sizeOf_spec]
    omega
  | declare x t v =>
    have := sizeOf_option h
    rw [declare.sizeOf_spec]
    omega
  | function f r ps body =>
    have : sizeOf m < sizeOf body := hlist h
    rw [function.sizeOf_spec]
    omega
  | assign t v =>
    rw [assign.sizeOf_spec]
    rcases mem_cons.1 h with rfl | h
    · omega
    · have := sizeOf_operand h
      omega
  | conditional c thenBlock bs elseBlock =>
    rw [conditional.sizeOf_spec]
    rcases mem_append.1 h with h | h
    · rcases mem_append.1 h with h | h
      · rcases mem_cons.1 h with rfl | h
        · omega
        · have := sizeOf_branches h
          omega
      · have := sizeOf_block h
        omega
    · have := hlist h
      omega
  | whileLoop c body =>
    rw [whileLoop.sizeOf_spec]
    rcases mem_cons.1 h with rfl | h
    · omega
    · have := hlist h
      omega
  | forLoop v c body =>
    rw [forLoop.sizeOf_spec]
    rcases mem_append.1 h with h | h
    · have := sizeOf_operand h
      omega
    · rcases mem_cons.1 h with rfl | h
      · omega
      · have := hlist h
        omega
  | giveBack v =>
    have := sizeOf_option h
    rw [giveBack.sizeOf_spec]
    omega
  | _ => cases h

end Node

/-! ### Nodes that are reached -/

namespace Operand

variable {o : Operand} {m : Node}

/-- The index that an operand is, unless it stands in the instruction itself. -/
def index (inPlace : Node → Bool) (o : Operand) : List Node :=
  o.nodes.filter fun n => !inPlace n

/-- The indices on the way to an assigned element that have code of their own. -/
def steps : Operand → List Node
  | .node (.member o a true) => a.index isConstant ++ steps o
  | _ => []

/-- The indices of an assigned element that have code of their own. -/
def targets : Operand → List Node
  | .node (.member o a true) => o.steps ++ a.index isConstant
  | _ => []

theorem mem_nodes_of_index {p : Node → Bool} (h : m ∈ o.index p) : m ∈ o.nodes := (mem_filter.1 h).1

theorem mem_indices_of_steps (h : m ∈ o.steps) : m ∈ o.indices := by
  fun_induction steps o with
  | case1 o a ih =>
    rw [indices]
    rcases mem_append.1 h with h | h
    · exact mem_append_left _ (mem_nodes_of_index h)
    · exact mem_append_right _ (ih h)
  | case2 => cases h

theorem mem_indices_of_targets (h : m ∈ o.targets) : m ∈ o.indices := by
  unfold targets at h
  split at h
  · rw [indices]
    rcases mem_append.1 h with h | h
    · exact mem_append_right _ (mem_indices_of_steps h)
    · exact mem_append_left _ (mem_nodes_of_index h)
  · cases h

end Operand

namespace Node

variable {m n : Node}

/-- The nodes that generation of a node turns to, in their order. -/
def turns : Node → List Node
  | .binary _ a b => a :: b.toList
  | .listLiteral k xs => if holds "[]" k then xs.reverse else []
  | .call _ xs o => xs.reverse ++ o.nodes
  | .create _ xs => xs
  | .member (.node (.member o a i)) b indexed =>
    .member o a i :: if indexed then b.index isUnary else []
  | .member _ b indexed => if indexed then b.index isUnary else []
  | .cast _ _ x => [x]
  | .declare _ _ v => v.toList
  | .function _ _ _ body => body
  | .assign t v => v :: t.targets
  | .conditional c thenBlock bs elseBlock =>
    c :: bs.map Branch.condition ++ elseBlock.getD [] ++ bs.flatMap Branch.body ++ thenBlock
  | .whileLoop c body => c :: body
  | .forLoop v c body => v.nodes ++ c :: body
  | .giveBack v => v.toList
  | _ => []

/-- The nodes that a node turns to are right below it, or indices of the element that it
    assigns to. -/
theorem mem_turns (h : m ∈ n.turns) : m ∈ n.children ∨ ∃ o v, n = .assign o v ∧ m ∈ o.indices := by
  unfold turns at h
  split at h
  case h_10 o v =>
    rcases mem_cons.1 h with rfl | h
    · exact .inl mem_cons_self
    · exact .inr ⟨o, v, rfl, Operand.mem_indices_of_targets h⟩
  all_goals refine .inl ?_
  case h_2 =>
    split at h
    · exact mem_reverse.1 h
    · cases h
  case h_3 =>
    rcases mem_append.1 h with h | h
    · exact mem_append_left _ (mem_reverse.1 h)
    · exact mem_append_right _ h
  case h_5 =>
    rcases mem_cons.1 h with rfl | h
    · exact mem_append_left _ mem_cons_self
    · split at h
      · exact mem_append_right _ (Operand.mem_nodes_of_index h)
      · cases h
  case h_6 =>
    split at h
    · exact mem_append_right _ (Operand.mem_nodes_of_index h)
    · cases h
  case h_11 c thenBlock bs elseBlock =>
    have hbranch : m ∈ bs.map Branch.condition ∨ m ∈ bs.flatMap Branch.body →
        m ∈ bs.flatMap Branch.nodes := by
      intro h
      rw [mem_flatMap]
      rcases h with h | h
      · obtain ⟨b, hb, rfl⟩ := mem_map.1 h
        exact ⟨b, hb, mem_cons_self⟩
      · obtain ⟨b, hb, hm⟩ := mem_flatMap.1 h
        exact ⟨b, hb, mem_cons_of_mem _ hm⟩
    simp only [cons_append, mem_cons, mem_append] at h
    simp only [children, cons_append, mem_cons, mem_append]
    rcases h with h | ((h | h) | h) | h
    · exact .inl h
    · exact .inr (.inl (.inl (hbranch (.inl h))))
    · exact .inr (.inl (.inr h))
    · exact .inr (.inl (.inl (hbranch (.inr h))))
    · exact .inr (.inr h)
  case h_15 => cases h
  all_goals exact h

theorem sizeOf_turns (h : m ∈ n.turns) : sizeOf m < sizeOf n := by
  rcases mem_turns h with hm | ⟨o, v, rfl, hm⟩
  · exact sizeOf_children hm
  · have := sizeOf_indices hm
    simp
    omega

/-- The node and all those that generation turns to below it, each before its own. -/
def reached (n : Node) : List Node :=
  n :: n.turns.attach.flatMap fun m => reached m.1
termination_by sizeOf n
decreasing_by exact sizeOf_turns m.2

theorem reached_eq (n : Node) : n.reached = n :: n.turns.flatMap reached := by
  rw [reached]
  simp [List.flatMap]

end Node

end StackLang
