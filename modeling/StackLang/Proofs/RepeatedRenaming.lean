import StackLang.Proofs.Renaming

/-!
# Renaming more than once

The body of a nested function is renamed by every function around it. What renamings do to a tree
is decided by what they do to names: two pairs of them that agree on every name agree on every
tree (`Node.rename_rename_congr`). Renaming twice is one such pair, and so is renaming for one
function and then for another.

* `renamings_independent`: where no parameter is a parameter of the other function and no
  qualified name is a parameter of either, renaming again changes nothing, and the order of two
  renamings does not matter.
-/

namespace StackLang

section

variable {f g f' g' : String} {ps qs ps' qs' : List Atom}

/-! ### Names decide -/

theorem renameOption_renameOption_iff {v : Option Node} :
    renameOption f ps (renameOption g qs v) = renameOption f' ps' (renameOption g' qs' v) ↔
      ∀ n ∈ v.toList, (n.rename g qs).rename f ps = (n.rename g' qs').rename f' ps' := by
  cases v <;> simp [renameOption]

theorem renameBranches_renameBranches_iff {bs : List Branch} :
    renameBranches f ps (renameBranches g qs bs) =
        renameBranches f' ps' (renameBranches g' qs' bs) ↔
      ∀ n ∈ bs.flatMap Branch.nodes,
        (n.rename g qs).rename f ps = (n.rename g' qs').rename f' ps' := by
  induction bs with
  | nil => simp [renameBranches]
  | cons b bs ih =>
    obtain ⟨c, ss⟩ := b
    simp [renameBranches, renameAll_eq, ih, Branch.nodes, Branch.condition, Branch.body, or_imp,
      forall_and, and_assoc]

theorem Operand.rename_rename_iff {o : Operand} :
    (o.rename g qs).rename f ps = (o.rename g' qs').rename f' ps' ↔
      ∀ n ∈ o.nodes, (n.rename g qs).rename f ps = (n.rename g' qs').rename f' ps' := by
  cases o <;> simp [rename, nodes]

/-- A qualified text is a text. -/
theorem qualify_text (s : String) : qualify f ps (.text s) = .text (qualifyText f ps s) := by
  unfold qualifyText qualify
  split <;> rfl

/-- Where two pairs of renamings agree on names, they agree on a node if they agree on the nodes
    that they go into. -/
theorem Node.rename_rename_step
    (h : ∀ a, qualify f ps (qualify g qs a) = qualify f' ps' (qualify g' qs' a)) {n : Node} :
    (n.rename g qs).rename f ps = (n.rename g' qs').rename f' ps' ↔
      ∀ m ∈ n.entered, (m.rename g qs).rename f ps = (m.rename g' qs').rename f' ps' := by
  have htext (s : String) :
      qualifyText f ps (qualifyText g qs s) = qualifyText f' ps' (qualifyText g' qs' s) := by
    simpa only [qualify_text, Atom.text.injEq] using h (.text s)
  have hoperand (o : Operand) :
      (o.qualify g qs).qualify f ps = (o.qualify g' qs').qualify f' ps' := by
    cases o <;> simp only [Operand.qualify, h]
  cases n with
  | conditional c thenBlock bs elseBlock =>
    cases elseBlock <;>
      simp [rename, entered, children, renameAll_eq, renameBranches_renameBranches_iff, or_imp,
        forall_and, and_assoc, and_comm]
  | _ =>
    simp [rename, entered, children, h, htext, hoperand, renameAll_eq,
      renameOption_renameOption_iff, Operand.rename_rename_iff]

/-- Two pairs of renamings that agree on names agree on trees. -/
theorem Node.rename_rename_congr
    (h : ∀ a, qualify f ps (qualify g qs a) = qualify f' ps' (qualify g' qs' a)) (n : Node) :
    (n.rename g qs).rename f ps = (n.rename g' qs').rename f' ps' := by
  induction n using Node.childInduction with
  | h n ih => exact (rename_rename_step h).2 fun m hm => ih m (mem_children_of_entered hm)

/-- Without parameters nothing is renamed. -/
theorem Node.rename_nil (n : Node) : n.rename f [] = n :=
  calc
    n.rename f [] = n.substitute f [] := rename_eq_substitute_iff.2 (by simp)
    _ = n := substitute_eq_self_iff.2 (by simp)

/-! ### Renamings that are apart -/

/-- Only a text has the key of a text. -/
theorem Atom.key_eq_text_iff {a : Atom} {s : String} : a.key = .text s ↔ a = .text s := by
  cases a with
  | real x => cases hx : x.whole? <;> simp [key, hx]
  | _ => simp [key]

/-- A qualified name that is no parameter stays as it is. -/
theorem qualify_qualify (h : ∀ p, ps.any (·.same p) → .text (f ++ "." ++ p.shown) ∉ qs) {a : Atom}
    (ha : ps.any (·.same a)) : qualify g qs (qualify f ps a) = qualify f ps a := by
  have hqualified : qualify f ps a = .text (f ++ "." ++ a.shown) := if_pos ha
  rw [qualify_eq_self_iff, hqualified]
  intro hany
  obtain ⟨q, hq, hsame⟩ := List.any_eq_true.1 hany
  obtain rfl := Atom.key_eq_text_iff.1 (beq_iff_eq.1 hsame)
  exact h a ha hq

theorem qualify_self (h : ∀ p, ps.any (·.same p) → .text (f ++ "." ++ p.shown) ∉ ps) (a : Atom) :
    qualify f ps (qualify f ps a) = qualify f ps a := by
  by_cases ha : ps.any (·.same a)
  · exact qualify_qualify h ha
  · rw [qualify_eq_self_iff.2 ha, qualify_eq_self_iff.2 ha]

theorem qualify_comm (hdisjoint : ∀ p ∈ ps, ∀ q ∈ qs, ¬p.same q)
    (hf : ∀ p, ps.any (·.same p) → .text (f ++ "." ++ p.shown) ∉ qs)
    (hg : ∀ q, qs.any (·.same q) → .text (g ++ "." ++ q.shown) ∉ ps) (a : Atom) :
    qualify f ps (qualify g qs a) = qualify g qs (qualify f ps a) := by
  by_cases hp : ps.any (·.same a)
  · -- a parameter of the one function is none of the other
    have hq : ¬qs.any (·.same a) := by
      intro hq
      obtain ⟨p, hp, hpa⟩ := List.any_eq_true.1 hp
      obtain ⟨q, hq, hqa⟩ := List.any_eq_true.1 hq
      exact hdisjoint p hp q hq (beq_iff_eq.2 ((eq_of_beq hpa).trans (eq_of_beq hqa).symm))
    rw [qualify_qualify hf hp, qualify_eq_self_iff.2 hq]
  · rw [qualify_eq_self_iff.2 hp]
    by_cases hq : qs.any (·.same a)
    · exact qualify_qualify hg hq
    · rw [qualify_eq_self_iff.2 hq, qualify_eq_self_iff.2 hp]

end

/-- If no parameter of a function is the name of a parameter of the other one, and no qualified name
    of a parameter is a parameter itself, then renaming for a function again changes nothing, and
    renaming for the two functions comes to the same in either order. The qualified names are those
    of all names that count as parameters: a number may be the same name as another value. -/
theorem renamings_independent (f g : String) (ps qs : List Atom) (n : Node)
    (hdisjoint : ∀ p ∈ ps, ∀ q ∈ qs, ¬p.same q)
    (hf : ∀ p, ps.any (·.same p) → .text (f ++ "." ++ p.shown) ∉ ps ++ qs)
    (hg : ∀ q, qs.any (·.same q) → .text (g ++ "." ++ q.shown) ∉ ps ++ qs) :
    (n.rename f ps).rename f ps = n.rename f ps ∧
      (n.rename g qs).rename f ps = (n.rename f ps).rename g qs := by
  simp only [List.mem_append, not_or] at hf hg
  constructor
  · calc
      (n.rename f ps).rename f ps = (n.rename f []).rename f ps :=
        Node.rename_rename_congr (qualify_self fun p hp => (hf p hp).1) n
      _ = n.rename f ps := by rw [Node.rename_nil]
  · exact Node.rename_rename_congr
      (qualify_comm hdisjoint (fun p hp => (hf p hp).2) fun q hq => (hg q hq).1) n

/-- `print(a + b)`, where `a` is the parameter of a function and `b` that of a function in it. -/
def nestedSum : Node :=
  .call "print" [.binary "+" (.literal "VARIABLE" (.text "a"))
    (some (.literal "VARIABLE" (.text "b")))] .system

theorem renamings_independent_nested :
    (nestedSum.rename "f" [.text "a"]).rename "f" [.text "a"] =
        nestedSum.rename "f" [.text "a"] ∧
      (nestedSum.rename "g" [.text "b"]).rename "f" [.text "a"] =
        (nestedSum.rename "f" [.text "a"]).rename "g" [.text "b"] := by
  refine renamings_independent "f" "g" [.text "a"] [.text "b"] nestedSum (by decide) ?_ ?_
  all_goals
    intro p hp
    obtain ⟨_, hmem, hsame⟩ := List.any_eq_true.1 hp
    obtain rfl := List.mem_singleton.1 hmem
    obtain rfl := Atom.key_eq_text_iff.1 (eq_of_beq hsame).symm
    decide

end StackLang
