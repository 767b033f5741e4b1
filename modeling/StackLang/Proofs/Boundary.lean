import StackLang.Proofs.FunctionEnd
import StackLang.Proofs.Gain

/-!
# Boundaries of statements

A simple statement is one whose code only adds instructions and does not jump: a declaration, an
assignment or an expression. The other statements consist of such ones and of instructions between
them. So control is either in the middle of one simple statement or at a boundary, and it never
jumps into the middle of one:

* `clear_of_boundary`: where a statement begins or ends, no simple statement is under way;
* `clear_of_jumpsTo`: nor is one where a jump leads to.
-/

namespace StackLang

open List

namespace Task

variable {t u : Task} {i : Nat}

/-- How many items the code of a task leaves more than it takes, if it is a simple statement. -/
def net? (t : Task) : Option Int := t.node.net? t.start.objects

/-- The node of the task is a simple statement. -/
def isSimple (t : Task) : Bool := t.net?.isSome

/-- The task and those below it, down to simple statements. -/
def statements (t : Task) : List Task :=
  t :: if t.isSimple then [] else t.parts.attach.flatMap fun u => statements u.1
termination_by sizeOf t.node
decreasing_by exact sizeOf_parts u.2

theorem statements_of_simple (h : t.isSimple) : t.statements = [t] := by
  rw [statements, if_pos h]

theorem statements_of_not_simple (h : ¬t.isSimple) :
    t.statements = t :: t.parts.flatMap statements := by
  rw [statements, if_neg h]
  simp [List.flatMap]

theorem mem_statements_self (t : Task) : t ∈ t.statements := by
  rw [statements]
  exact mem_cons_self

theorem mem_all_of_statements (h : u ∈ t.statements) : u ∈ t.all := by
  induction t using Task.induction with
  | h t ih =>
    rw [statements] at h
    rcases mem_cons.1 h with rfl | h
    · exact mem_all_self _
    · split at h
      · cases h
      · obtain ⟨v, -, hu⟩ := mem_flatMap.1 h
        exact mem_all.2 (.inr ⟨v.1, v.2, ih v.1 v.2 hu⟩)

/-- Where the code of the task begins and where it ends. -/
def boundaries (t : Task) : List Nat := [t.start.length, t.finish.length]

theorem mem_boundaries : i ∈ t.boundaries ↔ i = t.start.length ∨ i = t.finish.length := by
  simp [boundaries]

theorem apart_of_boundaries (h : i ∈ t.boundaries) : t.Apart i := by
  rcases mem_boundaries.1 h with rfl | rfl
  · exact .inl (Nat.le_refl _)
  · exact .inr (Nat.le_refl _)

/-- What is outside of a task is outside of those below it. -/
theorem Inside.apart {v : Task} (hu : u.Inside v.start v.finish) (h : v.Apart i) : u.Apart i :=
  h.imp (Nat.le_trans · hu.start_le) (Nat.le_trans hu.finish_le)

/-- The boundaries of a task lie within those of the tasks above it. -/
theorem Inside.within {g h : Generator} (hu : u.Inside g h) (hi : i ∈ u.boundaries) :
    g.length ≤ i ∧ i ≤ h.length := by
  have hlen := Gen.length_le hu.done.ends
  have hstart := hu.start_le
  have hfinish := hu.finish_le
  rcases mem_boundaries.1 hi with rfl | rfl <;> omega

end Task

/-- The place is in the middle of none of the simple statements of some tasks. -/
def Clear (ts : List Task) (i : Nat) : Prop :=
  ∀ u ∈ ts.flatMap Task.statements, u.isSimple → u.Apart i

namespace Clear

variable {ts : List Task} {t : Task} {i : Nat}

theorem singleton : Clear [t] i ↔ ∀ u ∈ t.statements, u.isSimple → u.Apart i := by
  simp [Clear]

theorem iff_forall : Clear ts i ↔ ∀ t ∈ ts, Clear [t] i := by
  constructor
  · intro h t ht
    exact singleton.2 fun u hu => h u (mem_flatMap.2 ⟨t, ht, hu⟩)
  · intro h u hu
    obtain ⟨t, ht, hu⟩ := mem_flatMap.1 hu
    exact singleton.1 (h t ht) u hu

theorem of_apart (ht : t.Done) (h : t.Apart i) : Clear [t] i :=
  singleton.2 fun _ hu _ =>
    (Task.inside_of_mem_all ht (Task.mem_all_of_statements hu)).apart h

/-- A statement that is not simple has the simple ones of its parts. -/
theorem of_parts (ht : ¬t.isSimple) (h : Clear t.parts i) : Clear [t] i := by
  refine singleton.2 fun u hu hs => ?_
  rw [Task.statements_of_not_simple ht] at hu
  rcases mem_cons.1 hu with rfl | hu
  · exact absurd hs ht
  · exact h u hu hs

end Clear

section

open Gen

variable {n : Node} {g h : Generator} {ts : List Task} {ks fs : List Nat} {t : Task} {i x : Nat}

/-! ### Order -/

/-- A place within one part of a course is outside of the others. -/
theorem Course.clear_of_within (c : Course n g ts ks fs h) (hg : g.Sound) (ht : t ∈ ts)
    (hstart : t.start.length ≤ i) (hfinish : i ≤ t.finish.length) (hi : Clear [t] i) : Clear ts i := by
  refine Clear.iff_forall.2 fun u hu => ?_
  have hd := (Task.inside_of_course c hg hu).done
  rcases c.eq_or_before hg ht hu with rfl | hle | hle
  · exact hi
  · exact .of_apart hd (.inl (Nat.le_trans hfinish hle))
  · exact .of_apart hd (.inr (Nat.le_trans hle hstart))

theorem Task.Done.clear_of_boundaries {a : Task} (ht : t.Done) (ha : a ∈ t.statements)
    (hi : i ∈ a.boundaries) : Clear [t] i := by
  induction t using Task.induction with
  | h t ih =>
    by_cases hs : t.isSimple
    · rw [statements_of_simple hs, mem_singleton] at ha
      subst ha
      exact .of_apart ht (apart_of_boundaries hi)
    · obtain ⟨ks, fs, c, -⟩ := ht.course
      refine .of_parts hs ?_
      rw [statements_of_not_simple hs] at ha
      rcases mem_cons.1 ha with rfl | ha
      · refine Clear.iff_forall.2 fun v hv => ?_
        have hin := inside_of_course c ht.sound hv
        exact .of_apart hin.done (hin.apart (apart_of_boundaries hi))
      · obtain ⟨v, hv, ha⟩ := mem_flatMap.1 ha
        have hd := (inside_of_course c ht.sound hv).done
        have hwithin := (inside_of_mem_all hd (mem_all_of_statements ha)).within hi
        exact c.clear_of_within ht.sound hv hwithin.1 hwithin.2 (ih v hv hd ha)

/-! ### Jumps -/

/-- The jumps of a course lead to places at most as far as it has come, and into no simple
    statement. -/
theorem Course.clear_of_jumpsTo (c : Course n g ts ks fs h) (hg : g.Sound)
    (hts : ∀ u ∈ ts, u.Done → u.finish.JumpsTo i x → u.start.JumpsTo i x ∨
      u.start.length ≤ x ∧ x ≤ u.finish.length ∧ Clear [u] x)
    (hj : h.JumpsTo i x) : g.JumpsTo i x ∨ g.length ≤ x ∧ x ≤ h.length ∧ Clear ts x := by
  cases c.aimed hg hj with
  | old hj => exact .inl hj
  | own _ h₁ h₂ hapart =>
    refine .inr ⟨h₁, h₂, Clear.iff_forall.2 fun u hu => ?_⟩
    exact .of_apart (Task.inside_of_course c hg hu).done (hapart u hu)
  | @part u hu hj hnew =>
    have hin := Task.inside_of_course c hg hu
    obtain ⟨h₁, h₂, hclear⟩ := (hts u hu hin.done hj).resolve_left hnew
    exact .inr ⟨Nat.le_trans hin.start_le h₁, Nat.le_trans h₂ hin.finish_le,
      c.clear_of_within hg hu h₁ h₂ hclear⟩

/-- Straight code has no jumps. -/
theorem Lays.jumpsTo {y : Int} {ss : List Slot} (hl : Lays g y h ss) (hj : h.JumpsTo i x) :
    g.JumpsTo i x := by
  obtain ⟨c, hc, hi⟩ := hj
  rw [← Array.getElem?_toList, hl.code, getElem?_append] at hi
  split at hi
  · exact ⟨c, hc, by rwa [← Array.getElem?_toList]⟩
  · have hstraight := (hl.straight _ (mem_of_getElem? hi)).2
    exact absurd (by rcases hc with rfl | rfl <;> decide) hstraight

theorem Task.Done.clear_of_jumpsTo (ht : t.Done) (hj : t.finish.JumpsTo i x) :
    t.start.JumpsTo i x ∨ t.start.length ≤ x ∧ x ≤ t.finish.length ∧ Clear [t] x := by
  induction t using Task.induction with
  | h t ih =>
    by_cases hs : t.isSimple
    · obtain ⟨y, hy⟩ := Option.isSome_iff_exists.1 hs
      obtain ⟨ss, hss⟩ := lays_of_net hy ht.ends
      exact .inl (hss.jumpsTo hj)
    · obtain ⟨ks, fs, c, -⟩ := ht.course
      rcases c.clear_of_jumpsTo ht.sound ih hj with hj | ⟨h₁, h₂, hclear⟩
      · exact .inl hj
      · exact .inr ⟨h₁, h₂, .of_parts hs hclear⟩

end

/-! ### Programs -/

/-- The statements of a program, with the conditions that stand in them. -/
def statementTasks (p : List Node) : List Task := (Gen.allTasks p {}).flatMap Task.statements

theorem mem_programTasks_of_statementTasks {p : List Node} {t : Task} (ht : t ∈ statementTasks p) :
    t ∈ programTasks p := by
  obtain ⟨u, hu, ht⟩ := mem_flatMap.1 ht
  exact mem_flatMap.2 ⟨u, hu, Task.mem_all_of_statements ht⟩

/-- Where a statement begins or ends, no simple one is under way. -/
theorem clear_of_boundary {p : List Node} {g : Generator} (h : generateProgram p = .ok g) {t : Task}
    (ht : t ∈ statementTasks p) {i : Nat} (hi : i ∈ t.boundaries) : Clear (Gen.allTasks p {}) i := by
  have c := course_of_generateProgram h
  obtain ⟨u, hu, ht⟩ := mem_flatMap.1 ht
  have hd := (Task.inside_of_course c .initial hu).done
  have hwithin := (Task.inside_of_mem_all hd (Task.mem_all_of_statements ht)).within hi
  exact c.clear_of_within .initial hu hwithin.1 hwithin.2 (hd.clear_of_boundaries ht hi)

/-- No jump leads into the middle of a simple statement. -/
theorem clear_of_jumpsTo {p : List Node} {g : Generator} (h : generateProgram p = .ok g) {i x : Nat}
    (hj : g.JumpsTo i x) : Clear (Gen.allTasks p {}) x := by
  have c := course_of_generateProgram h
  rcases c.clear_of_jumpsTo .initial (fun u _ hd => hd.clear_of_jumpsTo) hj with hj | ⟨-, -, hclear⟩
  · exact absurd (hj.lt_length .initial) (Nat.not_lt_zero _)
  · exact hclear

end StackLang
