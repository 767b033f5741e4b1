import StackLang.Proofs.Layout

/-!
# Where instructions come from

Every instruction of generated code was written by the task of one node, or it belongs to the
frame of the code: a jump, the address of a function, or the store of a declaration. What is
known of an instruction is then known from the node that wrote it.

* `Task.Writes`: the task writes the instruction itself, between its parts;
* `Task.Done.origin`: an instruction in the code of a task is of the frame, or some task at or
  below it wrote it, in whose code it lies;
* `origin_of_generateProgram`: the same of a whole program.
-/

namespace StackLang

open Gen

variable {g : Generator} {i : Nat}

/-- An instruction of the frame: a jump, the address of a function or the store of a
    declaration. -/
structure Framing (code : Nat) (arg : Argument) : Prop where
  number : ∃ x : Int, arg = .int x
  store : code = Op.storeMem → arg = .int (-1)

namespace Framing

theorem declaring : Framing Op.storeMem (.int (-1)) := ⟨⟨-1, rfl⟩, fun _ => rfl⟩

theorem of_ne {c : Nat} (h : c ≠ Op.storeMem) (x : Int) : Framing c (.int x) :=
  ⟨⟨x, rfl⟩, fun hc => absurd hc h⟩

theorem jump (x : Int) : Framing Op.jump (.int x) := of_ne (by decide) x

end Framing

namespace Task

/-- The task writes the instruction itself, at some point of its course. -/
def Writes (t : Task) (code : Nat) (arg : Argument) : Prop :=
  ∃ ts ks fs k, ts ⊆ t.parts ∧ Course t.node t.start ts ks fs k ∧ Plain t.node k code arg

/-- The place lies in the code of the task. -/
def Covers (t : Task) (i : Nat) : Prop := t.start.length ≤ i ∧ i < t.finish.length

end Task

theorem Generator.Sound.lt_of_code (hg : g.Sound) {s : Slot} (h : g.code[i]? = some s) :
    i < g.length := by
  rw [← hg.size]
  exact (Array.getElem?_eq_some_iff.1 h).1

/-- A slot behind which another one was written is old, or it is that one. -/
theorem Generator.Sound.of_push_code (hg : g.Sound) {s s' : Slot}
    (h : (g.push s).code[i]? = some s') : g.code[i]? = some s' ∨ i = g.length ∧ s' = s := by
  rcases Nat.lt_or_ge i g.length with hi | hi
  · rw [hg.push_code_lt s hi] at h
    exact .inl h
  · exact .inr (Laid.push_new hg hi h)

/-- Behind the generator that a course starts from, an instruction is in the code of a part, or
    the node wrote it, or it is of the frame or a place that is kept for it. -/
theorem Course.origin {n : Node} {h : Generator} {ts : List Task} {ks fs : List Nat}
    (c : Course n g ts ks fs h) (hg : g.Sound) {code : Nat} {arg : Argument} (hi : g.length ≤ i)
    (hs : h.code[i]? = some (.instruction code arg)) :
    (∃ t ∈ ts, t.Covers i ∧ t.finish.code[i]? = some (.instruction code arg)) ∨
      (∃ ts' ks' fs' k, ts' ⊆ ts ∧ Course n g ts' ks' fs' k ∧ Plain n k code arg) ∨
      Framing code arg ∨ code = 0 := by
  induction c with
  | start =>
    have := hg.lt_of_code hs
    omega
  | write c hp ih =>
    rcases (c.laid hg).sound.of_push_code hs with hs | ⟨-, heq⟩
    · exact ih hs
    · obtain ⟨rfl, rfl⟩ := Slot.instruction.inj heq
      exact .inr (.inl ⟨_, _, _, _, fun _ ht => ht, c, hp⟩)
  | note heap records objects c ih | reserve name type c _ ih => exact ih hs
  | declare c _ ih =>
    rcases (c.laid hg).sound.of_push_code hs with hs | ⟨-, heq⟩
    · exact ih hs
    · obtain ⟨rfl, rfl⟩ := Slot.instruction.inj heq
      exact .inr (.inr (.inl .declaring))
  | keep c ho ih =>
    rcases (c.laid hg).sound.of_push_code hs with hs | ⟨-, rfl⟩
    · exact ih hs
    · exact .inr (.inr (.inr (by simpa [Slot.isOpen] using ho)))
  | @fill ts ks fs h j c' c _ hj hc ih =>
    by_cases hij : j = i
    · subst hij
      rw [(c.laid hg).sound.fill_code_self ((c.laid hg).kept j hj).2.1] at hs
      obtain ⟨rfl, rfl⟩ := Slot.instruction.inj (Option.some.inj hs)
      refine .inr (.inr (.inl (.of_ne ?_ _)))
      rcases hc with rfl | rfl | rfl <;> decide
    · rw [Generator.fill_code_ne hij] at hs
      exact ih hs
  | back c _ _ ih =>
    rcases (c.laid hg).sound.of_push_code hs with hs | ⟨-, heq⟩
    · exact ih hs
    · obtain ⟨rfl, rfl⟩ := Slot.instruction.inj heq
      exact .inr (.inr (.inl (.jump _)))
  | flag b c _ ih => exact ih hs
  | @settle ts ks fs h e c _ he ih =>
    -- settling fills in places that waited for a jump and leaves the others
    have hkeeps : Keeps 0 h.length h (h.settled e) := .settled (c.laid hg).sound he
    have hlt := ((c.laid hg).sound.settled e).lt_of_code hs
    rw [Generator.settled_length] at hlt
    rcases hkeeps.slot i (Nat.zero_le _) hlt with heq | ⟨-, -, t, -, -, heq⟩
    · exact ih (heq ▸ hs)
    · rw [heq] at hs
      obtain ⟨rfl, rfl⟩ := Slot.instruction.inj (Option.some.inj hs)
      exact .inr (.inr (.inl (.jump _)))
  | wait c _ _ ih =>
    rcases (c.laid hg).sound.of_push_code hs with hs | ⟨-, heq⟩
    · exact ih hs
    · cases heq
  | @part ts ks fs h k m c e ih =>
    have hk := built_of_ends (c.laid hg).sound e
    -- a slot from before the part can have changed only if an exit in the part was settled there
    rcases Nat.lt_or_ge i h.length with hlt | hge
    · rcases hk.keeps.slot i (Nat.zero_le _) hlt with heq | ⟨-, -, t, -, -, heq⟩
      · rcases ih (heq ▸ hs) with ⟨t, ht, hcov⟩ | ⟨ts', ks', fs', k', hsub, hw⟩ | h
        · exact .inl ⟨t, List.mem_append_left _ ht, hcov⟩
        · exact .inr (.inl ⟨ts', ks', fs', k', List.subset_append_of_subset_left _ hsub, hw⟩)
        · exact .inr (.inr h)
      · rw [heq] at hs
        obtain ⟨rfl, rfl⟩ := Slot.instruction.inj (Option.some.inj hs)
        exact .inr (.inr (.inl (.jump _)))
    · obtain rfl : Task.finish ⟨m, h⟩ = k := e.after_eq
      exact .inl ⟨⟨m, h⟩, List.mem_concat_self, ⟨hge, hk.sound.lt_of_code hs⟩, hs⟩

namespace Task

/-- An instruction in the code of a task is of the frame, or some task at or below it, in whose
    code it lies, wrote it. -/
theorem Done.origin {t : Task} (ht : t.Done) {i code : Nat} {arg : Argument} (hi : t.Covers i)
    (hs : t.finish.code[i]? = some (.instruction code arg)) :
    Framing code arg ∨ ∃ u ∈ t.all, u.Covers i ∧ u.Writes code arg := by
  induction t using Task.induction with
  | h t ih =>
    obtain ⟨ks, fs, c, -⟩ := ht.course
    rcases c.origin ht.sound hi.1 hs with ⟨v, hv, hcov, hs'⟩ | hw | hf | rfl
    · rcases ih v hv (ht.of_mem_parts hv) hcov hs' with hf | ⟨u, hu, h⟩
      · exact .inl hf
      · exact .inr ⟨u, mem_all.2 (.inr ⟨v, hv, hu⟩), h⟩
    · exact .inr ⟨t, mem_all_self t, hi, hw⟩
    · exact .inl hf
    · -- no place that was kept is still open
      have := ht.built.closed i _ hi.1 hs
      simp [Slot.isOpen] at this

end Task

/-- An instruction of a program is of the frame, or a task in whose code it lies wrote it. -/
theorem origin_of_generateProgram {p : List Node} (h : generateProgram p = .ok g) {code : Nat}
    {arg : Argument} (hs : g.code[i]? = some (.instruction code arg)) :
    Framing code arg ∨ ∃ u ∈ programTasks p, u.Covers i ∧ u.Writes code arg := by
  have c := course_of_generateProgram h
  have hg := (c.laid .initial).sound
  rcases c.origin .initial (Nat.zero_le i) hs with ⟨t, ht, hcov, hs'⟩ | ⟨_, _, _, _, -, -, hp⟩ | hf | rfl
  · have hdone := (Task.inside_of_course c .initial ht).done
    rcases hdone.origin hcov hs' with hf | ⟨u, hu, h⟩
    · exact .inl hf
    · exact .inr ⟨u, List.mem_flatMap.2 ⟨t, ht, hu⟩, h⟩
  · refine .inl ⟨?_, fun hc => ?_⟩
    · rcases hp.argument with hx | ⟨m, hm, -⟩
      · exact hx
      · cases hm
    · obtain ⟨_, -, hm⟩ := hp.stored hc
      exact hm.elim
  · exact .inl hf
  · have := ((c.laid .initial).opened i _ (Nat.zero_le i) hs rfl).1
    cases this

end StackLang
