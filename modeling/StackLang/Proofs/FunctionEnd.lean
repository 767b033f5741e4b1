import StackLang.Proofs.Loop

/-!
# The end of a function

A function is closed by a return unless its last instruction is one already. That
looks at the last instruction only, while a jump can lead behind it. So whether
control can run off the end of a function hangs on the jumps to that place.

* `Task.Done.target_le`: the jumps of a node lead to its end at most, and those that
  lead to its end belong to a conditional, a function or a loop that ends there.
* `control_passes_end_iff`: control leaves a function by returns only if and only if
  no conditional and no function inside it ends where it ends, and no `continue`
  that the function leaves waiting has got that place as its target.
-/

namespace StackLang

open List Generator

namespace Generator

/-- The slot at a place is a jump, with or without a condition, to a target. -/
def JumpsTo (g : Generator) (i target : Nat) : Prop :=
  ∃ c, (c = Op.jump ∨ c = Op.jumpIf) ∧ g.code[i]? = some (.instruction c (.int target))

variable {g : Generator} {i t : Nat}

theorem JumpsTo.lt_length (hg : g.Sound) (h : g.JumpsTo i t) : i < g.length := by
  obtain ⟨c, -, h⟩ := h
  rw [← hg.size]
  exact (Array.getElem?_eq_some_iff.1 h).1

/-- A slot pushed is a jump only if the slot is one. -/
theorem jumpsTo_push (hg : g.Sound) {s : Slot} (h : (g.push s).JumpsTo i t) :
    g.JumpsTo i t ∨ ∃ c, (c = Op.jump ∨ c = Op.jumpIf) ∧ s = .instruction c (.int t) := by
  obtain ⟨c, hc, h⟩ := h
  rcases Nat.lt_or_ge i g.length with hlt | hge
  · rw [hg.push_code_lt s hlt] at h
    exact .inl ⟨c, hc, h⟩
  · exact .inr ⟨c, hc, (Laid.push_new hg hge h).2.symm⟩

theorem jumpsTo_fill (hg : g.Sound) {j c target : Nat} (hj : j < g.length)
    (h : (g.fill j c target).JumpsTo i t) : g.JumpsTo i t ∨ t = target := by
  obtain ⟨c', hc, h⟩ := h
  by_cases hij : j = i
  · subst hij
    rw [hg.fill_code_self hj, Option.some.injEq, Slot.instruction.injEq] at h
    have : (target : Int) = t := by simpa using h.2
    exact .inr (by omega)
  · rw [fill_code_ne hij] at h
    exact .inl ⟨c', hc, h⟩

theorem jumpsTo_settled (hg : g.Sound) {e : Exit} (he : e ≠ .none)
    (h : (g.settled e).JumpsTo i t) : g.JumpsTo i t ∨ t = g.length := by
  by_cases hp : g.pending.2 = e
  · rw [settled_of_eq hp] at h
    exact jumpsTo_fill hg (hg.waits_lt ⟨rfl, hp ▸ he⟩) h
  · rw [settled_of_ne hp] at h
    exact .inl h

end Generator

/-- The place does not lie in the middle of the code of the task. -/
def Task.Apart (u : Task) (i : Nat) : Prop := i ≤ u.start.length ∨ u.finish.length ≤ i

/-- How a jump from `i` to `t` in a generator `h` on a course from `g` has come about. -/
inductive Aimed (n : Node) (g : Generator) (ts : List Task) (h : Generator) (i t : Nat) : Prop
  | old : g.JumpsTo i t → Aimed n g ts h i t
  | own : n.jumps → g.length ≤ t → t ≤ h.length → (∀ u ∈ ts, u.Apart t) → Aimed n g ts h i t
  | part {u : Task} : u ∈ ts → u.finish.JumpsTo i t → ¬u.start.JumpsTo i t → Aimed n g ts h i t

namespace Aimed

variable {n : Node} {g h k : Generator} {ts : List Task} {i t : Nat}

theorem longer (ha : Aimed n g ts h i t) (hk : h.length ≤ k.length) : Aimed n g ts k i t := by
  cases ha with
  | old hj => exact .old hj
  | own hn hg hh hts => exact .own hn hg (Nat.le_trans hh hk) hts
  | part hu hj hnew => exact .part hu hj hnew

/-- A slot that is no jump. -/
theorem push (hh : h.Sound) {s : Slot} (hs : ∀ c, (c = Op.jump ∨ c = Op.jumpIf) →
    s ≠ .instruction c (.int t)) (ih : h.JumpsTo i t → Aimed n g ts h i t)
    (hj : (h.push s).JumpsTo i t) : Aimed n g ts (h.push s) i t := by
  rcases jumpsTo_push hh hj with hj | ⟨c, hc, e⟩
  · exact (ih hj).longer (Nat.le_succ _)
  · exact absurd e (hs c hc)

end Aimed

namespace Course

open Gen

variable {n : Node} {g h : Generator} {ts : List Task} {ks fs : List Nat}

theorem aimed (c : Course n g ts ks fs h) (hg : g.Sound) {i t : Nat} (hj : h.JumpsTo i t) :
    Aimed n g ts h i t := by
  have loop_jumps : n.isLoop → n.jumps := by cases n <;> simp [Node.isLoop, Node.jumps]
  have here : ∀ {ts ks fs h}, Course n g ts ks fs h → n.jumps → Aimed n g ts h i h.length :=
    fun c hn => .own hn c.length_le (Nat.le_refl _) fun u hu => .inr ((c.laid hg).within u hu).2.2
  induction c with
  | start => exact .old hj
  | write c hp ih =>
    refine .push (c.laid hg).sound ?_ ih hj
    rintro c' hc' e
    rw [Slot.instruction.injEq] at e
    rcases hc' with rfl | rfl
    · exact hp.not_jump e.1
    · exact hp.not_jumpIf e.1
  | note heap records objects c ih | reserve name type c _ ih =>
    exact (ih hj).longer (Nat.le_refl _)
  | declare c _ ih => exact .push (c.laid hg).sound (by simp) ih hj
  | keep c hs ih =>
    refine .push (c.laid hg).sound ?_ ih hj
    rintro c' hc' rfl
    rcases hc' with rfl | rfl <;> cases hs
  | fill c hn hi hc ih =>
    have l := c.laid hg
    rcases jumpsTo_fill l.sound (l.kept _ hi).2.1 hj with hj | rfl
    · exact (ih hj).longer (Nat.le_refl _)
    · exact (here c hn).longer (Nat.le_refl _)
  | @back ts ks fs h target c hn ht ih =>
    have l := c.laid hg
    rcases jumpsTo_push l.sound hj with hj | ⟨c', -, e⟩
    · exact (ih hj).longer (Nat.le_succ _)
    · -- the target is where a part begins, and the other parts end before or begin later
      obtain ⟨u, hu, rfl⟩ := ht
      obtain rfl : u.start.length = t := by
        have : (u.start.length : Int) = t := by simp_all
        omega
      have hlen := Gen.length_le (c.ends_of_mem hu)
      have hin := (l.within u hu).2
      refine .own (loop_jumps hn) hin.1 (by rw [push_length]; omega) fun v hv => ?_
      rcases c.eq_or_before hg hu hv with rfl | hle | hle
      · exact .inl (Nat.le_refl _)
      · exact .inl (by omega)
      · exact .inr hle
  | flag b c _ ih => exact (ih hj).longer (Nat.le_refl _)
  | @settle ts ks fs h e c hn he ih =>
    have hlen := Nat.le_of_eq (settled_length h e).symm
    rcases jumpsTo_settled (c.laid hg).sound he hj with hj | rfl
    · exact (ih hj).longer hlen
    · exact (here c (loop_jumps hn)).longer hlen
  | wait c _ _ ih =>
    have hlater := Aimed.push (s := .bare 0) (c.laid hg).sound (by simp) ih hj
    exact hlater.longer (Nat.le_refl _)
  | @part ts ks fs h k m c e ih =>
    obtain rfl : Task.finish ⟨m, h⟩ = k := e.after_eq
    by_cases hold : h.JumpsTo i t
    · cases ih hold with
      | old hj => exact .old hj
      | own hn h₁ h₂ hts =>
        refine .own hn h₁ (Nat.le_trans h₂ (Gen.length_le e)) (forall_mem_append.2 ⟨hts, ?_⟩)
        exact forall_mem_singleton.2 (.inl h₂)
      | part hu hj hnew => exact .part (mem_append_left _ hu) hj hnew
    · exact .part mem_concat_self hj hold

end Course

/-! ### Jumps to the end -/

/-- One of the tasks is a conditional, a function or a loop that ends at a place, or
    such a one lies below it. -/
def EndsAt (ts : List Task) (t : Nat) : Prop :=
  ∃ u ∈ ts, ∃ v ∈ u.all, v.node.jumps ∧ v.finish.length = t

/-- A jump leads to the end of the course at most. If just there, then it belongs to the node, or
    to a part that ends there. -/
theorem Aimed.target_le {n : Node} {g h : Generator} {ts : List Task} {i t : Nat}
    (ha : Aimed n g ts h i t) (hle : ∀ u ∈ ts, u.finish.length ≤ h.length)
    (hts : ∀ u ∈ ts, u.finish.JumpsTo i t → u.start.JumpsTo i t ∨
      t ≤ u.finish.length ∧ (t = u.finish.length → EndsAt [u] t)) :
    g.JumpsTo i t ∨ t ≤ h.length ∧ (t = h.length → n.jumps ∨ EndsAt ts t) := by
  cases ha with
  | old hj => exact .inl hj
  | own hn _ hh _ => exact .inr ⟨hh, fun _ => .inl hn⟩
  | @part u hu hj hnew =>
    have huh := hle u hu
    obtain ⟨h₁, h₂⟩ := (hts u hu hj).resolve_left hnew
    refine .inr ⟨by omega, fun he => .inr ?_⟩
    obtain ⟨v, hv, h⟩ := h₂ (by omega)
    obtain rfl := mem_singleton.1 hv
    exact ⟨v, hu, h⟩

namespace Task

open Gen

/-- The jumps of a task lead to its end at most, and those that lead to its end belong
    to a conditional, a function or a loop that ends there. -/
theorem Done.target_le {t : Task} (ht : t.Done) {i target : Nat}
    (hj : t.finish.JumpsTo i target) : t.start.JumpsTo i target ∨
      target ≤ t.finish.length ∧ (target = t.finish.length → EndsAt [t] target) := by
  induction t using Task.induction generalizing i target with
  | h t ih =>
    obtain ⟨ks, fs, c, -⟩ := ht.course
    have hparts := fun u hu => inside_of_course (t := u) c ht.sound hu
    rcases (c.aimed ht.sound hj).target_le (fun u hu => (hparts u hu).finish_le)
      (fun u hu hj => ih u hu (hparts u hu).done hj) with hj | ⟨h₁, h₂⟩
    · exact .inl hj
    · refine .inr ⟨h₁, fun he => ⟨t, mem_singleton.2 rfl, ?_⟩⟩
      rcases h₂ he with hn | ⟨u, hu, v, hv, h⟩
      · exact ⟨t, mem_all_self t, hn, he.symm⟩
      · exact ⟨v, mem_all.2 (.inr ⟨u, hu, hv⟩), h⟩

end Task

theorem Course.target_le {n : Node} {g h : Generator} {ts : List Task} {ks fs : List Nat}
    (c : Course n g ts ks fs h) (hg : g.Sound) {i t : Nat} (hj : h.JumpsTo i t) :
    g.JumpsTo i t ∨ t ≤ h.length ∧ (t = h.length → n.jumps ∨ EndsAt ts t) := by
  have hparts := fun u hu => Task.inside_of_course (t := u) c hg hu
  exact (c.aimed hg hj).target_le (fun u hu => (hparts u hu).finish_le)
    fun u hu hj => (hparts u hu).done.target_le hj

/-! ### Functions -/

namespace Gen

variable {g g' : Generator}

theorem length_declareParameters {f : Atom} {ps : List Parameter}
    (e : Ends (declareParameters f ps) g () g') : g'.length = g.length + 2 * ps.length := by
  induction ps generalizing g with
  | nil =>
    obtain ⟨-, rfl⟩ := ends_pure.1 e
    rfl
  | cons p ps ih =>
    obtain ⟨_, e⟩ := ends_declareParameters_cons e
    have hlen : g'.length = g.length + 1 + 1 + 2 * ps.length := ih e
    rw [hlen, length_cons]
    omega

/-- A function is closed by a return. -/
theorem ends_closeFunction (e : Ends closeFunction g () g') :
    (g' = g ∨ g' = g.push (.instruction Op.ret (.int 0))) ∧
      ∃ a, g'.code.back? = some (.instruction Op.ret a) := by
  simp only [closeFunction, ends_bind, ends_get] at e
  obtain ⟨_, _, ⟨rfl, rfl⟩, e⟩ := e
  split at e
  · rename_i code arg hback
    split at e
    · rw [ends_emitInt] at e
      subst e
      exact ⟨.inr rfl, .int 0, by simp [push]⟩
    · rename_i hret
      obtain ⟨-, rfl⟩ := ends_pure.1 e
      obtain rfl : code = Op.ret := by simpa using hret
      exact ⟨.inl rfl, arg, hback⟩
  · exact absurd e ends_throw
  · rw [ends_emitInt] at e
    subst e
    exact ⟨.inr rfl, .int 0, by simp [push]⟩

end Gen

namespace Task

open Gen

/-- Where a function is entered: behind the jump over it. -/
def entry (t : Task) : Nat :=
  match t.node with
  | .function _ _ ps _ => t.start.length + 3 + 2 * ps.length
  | _ => t.start.length

/-- How a function gets from its entry to its end: `b` is the generator at its entry,
    `k` that behind its body, and `k'` that behind its return. -/
structure FunctionRun (t : Task) (b k k' : Generator) : Prop where
  sound : b.Sound
  length : b.length = t.entry
  stored : b.code[t.start.length]? = some (.instruction Op.store (.int t.entry))
  start_lt : t.start.length + 1 < t.entry
  course : Course .plain b t.parts [] [] k
  closed : k' = k ∨ k' = k.push (.instruction Op.ret (.int 0))
  last : ∃ a, k'.code.back? = some (.instruction Op.ret a)
  finish : t.finish = k'.fill (t.entry - 1) Op.jump k'.length

theorem Done.function {t : Task} (ht : t.Done) {name : Atom} {r : String} {ps : List Parameter}
    {body : List Node} (hn : t.node = .function name r ps body) :
    ∃ b k k', t.FunctionRun b k k' := by
  have e := ht.ends
  rw [hn] at e
  obtain ⟨g₁, g₂, g₃, g₄, e₁, e₂, e₃, e₄, hfinish, hparts⟩ := ends_function e
  have hlen : g₁.length = t.start.length + 2 + 2 * ps.length := length_declareParameters e₁
  have hentry : t.entry = g₁.length + 1 := by
    rw [entry, hn, hlen]
    simp only
    omega
  have l := (course_entry r body e₁).laid ht.sound
  have c : Course .plain _ _ [] [] g₃ :=
    (Course.start.stores (n := .plain) (fun _ _ _ _ _ => trivial) e₂).all e₃
  refine ⟨_, g₃, g₄, l.sound, hentry.symm, ?_, by omega, ?_, ?_, ?_, ?_⟩
  · rw [hentry]
    have l₁ := (Course.start.parameters (n := .function name r ps body) rfl e₁).laid
      (((ht.sound.reserved name "").push _).push _)
    exact (l₁.sound.push _).fill_code_self (by simp; omega) _ _
  · rw [parts, hn, hparts]
    exact c
  · exact (ends_closeFunction e₄).1
  · exact (ends_closeFunction e₄).2
  · rw [hentry]
    exact hfinish

end Task

/-! ### Exits that a function leaves waiting -/

namespace Task

open Gen

variable {t : Task}

/-- If no code comes behind a task, then the waiting exit stays the same. -/
theorem pending_of_length_eq {v : Task} (hv : v.Done) (ht : t ∈ v.all)
    (hlen : v.finish.length = t.finish.length) : v.finish.pending = t.finish.pending := by
  induction v using Task.induction with
  | h v ih =>
    rcases mem_all.1 ht with rfl | ⟨w, hw, ht⟩
    · rfl
    · cases hn : v.node.isLoop with
      | false =>
        obtain ⟨ks, fs, c, -⟩ := hv.course
        have hw' := inside_of_course c hv.sound hw
        have hle := (inside_of_mem_all hw'.done ht).finish_le
        have := hw'.finish_le
        rw [((c.passed hv.sound hn).2 w hw).still (by omega)]
        exact ih w hw hw'.done ht (by omega)
      | true =>
        -- a loop is longer than its parts
        obtain ⟨k, test, hend⟩ := hv.loop hn
        have hw' := inside_of_course hend.course (hv.sound.flag true) hw
        have hle := (inside_of_mem_all hw'.done ht).finish_le
        have := hw'.finish_le
        have := hend.length_finish
        omega

/-- An exit that a task leaves waiting has got the end of the task as its target only
    from a loop around it, as a `continue`. -/
theorem loop_of_settled {v : Task} (hv : v.Done) (ht : t ∈ v.all) {q : Nat}
    (hq : t.finish.Waits q) (hle : t.start.length ≤ q)
    (hj : v.finish.code[q]? = some (.jumping t.finish.length)) :
    t.finish.pending.2 = .continue ∧
      ∃ l ∈ v.all, l.node.isLoop ∧ t ∈ l.all ∧ l.again = t.finish.length := by
  induction v using Task.induction with
  | h v ih =>
    have hmem := ht
    rcases mem_all.1 ht with rfl | ⟨w, hw, ht⟩
    · rw [hv.built.sound.waiting hq] at hj
      cases hj
    · -- within the part `w` this is known; what remains is the code behind it
      have lift : w.Done → w.finish.code[q]? = some (.jumping t.finish.length) →
          t.finish.pending.2 = .continue ∧
            ∃ l ∈ v.all, l.node.isLoop ∧ t ∈ l.all ∧ l.again = t.finish.length := fun hd hj => by
        obtain ⟨hc, l, hl, h⟩ := ih w hw hd ht hj
        exact ⟨hc, l, mem_all.2 (.inr ⟨w, hw, hl⟩), h⟩
      have outside : ∀ {g : Generator} {ts ks fs h}, Laid g ts ks fs h → w ∈ ts →
          t.Inside w.start w.finish → q ∉ ks := fun la hw hi hmem => by
        have := hi.done.built.sound.waits_lt hq
        have := hi.start_le
        have := hi.finish_le
        have := la.apart w hw q hmem
        omega
      cases hn : v.node.isLoop with
      | false =>
        obtain ⟨ks, fs, c, -⟩ := hv.course
        have hw' := inside_of_course c hv.sound hw
        have hi := inside_of_mem_all hw'.done ht
        have hlt := hi.done.built.sound.waits_lt hq
        have := hi.finish_le
        exact lift hw'.done (((c.passed hv.sound hn).2 w hw).jump_old (by omega)
          (outside (c.laid hv.sound) hw hi) hi.finish_le hj)
      | true =>
        obtain ⟨k, test, hend⟩ := hv.loop hn
        have la := hend.laid hv
        have hw' := inside_of_course hend.course (hv.sound.flag true) hw
        have hi := inside_of_mem_all hw'.done ht
        have hlt := hi.done.built.sound.waits_lt hq
        have h₁ := hi.finish_le
        have h₂ := hw'.finish_le
        have htest : q ≠ test := fun h => outside la hw hi (by simp [h])
        have hpassed := (hend.course.passed (hv.sound.flag true) rfl).2 w hw
        rcases (hend.keeps_finish hv (a := q) (b := q + 1) (by omega) (by omega)).slot q
          (Nat.le_refl _) (Nat.lt_succ_self _) with e | ⟨hkw, -⟩
        · exact lift hw'.done (hpassed.jump_old (by omega) (outside la hw hi) hi.finish_le
            (e ▸ hj))
        · -- the exit waits until the body ends, so this loop is the one
          have hpend : k.pending = t.finish.pending := by
            have hwait : w.finish.Waits q := by
              rwa [Generator.Waits, ← hpassed.pending_eq (by omega) hkw]
            rw [hpassed.pending_eq (by omega) hkw, hi.keeps.pending_eq hlt hwait]
          rw [hend.code_of_waits hv hkw] at hj
          have hlen := hend.length_finish
          split at hj
          · rename_i hc
            have hagain : (v.again : Int) = t.finish.length := by simpa using hj
            exact ⟨hpend ▸ hc, v, mem_all_self v, hn, hmem, by omega⟩
          · have : (v.finish.length : Int) = t.finish.length := by simpa using hj
            omega

end Task

/-! ### Jumps to the end of a conditional or a function -/

namespace Gen

variable {g g' : Generator}

/-- Filling in further jumps to the end keeps those that are there. -/
theorem code_of_patchAll {es : List Nat} {L j : Nat}
    (e : Ends (es.forM fun i => patch i Op.jump L) g () g')
    (hj : g.code[j]? = some (.jumping L)) :
    g'.length = g.length ∧ g'.code[j]? = some (.jumping L) := by
  induction es generalizing g with
  | nil =>
    obtain ⟨-, rfl⟩ := ends_pure.1 e
    exact ⟨rfl, hj⟩
  | cons i es ih =>
    simp only [List.forM, ends_bind, ends_patch] at e
    obtain ⟨_, _, rfl, e⟩ := e
    have hfill : (g.fill i Op.jump L).code[j]? = some (.jumping L) := by
      by_cases hij : i = j
      · subst hij
        exact Array.getElem?_setIfInBounds_self_of_lt (Array.getElem?_eq_some_iff.1 hj).1
      · rw [fill_code_ne hij, hj]
    have := ih e hfill
    rwa [fill_length] at this

end Gen

/-- A conditional or a function: a node with a jump to its own end that is no loop. -/
def Node.skips : Node → Bool
  | .conditional .. | .function .. => true
  | _ => false

theorem Node.skips_or_isLoop {n : Node} (h : n.jumps) : n.skips ∨ n.isLoop := by
  cases n <;> simp_all [Node.jumps, Node.skips, Node.isLoop]

namespace Task

open Gen

variable {t : Task} {b k k' : Generator}

namespace FunctionRun

section

variable (hrun : t.FunctionRun b k k')

include hrun

theorem closed_sound : k'.Sound ∧ k.length ≤ k'.length := by
  have la := hrun.course.laid hrun.sound
  rcases hrun.closed with rfl | rfl
  · exact ⟨la.sound, Nat.le_refl _⟩
  · exact ⟨la.sound.push _, Nat.le_succ _⟩

theorem length_finish : t.finish.length = k'.length := by
  rw [hrun.finish, fill_length]

theorem entry_le : t.entry ≤ k.length := by
  rw [← hrun.length]
  exact hrun.course.length_le

theorem code_finish {i : Nat} (hi : t.entry ≤ i) : t.finish.code[i]? = k'.code[i]? := by
  have := hrun.start_lt
  rw [hrun.finish]
  exact fill_code_ne (by omega)

theorem code_start : t.finish.code[t.start.length]? = some (.instruction Op.store (.int t.entry)) := by
  have la := hrun.course.laid hrun.sound
  have hlt : t.start.length < b.length := by
    have := hrun.start_lt
    rw [hrun.length]
    omega
  have hk : k.code[t.start.length]? = some (.instruction Op.store (.int t.entry)) :=
    la.keeps.instruction hrun.sound (Nat.zero_le _) hlt hrun.stored
  have hk' : k'.code[t.start.length]? = some (.instruction Op.store (.int t.entry)) := by
    rcases hrun.closed with rfl | rfl
    · exact hk
    · rw [la.sound.push_code_lt _ (Nat.lt_of_lt_of_le hlt la.keeps.length_le), hk]
  have := hrun.start_lt
  rw [hrun.finish, fill_code_ne (by omega), hk']

/-- The jump before the entry of a function skips it. -/
theorem code_skip : t.finish.code[t.entry - 1]? = some (.jumping t.finish.length) := by
  have hstart := hrun.start_lt
  have hentry := hrun.entry_le
  obtain ⟨hsound, hle⟩ := hrun.closed_sound
  rw [hrun.length_finish, hrun.finish]
  exact hsound.fill_code_self (by omega) _ _

/-- The last instruction of a function is a return. -/
theorem code_last : ∃ a, k'.code[k'.length - 1]? = some (.instruction Op.ret a) := by
  obtain ⟨a, ha⟩ := hrun.last
  refine ⟨a, ?_⟩
  rwa [← hrun.closed_sound.1.size, ← Array.back?_eq_getElem?]

end

end FunctionRun

/-- A conditional or a function has a jump to its own end. -/
theorem Done.jump_to_finish (ht : t.Done) (hn : t.node.skips) :
    ∃ i, t.start.length ≤ i ∧ i < t.finish.length ∧
      t.finish.code[i]? = some (.jumping t.finish.length) := by
  cases hnode : t.node with
  | conditional c thenBlock bs elseBlock =>
    have e := ht.ends
    rw [hnode] at e
    obtain ⟨last, ends, ks, fs, k, c, hlast, -, -, e⟩ := course_blocks e
    have la := c.laid ht.sound
    obtain ⟨h₁, h₂, -⟩ := la.kept last hlast
    obtain ⟨hlen, hcode⟩ := code_of_patchAll e (la.sound.fill_code_self h₂ _ _)
    rw [fill_length] at hlen
    rw [hlen]
    exact ⟨last, h₁, h₂, hcode⟩
  | function name r ps body =>
    obtain ⟨b, k, k', hrun⟩ := ht.function hnode
    have hstart := hrun.start_lt
    have hentry := hrun.entry_le
    have hlen := hrun.length_finish
    have hle := hrun.closed_sound.2
    exact ⟨t.entry - 1, by omega, by omega, hrun.code_skip⟩
  | _ => simp [hnode, Node.skips] at hn

/-- The last instruction of a loop is a jump. -/
theorem Done.loop_last {l : Task} (hl : l.Done) (hn : l.node.isLoop) :
    ∃ start : Nat, l.start.length < l.finish.length ∧
      l.finish.code[l.finish.length - 1]? = some (.jumping start) := by
  obtain ⟨k, test, hend⟩ := hl.loop hn
  have la := hend.laid hl
  have hlen := hend.length_finish
  have hgrow := hend.grows
  obtain ⟨start, counter, hf⟩ := hend.finish
  refine ⟨start, by omega, ?_⟩
  rw [hlen, hf, Nat.add_sub_cancel, ← Node.length_increment l.node counter]
  exact closeLoop_code_last la.sound (la.kept test (mem_singleton.2 rfl)).2.1

end Task

/-! ### Programs -/

/-- Control can pass from an instruction at `i` to the place `stop`: it comes next, or
    it is the target of a jump. -/
def Passes (code : Nat) (arg : Argument) (i stop : Nat) : Prop :=
  i + 1 = stop ∧ code ≠ Op.jump ∨ (code = Op.jump ∨ code = Op.jumpIf) ∧ arg = .int stop

namespace Task

open Gen

variable {p : List Node} {g : Generator} {t : Task}

/-- A function leaves a `continue` of its body waiting, and the rounds of a loop around
    it end where the function does. -/
def ContinuesAtEnd (p : List Node) (t : Task) : Prop :=
  t.finish.pending.2 = .continue ∧ t.entry ≤ t.finish.pending.1 ∧
    ∃ l ∈ programTasks p, l.node.isLoop ∧ t ∈ l.all ∧ l.again = t.finish.length

/-- A conditional or a function in the body of a function ends where the function
    does. -/
def EndsWithBlock (t : Task) : Prop :=
  ∃ v ∈ t.parts, ∃ u ∈ v.all, u.node.skips ∧ u.finish.length = t.finish.length

/-- In the code of a whole program, an exit that a task leaves waiting jumps to the end
    of the task only if it is a `continue` of a loop whose rounds end there. -/
theorem settled_at_finish_iff (h : generateProgram p = .ok g) (ht : t ∈ programTasks p)
    (hn : t.node.isLoop = false) {q : Nat} (hq : t.finish.Waits q) (hle : t.start.length ≤ q) :
    g.code[q]? = some (.jumping t.finish.length) ↔
      t.finish.pending.2 = .continue ∧
        ∃ l ∈ programTasks p, l.node.isLoop ∧ t ∈ l.all ∧ l.again = t.finish.length := by
  constructor
  · intro hj
    obtain ⟨v, hv, ht⟩ := mem_flatMap.1 ht
    have c := course_of_generateProgram h
    have hv' := inside_of_course c .initial hv
    have hi := inside_of_mem_all hv'.done ht
    have hlt := hi.done.built.sound.waits_lt hq
    have := hi.finish_le
    have hj' := ((c.passed .initial rfl).2 v hv).jump_old (by omega) (by simp) hi.finish_le hj
    obtain ⟨hc, l, hl, hrest⟩ := loop_of_settled hv'.done ht hq hle hj'
    exact ⟨hc, l, mem_flatMap.2 ⟨v, hv, hl⟩, hrest⟩
  · rintro ⟨hc, l, hl, hloop, htl, hagain⟩
    have hin := inside_of_mem_programTasks h hl
    obtain ⟨k, test, hend⟩ := hin.done.loop hloop
    rcases mem_all.1 htl with rfl | ⟨w, hw, htw⟩
    · rw [hloop] at hn
      cases hn
    · -- no code comes between the task and the end of the loop's body
      have hw' := inside_of_course hend.course (hin.done.sound.flag true) hw
      have hi := inside_of_mem_all hw'.done htw
      have h₁ := hi.finish_le
      have h₂ := hw'.finish_le
      have hk := hend.again_eq
      have hpend : k.pending = t.finish.pending := by
        rw [((hend.course.passed (hin.done.sound.flag true) rfl).2 w hw).still (by omega)]
        exact pending_of_length_eq hw'.done htw (by omega)
      have hcode := hend.code_of_waits hin.done (i := q) (by rwa [Generator.Waits, hpend])
      rw [hpend, if_pos hc, hagain] at hcode
      have hlen := hend.length_finish
      have hlt := hi.done.built.sound.waits_lt hq
      have := hi.start_le
      have := hw'.start_le
      rw [flag_length] at this
      exact hin.keeps.instruction hin.done.built.sound (by omega) (by omega) hcode

variable {s b k k' : Generator}

namespace FunctionRun

/-- A jump in the code of a function to its end belongs to a conditional or a function
    that ends there. -/
theorem endsWithBlock_of_jumpsTo (hrun : t.FunctionRun b k k') {i : Nat} (hi : t.entry ≤ i)
    (hj : k'.JumpsTo i k'.length) : t.EndsWithBlock := by
  have la := hrun.course.laid hrun.sound
  have hb : ∀ x, ¬b.JumpsTo i x := fun x h => by
    have := h.lt_length hrun.sound
    rw [hrun.length] at this
    omega
  obtain ⟨a, hlast⟩ := hrun.code_last
  rcases hrun.closed with rfl | rfl
  · rcases hrun.course.target_le hrun.sound hj with hj | ⟨-, h⟩
    · exact absurd hj (hb _)
    · rcases h rfl with h | ⟨v, hv, u, hu, hjumps, hlen⟩
      · cases h
      · rw [EndsWithBlock, hrun.length_finish]
        refine ⟨v, hv, u, hu, ?_, hlen⟩
        rcases Node.skips_or_isLoop hjumps with hs | hl
        · exact hs
        · -- a loop ends with a jump, but the last instruction is a return
          have hv' := inside_of_course hrun.course hrun.sound hv
          have hin := (inside_of_mem_all hv'.done hu).trans hv'
          obtain ⟨start, hlt, hcode⟩ := hin.done.loop_last hl
          have hcode := hin.keeps.instruction hin.done.built.sound (by omega) (by omega) hcode
          rw [hlen, hlast] at hcode
          cases hcode
  · -- behind the body comes a return, so no jump of the body leads behind it
    rcases jumpsTo_push la.sound hj with hj | ⟨c, hc, e⟩
    · rcases hrun.course.target_le hrun.sound hj with hj | ⟨h, -⟩
      · exact absurd hj (hb _)
      · rw [push_length] at h
        omega
    · rw [Slot.instruction.injEq] at e
      rcases hc with rfl | rfl <;> cases e.1

/-- In the code of a whole program, control passes from the last instruction of a function
    by a return. -/
theorem eq_ret_of_last (hrun : t.FunctionRun b k k') (hin : t.Inside s g) {i c : Nat}
    {a : Argument} (hi : t.entry ≤ i) (hlast : i + 1 = t.finish.length)
    (hcode : g.code[i]? = some (.instruction c a)) : c = Op.ret := by
  obtain ⟨x, hx⟩ := hrun.code_last
  have hlen := hrun.length_finish
  have hstart := hrun.start_lt
  have hret : t.finish.code[i]? = some (.instruction Op.ret x) := by
    rw [hrun.code_finish hi, ← hx]
    congr 1
    omega
  rw [hin.keeps.instruction hin.done.built.sound (by omega) (by omega) hret] at hcode
  cases hcode
  rfl

end FunctionRun

/-- A conditional or a function that ends with the function around it jumps to that end. -/
theorem EndsWithBlock.exists_jump (hb : t.EndsWithBlock) (hrun : t.FunctionRun b k k')
    (hin : t.Inside s g) : ∃ i, t.entry ≤ i ∧ i < t.finish.length ∧
      g.code[i]? = some (.jumping t.finish.length) := by
  obtain ⟨v, hv, u, hu, hskips, hend⟩ := hb
  have hv' := inside_of_course hrun.course hrun.sound hv
  have hu' := inside_of_mem_all hv'.done hu
  have hu'' := (inside_of_mem_all hin.done (mem_all.2 (.inr ⟨v, hv, hu⟩))).trans hin
  obtain ⟨i, h₁, h₂, hcode⟩ := hu'.done.jump_to_finish hskips
  have hbody := hrun.length
  have := hv'.start_le
  have := hu'.start_le
  rw [← hend]
  exact ⟨i, by omega, h₂, hu''.keeps.instruction hu'.done.built.sound h₁ h₂ hcode⟩

/-- A `continue` that waits for a loop whose rounds end with the function jumps to that
    end. -/
theorem ContinuesAtEnd.exists_jump (hc : t.ContinuesAtEnd p) (hrun : t.FunctionRun b k k')
    (h : generateProgram p = .ok g) (ht : t ∈ programTasks p) (hn : t.node.isLoop = false) :
    ∃ i, t.entry ≤ i ∧ i < t.finish.length ∧
      g.code[i]? = some (.jumping t.finish.length) := by
  obtain ⟨hsort, hle, hl⟩ := hc
  have hin := inside_of_mem_programTasks h ht
  have hstart := hrun.start_lt
  have hw : t.finish.Waits t.finish.pending.1 := ⟨rfl, by rw [hsort]; decide⟩
  exact ⟨_, hle, hin.done.built.sound.waits_lt hw,
    (settled_at_finish_iff h ht hn hw (by omega)).2 ⟨hsort, hl⟩⟩

/-- These two are the only jumps from behind the entry of a function to its end. -/
theorem FunctionRun.endsWithBlock_or_continuesAtEnd (hrun : t.FunctionRun b k k')
    (h : generateProgram p = .ok g) (ht : t ∈ programTasks p) (hn : t.node.isLoop = false)
    {i c : Nat} (hi : t.entry ≤ i) (hlt : i < t.finish.length)
    (hc : c = Op.jump ∨ c = Op.jumpIf)
    (hcode : g.code[i]? = some (.instruction c (.int t.finish.length))) :
    t.EndsWithBlock ∨ t.ContinuesAtEnd p := by
  have hin := inside_of_mem_programTasks h ht
  have hstart := hrun.start_lt
  rcases hin.keeps.slot i (by omega) hlt with e | ⟨hw, -, x, -, -, e⟩
  · rw [e, hrun.code_finish hi, hrun.length_finish] at hcode
    exact .inl (hrun.endsWithBlock_of_jumpsTo hi ⟨c, hc, hcode⟩)
  · -- an exit that was left waiting
    have hjump : g.code[i]? = some (.jumping t.finish.length) := by
      rw [e] at hcode ⊢
      rw [Option.some.injEq, Slot.instruction.injEq] at hcode
      rw [hcode.2]
    obtain ⟨hsort, hl⟩ := (settled_at_finish_iff h ht hn hw (by omega)).1 hjump
    exact .inr ⟨hsort, hw.1 ▸ hi, hl⟩

end Task

/-- Control leaves the code of a function by returns only, if and only if no conditional
    and no function in its body ends where it ends, and it leaves no `continue` waiting
    for a loop whose rounds end there.

    The first instruction of a function stores its entry, and the jump before the entry
    skips it. -/
theorem control_passes_end_iff {p : List Node} {g : Generator} (h : generateProgram p = .ok g)
    {t : Task} (ht : t ∈ programTasks p) {name : Atom} {r : String} {ps : List Parameter}
    {body : List Node} (hn : t.node = .function name r ps body) :
    g.code[t.start.length]? = some (.instruction Op.store (.int t.entry)) ∧
    g.code[t.entry - 1]? = some (.instruction Op.jump (.int t.finish.length)) ∧
    ((∀ i c a, t.entry ≤ i → i < t.finish.length → g.code[i]? = some (.instruction c a) →
        Passes c a i t.finish.length → c = Op.ret) ↔
      ¬t.EndsWithBlock ∧ ¬t.ContinuesAtEnd p) := by
  have hin := inside_of_mem_programTasks h ht
  have hsound := hin.done.built.sound
  obtain ⟨b, k, k', hrun⟩ := hin.done.function hn
  have hlen := hrun.length_finish
  have hentry := hrun.entry_le
  have hstart := hrun.start_lt
  have hle := hrun.closed_sound.2
  have hloop : t.node.isLoop = false := by rw [hn]; rfl
  refine ⟨?_, ?_, ?_, ?_⟩
  · exact hin.keeps.instruction hsound (Nat.le_refl _) (by omega) hrun.code_start
  · exact hin.keeps.instruction hsound (by omega) (by omega) hrun.code_skip
  · intro hall
    have hjump : ¬∃ i, t.entry ≤ i ∧ i < t.finish.length ∧
        g.code[i]? = some (.instruction Op.jump (.int t.finish.length)) := by
      rintro ⟨i, h₁, h₂, hcode⟩
      exact absurd (hall i _ _ h₁ h₂ hcode (.inr ⟨.inl rfl, rfl⟩)) (by decide)
    exact ⟨fun hb => hjump (hb.exists_jump hrun hin),
      fun hc => hjump (hc.exists_jump hrun h ht hloop)⟩
  · rintro ⟨hblock, hcont⟩ i c a hi hlt hcode hpass
    rcases hpass with ⟨hnext, -⟩ | ⟨hc, rfl⟩
    · exact hrun.eq_ret_of_last hin hi hnext hcode
    · rcases hrun.endsWithBlock_or_continuesAtEnd h ht hloop hi hlt hc hcode with hb | hc
      · exact absurd hb hblock
      · exact absurd hc hcont

/-- A function whose last statement is a loop: `while (a > 0) { a = a - 1; }`. -/
def loopingFunction : Node :=
  .function (.text "f") "INT" [⟨"INT", .text "a"⟩]
    [.whileLoop
      (.binary ">" (.literal "VARIABLE" (.text "f.a")) (some (.literal "INT_LITERAL" (.int 0))))
      [.assign (.atom (.text "f.a"))
        (.binary "-" (.literal "VARIABLE" (.text "f.a")) (some (.literal "INT_LITERAL" (.int 1))))]]

theorem control_passes_end_looping : ∃ g, generateProgram [loopingFunction] = .ok g ∧
    (⟨loopingFunction, {}⟩ : Task) ∈ programTasks [loopingFunction] ∧
    g.code[4]? = some (.instruction Op.jump (.int (Task.finish ⟨loopingFunction, {}⟩).length)) ∧
    ((∀ i c a, 5 ≤ i → i < (Task.finish ⟨loopingFunction, {}⟩).length →
        g.code[i]? = some (.instruction c a) →
        Passes c a i (Task.finish ⟨loopingFunction, {}⟩).length → c = Op.ret) ↔
      ¬(⟨loopingFunction, {}⟩ : Task).EndsWithBlock ∧
        ¬(⟨loopingFunction, {}⟩ : Task).ContinuesAtEnd [loopingFunction]) := by
  have hmem : (⟨loopingFunction, {}⟩ : Task) ∈ programTasks [loopingFunction] :=
    List.mem_flatMap.2 ⟨_, List.mem_cons_self, Task.mem_all_self _⟩
  exact ⟨_, rfl, hmem, (control_passes_end_iff rfl hmem rfl).2⟩

/-- A function whose last statement is a conditional with a return:
    `if (a > 0) { return 1; }`. -/
def branchingFunction : Node :=
  .function (.text "f") "INT" [⟨"INT", .text "a"⟩]
    [.conditional
      (.binary ">" (.literal "VARIABLE" (.text "f.a")) (some (.literal "INT_LITERAL" (.int 0))))
      [.giveBack (some (.literal "INT_LITERAL" (.int 1)))] [] none]

/-- It is not closed by a return of its own, so the jump over its block leads behind
    it. -/
theorem control_passes_end_branching : ∃ g, generateProgram [branchingFunction] = .ok g ∧
    ∃ entry stop i c a, g.code[0]? = some (.instruction Op.store (.int entry)) ∧
      g.code[entry - 1]? = some (.instruction Op.jump (.int stop)) ∧
      entry ≤ i ∧ i < stop ∧ g.code[i]? = some (.instruction c a) ∧ Passes c a i stop ∧
      c ≠ Op.ret :=
  ⟨_, rfl, 5, 13, 10, Op.jump, .int 13, rfl, rfl, by decide, by decide, rfl,
    .inr ⟨.inl rfl, rfl⟩, by decide⟩

end StackLang
