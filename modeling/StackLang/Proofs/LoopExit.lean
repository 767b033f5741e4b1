import StackLang.Proofs.Loop

/-!
# Exits from loops

One place and one flag serve the exits of all loops. An exit that is written takes
the place over from the one that waited before, and the end of a loop gives the
waiting exit its target and clears the flag, so that exits behind a loop are not
written at all. A loop with one exit of its own and no loop inside is served well;
this module proves that no other loop with an exit is.

* `Waiting` says what waits behind tasks: nothing if there is a loop among them, and
  their last exit otherwise.
* `Fate` says what can become of an exit until the body of its loop ends: it waits, or
  it is lost.
* `Task.Done.exit_of_bare`: a place that is left over is that of an exit.
* `exits_right_iff`: every exit is a jump to where its own loop ends, or continues, and
  no place is left over, if and only if every loop has no exit of its own, or just one
  and no loop inside.
-/

namespace StackLang

open Gen List

variable {ts : List Task} {n : Node} {g h : Generator} {fs ks : List Nat} {i : Nat}

namespace Node

variable {n : Node}

theorem exit_of_isLoop (h : n.isLoop) : n.exit = .none := by
  cases n <;> first | rfl | cases h

/-! ### Exits of a tree -/

/-- Every exit in the node lies inside of a loop in the node. -/
inductive Enclosed : Node → Prop
  | loop {n : Node} : n.isLoop → Enclosed n
  | inner {n : Node} : n.exit = .none → (∀ m ∈ n.children, Enclosed m) → Enclosed n

/-- All exits in a node, whether generation comes to them or not. -/
def everyExit (n : Node) : List Node :=
  (if n.exit = .none then [] else [n]) ++ n.children.attach.flatMap fun m => everyExit m.1
termination_by sizeOf n
decreasing_by exact sizeOf_children m.2

theorem everyExit_eq (n : Node) :
    n.everyExit = (if n.exit = .none then [] else [n]) ++ n.children.flatMap everyExit := by
  rw [everyExit]
  simp

/-- The exits that are reached from a node, those inside of further loops left out. -/
def exits (n : Node) : List Node :=
  if n.exit ≠ .none then [n]
  else if n.isLoop then []
  else n.turns.attach.flatMap fun m => exits m.1
termination_by sizeOf n
decreasing_by exact sizeOf_turns m.2

/-- The exits that leave or continue the loop itself. -/
def ownExits (n : Node) : List Node := n.turns.flatMap exits

theorem exits_eq (n : Node) :
    n.exits = if n.exit ≠ .none then [n] else if n.isLoop then [] else n.ownExits := by
  rw [exits, ownExits]
  simp [List.flatMap]

theorem exits_of_exit (h : n.exit ≠ .none) : n.exits = [n] := by
  rw [exits_eq, if_pos h]

theorem exits_of_isLoop (h : n.isLoop) : n.exits = [] := by
  rw [exits_eq, if_neg (not_not_intro (exit_of_isLoop h)), if_pos h]

theorem exits_of_inner (he : n.exit = .none) (hl : n.isLoop = false) : n.exits = n.ownExits := by
  rw [exits_eq, if_neg (not_not_intro he), if_neg (by simp [hl])]

theorem Enclosed.of_indices {o : Operand} (h : ∀ m ∈ o.nodes, m.Enclosed) {m : Node}
    (hm : m ∈ o.indices) : m.Enclosed := by
  fun_induction Operand.indices o with
  | case1 o a ih =>
    cases h _ mem_cons_self with
    | loop hl => cases hl
    | inner he hc =>
      rcases mem_append.1 hm with hm | hm
      · exact hc m (mem_append_right _ hm)
      · exact ih (fun m hm => hc m (mem_append_left _ hm)) hm
  | case2 => cases hm

theorem Enclosed.of_turns {m : Node} (hn : n.Enclosed) (hl : n.isLoop = false) (hm : m ∈ n.turns) :
    m.Enclosed := by
  cases hn with
  | loop h => simp [hl] at h
  | inner he hc =>
    rcases mem_turns hm with hchild | ⟨o, v, rfl, hindex⟩
    · exact hc m hchild
    · exact of_indices (fun m hm => hc m (mem_cons_of_mem _ hm)) hindex

theorem Enclosed.exit_eq (hn : n.Enclosed) : n.exit = .none := by
  cases hn with
  | loop h => exact exit_of_isLoop h
  | inner he => exact he

/-- Outside of its loops, such a node has no exits. -/
theorem Enclosed.exits_eq {n : Node} (hn : n.Enclosed) : n.exits = [] := by
  cases hl : n.isLoop with
  | true => exact exits_of_isLoop hl
  | false =>
    rw [exits_of_inner hn.exit_eq hl]
    exact flatMap_eq_nil_iff.2 fun m hm => (hn.of_turns hl hm).exits_eq
termination_by sizeOf n
decreasing_by exact sizeOf_turns hm

end Node

namespace Task

/-! ### Exits of a task -/

/-- The exits that a task comes to, those inside of further loops left out. -/
def exits (t : Task) : List Task :=
  if t.node.exit ≠ .none then [t]
  else if t.node.isLoop then []
  else t.parts.attach.flatMap fun u => exits u.1
termination_by sizeOf t.node
decreasing_by exact sizeOf_parts u.2

/-- The exits that leave or continue the loop itself. -/
def ownExits (t : Task) : List Task := t.parts.flatMap exits

variable {t e : Task}

theorem exits_of_exit (h : t.node.exit ≠ .none) : t.exits = [t] := by
  rw [exits, if_pos h]

theorem exits_of_isLoop (h : t.node.isLoop) : t.exits = [] := by
  rw [exits, if_neg (not_not_intro (Node.exit_of_isLoop h)), if_pos h]

theorem exits_of_inner (he : t.node.exit = .none) (hl : t.node.isLoop = false) :
    t.exits = t.ownExits := by
  rw [exits, if_neg (not_not_intro he), if_neg (by simp [hl]), ownExits]
  simp [List.flatMap]

/-- The three sorts of tasks that exits tell apart. -/
theorem sort (t : Task) : t.node.exit ≠ .none ∨ t.node.isLoop ∨
    (t.node.exit = .none ∧ t.node.isLoop = false) := by
  by_cases he : t.node.exit = .none
  · cases hl : t.node.isLoop with
    | true => exact .inr (.inl rfl)
    | false => exact .inr (.inr ⟨he, rfl⟩)
  · exact .inl he

theorem parts_of_exit (h : t.node.exit ≠ .none) : t.parts = [] := by
  obtain ⟨n, g⟩ := t
  cases n <;> first | rfl | exact absurd rfl h

theorem mem_all_of_exits (h : e ∈ t.exits) : e ∈ t.all ∧ e.node.exit ≠ .none := by
  induction t using Task.induction with
  | h t ih =>
    rcases t.sort with he | hl | ⟨he, hl⟩
    · rw [exits_of_exit he, mem_singleton] at h
      exact ⟨h ▸ mem_all_self t, h ▸ he⟩
    · rw [exits_of_isLoop hl] at h
      cases h
    · rw [exits_of_inner he hl] at h
      obtain ⟨u, hu, h⟩ := mem_flatMap.1 h
      exact ⟨mem_all.2 (.inr ⟨u, hu, (ih u hu h).1⟩), (ih u hu h).2⟩

theorem exit_of_ownExits (h : e ∈ t.ownExits) : e.node.exit ≠ .none := by
  obtain ⟨u, -, he⟩ := mem_flatMap.1 h
  exact (mem_all_of_exits he).2

/-- An exit is one of the task, or belongs to a loop below it. -/
theorem exits_or_ownExits (h : e ∈ t.all) (he : e.node.exit ≠ .none) :
    e ∈ t.exits ∨ ∃ l ∈ t.all, l.node.isLoop ∧ e ∈ l.ownExits := by
  induction t using Task.induction with
  | h t ih =>
    rcases mem_all.1 h with rfl | ⟨u, hu, h⟩
    · rw [exits_of_exit he]
      exact .inl (mem_singleton.2 rfl)
    rcases ih u hu h with h | ⟨l, hl, h⟩
    · have hown : e ∈ t.ownExits := mem_flatMap.2 ⟨u, hu, h⟩
      rcases t.sort with hx | hl | ⟨hx, hl⟩
      · rw [parts_of_exit hx] at hu
        cases hu
      · exact .inr ⟨t, mem_all_self t, hl, hown⟩
      · rw [exits_of_inner hx hl]
        exact .inl hown
    · exact .inr ⟨l, mem_all.2 (.inr ⟨u, hu, hl⟩), h⟩

theorem Done.map_exits (ht : t.Done) : t.exits.map node = t.node.exits := by
  induction t using Task.induction with
  | h t ih =>
    rcases t.sort with he | hl | ⟨he, hl⟩
    · rw [exits_of_exit he, Node.exits_of_exit he, map_singleton]
    · rw [exits_of_isLoop hl, Node.exits_of_isLoop hl, map_nil]
    · rw [exits_of_inner he hl, Node.exits_of_inner he hl, ownExits, Node.ownExits,
        map_flatMap fun u hu => ih u hu (ht.of_mem_parts hu), ht.map_parts]

theorem Done.map_ownExits (ht : t.Done) : t.ownExits.map node = t.node.ownExits := by
  rw [ownExits, Node.ownExits, map_flatMap fun u hu => (ht.of_mem_parts hu).map_exits,
    ht.map_parts]

/-- An exit keeps a place if the flag is set, and does nothing otherwise. -/
theorem Done.finish_of_exit (ht : t.Done) (he : t.node.exit ≠ .none) :
    t.finish = if t.start.inLoop then t.start.waitFor t.node.exit else t.start := by
  obtain ⟨n, g⟩ := t
  have h := ht.ends
  cases n <;> try exact absurd rfl he
  all_goals exact ends_exitCode.1 h

end Task

/-! ### What waits behind tasks -/

/-- Where an exit waits, and for what. -/
def Task.place (e : Task) : Nat × Exit := (e.start.length, e.node.exit)

/-- There is no loop among the tasks and below them. -/
def LoopFree (ts : List Task) : Prop := ∀ l ∈ ts.flatMap Task.all, l.node.isLoop = false

theorem loopFree_append {us : List Task} : LoopFree (ts ++ us) ↔ LoopFree ts ∧ LoopFree us := by
  simp only [LoopFree, flatMap_append, mem_append, or_imp, forall_and]

/-- What the flag and the waiting exit are in `h`, when generation has come there from
    `g` by the tasks `ts`. -/
structure Waiting (g : Generator) (ts : List Task) (h : Generator) : Prop where
  /-- A loop clears both. -/
  loop : ¬LoopFree ts → h.inLoop = false ∧ h.pending.2 = .none
  /-- Without loops the flag stays. -/
  inLoop : LoopFree ts → h.inLoop = g.inLoop
  outside : LoopFree ts → g.inLoop = false → h.pending = g.pending
  /-- Inside of a loop every exit is written, and the last one waits. -/
  inside : LoopFree ts → g.inLoop = true →
    h.pending = ((ts.flatMap Task.exits).getLast?.map Task.place).getD g.pending ∧
      ∀ e ∈ ts.flatMap Task.exits, e.start.inLoop = true

namespace Waiting

variable {g h k : Generator} {ts us : List Task}

theorem start (g : Generator) : Waiting g [] g :=
  ⟨fun h => absurd (by simp [LoopFree]) h, fun _ => rfl, fun _ _ => rfl, fun _ _ => ⟨rfl, by simp⟩⟩

/-- A step that leaves the flag and the waiting exit alone. -/
theorem same (w : Waiting g ts h) (hl : k.inLoop = h.inLoop) (hp : k.pending = h.pending) :
    Waiting g ts k := by
  refine ⟨?_, ?_, ?_, ?_⟩
  · rw [hl, hp]
    exact w.loop
  · rw [hl]
    exact w.inLoop
  · rw [hp]
    exact w.outside
  · rw [hp]
    exact w.inside

theorem trans (w : Waiting g ts h) (w' : Waiting h us k) : Waiting g (ts ++ us) k := by
  refine ⟨fun hn => ?_, fun hn => ?_, fun hn hg => ?_, fun hn hg => ?_⟩
  · by_cases hus : LoopFree us
    · -- the loop is among the first tasks, and what comes behind it does not wait
      obtain ⟨hf, hp⟩ := w.loop fun hts => hn (loopFree_append.2 ⟨hts, hus⟩)
      rw [w'.inLoop hus, w'.outside hus hf]
      exact ⟨hf, hp⟩
    · exact w'.loop hus
  all_goals obtain ⟨h₁, h₂⟩ := loopFree_append.1 hn
  · rw [w'.inLoop h₂, w.inLoop h₁]
  · rw [w'.outside h₂ ((w.inLoop h₁).trans hg), w.outside h₁ hg]
  · obtain ⟨hp, he⟩ := w.inside h₁ hg
    obtain ⟨hp', he'⟩ := w'.inside h₂ ((w.inLoop h₁).trans hg)
    rw [flatMap_append, getLast?_append]
    refine ⟨?_, fun e hmem => (mem_append.1 hmem).elim (he e) (he' e)⟩
    rw [hp', hp]
    cases (us.flatMap Task.exits).getLast? <;> rfl

end Waiting

namespace Course

variable {n : Node} {g h : Generator} {ts : List Task} {ks fs : List Nat}

theorem waiting_of_parts (c : Course n g ts ks fs h) (hg : g.Sound) (hn : n.isLoop = false)
    (he : n.exit = .none) (hts : ∀ u ∈ ts, u.Done → Waiting u.start [u] u.finish) :
    Waiting g ts h := by
  have noLoop : ∀ {p : Prop}, n.isLoop → p := fun h => by simp [hn] at h
  induction c with
  | start => exact .start g
  | write c _ ih | note heap records objects c ih | reserve name type c _ ih | declare c _ ih
  | keep c _ ih | fill c _ _ _ ih =>
    exact (ih hts).same rfl rfl
  | back c hl _ ih | flag b c hl ih | settle e c hl _ ih => exact noLoop hl
  | wait c hx _ ih => exact absurd he hx
  | @part ts ks fs h k m c e ih =>
    obtain rfl : Task.finish ⟨m, h⟩ = k := e.after_eq
    have hlast := hts ⟨m, h⟩ mem_concat_self ⟨(c.laid hg).sound, e⟩
    exact (ih fun u hu => hts u (mem_append_left _ hu)).trans hlast

end Course

/-- What waits behind a task. -/
theorem Task.Done.waiting {t : Task} (ht : t.Done) : Waiting t.start [t] t.finish := by
  induction t using Task.induction with
  | h t ih =>
    have hall : [t].flatMap all = t :: t.parts.flatMap all := by rw [flatMap_singleton, all_eq]
    have hexits : [t].flatMap exits = t.exits := flatMap_singleton ..
    have hfree : ∀ {p : Prop}, t.node.isLoop → LoopFree [t] → p := fun hl h => by
      simp [h t (hall ▸ mem_cons_self)] at hl
    rcases t.sort with he | hl | ⟨he, hl⟩
    · have hfinish := ht.finish_of_exit he
      have hloop : LoopFree [t] := by
        rw [LoopFree, hall, parts_of_exit he]
        intro l hl
        obtain rfl := mem_singleton.1 hl
        cases h : l.node.isLoop with
        | false => rfl
        | true => exact absurd (Node.exit_of_isLoop h) he
      refine ⟨fun h => absurd hloop h, fun _ => ?_, fun _ hg => ?_, fun _ hg => ?_⟩
      · rw [hfinish]
        split <;> rfl
      · rw [hfinish, if_neg (by simp [hg])]
      · rw [hfinish, if_pos hg, hexits, exits_of_exit he]
        exact ⟨rfl, fun e h => mem_singleton.1 h ▸ hg⟩
    · obtain ⟨k, test, hend⟩ := ht.loop hl
      obtain ⟨start, counter, hf⟩ := hend.finish
      refine ⟨fun _ => ?_, hfree hl, hfree hl, hfree hl⟩
      rw [hf]
      exact ⟨Generator.closeLoop_inLoop, Generator.closeLoop_pending⟩
    · obtain ⟨ks, fs, c, -⟩ := ht.course
      have w := c.waiting_of_parts ht.sound hl he ih
      have hiff : LoopFree [t] ↔ LoopFree t.parts := by
        simp only [LoopFree, hall, forall_mem_cons, hl, true_and]
      refine ⟨?_, ?_, ?_, ?_⟩
      · rw [hiff]
        exact w.loop
      · rw [hiff]
        exact w.inLoop
      · rw [hiff]
        exact w.outside
      · rw [hiff, hexits, exits_of_inner he hl]
        exact w.inside

theorem Course.waiting (c : Course n g ts ks fs h) (hg : g.Sound) (hn : n.isLoop = false)
    (he : n.exit = .none) : Waiting g ts h :=
  c.waiting_of_parts hg hn he fun _ _ hu => hu.waiting

/-! ### What becomes of an exit -/

/-- What can become of an exit at `i` before its loop ends: it waits, or it waits no more,
    and then it has no target or one that is too near. -/
def Fate (h : Generator) (i : Nat) (e : Exit) : Prop :=
  h.pending = (i, e) ∨ ¬h.Waits i ∧ (h.code[i]? = some (.bare 0) ∨
    ∃ t : Nat, t ≤ h.length ∧ (e = .continue → t < h.length) ∧
      h.code[i]? = some (.instruction Op.jump (.int t)))

theorem Fate.passed {w : Generator} {e : Exit} (f : Fate w i e) (hw : w.Sound) (he : e ≠ .none)
    (hp : Passed ks w h) (hi : i < w.length) (hks : i ∉ ks) : Fate h i e := by
  have hlen := hp.length_le
  rcases f with hpend | ⟨hnw, hcode⟩
  · have hwait : w.Waits i := by
      rw [Generator.Waits, hpend]
      exact ⟨rfl, he⟩
    rcases hp.slot i hi hks with hc | ⟨-, hn, t, -, ht, htc, hc⟩
    · by_cases hh : h.Waits i
      · exact .inl ((hp.pending_eq hi hh).trans hpend)
      · exact .inr ⟨hh, .inl (hc.trans (hw.waiting hwait))⟩
    · refine .inr ⟨hn, .inr ⟨t, ht, fun h => htc ?_, hc⟩⟩
      rw [hpend, h]
  · have hn : ¬h.Waits i := fun hh => hnw (by rwa [Generator.Waits, ← hp.pending_eq hi hh])
    rcases hp.slot i hi hks with hc | ⟨hwait, -⟩
    · refine .inr ⟨hn, ?_⟩
      rw [hc]
      rcases hcode with hb | ⟨t, ht, htc, hj⟩
      · exact .inl hb
      · exact .inr ⟨t, by omega, fun h => Nat.lt_of_lt_of_le (htc h) hlen, hj⟩
    · exact absurd hwait hnw

/-- The fate of an exit in a part goes on until the end of the course. -/
theorem Course.fate {u : Task} {e : Exit} (c : Course n g ts ks fs h) (hg : g.Sound)
    (hn : n.isLoop = false) (hu : u ∈ ts) (hs : u.start.length ≤ i) (hf : i < u.finish.length)
    (he : e ≠ .none) (f : Fate u.finish i e) : Fate h i e := by
  have hsound := (Task.inside_of_course c hg hu).done.built.sound
  refine f.passed hsound he ((c.passed hg hn).2 u hu) hf fun hi => ?_
  rcases (c.laid hg).apart u hu i hi with h | h <;> omega

namespace Task

variable {t e : Task}

theorem Done.lt_of_exit (he : e.Done) (hx : e.node.exit ≠ .none) :
    e.start.length < e.finish.length ↔ e.start.inLoop = true := by
  rw [he.finish_of_exit hx]
  cases e.start.inLoop with
  | true => exact ⟨fun _ => rfl, fun _ => Nat.lt_succ_self _⟩
  | false => simp

/-- An exit of a task that is written waits behind the task, or is lost. -/
theorem Done.fate (ht : t.Done) (he : e ∈ t.exits) (hw : e.start.length < e.finish.length) :
    Fate t.finish e.start.length e.node.exit := by
  induction t using Task.induction with
  | h t ih =>
    rcases t.sort with hx | hl | ⟨hx, hl⟩
    · rw [exits_of_exit hx, mem_singleton] at he
      subst he
      rw [ht.finish_of_exit hx, if_pos ((ht.lt_of_exit hx).1 hw)]
      exact .inl rfl
    · rw [exits_of_isLoop hl] at he
      cases he
    · rw [exits_of_inner hx hl] at he
      obtain ⟨u, hu, he⟩ := mem_flatMap.1 he
      obtain ⟨ks, fs, c, -⟩ := ht.course
      have hd := (inside_of_course c ht.sound hu).done
      have hin := inside_of_mem_all hd (mem_all_of_exits he).1
      exact c.fate ht.sound hl hu hin.start_le (Nat.lt_of_lt_of_le hw hin.finish_le)
        (mem_all_of_exits he).2 (ih u hu hd he)

/-- At the end of the body, the same holds of the exits of the loop. -/
theorem LoopEnd.fate {l : Task} {k : Generator} {test : Nat} (h : l.LoopEnd k test) (hl : l.Done)
    (he : e ∈ l.ownExits) (hw : e.start.length < e.finish.length) :
    Fate k e.start.length e.node.exit := by
  obtain ⟨u, hu, he⟩ := mem_flatMap.1 he
  have hd := (inside_of_course h.course (hl.sound.flag true) hu).done
  have hin := inside_of_mem_all hd (mem_all_of_exits he).1
  exact h.course.fate (hl.sound.flag true) rfl hu hin.start_le (Nat.lt_of_lt_of_le hw hin.finish_le)
    (mem_all_of_exits he).2 (hd.fate he hw)

end Task

/-! ### The order of exits -/

/-- As the parts of a node come one after the other, so do their exits. -/
theorem Course.exits_ordered (c : Course n g ts ks fs h) (hg : g.Sound)
    (hts : ∀ t ∈ ts, t.Done → t.exits.Pairwise fun t u => t.finish.length ≤ u.start.length) :
    (ts.flatMap Task.exits).Pairwise fun t u => t.finish.length ≤ u.start.length := by
  have hd : ∀ t ∈ ts, t.Done := fun t ht => (Task.inside_of_course c hg ht).done
  refine pairwise_flatMap.2 ⟨fun t ht => hts t ht (hd t ht), ?_⟩
  refine (c.ordered hg).imp_of_mem fun {t u} ht hu htu e he e' he' => ?_
  have hin := Task.inside_of_mem_all (hd t ht) (Task.mem_all_of_exits he).1
  have hin' := Task.inside_of_mem_all (hd u hu) (Task.mem_all_of_exits he').1
  calc e.finish.length ≤ t.finish.length := hin.finish_le
    _ ≤ u.start.length := htu
    _ ≤ e'.start.length := hin'.start_le

theorem Task.Done.exits_ordered {t : Task} (ht : t.Done) :
    t.exits.Pairwise fun t u => t.finish.length ≤ u.start.length := by
  induction t using Task.induction with
  | h t ih =>
    rcases t.sort with hx | hl | ⟨hx, hl⟩
    · rw [exits_of_exit hx]
      exact pairwise_singleton _ _
    · rw [exits_of_isLoop hl]
      exact .nil
    · rw [exits_of_inner hx hl]
      obtain ⟨ks, fs, c, -⟩ := ht.course
      exact c.exits_ordered ht.sound ih

/-! ### Places that are left over -/

/-- A place that is bare was so before. -/
theorem Keeps.bare {a b : Nat} (hk : Keeps a b g h) (ha : a ≤ i) (hb : i < b)
    (hi : h.code[i]? = some (.bare 0)) : g.code[i]? = some (.bare 0) := by
  rcases hk.slot i ha hb with hc | ⟨-, -, t, -, -, hc⟩
  · exact hc ▸ hi
  · rw [hc] at hi
    cases hi

theorem Generator.Sound.bare_of_push (hh : h.Sound) {s : Slot} (hs : s ≠ .bare 0)
    (hi : (h.push s).code[i]? = some (.bare 0)) : h.code[i]? = some (.bare 0) := by
  rcases Nat.lt_or_ge i h.length with hlt | hge
  · rwa [hh.push_code_lt s hlt] at hi
  · exact absurd (Laid.push_new hh hge hi).2.symm hs

/-- A bare place of a course is that of an exit below one of its parts. -/
theorem Course.exit_of_bare (c : Course n g ts ks fs h) (hg : g.Sound) (hn : n.exit = .none)
    (hts : ∀ t ∈ ts, t.Done → ∀ i, t.start.length ≤ i → t.finish.code[i]? = some (.bare 0) →
      ∃ e ∈ t.all, e.node.exit ≠ .none ∧ e.start.length = i ∧ i < e.finish.length)
    (hi : g.length ≤ i) (hb : h.code[i]? = some (.bare 0)) :
    ∃ e ∈ ts.flatMap Task.all, e.node.exit ≠ .none ∧ e.start.length = i ∧ i < e.finish.length := by
  induction c with
  | start =>
    have := (Array.getElem?_eq_some_iff.1 hb).1
    have := hg.size
    omega
  | write c _ ih | declare c _ ih | back c _ _ ih =>
    exact ih hts ((c.laid hg).sound.bare_of_push (by simp) hb)
  | note heap records objects c ih | reserve name type c _ ih | flag b c _ ih => exact ih hts hb
  | keep c hs ih =>
    refine ih hts ((c.laid hg).sound.bare_of_push ?_ hb)
    rintro rfl
    simp [Slot.isOpen] at hs
  | @fill ts ks fs h j x c _ hj _ ih =>
    refine ih hts ?_
    by_cases hij : j = i
    · -- what is filled in is an instruction
      subst hij
      rw [(c.laid hg).sound.fill_code_self ((c.laid hg).kept j hj).2.1] at hb
      cases hb
    · rwa [Generator.fill_code_ne hij] at hb
  | settle e c _ he ih =>
    exact ih hts ((Keeps.settled (c.laid hg).sound he).bare (Nat.zero_le _) (Nat.lt_succ_self _) hb)
  | wait c hx _ ih => exact absurd hn hx
  | @part ts ks fs h k m c e ih =>
    have hh := (c.laid hg).sound
    obtain rfl : Task.finish ⟨m, h⟩ = k := e.after_eq
    rw [flatMap_append]
    rcases Nat.lt_or_ge i h.length with hlt | hge
    · obtain ⟨x, hx, h⟩ := ih (fun t ht => hts t (mem_append_left _ ht))
        ((built_of_ends hh e).keeps.bare (Nat.zero_le _) hlt hb)
      exact ⟨x, mem_append_left _ hx, h⟩
    · obtain ⟨x, hx, h⟩ := hts ⟨m, h⟩ mem_concat_self ⟨hh, e⟩ i hge hb
      exact ⟨x, mem_append_right _ (by rwa [flatMap_singleton]), h⟩

/-- A bare place of a task is that of an exit below it. -/
theorem Task.Done.exit_of_bare {t : Task} (ht : t.Done) (hi : t.start.length ≤ i)
    (hb : t.finish.code[i]? = some (.bare 0)) :
    ∃ e ∈ t.all, e.node.exit ≠ .none ∧ e.start.length = i ∧ i < e.finish.length := by
  induction t using Task.induction generalizing i with
  | h t ih =>
    by_cases hx : t.node.exit = .none
    · obtain ⟨ks, fs, c, -⟩ := ht.course
      obtain ⟨e, he, h⟩ := c.exit_of_bare ht.sound hx (fun u hu hd _ => ih u hu hd) hi hb
      exact ⟨e, mem_all.2 (.inr (mem_flatMap.1 he)), h⟩
    · have hlt := (Array.getElem?_eq_some_iff.1 hb).1
      rw [ht.built.sound.size] at hlt
      have hle : t.finish.length ≤ t.start.length + 1 := by
        rw [ht.finish_of_exit hx]
        split
        · exact Nat.le_refl _
        · exact Nat.le_succ _
      exact ⟨t, mem_all_self t, hx, by omega, hlt⟩

/-! ### Loops that are served -/

namespace Task

variable {l e : Task} {k : Generator} {test : Nat}

/-- Where an exit of the loop has to go. -/
def goal (l : Task) : Exit → Nat
  | .continue => l.again
  | _ => l.finish.length

/-- An own exit lies in the body of its loop, and not at the place of the test. -/
theorem LoopEnd.exit_within (h : l.LoopEnd k test) (hl : l.Done) (he : e ∈ l.ownExits)
    (hw : e.start.length < e.finish.length) :
    l.start.length ≤ e.start.length ∧ e.start.length < k.length ∧ test ≠ e.start.length := by
  obtain ⟨u, hu, he⟩ := mem_flatMap.1 he
  have hsound := hl.sound.flag true
  have hin := inside_of_course h.course hsound hu
  have hin' := inside_of_mem_all hin.done (mem_all_of_exits he).1
  have hs : l.start.length ≤ u.start.length := hin.start_le
  have hs' := hin'.start_le
  have hf := hin.finish_le
  have hf' := hin'.finish_le
  have htest := (h.laid hl).apart u hu test (mem_singleton.2 rfl)
  omega

theorem LoopEnd.waiting (h : l.LoopEnd k test) (hl : l.Done) :
    Waiting (l.start.flag true) l.parts k :=
  h.course.waiting (hl.sound.flag true) rfl rfl

/-- An own exit that does not wait when the body ends does not get where it has to. -/
theorem LoopEnd.waits_of_code (h : l.LoopEnd k test) (hl : l.Done) (he : e ∈ l.ownExits)
    (hw : e.start.length < e.finish.length)
    (hc : l.finish.code[e.start.length]? =
      some (.jumping (l.goal e.node.exit))) : k.pending = e.place := by
  obtain ⟨-, hlt, htest⟩ := h.exit_within hl he hw
  rcases h.fate hl he hw with hp | ⟨hn, hcode⟩
  · exact hp
  · exfalso
    have hk : Keeps e.start.length (e.start.length + 1) k l.finish :=
      h.keeps_finish hl hlt (by omega)
    rw [hk.code_eq (Nat.le_refl _) (Nat.lt_succ_self _) hn] at hc
    have hlen := h.length_finish
    have hagain := h.again_eq
    rcases hcode with hb | ⟨t, ht, htc, hj⟩
    · rw [hc] at hb
      cases hb
    · have hx := exit_of_ownExits he
      have hgoal : t = l.goal e.node.exit := by
        rw [hc] at hj
        have : (t : Int) = l.goal e.node.exit := by simpa using hj.symm
        omega
      cases hexit : e.node.exit with
      | none => exact hx hexit
      | «break» =>
        rw [hexit, goal] at hgoal
        · omega
        · exact Exit.noConfusion
      | «continue» =>
        have := htc hexit
        rw [hexit, goal] at hgoal
        omega

/-- A loop with one exit of its own and no loop inside is served. -/
theorem Done.code_of_single (hl : l.Done) (hn : l.node.isLoop) (he : l.ownExits = [e])
    (hfree : LoopFree l.parts) : e.start.length < e.finish.length ∧
      l.finish.code[e.start.length]? =
        some (.jumping (l.goal e.node.exit)) := by
  obtain ⟨k, test, hend⟩ := hl.loop hn
  obtain ⟨hp, hwritten⟩ := (hend.waiting hl).inside hfree rfl
  change k.pending = (l.ownExits.getLast?.map place).getD _ at hp
  change ∀ x ∈ l.ownExits, x.start.inLoop = true at hwritten
  rw [he] at hp hwritten
  obtain ⟨u, hu, hmem⟩ := mem_flatMap.1 (show e ∈ l.ownExits from he ▸ mem_cons_self)
  obtain ⟨hall, hx⟩ := mem_all_of_exits hmem
  have hd := (inside_of_mem_all (hl.of_mem_parts hu) hall).done
  have hwait : k.Waits e.start.length := by
    rw [Generator.Waits, hp]
    exact ⟨rfl, hx⟩
  refine ⟨(hd.lt_of_exit hx).2 (hwritten e mem_cons_self), ?_⟩
  rw [hend.code_of_waits hl hwait, hp]
  cases hexit : e.node.exit with
  | none => exact absurd hexit hx
  | «break» | «continue» => simp [place, goal, hexit]

/-- And no other loop with an exit is. -/
theorem Done.single_of_code (hl : l.Done) (hn : l.node.isLoop)
    (h : ∀ e ∈ l.ownExits, e.start.length < e.finish.length ∧
      l.finish.code[e.start.length]? =
        some (.jumping (l.goal e.node.exit))) :
    l.ownExits = [] ∨ (∃ e, l.ownExits = [e]) ∧ LoopFree l.parts := by
  obtain ⟨k, test, hend⟩ := hl.loop hn
  have hw := hend.waiting hl
  have hplace : ∀ e ∈ l.ownExits, k.pending = e.place := fun e he =>
    hend.waits_of_code hl he (h e he).1 (h e he).2
  have hordered : l.ownExits.Pairwise fun t u => t.finish.length ≤ u.start.length :=
    hend.course.exits_ordered (hl.sound.flag true) fun _ _ ht => ht.exits_ordered
  cases hown : l.ownExits with
  | nil => exact .inl rfl
  | cons e es =>
    have he : e ∈ l.ownExits := hown ▸ mem_cons_self
    have hx := exit_of_ownExits he
    refine .inr ⟨?_, ?_⟩
    · -- a second exit would wait at the place of the first
      cases es with
      | nil => exact ⟨e, rfl⟩
      | cons e' es =>
        rw [hown] at hordered
        have hle := rel_of_pairwise_cons hordered mem_cons_self
        have he' : e' ∈ l.ownExits := hown ▸ mem_cons_of_mem _ mem_cons_self
        have hsame : e.start.length = e'.start.length :=
          congrArg Prod.fst ((hplace e he).symm.trans (hplace e' he'))
        have := (h e he).1
        omega
    · -- behind a loop nothing would wait
      refine Classical.not_not.1 fun hnot => hx ?_
      rw [← (hw.loop hnot).2, hplace e he, place]

/-- At the continuation of a loop stands its jump back, or the load of its counter. -/
theorem LoopEnd.code_again (h : l.LoopEnd k test) (hl : l.Done) : ∃ a : Nat,
    l.finish.code[l.again]? =
      some (.instruction (if l.node.stride = 0 then Op.jump else Op.load) (.int a)) := by
  have la := h.laid hl
  have hlt := (la.kept test (mem_singleton.2 rfl)).2.1
  obtain ⟨start, counter, hf⟩ := h.finish
  have htail : ∀ {s : Slot} {ss : List Slot},
      l.node.increment counter ++ [.jumping start] = s :: ss →
      l.finish.code[l.again]? = some s := by
    intro s ss hss
    rw [h.again_eq, hf, Generator.closeLoop_code_ge la.sound hlt (Nat.le_refl _),
      Generator.tail_eq, hss]
    simpa using (la.sound.settled .continue).pushAll_code_length s ss
  cases hn : l.node with
  | forLoop v c body => exact ⟨counter, htail (by rw [hn]; rfl)⟩
  | _ => exact ⟨start, htail (by rw [hn]; rfl)⟩

end Task

/-! ### Programs -/

/-- Every exit of a program is a jump to where its own loop ends, or continues. -/
structure ExitsRight (p : List Node) (g : Generator) : Prop where
  /-- Generation comes to every exit of the tree. -/
  reached : (p.flatMap Node.reached).countP (·.exit ≠ .none) = (p.flatMap Node.everyExit).length
  owned : ∀ e ∈ programTasks p, e.node.exit ≠ .none →
    ∃ l ∈ programTasks p, l.node.isLoop ∧ e ∈ l.ownExits
  jumps : ∀ l ∈ programTasks p, l.node.isLoop → ∀ e ∈ l.ownExits,
    e.start.length < e.finish.length ∧
      g.code[e.start.length]? = some (.instruction Op.jump (.int (l.goal e.node.exit)))
  /-- A loop continues with its jump back, or with the load of its counter. -/
  again : ∀ l ∈ programTasks p, l.node.isLoop → ∃ a : Nat, g.code[l.again]? =
    some (.instruction (if l.node.stride = 0 then Op.jump else Op.load) (.int a))
  /-- No place is left over. -/
  filled : ∀ i n : Nat, g.code[i]? ≠ some (.bare n)

/-- Generation comes to every exit of the tree, and a loop has no exit of its own, or just
    one and no loop inside. -/
structure LoopsServed (p : List Node) : Prop where
  reached : (p.flatMap Node.reached).countP (·.exit ≠ .none) = (p.flatMap Node.everyExit).length
  loops : ∀ l ∈ p.flatMap Node.reached, l.isLoop →
    l.ownExits.length = 0 ∨
      l.ownExits.length = 1 ∧ ∀ m ∈ l.turns.flatMap Node.reached, m.isLoop = false

/-- What a loop has written stays to the end. -/
theorem Task.Inside.code_of_loop {l : Task} (hl : l.Inside g h) (hn : l.node.isLoop)
    (hs : l.start.length ≤ i) (hf : i < l.finish.length) : h.code[i]? = l.finish.code[i]? := by
  obtain ⟨k, test, hend⟩ := hl.done.loop hn
  obtain ⟨start, counter, hfinish⟩ := hend.finish
  refine hl.keeps.code_eq hs hf fun hw => hw.2 ?_
  rw [hfinish]
  exact Generator.closeLoop_pending

/-- An exit of a program whose exits are all enclosed belongs to a loop. -/
theorem owner_of_exit {p : List Node} (h : generateProgram p = .ok g) (hp : ∀ n ∈ p, n.Enclosed)
    {e : Task} (he : e ∈ programTasks p) (hx : e.node.exit ≠ .none) :
    ∃ l ∈ programTasks p, l.node.isLoop ∧ e ∈ l.ownExits := by
  obtain ⟨t, ht, he⟩ := mem_flatMap.1 he
  have hd := (Task.inside_of_course (course_of_generateProgram h) .initial ht).done
  rcases Task.exits_or_ownExits he hx with hexit | ⟨l, hl, hown⟩
  · have hnode : t.node ∈ p := by
      rw [← map_allTasks (g := {}) p]
      exact mem_map_of_mem ht
    have hnil : t.exits.map Task.node = [] := by rw [hd.map_exits, (hp _ hnode).exits_eq]
    rw [map_eq_nil_iff.1 hnil] at hexit
    cases hexit
  · exact ⟨l, mem_flatMap.2 ⟨t, ht, hl⟩, hown⟩

/-- A bare place of the code is that of an exit. -/
theorem exit_of_bare_code {p : List Node} (h : generateProgram p = .ok g) {n : Nat}
    (hb : g.code[i]? = some (.bare n)) :
    ∃ e ∈ programTasks p, e.node.exit ≠ .none ∧ e.start.length = i ∧ i < e.finish.length := by
  have c := course_of_generateProgram h
  have hn : n = 0 := by
    refine Classical.not_not.1 fun hne => ?_
    -- a program keeps no places of its own
    have := ((c.laid .initial).opened i _ (Nat.zero_le _) hb (by simpa [Slot.isOpen] using hne)).1
    cases this
  subst hn
  exact c.exit_of_bare .initial rfl (fun _ _ hd _ => hd.exit_of_bare) (Nat.zero_le _) hb

/-- The loops that generation comes to are those of the tree. -/
theorem loopsServed_iff {p : List Node} (h : generateProgram p = .ok g) :
    (∀ l ∈ p.flatMap Node.reached, l.isLoop → l.ownExits.length = 0 ∨
      l.ownExits.length = 1 ∧ ∀ m ∈ l.turns.flatMap Node.reached, m.isLoop = false) ↔
    ∀ l ∈ programTasks p, l.node.isLoop →
      l.ownExits = [] ∨ (∃ e, l.ownExits = [e]) ∧ LoopFree l.parts := by
  have hloop : ∀ l ∈ programTasks p, (l.node.ownExits.length = 0 ∨
      l.node.ownExits.length = 1 ∧ ∀ m ∈ l.node.turns.flatMap Node.reached, m.isLoop = false) ↔
      (l.ownExits = [] ∨ (∃ e, l.ownExits = [e]) ∧ LoopFree l.parts) := by
    intro l hl
    have hd := (inside_of_mem_programTasks h hl).done
    have hreached : (l.parts.flatMap Task.all).map Task.node = l.node.turns.flatMap Node.reached := by
      rw [Task.map_flatMap fun u hu => (hd.of_mem_parts hu).map_all, hd.map_parts]
    rw [← hd.map_ownExits, length_map, length_eq_zero_iff, length_eq_one_iff,
      ← hreached, LoopFree, forall_mem_map]
  rw [← map_programTasks h, forall_mem_map]
  exact forall_congr' fun l => forall_congr' fun hl => imp_congr_right fun _ => hloop l hl

/-- Every exit of a program whose exits are all enclosed is a jump to where its own loop
    ends, or continues, and no place is left over, if and only if generation comes to all
    exits and every loop has no exit of its own, or just one and no loop inside. -/
theorem exits_right_iff {p : List Node} {g : Generator} (h : generateProgram p = .ok g)
    (hp : ∀ n ∈ p, n.Enclosed) : ExitsRight p g ↔ LoopsServed p := by
  have hin : ∀ l ∈ programTasks p, l.Inside {} g := fun l => inside_of_mem_programTasks h
  -- what an exit of a loop is in the end, it is already when the loop ends
  have hcode : ∀ l ∈ programTasks p, l.node.isLoop → ∀ e ∈ l.ownExits,
      e.start.length < e.finish.length →
        g.code[e.start.length]? = l.finish.code[e.start.length]? := by
    intro l hl hloop e he hw
    obtain ⟨k, test, hend⟩ := (hin l hl).done.loop hloop
    obtain ⟨hs, hk, -⟩ := hend.exit_within (hin l hl).done he hw
    have := hend.length_finish
    exact (hin l hl).code_of_loop hloop hs (by omega)
  constructor
  · intro r
    refine ⟨r.reached, (loopsServed_iff h).2 fun l hl hloop => ?_⟩
    refine (hin l hl).done.single_of_code hloop fun e he => ?_
    obtain ⟨hw, hj⟩ := r.jumps l hl hloop e he
    exact ⟨hw, by rw [← hcode l hl hloop e he hw, hj]⟩
  · intro s
    have hloops := (loopsServed_iff h).1 s.loops
    have hjumps : ∀ l ∈ programTasks p, l.node.isLoop → ∀ e ∈ l.ownExits,
        e.start.length < e.finish.length ∧
          g.code[e.start.length]? = some (.instruction Op.jump (.int (l.goal e.node.exit))) := by
      intro l hl hloop e he
      rcases hloops l hl hloop with hnil | ⟨⟨e', hsingle⟩, hfree⟩
      · rw [hnil] at he
        cases he
      · rw [hsingle, List.mem_singleton] at he
        subst he
        obtain ⟨hw, hj⟩ := (hin l hl).done.code_of_single hloop hsingle hfree
        exact ⟨hw, by rw [hcode l hl hloop e (hsingle ▸ List.mem_cons_self) hw, hj]⟩
    refine ⟨s.reached, fun e => owner_of_exit h hp, hjumps, fun l hl hloop => ?_, fun i n hb => ?_⟩
    · obtain ⟨k, test, hend⟩ := (hin l hl).done.loop hloop
      have hlen := hend.length_finish
      have hagain := hend.again_eq
      have hgrows := hend.grows
      rw [(hin l hl).code_of_loop hloop (by omega) (by omega)]
      exact hend.code_again (hin l hl).done
    · obtain ⟨e, he, hx, rfl, -⟩ := exit_of_bare_code h hb
      obtain ⟨l, hl, hloop, hown⟩ := owner_of_exit h hp he hx
      rw [(hjumps l hl hloop e hown).2] at hb
      cases hb

/-- A loop in a loop: `while (x < 5) { x = x + 1; while (x < 3) { x = x + 1; break; } }`. -/
def nestedLoops : List Node :=
  let x := Node.literal "VARIABLE" (.text "x")
  let number (n : Int) := Node.literal "INT_LITERAL" (.int n)
  let count := Node.assign (.atom (.text "x")) (.binary "+" x (some (number 1)))
  [.declare (.text "x") "INT" (some (number 0)),
    .whileLoop (.binary "<" x (some (number 5)))
      [count, .whileLoop (.binary "<" x (some (number 3))) [count, .breakLoop]]]

theorem exits_right_nested : ∃ g, generateProgram nestedLoops = .ok g ∧
    (∀ n ∈ nestedLoops, n.Enclosed) ∧ ExitsRight nestedLoops g := by
  have hp : ∀ n ∈ nestedLoops, n.Enclosed := by
    intro n hn
    rcases List.mem_cons.1 hn with rfl | hn
    · refine .inner rfl fun m hm => ?_
      obtain rfl := List.mem_singleton.1 hm
      exact .inner rfl (by simp [Node.children])
    · obtain rfl := List.mem_singleton.1 hn
      exact .loop rfl
  obtain ⟨g, hg, -⟩ := exists_of_toOption (p := nestedLoops) (f := fun _ => ()) (x := ())
    (by decide +kernel)
  refine ⟨g, hg, hp, (exits_right_iff hg hp).2 ⟨?_, fun l hl hloop => ?_⟩⟩
  · simp [nestedLoops, Node.reached_eq, Node.turns, Node.exit, Node.everyExit_eq, Node.children,
      Operand.nodes, Operand.targets]
  · have hmem := List.mem_filter.2 ⟨hl, hloop⟩
    simp only [nestedLoops, Node.reached_eq, Node.turns, Operand.targets, Option.toList,
      List.flatMap_cons, List.flatMap_nil, List.cons_append, List.nil_append, List.append_nil,
      List.filter_cons, List.filter_nil, Node.isLoop, Bool.false_eq_true, if_true, if_false,
      List.mem_cons, List.not_mem_nil, or_false] at hmem
    rcases hmem with rfl | rfl
    · exact .inl (by simp [Node.ownExits, Node.exits_eq, Node.turns, Node.exit, Node.isLoop,
        Operand.targets])
    · refine .inr ⟨by simp [Node.ownExits, Node.exits_eq, Node.turns, Node.exit, Node.isLoop,
        Operand.targets], ?_⟩
      simp [Node.reached_eq, Node.turns, Node.isLoop, Operand.targets]

/-- A loop with two exits: `while (x < 5) { x = x + 1; if (x == 2) { break; } if (x == 3)
    { break; } }`. -/
def twoExits : List Node :=
  let x := Node.literal "VARIABLE" (.text "x")
  let number (n : Int) := Node.literal "INT_LITERAL" (.int n)
  let leave (n : Int) := Node.conditional (.binary "==" x (some (number n))) [.breakLoop] [] none
  [.declare (.text "x") "INT" (some (number 0)),
    .whileLoop (.binary "<" x (some (number 5)))
      [.assign (.atom (.text "x")) (.binary "+" x (some (number 1))), leave 2, leave 3]]

/-- A slot is the place of an exit that waits. -/
def Slot.isUnsettled : Slot → Bool
  | .bare 0 => true
  | _ => false

theorem Slot.eq_of_isUnsettled {s : Slot} (h : s.isUnsettled) : s = .bare 0 := by
  unfold isUnsettled at h
  split at h
  · rfl
  · cases h

/-- The place of the first one is left over. -/
theorem exits_wrong_two : ∃ g, generateProgram twoExits = .ok g ∧
    (∀ n ∈ twoExits, n.Enclosed) ∧ g.code[16]? = some (.bare 0) ∧ ¬ExitsRight twoExits g := by
  have hp : ∀ n ∈ twoExits, n.Enclosed := by
    intro n hn
    rcases List.mem_cons.1 hn with rfl | hn
    · refine .inner rfl fun m hm => ?_
      obtain rfl := List.mem_singleton.1 hm
      exact .inner rfl (by simp [Node.children])
    · obtain rfl := List.mem_singleton.1 hn
      exact .loop rfl
  obtain ⟨g, hg, hbare⟩ := exists_of_toOption (p := twoExits) (x := true)
    (f := fun g => g.code[16]?.any Slot.isUnsettled) (by decide +kernel)
  obtain ⟨s, hb, hs⟩ := (Option.any_eq_true _ _).1 hbare
  obtain rfl := Slot.eq_of_isUnsettled hs
  exact ⟨g, hg, hp, hb, fun r => r.filled 16 0 hb⟩

end StackLang
