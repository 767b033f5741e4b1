import StackLang.Proofs.Layout

/-!
# The code of a loop

The code of a loop is its counter, its test and its body, and a tail of one
instruction, or of five if the loop counts. `Task.Done.loop` gives the generator
where the body ends; up to there generation runs a course of parts with one place
kept, that of the test. The lemmas on `Generator.closeLoop` say what the tail does
from there on.

A `break` goes behind the tail, a `continue` to its start (`Task.again`).
-/

namespace StackLang

open List Generator

namespace Generator

variable {g : Generator} {a b : Nat}

@[simp] theorem pushAll_nil : g.pushAll [] = g := rfl

@[simp] theorem pushAll_cons (s : Slot) (ss : List Slot) :
    g.pushAll (s :: ss) = (g.push s).pushAll ss := rfl

@[simp] theorem pushAll_length (ss : List Slot) : (g.pushAll ss).length = g.length + ss.length := by
  induction ss generalizing g with
  | nil => rfl
  | cons s ss ih =>
    rw [pushAll_cons, ih, push_length, length_cons]
    omega

@[simp] theorem pushAll_pending (ss : List Slot) : (g.pushAll ss).pending = g.pending := by
  induction ss generalizing g with
  | nil => rfl
  | cons s ss ih => rw [pushAll_cons, ih, push_pending]

theorem Sound.pushAll (hg : g.Sound) (ss : List Slot) : (g.pushAll ss).Sound := by
  induction ss generalizing g with
  | nil => exact hg
  | cons s ss ih => exact ih (hg.push s)

end Generator

theorem Keeps.pushAll {a b : Nat} {g : Generator} (hg : g.Sound) (ss : List Slot)
    (hb : b ≤ g.length) : Keeps a b g (g.pushAll ss) := by
  induction ss generalizing g with
  | nil => exact Keeps.refl _ _ _
  | cons s ss ih =>
    exact (Keeps.push hg s hb).trans (ih (hg.push s) (Nat.le_succ_of_le hb)) hb

namespace Generator

theorem pushAll_append {g : Generator} (ss ss' : List Slot) :
    g.pushAll (ss ++ ss') = (g.pushAll ss).pushAll ss' := by
  induction ss generalizing g with
  | nil => rfl
  | cons s ss ih => exact ih

theorem Sound.pushAll_code_length {g : Generator} (hg : g.Sound) (s : Slot) (ss : List Slot) :
    (g.pushAll (s :: ss)).code[g.length]? = some s := by
  have hk : Keeps 0 (g.push s).length (g.push s) ((g.push s).pushAll ss) :=
    .pushAll (hg.push s) ss (Nat.le_refl _)
  rw [pushAll_cons, hk.code_eq (Nat.zero_le _) (Nat.lt_succ_self _) hg.not_waits_length,
    hg.push_code_length]

variable {k : Generator} {start test : Nat} {ss : List Slot} {a b i : Nat}

/-- The tail of a loop without the targets of the test and of the waiting
    `break`. -/
def tail (k : Generator) (ss : List Slot) (start : Nat) : Generator :=
  ((k.settled .continue).pushAll ss).push (.instruction Op.jump (.int start))

theorem tail_eq : k.tail ss start =
    (k.settled .continue).pushAll (ss ++ [.jumping start]) := by
  rw [tail, pushAll_append, pushAll_cons, pushAll_nil]

theorem closeLoop_eq : k.closeLoop ss start test =
    (((k.tail ss start).fill test Op.jumpIf (k.tail ss start).length).settled .break).flag false :=
  rfl

@[simp] theorem tail_length : (k.tail ss start).length = k.length + ss.length + 1 := by
  simp [tail]

theorem Sound.tail (hk : k.Sound) : (k.tail ss start).Sound :=
  ((hk.settled _).pushAll _).push _

theorem keeps_tail (hk : k.Sound) (hb : b ≤ k.length) : Keeps a b k (k.tail ss start) := by
  have h₁ : Keeps a b k (k.settled .continue) := Keeps.settled hk (by decide)
  have h₂ : Keeps a b (k.settled .continue) ((k.settled .continue).pushAll ss) :=
    Keeps.pushAll (hk.settled _) ss (by simpa using hb)
  have h₃ : Keeps a b ((k.settled .continue).pushAll ss) (k.tail ss start) :=
    Keeps.push ((hk.settled _).pushAll ss) _ (by simp; omega)
  exact (h₁.trans h₂ hb).trans h₃ hb

/-- The code before the tail stays, but for the test and a waiting exit. -/
theorem keeps_closeLoop (hk : k.Sound) (hb : b ≤ k.length) (ht : test < a ∨ b ≤ test)
    (hlt : test < k.length) (hw : ¬k.Waits test) : Keeps a b k (k.closeLoop ss start test) := by
  have h₁ : Keeps a b k (k.tail ss start) := keeps_tail hk hb
  have h₂ := h₁.trans (Keeps.fill Op.jumpIf (k.tail ss start).length ht) hb
  have hw' : ¬(k.tail ss start).Waits test := fun h =>
    hw ((keeps_tail (a := 0) hk (Nat.zero_le _)).waits_of_waits hlt h)
  have h₃ := h₂.trans (Keeps.settled (hk.tail.fill hw' _ _) (e := .break) (by decide)) hb
  exact h₃.trans (Keeps.of_eq rfl rfl rfl) hb

/-- The code of the tail stays when the test and the waiting `break` get their
    targets. -/
theorem closeLoop_code_ge (hk : k.Sound) (hlt : test < k.length) (hi : k.length ≤ i) :
    (k.closeLoop ss start test).code[i]? = (k.tail ss start).code[i]? := by
  have hw : ∀ {j}, k.length ≤ j → ¬(k.tail ss start).Waits j := fun {j} hj h => by
    have h' : (k.settled .continue).Waits j := by
      rw [Waits, tail, push_pending, pushAll_pending] at h
      exact h
    have := (hk.settled .continue).waits_lt h'
    rw [settled_length] at this
    omega
  have htest : test ≠ i := by omega
  rw [closeLoop_eq]
  change (((k.tail ss start).fill test Op.jumpIf _).settled .break).code[i]? = _
  by_cases hp : ((k.tail ss start).fill test Op.jumpIf (k.tail ss start).length).pending.2 = .break
  · have hne : (k.tail ss start).pending.1 ≠ i := fun h =>
      hw hi ⟨h, by rw [fill_pending] at hp; rw [hp]; decide⟩
    rw [settled_of_eq hp]
    rw [fill_pending]
    exact (fill_code_ne hne).trans (fill_code_ne htest)
  · rw [settled_of_ne hp]
    exact fill_code_ne htest

/-- The waiting exit jumps to the tail of the loop if it is a `continue`, and behind
    the loop if it is a `break`. -/
theorem closeLoop_code_waits (hk : k.Sound) (hlt : test < k.length) (hw : ¬k.Waits test)
    (hi : k.Waits i) :
    (k.closeLoop ss start test).code[i]? = some (.instruction Op.jump
      (.int (if k.pending.2 = .continue then k.length else k.length + ss.length + 1 : Nat))) := by
  have hik := hk.waits_lt hi
  have hne : test ≠ i := by
    rintro rfl
    exact hw hi
  obtain ⟨rfl, hp⟩ := hi
  by_cases hc : k.pending.2 = .continue
  · -- from its settling on, the jump is like all other code
    have hidem : (k.settled .continue).closeLoop ss start test = k.closeLoop ss start test := by
      have : (k.settled .continue).settled .continue = k.settled .continue :=
        settled_of_ne (by rw [settled_of_eq hc]; exact Exit.noConfusion)
      rw [closeLoop, this]
      rfl
    have hcode : (k.settled .continue).code[k.pending.1]? =
        some (.jumping k.length) := by
      rw [settled_of_eq hc]
      exact hk.fill_code_self hik _ _
    rw [if_pos hc, ← hidem]
    refine (keeps_closeLoop (a := k.pending.1) (b := k.pending.1 + 1) (hk.settled _) ?_ ?_ ?_
      ?_).instruction (hk.settled _) (Nat.le_refl _) (Nat.lt_succ_self _) hcode
    · rw [settled_length]
      omega
    · omega
    · rwa [settled_length]
    · rw [settled_of_eq hc]
      exact fun h => h.2 rfl
  · have hb : k.pending.2 = .break := by cases hx : k.pending.2 <;> simp_all
    have htail : (k.tail ss start).pending = k.pending := by
      rw [tail, push_pending, pushAll_pending, settled_of_ne hc]
    rw [if_neg hc, closeLoop_eq]
    change (((k.tail ss start).fill test Op.jumpIf _).settled .break).code[k.pending.1]? = _
    have hw' : ¬(k.tail ss start).Waits test := by rwa [Waits, htail]
    rw [settled_of_eq (by rw [fill_pending, htail, hb]), fill_pending, htail, fill_length, tail_length]
    exact (hk.tail.fill hw' _ _).fill_code_self (by rw [fill_length, tail_length]; omega) _ _

/-- The last instruction of a loop goes back. -/
theorem closeLoop_code_last (hk : k.Sound) (hlt : test < k.length) :
    (k.closeLoop ss start test).code[k.length + ss.length]? =
      some (.jumping start) := by
  rw [closeLoop_code_ge hk hlt (Nat.le_add_right _ _)]
  have := ((hk.settled .continue).pushAll ss).push_code_length (.jumping start)
  simpa [tail] using this

theorem settled_pending_snd (g : Generator) (e : Exit) :
    (g.settled e).pending.2 = if g.pending.2 = e then .none else g.pending.2 := by
  unfold settled
  split <;> rfl

/-- No exit waits behind a loop. -/
theorem closeLoop_pending : (k.closeLoop ss start test).pending.2 = .none := by
  rw [closeLoop_eq, flag_pending, settled_pending_snd, fill_pending, tail, push_pending,
    pushAll_pending, settled_pending_snd]
  cases k.pending.2 <;> rfl

@[simp] theorem closeLoop_inLoop : (k.closeLoop ss start test).inLoop = false := rfl

end Generator

/-- How many instructions count a round of the loop. -/
def Node.stride (n : Node) : Nat := (n.increment 0).length

theorem Node.length_increment (n : Node) (counter : Nat) :
    (n.increment counter).length = n.stride := by
  cases n <;> rfl

namespace Task

open Gen

/-- Where a loop goes on after a round: behind its body. -/
def again (t : Task) : Nat := t.finish.length - 1 - t.node.stride

/-- The generator where the body of a loop ends, and how the tail goes on from
    there. -/
structure LoopEnd (l : Task) (k : Generator) (test : Nat) : Prop where
  course : Course .plain (l.start.flag true) l.parts [test] [] k
  finish : ∃ start counter, l.finish = k.closeLoop (l.node.increment counter) start test
  grows : l.start.length + 2 ≤ k.length

/-- The code of a loop that is done has a tail. -/
theorem Done.loop {l : Task} (hl : l.Done) (hn : l.node.isLoop) :
    ∃ k test, l.LoopEnd k test := by
  obtain ⟨v, c, body, counter, g₁, g₂, g₃, ev, ec, eb, -, hfinish, hparts⟩ := ends_loop hn hl.ends
  have c₀ : Course .plain (l.start.flag true) [] [] [] (l.start.flag true) := .start
  have c₁ := (c₀.operand ev).part ec
  have c₂ := (c₁.write (c := Op.not) (a := .int 0) (.of_code rfl)).keep
    (s := .bare Op.jumpIf) (by decide)
  have c₃ := c₂.all eb
  refine ⟨g₃, g₂.length + 1, ?_, ⟨_, _, hfinish⟩, ?_⟩
  · rw [parts, hparts]
    simpa [enterBody] using c₃
  · have h₁ := c₁.length_le
    have h₂ := (Course.start.all (n := .plain) eb).length_le
    simp only [enterBody, push_length, flag_length] at h₁ h₂
    omega

namespace LoopEnd

variable {l : Task} {k : Generator} {test : Nat}

section

variable (h : l.LoopEnd k test)

include h

theorem laid (hl : l.Done) : Laid (l.start.flag true) l.parts [test] [] k :=
  h.course.laid (hl.sound.flag true)

/-- The generator at the end of the tail, before the test and the waiting `break`
    get their target. -/
theorem length_finish : l.finish.length = k.length + l.node.stride + 1 := by
  obtain ⟨start, counter, hf⟩ := h.finish
  rw [hf]
  simp [closeLoop, closed, Node.length_increment]

theorem again_eq : l.again = k.length := by
  have := h.length_finish
  rw [again]
  omega

/-- The code up to the tail stays, but for the test and a waiting exit. -/
theorem keeps_finish (hl : l.Done) {a b : Nat} (hb : b ≤ k.length) (ht : test < a ∨ b ≤ test) :
    Keeps a b k l.finish := by
  obtain ⟨start, counter, hf⟩ := h.finish
  have la := h.laid hl
  obtain ⟨-, hlt, hw⟩ := la.kept test (mem_singleton.2 rfl)
  rw [hf]
  exact keeps_closeLoop la.sound hb ht hlt hw

/-- The exit that waits at the end of the body gets its target. -/
theorem code_of_waits (hl : l.Done) {i : Nat} (hi : k.Waits i) :
    l.finish.code[i]? = some (.instruction Op.jump
      (.int (if k.pending.2 = .continue then l.again else l.finish.length : Nat))) := by
  have la := h.laid hl
  obtain ⟨-, hlt, hw⟩ := la.kept test (mem_singleton.2 rfl)
  rw [h.again_eq, h.length_finish]
  obtain ⟨start, counter, hf⟩ := h.finish
  rw [hf, closeLoop_code_waits la.sound hlt hw hi, Node.length_increment]

end

end LoopEnd

end Task

/-! ### Waiting exits -/

/-- The generator `h` comes after `w` on a course that is not closing a loop. Some
    code has come in between if the waiting exit is another one, and a waiting exit
    has been settled behind `w`, a `continue` before `h`. -/
structure Passed (ks : List Nat) (w h : Generator) : Prop where
  length_le : w.length ≤ h.length
  pending : h.pending = w.pending ∨ h.pending.2 = .none ∨ w.length ≤ h.pending.1
  still : h.length = w.length → h.pending = w.pending
  slot : ∀ i < w.length, i ∉ ks → h.code[i]? = w.code[i]? ∨
    w.Waits i ∧ ¬h.Waits i ∧ ∃ t : Nat, w.length < t ∧ t ≤ h.length ∧
      (w.pending.2 = .continue → t < h.length) ∧
      h.code[i]? = some (.instruction Op.jump (.int t))

namespace Passed

variable {ks : List Nat} {w h k : Generator} {i : Nat}

theorem refl (ks : List Nat) (w : Generator) : Passed ks w w :=
  ⟨Nat.le_refl _, .inl rfl, fun _ => rfl, fun _ _ _ => .inl rfl⟩

theorem pending_eq (hp : Passed ks w h) (hi : i < w.length) (hw : h.Waits i) :
    h.pending = w.pending := by
  obtain ⟨rfl, hne⟩ := hw
  rcases hp.pending with hp | hp | hp
  · exact hp
  · exact absurd hp hne
  · omega

theorem trans (h₁ : Passed ks w h) (h₂ : Passed ks h k) : Passed ks w k := by
  have hwh := h₁.length_le
  have hhk := h₂.length_le
  refine ⟨Nat.le_trans hwh hhk, ?_, fun he => ?_, fun i hi hks => ?_⟩
  · rcases h₂.pending with hp | hp | hp
    · rw [hp]
      exact h₁.pending
    · exact .inr (.inl hp)
    · exact .inr (.inr (Nat.le_trans hwh hp))
  · rw [h₂.still (by omega), h₁.still (by omega)]
  · rcases h₁.slot i hi hks with e₁ | ⟨hw, hnw, t, ht, hth, htc, e₁⟩
    · rcases h₂.slot i (by omega) hks with e₂ | ⟨hw, hnw, t, ht, htk, htc, e₂⟩
      · exact .inl (e₂.trans e₁)
      · have hp := h₁.pending_eq hi hw
        rw [Generator.Waits, hp] at hw
        exact .inr ⟨hw, hnw, t, by omega, htk, fun hc => htc (hp ▸ hc), e₂⟩
    · rcases h₂.slot i (by omega) hks with e₂ | ⟨hw', -⟩
      · refine .inr ⟨hw, fun hw' => hnw ?_, t, ht, by omega, fun hc => ?_, by rw [e₂, e₁]⟩
        · rwa [Generator.Waits, ← h₂.pending_eq (by omega) hw']
        · have := htc hc
          omega
      · exact absurd hw' hnw

/-- A jump to `w` or to a place before it is as old. -/
theorem jump_old (hp : Passed ks w h) {t : Nat} (hi : i < w.length) (hks : i ∉ ks)
    (ht : t ≤ w.length) (hj : h.code[i]? = some (.jumping t)) :
    w.code[i]? = some (.jumping t) := by
  rcases hp.slot i hi hks with e | ⟨-, -, x, hx, -, -, e⟩
  · rw [← e, hj]
  · rw [e] at hj
    have : (x : Int) = t := by simpa using hj
    omega

theorem mono {ks' : List Nat} (hp : Passed ks w h) (hks : ∀ i < w.length, i ∈ ks → i ∈ ks') :
    Passed ks' w h :=
  { hp with slot := fun i hi hn => hp.slot i hi fun h => hn (hks i hi h) }

/-- A step that changes neither the length nor the waiting exit, nor any code but in
    the places kept. -/
theorem same (hl : k.length = h.length) (hp : k.pending = h.pending)
    (hc : ∀ i, i ∉ ks → k.code[i]? = h.code[i]?) : Passed ks h k :=
  ⟨Nat.le_of_eq hl.symm, .inl hp, fun _ => hp, fun i _ hi => .inl (hc i hi)⟩

theorem push (hh : h.Sound) (s : Slot) : Passed ks h (h.push s) :=
  ⟨Nat.le_succ _, .inl rfl, fun _ => rfl, fun _ hi _ => .inl (hh.push_code_lt s hi)⟩

theorem waitFor (hh : h.Sound) (e : Exit) : Passed ks h (h.waitFor e) where
  length_le := Nat.le_succ _
  pending := .inr (.inr (Nat.le_refl _))
  still he := absurd he (Nat.succ_ne_self _)
  slot _ hi _ := .inl (hh.push_code_lt (.bare 0) hi)

end Passed

namespace Course

open Gen

variable {n : Node} {g h : Generator} {ts : List Task} {ks fs : List Nat}

/-- A generator on a course, be it the first one or the last one of a part, is passed
    by all later ones. -/
theorem passed_of_parts (c : Course n g ts ks fs h) (hg : g.Sound) (hn : n.isLoop = false)
    (hts : ∀ u ∈ ts, u.Done → Passed [] u.start u.finish) :
    Passed ks g h ∧ ∀ u ∈ ts, Passed ks u.finish h := by
  have step : ∀ {ts : List Task} {ks h k}, (Passed ks g h ∧ ∀ u ∈ ts, Passed ks u.finish h) →
      Passed ks h k → Passed ks g k ∧ ∀ u ∈ ts, Passed ks u.finish k := fun ih hk =>
    ⟨ih.1.trans hk, fun u hu => (ih.2 u hu).trans hk⟩
  have noLoop : ∀ {p : Prop}, n.isLoop → p := fun h => by simp [hn] at h
  induction c with
  | start => exact ⟨.refl _ _, by simp⟩
  | write c _ ih | declare c _ ih => exact step (ih hts) (.push (c.laid hg).sound _)
  | note heap records objects c ih | reserve name type c _ ih =>
    exact step (ih hts) (.same rfl rfl fun _ _ => rfl)
  | keep c _ ih =>
    obtain ⟨h₁, h₂⟩ := step (ih hts) (.push (c.laid hg).sound _)
    exact ⟨h₁.mono (by simp +contextual), fun u hu => (h₂ u hu).mono (by simp +contextual)⟩
  | fill c _ hi _ ih =>
    refine step (ih hts) (.same rfl rfl fun j hj => fill_code_ne ?_)
    rintro rfl
    exact hj hi
  | back c hl _ ih | flag b c hl ih | settle e c hl _ ih => exact noLoop hl
  | wait c _ _ ih => exact step (ih hts) (.waitFor (c.laid hg).sound _)
  | @part ts ks fs h k m c e ih =>
    obtain ⟨h₁, h₂⟩ := ih fun u hu => hts u (mem_append_left _ hu)
    obtain rfl : Task.finish ⟨m, h⟩ = k := e.after_eq
    have hstep : Passed ks h (Task.finish ⟨m, h⟩) :=
      (hts ⟨m, h⟩ mem_concat_self ⟨(c.laid hg).sound, e⟩).mono (by simp)
    refine ⟨h₁.trans hstep, fun u hu => ?_⟩
    rcases mem_append.1 hu with hu | hu
    · exact (h₂ u hu).trans hstep
    · obtain rfl := mem_singleton.1 hu
      exact .refl _ _

end Course

namespace Task

open Gen

/-- A task is passed as a whole, be it a loop or not. -/
theorem Done.passed {t : Task} (ht : t.Done) : Passed [] t.start t.finish := by
  induction t using Task.induction with
  | h t ih =>
    cases hn : t.node.isLoop with
    | false =>
      obtain ⟨ks, fs, c, -⟩ := ht.course
      have hks := (c.laid ht.sound).kept
      refine (c.passed_of_parts ht.sound hn fun u hu hd => ih u hu hd).1.mono fun i hi h => ?_
      have := (hks i h).1
      omega
    | true =>
      obtain ⟨k, test, hend⟩ := ht.loop hn
      have la := hend.laid ht
      have hp := (hend.course.passed_of_parts (ht.sound.flag true) rfl fun u hu hd => ih u hu hd).1
      have hlen := hend.length_finish
      have hgrow := hend.grows
      have htest : t.start.length ≤ test := (la.kept test (mem_singleton.2 rfl)).1
      have hkeeps : Keeps 0 t.start.length k t.finish :=
        hend.keeps_finish ht (by omega) (.inr htest)
      have hnone : t.finish.pending.2 = .none := by
        obtain ⟨start, counter, hf⟩ := hend.finish
        rw [hf, closeLoop_pending]
      refine ⟨by omega, .inr (.inl hnone), fun h => by omega, fun i hi _ => ?_⟩
      have hnw : ¬t.finish.Waits i := fun h => h.2 hnone
      have hne : i ∉ [test] := by
        rw [mem_singleton]
        omega
      rcases hp.slot i hi hne with e₁ | ⟨hw, hnk, x, hx, hxk, hxc, e₁⟩
      · rcases hkeeps.slot i (Nat.zero_le _) hi with e₂ | ⟨hkw, -⟩
        · exact .inl (e₂.trans e₁)
        · -- the exit still waits when the body ends, so the tail settles it
          have hpend : k.pending = t.start.pending := hp.pending_eq hi hkw
          have hagain := hend.again_eq
          refine .inr ⟨by rwa [Generator.Waits, ← hpend], hnw, _, ?_, ?_, fun hc => ?_,
            hend.code_of_waits ht hkw⟩
          · split <;> omega
          · split <;> omega
          · rw [← hpend] at hc
            rw [if_pos hc]
            omega
      · refine .inr ⟨hw, hnw, x, hx, by omega, fun _ => by omega, ?_⟩
        rw [hkeeps.code_eq (Nat.zero_le _) hi hnk, e₁]

end Task

/-- A generator on a course that closes no loop is passed by all later ones. -/
theorem Course.passed {n : Node} {g h : Generator} {ts : List Task} {ks fs : List Nat}
    (c : Course n g ts ks fs h) (hg : g.Sound) (hn : n.isLoop = false) :
    Passed ks g h ∧ ∀ u ∈ ts, Passed ks u.finish h :=
  c.passed_of_parts hg hn fun _ _ hu => hu.passed

end StackLang
