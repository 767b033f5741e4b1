import StackLang.Proofs.Course

/-!
# Code that stays

Generation writes at the end of the code, and it goes back to earlier places only
to fill in jumps. This module says which places those are. A place that a node
keeps for a jump is filled by the node itself, and never lies in the code of one
of its parts; the place of a waiting exit is the only other one.

* `Generator.Sound` holds of every generator that generation comes to: the
  waiting exit stands where it is noted.
* `Keeps a b g h` says that the code from `a` to `b` is the same in `g` and in the
  later `h`, but for an exit that was waiting and now jumps.
* `Gen.built_of_ends`: generation of a node keeps the code before it, and has
  filled every place it kept.
* `Task.inside_of_mem_all`: what a task has written stays until the end of any task
  around it.
-/

namespace StackLang

open List Generator

variable {g : Generator} {p : List Node}

namespace Generator

/-- The place is that of the waiting exit. -/
def Waits (g : Generator) (i : Nat) : Prop := g.pending.1 = i ∧ g.pending.2 ≠ .none

/-- The length is the number of slots, and the waiting exit has its place. -/
structure Sound (g : Generator) : Prop where
  size : g.code.size = g.length
  waiting : ∀ {i}, g.Waits i → g.code[i]? = some (.bare 0)

theorem Sound.initial : Sound {} := ⟨rfl, fun h => absurd rfl h.2⟩

variable {g : Generator} {i : Nat} {e : Exit}

theorem Sound.waits_lt (hg : g.Sound) (h : g.Waits i) : i < g.length := by
  have := hg.waiting h
  rw [← hg.size]
  exact (Array.getElem?_eq_some_iff.1 this).1

theorem Sound.not_waits_length (hg : g.Sound) : ¬g.Waits g.length :=
  fun h => Nat.lt_irrefl _ (hg.waits_lt h)

theorem Sound.code_none (hg : g.Sound) (hi : g.length ≤ i) : g.code[i]? = none :=
  Array.getElem?_eq_none (by rw [hg.size]; exact hi)

/-! ### Slots after a step -/

theorem Sound.push_code_lt (hg : g.Sound) (s : Slot) (hi : i < g.length) :
    (g.push s).code[i]? = g.code[i]? := by
  rw [push, Array.getElem?_push_lt (by rw [hg.size]; exact hi),
    Array.getElem?_eq_getElem (by rw [hg.size]; exact hi)]

theorem Sound.push_code_length (hg : g.Sound) (s : Slot) :
    (g.push s).code[g.length]? = some s := by
  rw [push, ← hg.size]
  exact Array.getElem?_push_size

theorem fill_code_ne {j c t : Nat} (h : i ≠ j) : (g.fill i c t).code[j]? = g.code[j]? :=
  Array.getElem?_setIfInBounds_ne h

theorem Sound.fill_code_self (hg : g.Sound) (hi : i < g.length) (c t : Nat) :
    (g.fill i c t).code[i]? = some (.instruction c (.int t)) := by
  rw [fill]
  exact Array.getElem?_setIfInBounds_self_of_lt (by rw [hg.size]; exact hi)

theorem settled_of_ne (h : g.pending.2 ≠ e) : g.settled e = g := if_neg h

theorem settled_of_eq (h : g.pending.2 = e) :
    g.settled e = { g.fill g.pending.1 Op.jump g.length with pending := (0, .none) } := if_pos h

/-! ### Steps keep soundness -/

theorem Sound.push (hg : g.Sound) (s : Slot) : (g.push s).Sound := by
  refine ⟨by simp [Generator.push, hg.size], fun {i} h => ?_⟩
  have h : g.Waits i := h
  rw [hg.push_code_lt s (hg.waits_lt h)]
  exact hg.waiting h

theorem Sound.fill (hg : g.Sound) (hi : ¬g.Waits i) (c t : Nat) : (g.fill i c t).Sound := by
  refine ⟨by simp [Generator.fill, hg.size], fun {j} h => ?_⟩
  have h : g.Waits j := h
  have hij : i ≠ j := by
    rintro rfl
    exact hi h
  rw [fill_code_ne hij]
  exact hg.waiting h

theorem Sound.settled (hg : g.Sound) (e : Exit) : (g.settled e).Sound := by
  by_cases h : g.pending.2 = e
  · rw [settled_of_eq h]
    exact ⟨by simp [Generator.fill, hg.size], fun h => absurd rfl h.2⟩
  · rwa [settled_of_ne h]

theorem Sound.waitFor (hg : g.Sound) (e : Exit) : (g.waitFor e).Sound := by
  refine ⟨by simp [Generator.waitFor, hg.size], fun {i} h => ?_⟩
  obtain rfl : g.length = i := h.1
  exact hg.push_code_length (.bare 0)

theorem Sound.flag (hg : g.Sound) (b : Bool) : (g.flag b).Sound := ⟨hg.size, hg.waiting⟩

theorem Sound.reserved (hg : g.Sound) (n : Atom) (t : String) : (g.reserved n t).Sound :=
  ⟨hg.size, hg.waiting⟩

end Generator

/-- The jump to a place. -/
abbrev Slot.jumping (place : Nat) : Slot := .instruction Op.jump (.int place)

/-- The later generator `h` has the code of `g` from `a` to `b`, but for an exit
    that waited in `g` and has been settled since. The exit that waits in `h`
    waited in `g`, or its place is new. -/
structure Keeps (a b : Nat) (g h : Generator) : Prop where
  length_le : g.length ≤ h.length
  pending : h.pending = g.pending ∨ h.pending.2 = .none ∨ g.length ≤ h.pending.1
  slot : ∀ i, a ≤ i → i < b → h.code[i]? = g.code[i]? ∨
    g.Waits i ∧ ¬h.Waits i ∧
      ∃ t : Nat, g.length ≤ t ∧ t ≤ h.length ∧ h.code[i]? = some (.instruction Op.jump (.int t))

namespace Keeps

variable {a b : Nat} {g h k : Generator} {i : Nat}

theorem refl (a b : Nat) (g : Generator) : Keeps a b g g :=
  ⟨Nat.le_refl _, .inl rfl, fun _ _ _ => .inl rfl⟩

theorem mono {a' b' : Nat} (hk : Keeps a b g h) (ha : a ≤ a') (hb : b' ≤ b) : Keeps a' b' g h :=
  ⟨hk.length_le, hk.pending, fun i h₁ h₂ => hk.slot i (by omega) (by omega)⟩

/-- What waits in a later generator at an old place waited there all the time. -/
theorem pending_eq (hk : Keeps a b g h) (hi : i < g.length) (hw : h.Waits i) :
    h.pending = g.pending := by
  obtain ⟨rfl, hne⟩ := hw
  rcases hk.pending with hp | hp | hp
  · exact hp
  · exact absurd hp hne
  · omega

theorem waits_of_waits (hk : Keeps a b g h) (hi : i < g.length) (hw : h.Waits i) : g.Waits i := by
  rwa [Generator.Waits, ← hk.pending_eq hi hw]

theorem trans (h₁ : Keeps a b g h) (h₂ : Keeps a b h k) (hb : b ≤ g.length) : Keeps a b g k := by
  have hgh := h₁.length_le
  have hhk := h₂.length_le
  refine ⟨Nat.le_trans hgh hhk, ?_, fun i hai hib => ?_⟩
  · rcases h₂.pending with hp | hp | hp
    · rw [hp]
      exact h₁.pending
    · exact .inr (.inl hp)
    · exact .inr (.inr (Nat.le_trans hgh hp))
  · rcases h₁.slot i hai hib with e₁ | ⟨hw, hnw, t, ht, hth, e₁⟩
    · rcases h₂.slot i hai hib with e₂ | ⟨hw, hnw, t, ht, htk, e₂⟩
      · exact .inl (e₂.trans e₁)
      · exact .inr ⟨h₁.waits_of_waits (by omega) hw, hnw, t, by omega, htk, e₂⟩
    · rcases h₂.slot i hai hib with e₂ | ⟨hw', -⟩
      · refine .inr ⟨hw, fun hw' => hnw (h₂.waits_of_waits (by omega) hw'), t, ht, by omega, ?_⟩
        rw [e₂, e₁]
      · exact absurd hw' hnw

/-- A slot that is no waiting exit stays. -/
theorem code_eq (hk : Keeps a b g h) (ha : a ≤ i) (hb : i < b) (hi : ¬g.Waits i) :
    h.code[i]? = g.code[i]? := by
  rcases hk.slot i ha hb with e | ⟨hw, -⟩
  · exact e
  · exact absurd hw hi

/-- An instruction stays. -/
theorem instruction (hk : Keeps a b g h) (hg : g.Sound) {c : Nat} {x : Argument} (ha : a ≤ i)
    (hb : i < b) (hi : g.code[i]? = some (.instruction c x)) :
    h.code[i]? = some (.instruction c x) := by
  rw [hk.code_eq ha hb, hi]
  intro hw
  rw [hg.waiting hw] at hi
  cases hi

/-! ### Steps -/

theorem of_eq (hl : h.length = g.length) (hc : h.code = g.code) (hp : h.pending = g.pending) :
    Keeps a b g h :=
  ⟨Nat.le_of_eq hl.symm, .inl hp, fun _ _ _ => .inl (by rw [hc])⟩

theorem push (hg : g.Sound) (s : Slot) (hb : b ≤ g.length) : Keeps a b g (g.push s) :=
  ⟨Nat.le_succ _, .inl rfl, fun _ _ hi => .inl (hg.push_code_lt s (by omega))⟩

theorem fill (c t : Nat) (hi : i < a ∨ b ≤ i) : Keeps a b g (g.fill i c t) :=
  ⟨Nat.le_refl _, .inl rfl, fun _ _ _ => .inl (fill_code_ne (by omega))⟩

theorem settled (hg : g.Sound) {e : Exit} (he : e ≠ .none) : Keeps a b g (g.settled e) := by
  by_cases h : g.pending.2 = e
  · rw [settled_of_eq h]
    refine ⟨Nat.le_refl _, .inr (.inl rfl), fun i _ _ => ?_⟩
    by_cases hi : g.pending.1 = i
    · have hw : g.Waits i := ⟨hi, h ▸ he⟩
      refine .inr ⟨hw, fun h => h.2 rfl, g.length, Nat.le_refl _, Nat.le_refl _, ?_⟩
      rw [hi]
      exact hg.fill_code_self (hg.waits_lt hw) _ _
    · exact .inl (fill_code_ne hi)
  · rw [settled_of_ne h]
    exact refl a b g

theorem waitFor (hg : g.Sound) (e : Exit) (hb : b ≤ g.length) : Keeps a b g (g.waitFor e) :=
  ⟨Nat.le_succ _, .inr (.inr (Nat.le_refl _)),
    fun _ _ hi => .inl (hg.push_code_lt (.bare 0) (by omega))⟩

end Keeps

/-- What a whole node does to the generator: the code before it stays, and what it
    adds has no open slots. -/
structure Built (g h : Generator) : Prop where
  sound : h.Sound
  keeps : Keeps 0 g.length g h
  closed : ∀ i s, g.length ≤ i → h.code[i]? = some s → s.isOpen = false

/-- What is known of a generator `h` on a course from `g`. -/
structure Laid (g : Generator) (ts : List Task) (ks fs : List Nat) (h : Generator) : Prop where
  sound : h.Sound
  keeps : Keeps 0 g.length g h
  /-- The places that are kept are new, and no exits. -/
  kept : ∀ i ∈ ks, g.length ≤ i ∧ i < h.length ∧ ¬h.Waits i
  filled : ∀ i ∈ fs, i ∈ ks
  within : ∀ t ∈ ts, t.start.Sound ∧ g.length ≤ t.start.length ∧ t.finish.length ≤ h.length
  /-- They do not lie in the code of a part. -/
  apart : ∀ t ∈ ts, ∀ i ∈ ks, i < t.start.length ∨ t.finish.length ≤ i
  parts : ∀ t ∈ ts, Keeps t.start.length t.finish.length t.finish h
  /-- The new slots that are open are among them. -/
  opened : ∀ i s, g.length ≤ i → h.code[i]? = some s → s.isOpen → i ∈ ks ∧ i ∉ fs

namespace Laid

open Gen

variable {g h k : Generator} {ts : List Task} {ks fs : List Nat} {s : Slot} {i : Nat}

theorem start (hg : g.Sound) : Laid g [] [] [] g where
  sound := hg
  keeps := Keeps.refl _ _ _
  kept := by simp
  filled := by simp
  within := by simp
  apart := by simp
  parts := by simp
  opened i s hi hs := by
    rw [hg.code_none hi] at hs
    cases hs

/-- A step that keeps all code, and adds no open slots. -/
theorem step (l : Laid g ts ks fs h) (hk : k.Sound)
    (hkeeps : ∀ a b, b ≤ h.length → Keeps a b h k)
    (hnew : ∀ i s, h.length ≤ i → k.code[i]? = some s → s.isOpen = false) :
    Laid g ts ks fs k where
  sound := hk
  keeps := l.keeps.trans (hkeeps _ _ l.keeps.length_le) (Nat.le_refl _)
  kept i hi := by
    obtain ⟨h₁, h₂, h₃⟩ := l.kept i hi
    have hall := hkeeps 0 h.length (Nat.le_refl _)
    exact ⟨h₁, Nat.lt_of_lt_of_le h₂ hall.length_le, fun hw => h₃ (hall.waits_of_waits h₂ hw)⟩
  filled := l.filled
  within t ht := by
    obtain ⟨h₁, h₂, h₃⟩ := l.within t ht
    exact ⟨h₁, h₂, Nat.le_trans h₃ (hkeeps 0 0 (Nat.zero_le _)).length_le⟩
  apart := l.apart
  parts t ht := (l.parts t ht).trans (hkeeps _ _ (l.within t ht).2.2) (Nat.le_refl _)
  opened i s hi hs ho := by
    rcases Nat.lt_or_ge i h.length with hlt | hge
    · rcases (hkeeps 0 h.length (Nat.le_refl _)).slot i (Nat.zero_le _) hlt with e | ⟨-, -, t, -, -, e⟩
      · exact l.opened i s hi (e ▸ hs) ho
      · rw [e, Option.some.injEq] at hs
        subst hs
        simp [Slot.isOpen] at ho
    · rw [hnew i s hge hs] at ho
      cases ho

/-- A step that changes neither the code nor the waiting exit. -/
theorem same (l : Laid g ts ks fs h) (hl : k.length = h.length) (hc : k.code = h.code)
    (hp : k.pending = h.pending) : Laid g ts ks fs k := by
  refine l.step ⟨by rw [hc, hl, l.sound.size], fun {i} hw => ?_⟩
    (fun _ _ _ => .of_eq hl hc hp) fun i s hi hs => ?_
  · rw [hc]
    exact l.sound.waiting (by rwa [Generator.Waits, ← hp])
  · rw [hc] at hs
    have := (Array.getElem?_eq_some_iff.1 hs).1
    have := l.sound.size
    omega

theorem push_new {s s' : Slot} {i : Nat} (hh : h.Sound) (hi : h.length ≤ i)
    (hs : (h.push s).code[i]? = some s') : i = h.length ∧ s' = s := by
  have hlt := (Array.getElem?_eq_some_iff.1 hs).1
  rw [(hh.push s).size, push_length] at hlt
  obtain rfl : i = h.length := by omega
  rw [hh.push_code_length] at hs
  exact ⟨rfl, (Option.some.inj hs).symm⟩

section

variable (l : Laid g ts ks fs h)

include l

theorem push (hs : s.isOpen = false) : Laid g ts ks fs (h.push s) := by
  refine l.step (l.sound.push s) (fun _ _ hb => .push l.sound s hb) fun i s' hi h' => ?_
  rw [(push_new l.sound hi h').2, hs]

theorem settled {e : Exit} (he : e ≠ .none) : Laid g ts ks fs (h.settled e) := by
  refine l.step (l.sound.settled e) (fun _ _ _ => .settled l.sound he) fun i s hi hs => ?_
  have hlt := (Array.getElem?_eq_some_iff.1 hs).1
  rw [(l.sound.settled e).size, settled_length] at hlt
  omega

theorem waitFor (e : Exit) : Laid g ts ks fs (h.waitFor e) := by
  refine l.step (l.sound.waitFor e) (fun _ _ hb => .waitFor l.sound e hb) fun i s hi hs => ?_
  rw [(push_new l.sound hi hs).2]
  rfl

theorem keep (s : Slot) : Laid g ts (h.length :: ks) fs (h.push s) where
  sound := l.sound.push s
  keeps := l.keeps.trans (.push l.sound s l.keeps.length_le) (Nat.le_refl _)
  kept i hi := by
    rcases mem_cons.1 hi with rfl | hi
    · exact ⟨l.keeps.length_le, Nat.lt_succ_self _, l.sound.not_waits_length⟩
    · obtain ⟨h₁, h₂, h₃⟩ := l.kept i hi
      exact ⟨h₁, Nat.lt_succ_of_lt h₂, h₃⟩
  filled i hi := mem_cons_of_mem _ (l.filled i hi)
  within t ht := by
    obtain ⟨h₁, h₂, h₃⟩ := l.within t ht
    exact ⟨h₁, h₂, Nat.le_succ_of_le h₃⟩
  apart t ht i hi := by
    rcases mem_cons.1 hi with rfl | hi
    · exact .inr (l.within t ht).2.2
    · exact l.apart t ht i hi
  parts t ht := (l.parts t ht).trans (.push l.sound s (l.within t ht).2.2) (Nat.le_refl _)
  opened i s' hi hs ho := by
    rcases Nat.lt_or_ge i h.length with hlt | hge
    · rw [l.sound.push_code_lt s hlt] at hs
      obtain ⟨h₁, h₂⟩ := l.opened i s' hi hs ho
      exact ⟨mem_cons_of_mem _ h₁, h₂⟩
    · obtain ⟨rfl, -⟩ := push_new l.sound hge hs
      exact ⟨mem_cons_self, fun h => Nat.lt_irrefl _ (l.kept _ (l.filled _ h)).2.1⟩

theorem fill {c : Nat} (hi : i ∈ ks) (hc : c ≠ 0) (t : Nat) :
    Laid g ts ks (i :: fs) (h.fill i c t) where
  sound := l.sound.fill (l.kept i hi).2.2 c t
  keeps := l.keeps.trans (.fill c t (.inr (l.kept i hi).1)) (Nat.le_refl _)
  kept j hj := l.kept j hj
  filled j hj := (mem_cons.1 hj).elim (fun h => h ▸ hi) (l.filled j)
  within := l.within
  apart := l.apart
  parts u hu := (l.parts u hu).trans (.fill c t (l.apart u hu i hi)) (Nat.le_refl _)
  opened j s hj hs ho := by
    by_cases hij : i = j
    · subst hij
      rw [l.sound.fill_code_self (l.kept i hi).2.1, Option.some.injEq] at hs
      subst hs
      exact absurd (by simpa [Slot.isOpen] using ho) hc
    · rw [fill_code_ne hij] at hs
      obtain ⟨h₁, h₂⟩ := l.opened j s hj hs ho
      exact ⟨h₁, fun h => (mem_cons.1 h).elim (fun h => hij h.symm) h₂⟩

theorem part {m : Node} (e : Ends (generate m) h () k) (hk : Built h k) :
    Laid g (ts ++ [⟨m, h⟩]) ks fs k := by
  have l' : Laid g ts ks fs k :=
    l.step hk.sound (fun _ _ hb => hk.keeps.mono (Nat.zero_le _) hb) hk.closed
  obtain rfl : Task.finish ⟨m, h⟩ = k := e.after_eq
  have hmem : ∀ t ∈ ts ++ [⟨m, h⟩], t ∈ ts ∨ t = ⟨m, h⟩ := fun t ht =>
    (mem_append.1 ht).imp_right mem_singleton.1
  refine { l' with within := ?_, apart := ?_, parts := ?_ }
  · intro t ht
    rcases hmem t ht with ht | rfl
    · exact l'.within t ht
    · exact ⟨l.sound, l.keeps.length_le, Nat.le_refl _⟩
  · intro t ht i hi
    rcases hmem t ht with ht | rfl
    · exact l'.apart t ht i hi
    · exact .inl (l.kept i hi).2.1
  · intro t ht
    rcases hmem t ht with ht | rfl
    · exact l'.parts t ht
    · exact Keeps.refl _ _ _

end

end Laid

namespace Course

open Gen

variable {n : Node} {g h : Generator} {ts : List Task} {ks fs : List Nat}

theorem laid_of_parts (c : Course n g ts ks fs h) (hg : g.Sound)
    (hts : ∀ t ∈ ts, t.start.Sound → ∀ k, Ends (generate t.node) t.start () k →
      Built t.start k) : Laid g ts ks fs h := by
  induction c with
  | start => exact .start hg
  | write c hp ih => exact (ih hts).push (by simpa [Slot.isOpen] using hp.known)
  | note heap records objects c ih | reserve name type c _ ih | flag b c _ ih =>
    exact (ih hts).same rfl rfl rfl
  | declare c _ ih | back c _ _ ih => exact (ih hts).push rfl
  | keep c _ ih => exact (ih hts).keep _
  | fill c _ hi hc ih =>
    refine (ih hts).fill hi ?_ _
    rcases hc with rfl | rfl | rfl <;> decide
  | settle e c _ he ih => exact (ih hts).settled he
  | wait c _ _ ih => exact (ih hts).waitFor _
  | part c e ih =>
    have l := ih fun t ht => hts t (mem_append_left _ ht)
    exact l.part e (hts _ mem_concat_self l.sound _ e)

end Course

namespace Gen

variable {n : Node} {g h : Generator}

/-- What the code of a node leaves of the generator before it. -/
theorem built_of_ends (hg : g.Sound) (e : Ends (generate n) g () h) : Built g h := by
  refine ends_induction (P := fun _ g k => g.Sound → Built g k) (fun c hfs ih hg => ?_) e hg
  have l := c.laid_of_parts hg fun t ht hs k e => ih t ht k e hs
  refine ⟨l.sound, l.keeps, fun i s hi hs => ?_⟩
  cases ho : s.isOpen with
  | false => rfl
  | true =>
    obtain ⟨hk, hf⟩ := l.opened i s hi hs ho
    exact absurd (hfs i hk) hf

end Gen

section

variable {n : Node} {h : Generator} {ts : List Task} {ks fs : List Nat} (c : Course n g ts ks fs h)
  (hg : g.Sound)

include c hg

/-- What is known of a generator on a course. -/
theorem Course.laid : Laid g ts ks fs h :=
  c.laid_of_parts hg fun _ _ ht _ => Gen.built_of_ends ht

/-- The parts of a node come one after the other. -/
theorem Course.ordered : ts.Pairwise fun t u => t.finish.length ≤ u.start.length := by
  induction c with
  | start => exact .nil
  | part c e ih =>
    refine pairwise_append.2 ⟨ih, pairwise_singleton _ _, fun t ht u hu => ?_⟩
    obtain rfl := mem_singleton.1 hu
    exact ((c.laid hg).within t ht).2.2
  | _ => assumption

theorem Course.eq_or_before {t u : Task} (ht : t ∈ ts) (hu : u ∈ ts) :
    t = u ∨ t.finish.length ≤ u.start.length ∨ u.finish.length ≤ t.start.length := by
  have hordered := pairwise_iff_getElem.1 (c.ordered hg)
  obtain ⟨i, hi, rfl⟩ := mem_iff_getElem.1 ht
  obtain ⟨j, hj, rfl⟩ := mem_iff_getElem.1 hu
  rcases Nat.lt_trichotomy i j with hlt | rfl | hlt
  · exact .inr (.inl (hordered i j hi hj hlt))
  · exact .inl rfl
  · exact .inr (.inr (hordered j i hj hi hlt))

end

namespace Task

open Gen

variable {t u : Task} {h : Generator} {ts : List Task}

/-- A task that begins with a sound generator and comes to its end. -/
structure Done (t : Task) : Prop where
  sound : t.start.Sound
  ends : Ends (generate t.node) t.start () t.finish

namespace Done

variable {t u : Task}

theorem built (ht : t.Done) : Built t.start t.finish := built_of_ends ht.sound ht.ends

theorem course (ht : t.Done) :
    ∃ ks fs, Course t.node t.start t.parts ks fs t.finish ∧ ∀ i ∈ ks, i ∈ fs :=
  course_of_ends ht.ends

end Done

/-- A task `u` whose code lies within that of a task from `g` to `h`, and stays there
    to the end. -/
structure Inside (u : Task) (g h : Generator) : Prop where
  done : u.Done
  start_le : g.length ≤ u.start.length
  finish_le : u.finish.length ≤ h.length
  keeps : Keeps u.start.length u.finish.length u.finish h

theorem Inside.trans (hu : u.Inside t.start t.finish) (ht : t.Inside g h) :
    u.Inside g h where
  done := hu.done
  start_le := Nat.le_trans ht.start_le hu.start_le
  finish_le := Nat.le_trans hu.finish_le ht.finish_le
  keeps := hu.keeps.trans (ht.keeps.mono hu.start_le hu.finish_le) (Nat.le_refl _)

theorem inside_of_course {n : Node} {ks fs : List Nat} (c : Course n g ts ks fs h) (hg : g.Sound)
    (ht : t ∈ ts) : t.Inside g h := by
  have l := c.laid hg
  obtain ⟨h₁, h₂, h₃⟩ := l.within t ht
  exact ⟨⟨h₁, c.ends_of_mem ht⟩, h₂, h₃, l.parts t ht⟩

/-- What a task has written stays until the end of any task around it. -/
theorem inside_of_mem_all (ht : t.Done) (hu : u ∈ t.all) : u.Inside t.start t.finish := by
  induction t using Task.induction with
  | h t ih =>
    rcases mem_all.1 hu with rfl | ⟨v, hv, hu⟩
    · exact ⟨ht, Nat.le_refl _, Nat.le_refl _, Keeps.refl _ _ _⟩
    · obtain ⟨ks, fs, c, -⟩ := ht.course
      have hv' := inside_of_course c ht.sound hv
      exact (ih v hv hv'.done hu).trans hv'

/-! ### The nodes of tasks -/

theorem Done.map_parts (ht : t.Done) : t.parts.map node = t.node.turns :=
  map_tasksOf ht.ends

theorem Done.of_mem_parts (ht : t.Done) (hu : u ∈ t.parts) : u.Done := by
  obtain ⟨ks, fs, c, -⟩ := ht.course
  exact (inside_of_course c ht.sound hu).done

/-- What is collected along the tasks of a node is what is collected along the nodes that
    it turns to. -/
theorem map_flatMap {f : Task → List Task} {f' : Node → List Node}
    (h : ∀ t ∈ ts, (f t).map node = f' t.node) :
    (ts.flatMap f).map node = (ts.map node).flatMap f' := by
  induction ts with
  | nil => rfl
  | cons t ts ih =>
    rw [flatMap_cons, map_append, map_cons, flatMap_cons,
      h t mem_cons_self, ih fun u hu => h u (mem_cons_of_mem _ hu)]

/-- A task runs through the tasks of all nodes that are reached from its own. -/
theorem Done.map_all (ht : t.Done) : t.all.map node = t.node.reached := by
  induction t using Task.induction with
  | h t ih =>
    rw [all_eq, map_cons, map_flatMap fun u hu => ih u hu (ht.of_mem_parts hu),
      ht.map_parts, Node.reached_eq]

end Task

/-! ### Programs -/

/-- Everything that generation of a program turns to. -/
def programTasks (p : List Node) : List Task := (Gen.allTasks p {}).flatMap Task.all

section

variable (h : generateProgram p = .ok g)

include h

theorem ends_of_generateProgram : Gen.Ends (Gen.generateAll p) {} () g := by
  unfold generateProgram run at h
  rw [Gen.Ends, Gen.outcome]
  rcases hr : (Gen.generateAll p).run.run {} with ⟨_ | _, k⟩
  · rw [hr] at h
    cases h
  · rw [hr] at h
    cases h
    rfl

/-- The program itself writes nothing, like a node that is known not to. -/
theorem course_of_generateProgram : Course .plainExpression {} (Gen.allTasks p {}) [] [] g := by
  simpa using Course.start.all (ends_of_generateProgram h)

theorem inside_of_mem_programTasks {t : Task} (ht : t ∈ programTasks p) : t.Inside {} g := by
  obtain ⟨u, hu, ht⟩ := mem_flatMap.1 ht
  have hu' := Task.inside_of_course (course_of_generateProgram h) .initial hu
  exact (Task.inside_of_mem_all hu'.done ht).trans hu'

theorem map_programTasks : (programTasks p).map Task.node = p.flatMap Node.reached := by
  rw [programTasks, Task.map_flatMap fun t ht =>
    (Task.inside_of_course (course_of_generateProgram h) .initial ht).done.map_all,
    Gen.map_allTasks]

end

end StackLang
