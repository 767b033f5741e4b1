import StackLang.Proofs.Stepwise

/-!
# Generation that stops early

Generation may stop with a fault in the middle of a node, with places kept that are never filled. What
it has done by then is all the same behind the code that was there before: a slot is filled only if it was
kept since, and the exit that waits has been written since.

* `Appends g h`: the generator `h` has the code of `g` at its front, and no exit waits there;
* `Gen.Gives.generate`: generation of a node appends, whether it ends or stops.
-/

namespace StackLang

/-- The generator `h` has the slots that were there in `g`, and as many more as its length tells. The exit
    that waits in it, if there is one, is new. -/
structure Appends (g h : Generator) : Prop where
  length_le : g.length ≤ h.length
  size : h.length + g.code.size = g.length + h.code.size
  slot : ∀ i s, i < g.length → g.code[i]? = some s → h.code[i]? = some s
  pending : h.pending = (0, .none) ∨ g.length ≤ h.pending.1

namespace Appends

variable {g h k : Generator}

theorem refl (hp : g.pending = (0, .none)) : Appends g g :=
  ⟨Nat.le_refl _, rfl, fun _ _ _ hs => hs, .inl hp⟩

/-- What is known beside the code and the waiting exit does not matter. -/
theorem of_eq (a : Appends g h) (hc : k.code = h.code) (hl : k.length = h.length)
    (hp : k.pending = h.pending) : Appends g k :=
  ⟨hl ▸ a.length_le, by rw [hl, hc]; exact a.size, by rw [hc]; exact a.slot, hp ▸ a.pending⟩

theorem push (a : Appends g h) (s : Slot) : Appends g (h.push s) where
  length_le := Nat.le_succ_of_le a.length_le
  size := by
    have := a.size
    rw [Generator.push, Array.size_push]
    dsimp only
    omega
  slot i s' hi hs := by
    obtain ⟨hlt, hget⟩ := Array.getElem?_eq_some_iff.1 (a.slot i s' hi hs)
    rw [Generator.push, Array.getElem?_push_lt hlt, hget]
  pending := a.pending

/-- A slot behind the code of `g` may be filled. -/
theorem fill (a : Appends g h) {i : Nat} (hi : g.length ≤ i) (code target : Nat) :
    Appends g (h.fill i code target) where
  length_le := a.length_le
  size := by
    rw [Generator.fill, Array.size_setIfInBounds]
    exact a.size
  slot j s hj hs := by
    rw [Generator.fill, Array.getElem?_setIfInBounds_ne (by omega)]
    exact a.slot j s hj hs
  pending := a.pending

/-- So the waiting exit may be, since it is new. -/
theorem settled (a : Appends g h) {e : Exit} (he : e ≠ .none) : Appends g (h.settled e) := by
  unfold Generator.settled
  split
  · rename_i hexit
    have hnew : g.length ≤ h.pending.1 := by
      refine a.pending.resolve_left fun hp => he ?_
      rw [← hexit, hp]
    exact { a.fill hnew Op.jump h.length with pending := .inl rfl }
  · exact a

theorem waitFor (a : Appends g h) (e : Exit) : Appends g (h.waitFor e) :=
  { a.push (.bare 0) with pending := .inr a.length_le }

/-- Whatever is reserved, generation only fills what lies behind the code of `g`. -/
instance : Gen.Allows (fun _ => Appends g) (g.length ≤ ·) where
  same a hc hl hp _ _ := a.of_eq hc hl hp
  push s a := a.push s
  fill c t a hi := a.fill hi c t
  settled a he := a.settled he
  waitFor e a := a.waitFor e
  reserved _ _ a := a.of_eq rfl rfl rfl
  here a := a.length_le

end Appends

/-- Every node is generated behind the code that is there, and no slot is taken back. -/
theorem Gen.Gives.generate {g : Generator} (n : Node) (h : Generator) (a : Appends g h) :
    Appends g (after (Gen.generate n) h) ∧ g.code.size ≤ (after (Gen.generate n) h).code.size := by
  obtain ⟨_, -, a, -⟩ := generate_declared (I := fun _ => Appends g) n [] h a
  have := a.size
  have := a.length_le
  exact ⟨a, by omega⟩

theorem Generator.run_fst (g : Generator) (a : Gen Unit) : (g.run a).1 = Gen.after a g := by
  rw [run, Gen.after, Gen.outcome]
  rcases a.run.run g with ⟨_ | _, h⟩ <;> rfl

theorem Generator.result_of_run {g : Generator} {a : Gen Unit} :
    (g.run a).2 = none → Gen.result? a g = some () := by
  rw [run, Gen.result?, Gen.outcome]
  rcases a.run.run g with ⟨_ | _, h⟩
  · exact fun h => by cases h
  · exact fun _ => rfl

/-- The code that is there when generation comes to a node keeps its slots, the length goes on telling the
    number of slots, and no exit waits in that code, whether the node comes to its end or a fault stops
    it. -/
theorem generation_appends (g : Generator) (n : Node) (hp : g.pending = (0, .none)) :
    let h := (g.run (Gen.generate n)).1
    (g.length = g.code.size → h.length = h.code.size) ∧
      (∀ i s, i < g.length → g.code[i]? = some s → h.code[i]? = some s) ∧
      (h.pending = (0, .none) ∨ g.length ≤ h.pending.1) := by
  intro h
  have happends : Appends g h := by
    rw [show h = _ from Generator.run_fst g _]
    exact (Gen.Gives.generate n g (.refl hp)).1
  refine ⟨fun hg => ?_, happends.slot, happends.pending⟩
  have := happends.size
  omega

/-- A loop that is left at once, with an assignment behind that to a name that is not declared. -/
def stoppedLoop : Node :=
  .whileLoop (.literal "BOOL_LITERAL" (.bool true))
    [.breakLoop, .assign (.atom (.text "y")) (.literal "INT_LITERAL" (.int 1))]

/-- A generator with the code of a declaration. -/
def twoSlots : Generator :=
  { code := #[.instruction Op.store (.int 7), .instruction Op.storeMem (.int (-1))], length := 2 }

/-- The loop stops with its test not filled and its `break` waiting, and the declaration is as it was. -/
theorem generation_appends_stopped :
    let h := (twoSlots.run (Gen.generate stoppedLoop)).1
    (twoSlots.run (Gen.generate stoppedLoop)).2 = some (.unknownKey (.text "y")) ∧
      h.pending = (5, .break) ∧ twoSlots.pending = (0, .none) ∧ h.length = h.code.size ∧
      (∀ i s, i < 2 → twoSlots.code[i]? = some s → h.code[i]? = some s) ∧
      (h.pending = (0, .none) ∨ 2 ≤ h.pending.1) := by
  intro h
  obtain ⟨hlength, hslot, hpending⟩ := generation_appends twoSlots stoppedLoop rfl
  have hrun : (twoSlots.run (Gen.generate stoppedLoop)).2 = some (.unknownKey (.text "y")) ∧
      (twoSlots.run (Gen.generate stoppedLoop)).1.pending = (5, .break) := by
    decide +kernel
  exact ⟨hrun.1, hrun.2, rfl, hlength rfl, hslot, hpending⟩

end StackLang
