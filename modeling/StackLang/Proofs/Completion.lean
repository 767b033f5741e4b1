import StackLang.Proofs.Literal
import StackLang.Proofs.Origin

/-!
# Code without places

Generation keeps places for instructions that are not known yet: the jumps of conditionals, the
tests of loops, the entries of functions and the jumps over them. Whatever is nested in what, all
of them are filled when the code is finished, unless they wait for an exit from a loop.

* `Slot.Complete n`: the slot holds an instruction that the machine knows, and a jump has a target
  in code of `n` slots or right behind it;
* `Course.completes`: on the course of a node that is no exit, a new slot is complete or a place
  that the node still keeps, if the same holds of its parts;
* `code_complete`: the code of a program without exits is complete.
-/

namespace StackLang

open Gen

/-- The slot holds a known instruction. If that is a jump, its target is one of `n` slots or
    right behind them. -/
def Slot.Complete (n : Nat) (s : Slot) : Prop :=
  ∃ code arg, s = .instruction code arg ∧ code ∈ opcodes.map Prod.snd ∧
    (code = Op.jump ∨ code = Op.jumpIf → ∃ target : Nat, arg = .int target ∧ target ≤ n)

namespace Slot.Complete

variable {n m : Nat} {s : Slot}

/-- Targets stay in code that grows. -/
theorem mono (h : s.Complete n) (hnm : n ≤ m) : s.Complete m := by
  obtain ⟨code, arg, hs, hlisted, hjump⟩ := h
  refine ⟨code, arg, hs, hlisted, fun hc => ?_⟩
  obtain ⟨target, harg, hle⟩ := hjump hc
  exact ⟨target, harg, Nat.le_trans hle hnm⟩

theorem of_target {code target : Nat} (hc : code ∈ opcodes.map Prod.snd) (ht : target ≤ n) :
    (Slot.instruction code (.int target)).Complete n :=
  ⟨code, _, rfl, hc, fun _ => ⟨target, rfl, ht⟩⟩

theorem of_plain {m : Node} {g : Generator} {code : Nat} {arg : Argument}
    (h : Plain m g code arg) : (Slot.instruction code arg).Complete n :=
  ⟨code, arg, rfl, h.listed, fun hc => (hc.elim h.not_jump h.not_jumpIf).elim⟩

theorem declaring : (Slot.instruction Op.storeMem (.int (-1))).Complete n :=
  ⟨_, _, rfl, by decide, fun hc => absurd hc (by decide)⟩

end Slot.Complete

/-- No exit waits in `h`, and the slots that it has more than `g` are complete or still open. -/
structure Completes (g h : Generator) : Prop where
  pending : h.pending.2 = .none
  slots : ∀ i s, g.length ≤ i → h.code[i]? = some s → s.isOpen ∨ s.Complete h.length

namespace Completes

variable {g h k : Generator}

theorem start (hg : g.Sound) (hp : g.pending.2 = .none) : Completes g g := by
  refine ⟨hp, fun i s hi hs => ?_⟩
  rw [hg.code_none hi] at hs
  cases hs

/-- A step that writes nothing. -/
theorem same (c : Completes g h) (hl : k.length = h.length) (hc : k.code = h.code)
    (hp : k.pending = h.pending) : Completes g k :=
  ⟨hp ▸ c.pending, hl ▸ hc ▸ c.slots⟩

theorem push (c : Completes g h) (hh : h.Sound) {s : Slot}
    (hs : s.isOpen ∨ s.Complete (h.length + 1)) : Completes g (h.push s) := by
  refine ⟨c.pending, fun i s' hi hs' => ?_⟩
  rcases hh.of_push_code hs' with hold | ⟨-, rfl⟩
  · exact (c.slots i s' hi hold).imp_right fun h => h.mono (Nat.le_succ _)
  · exact hs

theorem fill (c : Completes g h) (hh : h.Sound) {i code : Nat} (hi : i < h.length)
    (hc : code ∈ opcodes.map Prod.snd) : Completes g (h.fill i code h.length) := by
  refine ⟨c.pending, fun j s hj hs => ?_⟩
  by_cases hij : i = j
  · subst hij
    rw [hh.fill_code_self hi, Option.some.injEq] at hs
    subst hs
    exact .inr (.of_target hc (Nat.le_refl _))
  · rw [Generator.fill_code_ne hij] at hs
    exact c.slots j s hj hs

/-- Behind complete code, the code of a part is complete too. Since no exit waits, the part leaves
    the code before it as it is. -/
theorem part (c : Completes g h) (hk : Built h k) (hc : Completes h k) : Completes g k := by
  refine ⟨hc.pending, fun i s hi hs => ?_⟩
  rcases Nat.lt_or_ge i h.length with hlt | hge
  · rw [hk.keeps.code_eq (Nat.zero_le _) hlt fun hw => hw.2 c.pending] at hs
    exact (c.slots i s hi hs).imp_right fun h => h.mono hk.keeps.length_le
  · exact hc.slots i s hge hs

end Completes

/-- On the course of a node that is no exit, a new slot is complete or a place that is kept. -/
theorem Course.completes {n : Node} {g h : Generator} {ts : List Task} {ks fs : List Nat}
    (c : Course n g ts ks fs h) (hg : g.Sound) (hn : n.exit = .none) (hp : g.pending.2 = .none)
    (hts : ∀ t ∈ ts, t.Done → t.start.pending.2 = .none → Completes t.start t.finish) :
    Completes g h := by
  induction c with
  | start => exact .start hg hp
  | write c hw ih => exact (ih hts).push (c.laid hg).sound (.inr (.of_plain hw))
  | note _ _ _ c ih | reserve _ _ c _ ih | flag _ c _ ih => exact (ih hts).same rfl rfl rfl
  | declare c _ ih => exact (ih hts).push (c.laid hg).sound (.inr .declaring)
  | keep c ho ih => exact (ih hts).push (c.laid hg).sound (.inl ho)
  | fill c _ hi hc ih =>
    refine (ih hts).fill (c.laid hg).sound ((c.laid hg).kept _ hi).2.1 ?_
    rcases hc with rfl | rfl | rfl <;> decide
  | back c _ ht ih =>
    -- a loop goes back to a part that lies behind it
    obtain ⟨u, hu, rfl⟩ := ht
    have hin := Task.inside_of_course c hg hu
    have := Gen.length_le hin.done.ends
    have := hin.finish_le
    exact (ih hts).push (c.laid hg).sound (.inr (.of_target (by decide) (by omega)))
  | settle e c _ he ih =>
    rw [Generator.settled_of_ne ((ih hts).pending ▸ he.symm)]
    exact ih hts
  | wait c hx _ _ => exact absurd hn hx
  | @part ts ks fs h k m c e ih =>
    obtain rfl : Task.finish ⟨m, h⟩ = k := e.after_eq
    have hsound := (c.laid hg).sound
    have hbefore := ih fun t ht => hts t (List.mem_append_left _ ht)
    have hlast := hts ⟨m, h⟩ List.mem_concat_self ⟨hsound, e⟩ hbefore.pending
    exact hbefore.part (built_of_ends hsound e) hlast

/-- A task that comes by no exit completes its code. -/
theorem Task.Done.completes {t : Task} (ht : t.Done) (hx : ∀ u ∈ t.all, u.node.exit = .none)
    (hp : t.start.pending.2 = .none) : Completes t.start t.finish := by
  induction t using Task.induction with
  | h t ih =>
    obtain ⟨ks, fs, c, -⟩ := ht.course
    refine c.completes ht.sound (hx t (mem_all_self t)) hp fun u hu hdone hstart => ?_
    exact ih u hu hdone (fun v hv => hx v (mem_all.2 (.inr ⟨u, hu, hv⟩))) hstart

/-- The code of a program without exits from loops is complete: its length is the number of its
    slots, every slot holds a known instruction, and every jump has a target in the code or right
    behind it. -/
theorem code_complete {p : List Node} {g : Generator} (h : generateProgram p = .ok g)
    (hp : ∀ n ∈ p, n.Throughout (·.exit = .none)) :
    g.length = g.code.size ∧
      ∀ (i : Nat) (s : Slot), g.code[i]? = some s → s.Complete g.code.size := by
  have c := course_of_generateProgram h
  have hexit : ∀ u ∈ programTasks p, u.node.exit = .none := by
    intro u hu
    have hmem := List.mem_map_of_mem (f := Task.node) hu
    rw [map_programTasks h] at hmem
    obtain ⟨n, hn, hu⟩ := List.mem_flatMap.1 hmem
    exact ((hp n hn).reached hu).self
  have hc := c.completes .initial rfl rfl fun t ht hdone hstart =>
    hdone.completes (fun u hu => hexit u (List.mem_flatMap.2 ⟨t, ht, hu⟩)) hstart
  have l := c.laid .initial
  refine ⟨l.sound.size.symm, fun i s hs => ?_⟩
  rw [l.sound.size]
  refine (hc.slots i s (Nat.zero_le _) hs).resolve_left fun ho => ?_
  -- the program itself keeps no places
  exact List.not_mem_nil (l.opened i s (Nat.zero_le _) hs ho).1

/-- A function with a loop around a conditional: `func f(int a) -> int { while (a < 5) { if (a == 1)
    { a = 3; } elif (a == 2) { for (int i = 0; i < 2) { a = 4; } } else { a = 5; } } return a;
    }`. -/
def nestedPlaces : List Node :=
  let a := Node.literal "VARIABLE" (.text "f.a")
  let number (n : Int) := Node.literal "INT_LITERAL" (.int n)
  let put (n : Int) := Node.assign (.atom (.text "f.a")) (number n)
  let counting := Node.forLoop (.node (.declare (.text "i") "INT" (some (number 0))))
    (.binary "<" (.literal "VARIABLE" (.text "i")) (some (number 2))) [put 4]
  [.function (.text "f") "INT" [⟨"INT", .text "a"⟩]
    [.whileLoop (.binary "<" a (some (number 5)))
      [.conditional (.binary "==" a (some (number 1))) [put 3]
        [.mk (.binary "==" a (some (number 2))) [counting]] (some [put 5])],
     .giveBack (some a)]]

theorem code_complete_nested : ∃ g, generateProgram nestedPlaces = .ok g ∧
    (∀ n ∈ nestedPlaces, n.Throughout (·.exit = .none)) ∧ g.length = g.code.size ∧
    ∀ (i : Nat) (s : Slot), g.code[i]? = some s → s.Complete g.code.size := by
  have hp : ∀ n ∈ nestedPlaces, n.Throughout (·.exit = .none) := by
    repeat' first
      | exact List.forall_mem_nil _
      | refine List.forall_mem_cons.2 ⟨?_, ?_⟩
      | refine .intro rfl ?_
  obtain ⟨g, hg, -⟩ := exists_of_toOption (p := nestedPlaces) (f := fun _ => ()) (x := ())
    (by decide +kernel)
  exact ⟨g, hg, hp, code_complete hg hp⟩

end StackLang
