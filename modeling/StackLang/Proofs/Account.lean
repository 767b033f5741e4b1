import StackLang.Proofs.Activation
import StackLang.Proofs.Gain

/-!
# Accounts of the stack

A statement that control is in the middle of has put items on the stack that it is going to take
again. An account of a program says for each place how many those are (`begun`). Outside of such
statements there are none. Then what is on the stack beyond the items of all statements begun, in
the frame where control is and in those that wait, changes when a statement ends, and by what it
leaves (`Program.settles`).

* `Machine.height_of_step`: what an instruction does to the height of the stack beyond the items of
  statements begun;
* `Machine.height_of_steps`: what a run does to it, whatever it calls and wherever it jumps;
* `Machine.stack_of_steps`: a run that takes none of the items that it has found leaves them
  where they are.
-/

namespace StackLang

/-- How many items the instruction at a place leaves more than it takes. -/
def Program.change (P : Program) (i : Nat) : Int := (P[i]?.map Instruction.change).getD 0

/-- The operation of the instruction at a place. -/
def Program.operation? (P : Program) (i : Nat) : Option Operation :=
  P[i]?.bind fun j => Operation.ofCode? j.code.toNat

/-- Where control jumps to or returns from, no statement has begun. -/
structure Program.Account (P : Program) (begun : Nat → Int) : Prop where
  target : ∀ {i : Nat} {j : Instruction}, P[i]? = some j →
    Operation.ofCode? j.code.toNat = some .jump ∨ Operation.ofCode? j.code.toNat = some .jumpIf →
      begun j.arg.toNat = 0
  behind : ∀ {i : Nat} {op : Operation}, P.operation? i = some op → op = .jump ∨ op = .jumpIf ∨ op = .giveBack →
    begun (i + 1) = 0

/-- What is left by the statement that ends with the instruction at a place. -/
def Program.settles (P : Program) (begun : Nat → Int) (i : Nat) : Int :=
  P.change i + begun i - begun (i + 1)

namespace Machine

variable {P : Program} {begun : Nat → Int} {m m' : Machine} {n : Nat}

/-- The items of all statements begun. -/
def onLoan (begun : Nat → Int) (m : Machine) : Int := begun m.pc + sumOf begun m.frames

/-- The machine is about to call a function. -/
def calls (P : Program) (m : Machine) : Bool := P.operation? m.pc = some .call

/-- A call can lead into the middle of a statement, whose beginning is left out then. -/
def skipped (P : Program) (begun : Nat → Int) (m m' : Machine) : Int :=
  if m.calls P then begun m'.pc else 0

theorem height_of_step (ha : P.Account begun) (h : m.step P = some (.next m')) :
    (m'.stack.length : Int) - m'.onLoan begun =
      m.stack.length - m.onLoan begun + (P.settles begun m.pc - skipped P begun m m') := by
  obtain ⟨i, hi, hexec⟩ := Option.map_eq_some_iff.1 h
  obtain ⟨op, hop, hm⟩ := moved_of_execute hexec
  have hi : P[m.pc]? = some i := hi
  have hpop : P.operation? m.pc = some op := by rw [Program.operation?, hi, Option.bind_some, hop]
  have hchange : P.change m.pc = op.change i.arg := by
    rw [Program.change, hi, Option.map_some, Option.getD_some, Instruction.change, hop]
    rfl
  have hheight : (m'.stack.length : Int) = m.stack.length + op.change i.arg := by
    obtain ⟨ys, hys, hstack⟩ := hm.stack
    have := hm.enough
    rw [hstack, List.length_append, List.length_drop, hys, Operation.change]
    omega
  have hgoes := hm.goes
  rw [skipped, calls, hpop, hheight, Program.settles, hchange, onLoan, onLoan]
  cases op with
  | call =>
    have hframes : m'.frames = (m.pc + 1) :: m.frames := hgoes
    rw [hframes, if_pos (by decide), sumOf]
    omega
  | jump =>
    obtain ⟨hpc, hframes⟩ := hgoes
    rw [hpc, hframes, ha.target hi (.inl hop), ha.behind hpop (by simp), if_neg (by decide)]
    omega
  | jumpIf =>
    obtain ⟨hpc, hframes⟩ := hgoes
    have hzero : begun m'.pc = 0 := by
      rcases hpc with hpc | hpc
      · rw [hpc, ha.target hi (.inr hop)]
      · rw [hpc, ha.behind hpop (by simp)]
    rw [hframes, hzero, ha.behind hpop (by simp), if_neg (by decide)]
    omega
  | giveBack =>
    have hframes : m.frames = m'.pc :: m'.frames := hgoes
    rw [hframes, ha.behind hpop (by simp), if_neg (by decide), sumOf]
    omega
  | _ =>
    obtain ⟨hpc, hframes⟩ := hgoes
    rw [hpc, hframes, if_neg (by simp)]
    omega

/-- What a run leaves: `w` says it of the instruction at each place, and what calls skip is
    missing. -/
def tally (P : Program) (w begun : Nat → Int) : Nat → Machine → Int
  | 0, _ => 0
  | n + 1, m =>
    match m.step P with
    | some (.next m') => w m.pc - skipped P begun m m' + tally P w begun n m'
    | _ => 0

theorem height_of_steps (ha : P.Account begun) (h : Steps P n m m') :
    (m'.stack.length : Int) - m'.onLoan begun =
      m.stack.length - m.onLoan begun + m.tally P (P.settles begun) begun n := by
  induction h with
  | refl m => rw [tally, Int.add_zero]
  | next hstep _ ih =>
    rw [ih, height_of_step ha hstep, tally, hstep]
    dsimp only
    omega

/-! ### Items that lie below -/

/-- How many items the next instruction takes. -/
def takes (P : Program) (m : Machine) : Nat :=
  match m.fetch P with
  | none => 0
  | some i => ((Operation.ofCode? i.code.toNat).map fun op => (op.exchange i.arg).1).getD 0

/-- A run that takes none of some items leaves them. -/
theorem stack_of_steps {base : List Item} (h : Steps P n m m') (hm : base <:+ m.stack)
    (hbelow : ∀ s ∈ trail P n m, base.length + s.takes P ≤ s.stack.length) : base <:+ m'.stack := by
  induction h with
  | refl m => exact hm
  | @next n m m₁ m' hstep _ ih =>
    rw [trail_succ hstep] at hbelow
    obtain ⟨hfirst, hrest⟩ := List.forall_mem_cons.1 hbelow
    refine ih ?_ hrest
    obtain ⟨i, hi, hexec⟩ := Option.map_eq_some_iff.1 hstep
    obtain ⟨op, hop, hmoved⟩ := moved_of_execute hexec
    obtain ⟨ys, -, hstack⟩ := hmoved.stack
    have htakes : m.takes P = (op.exchange i.arg).1 := by
      rw [takes, hi]
      simp [hop]
    obtain ⟨zs, hzs⟩ := hm
    have hle : (op.exchange i.arg).1 ≤ zs.length := by
      rw [htakes, ← hzs, List.length_append] at hfirst
      omega
    rw [hstack, ← hzs, List.drop_append_of_le_length hle, ← List.append_assoc]
    exact List.suffix_append _ _

end Machine

end StackLang
