import StackLang.Proofs.Access
import StackLang.Proofs.Transfer

/-!
# What instructions take and leave

An instruction takes items from the top of the stack and leaves others in their place; how many,
its operation and its argument say (`Operation.exchange`). What lies below stays, and of all
operations only the storing of a variable changes the memory. An act that is put together from
acts of this sort is of this sort itself, so the statement follows the definitions of the acts.

Most parts of acts only work on the heap and on what comes in and goes out. They are *still*: they
leave the whole core of the machine as it is.

* `Act.Exchanges.perform`: every operation that stays in the row takes and leaves as many items as
  it says, and but for a store it leaves the memory alone;
* `Machine.memory_of_execute`: an instruction that is no store keeps the memory;
* `Machine.moved_of_execute`: what every instruction does to the place, the frames and the stack.
-/

namespace StackLang

open List Operation

/-- The core of a machine: where it is, where it returns to, its stack and its memory. -/
def Machine.core (m : Machine) : Nat × List Nat × List Item × Memory :=
  (m.pc, m.frames, m.stack, m.memory)

theorem Machine.core_eq {m : Machine} {pc : Nat} {frames : List Nat} {stack : List Item}
    {memory : Memory} (h : m.core = (pc, frames, stack, memory)) :
    m.pc = pc ∧ m.frames = frames ∧ m.stack = stack ∧ m.memory = memory := by
  simpa [core] using h

/-- How many items a built-in function takes and leaves. -/
def builtinExchange : Nat → Nat × Nat
  | 1 => (1, 0)
  | 2 | 3 | 4 => (0, 1)
  | 6 => (3, 1)
  | 7 => (4, 1)
  | 9 | 10 => (2, 0)
  | 12 => (3, 1)
  | 13 | 14 => (2, 1)
  | 5 | 8 | 11 | 15 | 16 | 17 | 18 | 19 => (1, 1)
  | _ => (0, 0)

/-- How many items an operation takes and leaves. -/
def Operation.exchange (op : Operation) (arg : UInt32) : Nat × Nat :=
  match op with
  | .compute .not => (1, 1)
  | .compute _ => (2, 1)
  | .push _ => (0, 1)
  | .storeMem => (1, 0)
  | .load => (0, 1)
  | .jump => (0, 0)
  | .jumpIf => (1, 0)
  | .call => (if arg = endAddress then 1 else 0, 0)
  | .giveBack => (0, 0)
  | .buildList => (arg.toNat, 1)
  | .element => (if arg = endAddress then 2 else 1, 1)
  | .setElement => (if arg = endAddress then 3 else 2, 0)
  | .defineType => (0, 0)
  | .create => (0, 0)
  | .cast => (1, 1)
  | .builtin => builtinExchange arg.toNat

/-- Whether an operation decides which instruction is next. -/
def Operation.steers : Operation → Bool
  | .jump | .jumpIf | .call | .giveBack => true
  | _ => false

namespace Act

variable {α β : Type}

/-- The act leaves the core of the machine as it is, however it ends. -/
def Still (a : Act α) : Prop := ∀ m, (a m).2.core = m.core

namespace Still

/-! ### How acts are put together -/

theorem pure (x : α) : Still (Pure.pure x : Act α) := fun _ => rfl

theorem bind {a : Act α} {f : α → Act β} (ha : Still a) (hf : ∀ x, Still (f x)) :
    Still (a >>= f) := by
  intro m
  rw [run_bind]
  have h := ha m
  rcases hr : a m with ⟨_ | x, m'⟩
  · rw [hr] at h
    exact h
  · rw [hr] at h
    exact (hf x m').trans h

theorem get : Still (MonadState.get : Act Machine) := fun _ => rfl

theorem modify {f : Machine → Machine} (h : ∀ m, (f m).core = m.core) :
    Still (modify f : Act Unit) := h

theorem throw (h : Halt) : Still (MonadExcept.throw h : Act α) := fun _ => rfl

theorem fail (t : Trap) : Still (Act.fail t : Act α) := throw _

theorem lift : ∀ x : Except Trap α, Still (Act.lift x)
  | .ok x => pure x
  | .error t => fail t

theorem forIn {σ : Type} {f : β → σ → Act (ForInStep σ)} (h : ∀ x s, Still (f x s)) (xs : List β)
    (s : σ) : Still (ForIn.forIn xs s f) := by
  induction xs generalizing s with
  | nil => exact pure s
  | cons x xs ih =>
    rw [forIn_cons]
    refine bind (h x s) fun r => ?_
    cases r with
    | done s => exact pure s
    | yield s => exact ih s

/-! ### The heap, input and output -/

theorem emit (bs : List UInt8) : Still (Act.emit bs) := modify fun _ => rfl

theorem say (s : String) : Still (Act.say s) := emit _

theorem block (n : Nat) : Still (Act.block n) := bind get fun _ => pure _

theorem addBlock (t : Tag) : Still (Act.addBlock t) :=
  bind get fun _ => bind (modify fun _ => rfl) fun _ => pure _

theorem readBlock (n offset width : Nat) : Still (Act.readBlock n offset width) :=
  bind get fun _ => lift _

theorem writeBlock (n : Nat) (word : UInt32) (offset width : Nat) :
    Still (Act.writeBlock n word offset width) :=
  bind get fun _ => bind (lift _) fun _ => modify fun _ => rfl

theorem appendByte (n : Nat) (b : UInt8) : Still (Act.appendByte n b) :=
  bind (block n) fun _ => writeBlock _ _ _ _

theorem appendBytes (n : Nat) (bs : List UInt8) : Still (Act.appendBytes n bs) := by
  induction bs with
  | nil => exact pure _
  | cons b bs ih => exact bind (appendByte n b) fun _ => ih

theorem transferFrom (place : Nat → Nat → Nat) (source target fuel i : Nat) :
    Still (Act.transferFrom place source target fuel i) := by
  induction fuel generalizing i with
  | zero =>
    unfold Act.transferFrom
    refine bind (block source) fun b => ?_
    split
    · exact pure _
    · exact throw _
  | succ fuel ih =>
    unfold Act.transferFrom
    refine bind (block source) fun b => ?_
    split
    · exact pure _
    · exact bind (bind (readBlock _ _ _) fun _ => bind (block _) fun _ => writeBlock _ _ _ _) fun _ => ih _

theorem joinFrom (source target fuel i : Nat) : Still (Act.joinFrom source target fuel i) :=
  joinFrom_eq source target fuel i ▸ transferFrom _ _ _ _ _

theorem copyFrom (source target fuel i : Nat) : Still (Act.copyFrom source target fuel i) :=
  copyFrom_eq source target fuel i ▸ transferFrom _ _ _ _ _

theorem scatter (n i : Nat) (bs : List UInt8) : Still (Act.scatter n i bs) := by
  induction bs generalizing i with
  | nil => exact pure _
  | cons b bs ih => exact bind (block n) fun _ => bind (writeBlock _ _ _ _) fun _ => ih _

theorem addCopy (n : Nat) (tag : Option Tag) : Still (Act.addCopy n tag) := by
  refine bind get fun m => ?_
  dsimp only
  split
  · exact bind (fail _) fun _ => bind (block _) fun _ => bind (addBlock _) fun _ =>
      bind (modify fun _ => rfl) fun _ => pure _
  · exact bind (block _) fun _ => bind (addBlock _) fun _ => bind (modify fun _ => rfl) fun _ =>
      pure _

theorem copyWords (source target : Nat) (tag : Tag) (count : Nat) :
    Still (Act.copyWords source target tag count) := by
  refine bind (forIn (fun i _ => ?_) _ _) fun _ => pure _
  exact bind (readBlock _ _ _) fun _ => bind (writeBlock _ _ _ _) fun _ => pure _

theorem duplicate (n : Nat) (tag : Tag) (depth : Nat) : Still (Act.duplicate n tag depth) := by
  fun_induction Act.duplicate n tag depth with
  | case1 n | case2 n => exact bind (addCopy _ _) fun _ => bind (copyWords _ _ _ _) fun _ => pure _
  | case3 n depth ih =>
    refine bind (addCopy _ _) fun r => bind (forIn (fun i _ => ?_) _ _) fun _ => pure _
    exact bind (ih _ _) fun _ => bind (writeBlock _ _ _ _) fun _ => pure _

theorem spell (n depth : Nat) (x : Item) : Still (Act.spell n depth x) := by
  induction depth generalizing x with
  | zero =>
    unfold Act.spell
    split
    · exact appendBytes _ _
    · exact throw _
  | succ depth ih =>
    unfold Act.spell
    split
    · exact appendBytes _ _
    · refine bind (block _) fun b => bind (appendBytes _ _) fun _ => ?_
      refine bind (forIn (fun i _ => ?_) _ _) fun _ => appendBytes _ _
      refine bind (readBlock _ _ _) fun w => bind (ih _) fun _ => ?_
      split
      · exact bind (appendBytes _ _) fun _ => pure _
      · exact pure _

theorem take (f : List UInt8 → α × List UInt8) : Still (Act.take f) :=
  bind get fun _ => bind (modify fun _ => rfl) fun _ => pure _

theorem fileName (n : Nat) : Still (Act.fileName n) := bind (block n) fun _ => pure _

theorem readFrom (n : Nat) (start stop i : Int) (left : List UInt8) :
    Still (Act.readFrom n start stop i left) := by
  induction left generalizing i with
  | nil => exact pure _
  | cons b left ih =>
    unfold Act.readFrom
    split
    · exact bind (writeBlock _ _ _ _) fun _ => ih _
    · exact pure _

theorem writeFrom (name : List UInt8) (n i count : Nat) : Still (Act.writeFrom name n i count) := by
  induction count generalizing i with
  | zero => exact pure _
  | succ count ih =>
    exact bind (readBlock _ _ _) fun _ => bind (modify fun _ => rfl) fun _ => ih _

theorem sliceFrom (source target width : Nat) (step place : UInt32) (j count : Nat) :
    Still (Act.sliceFrom source target width step place j count) := by
  induction count generalizing place j with
  | zero => exact pure _
  | succ count ih =>
    exact bind (readBlock _ _ _) fun _ => bind (writeBlock _ _ _ _) fun _ => ih _ _

end Still

theorem Still.lowers {a : Act α} (ha : Still a) : Lowers a := by
  intro m
  obtain ⟨-, hframes, hstack, -⟩ := Machine.core_eq (ha m)
  exact ⟨hstack ▸ suffix_rfl, hframes ▸ suffix_rfl⟩

theorem lowers_pop : Lowers pop := by
  intro m
  cases hs : m.stack with
  | nil =>
    rw [run_pop_nil hs]
    exact ⟨hs ▸ suffix_rfl, suffix_rfl⟩
  | cons x rest =>
    rw [run_pop hs]
    exact ⟨suffix_cons x rest, suffix_rfl⟩

/-- Where the act comes to an end, it has taken `k` items from the stack and left as many as `l`
    says of its result. The rest of the core is as it was. -/
structure Exchanges (k : Nat) (l : α → Nat) (a : Act α) : Prop where
  traced : Traced a
  ends : ∀ m x m', a m = (.ok x, m') → k ≤ m.stack.length ∧
    ∃ ys, ys.length = l x ∧ m'.core = (m.pc, m.frames, ys ++ m.stack.drop k, m.memory)

namespace Exchanges

variable {k n : Nat} {l : β → Nat}

/-! ### How they are put together -/

/-- The second of two acts takes first what the first one has left. -/
theorem bind {a : Act α} {f : α → Act β} {i j : α → Nat} {c : α → β → Nat} {t : Nat}
    (ha : Exchanges k j a) (hf : ∀ x, Exchanges (i x) (c x) (f x))
    (ht : ∀ x, t = k + (i x - j x)) (hl : ∀ x y, l y = c x y + (j x - i x)) :
    Exchanges t l (a >>= f) := by
  refine ⟨ha.traced.bind fun x => (hf x).traced, fun m y m' h => ?_⟩
  rw [run_bind] at h
  rcases hr : a m with ⟨_ | x, m₁⟩
  · rw [hr] at h
    cases h
  · rw [hr] at h
    obtain ⟨hk, xs, hxs, hm₁⟩ := ha.ends m x m₁ hr
    obtain ⟨hi, ys, hys, hm'⟩ := (hf x).ends m₁ y m' h
    obtain ⟨hpc, hframes, hstack, hmem⟩ := Machine.core_eq hm₁
    rw [hstack, length_append, length_drop] at hi
    refine ⟨by rw [ht x]; omega, ys ++ xs.drop (i x), ?_, ?_⟩
    · rw [length_append, length_drop, hys, hxs, hl x y]
    · rw [hm', hpc, hframes, hmem, hstack, drop_append, drop_drop, hxs, ht x,
        append_assoc]

theorem still {a : Act α} (ha : Still a) : Exchanges 0 (fun _ => 0) a := by
  refine ⟨.of_lowers ha.lowers, fun m x m' h => ?_⟩
  have hcore := ha m
  rw [h] at hcore
  exact ⟨Nat.zero_le _, [], rfl, hcore⟩

theorem pop : Exchanges 1 (fun _ => 0) Act.pop := by
  refine ⟨.of_lowers lowers_pop, fun m x m' h => ?_⟩
  cases hs : m.stack with
  | nil =>
    rw [run_pop_nil hs] at h
    cases h
  | cons y rest =>
    rw [run_pop hs] at h
    cases h
    exact ⟨Nat.succ_le_succ (Nat.zero_le _), [], rfl, rfl⟩

theorem push (x : Item) : Exchanges 0 (fun _ => 1) (Act.push x) := by
  refine ⟨fun m => ⟨_, .push x m⟩, fun m y m' h => ?_⟩
  by_cases hlen : m.stack.length < stackLimit
  · rw [run_push hlen] at h
    cases h
    exact ⟨Nat.zero_le _, [x], rfl, rfl⟩
  · rw [run_push_full (Nat.not_lt.1 hlen)] at h
    cases h

theorem still_bind {a : Act α} {f : α → Act β} (ha : Still a) (hf : ∀ x, Exchanges k l (f x)) :
    Exchanges k l (a >>= f) :=
  bind (still ha) hf (by simp) (by simp)

theorem pop_bind {f : Item → Act β} (hf : ∀ x, Exchanges k l (f x)) :
    Exchanges (k + 1) l (Act.pop >>= f) :=
  bind pop hf (by omega) (by simp)

theorem throw (h : Halt) : Exchanges k l (MonadExcept.throw h) := by
  refine ⟨.of_lowers (Still.throw h).lowers, fun m y m' hr => ?_⟩
  cases hr

theorem fail (t : Trap) : Exchanges k l (Act.fail t) := throw _

theorem fail_bind (t : Trap) (f : α → Act β) : Exchanges k l (Act.fail t >>= f) := by
  refine ⟨fun m => ⟨[], .stop rfl (.none (Still.fail t).lowers m)⟩, fun m y m' hr => ?_⟩
  cases hr

/-- The result may say how many items were left. -/
theorem returning {i : Nat} {a : Act α} {y : β} (ha : Exchanges k (fun _ => i) a) (hl : l y = i) :
    Exchanges k l (a >>= fun _ => Pure.pure y) := by
  refine ⟨ha.traced.bind fun _ => .of_lowers (Still.pure y).lowers, fun m y' m' h => ?_⟩
  rw [run_bind] at h
  rcases hr : a m with ⟨_ | x, m₁⟩
  · rw [hr] at h
    cases h
  · rw [hr] at h
    cases h
    exact hl.symm ▸ ha.ends m x _ hr

/-! ### Arithmetic and lists -/

theorem pushText (bs : List UInt8) : Exchanges 0 (fun _ => 1) (Act.pushText bs) :=
  still_bind (.addBlock _) fun n => still_bind (.appendBytes n bs) fun _ => push _

/-- Texts that are to be joined stay on the stack, with a mark above them. -/
theorem compute (op : Operator) :
    Exchanges (if op = .not then 1 else 2) (fun b => if b then 3 else 1) (Act.compute op) := by
  unfold Act.compute
  split
  · exact pop_bind fun y => returning (push _) rfl
  refine pop_bind fun y => pop_bind fun x => ?_
  split
  · exact returning (push _) rfl
  split
  · -- two operands and the mark
    have htwo : Exchanges 0 (fun _ => 2) (do Act.push x; Act.push y) :=
      bind (push x) (fun _ => push y) (fun _ => rfl) (fun _ _ => rfl)
    have hthree : Exchanges 0 (fun _ => 3)
        ((do Act.push x; Act.push y) >>= fun _ => Act.push ⟨.unassigned, 0xffffffff⟩) :=
      bind htwo (fun _ => push _) (fun _ => rfl) (fun _ _ => rfl)
    simpa only [bind_assoc] using returning (y := true) hthree rfl
  · exact returning (push _) rfl

theorem join : Exchanges 3 (fun _ => 1) Act.join := by
  refine pop_bind fun _ => pop_bind fun y => pop_bind fun x => ?_
  split
  · split
    · exact still_bind (.block _) fun _ => still_bind (.joinFrom _ _ _ _) fun _ => push _
    · exact still_bind (.modify fun _ => rfl) fun _ => still_bind (.scatter _ _ _) fun _ => push _
  · exact still_bind (.addBlock _) fun _ => still_bind (.scatter _ _ _) fun _ =>
      still_bind (.block _) fun _ => still_bind (.copyFrom _ _ _ _) fun _ => push _

theorem fillList (n width i count : Nat) :
    Exchanges count (fun _ => 0) (Act.fillList n width i count) := by
  induction count generalizing i with
  | zero => exact still (.pure _)
  | succ count ih => exact pop_bind fun _ => still_bind (.writeBlock _ _ _ _) fun _ => ih _

theorem buildList (count : Nat) : Exchanges count (fun _ => 1) (Act.buildList count) := by
  unfold Act.buildList
  cases count with
  | zero => exact still_bind (.addBlock _) fun _ => push _
  | succ count =>
    exact pop_bind fun _ => still_bind (.addBlock _) fun _ => still_bind (.writeBlock _ _ _ _) fun _ =>
      bind (fillList _ _ _ _) (fun _ => push _) (by simp) (by simp)

theorem index (arg : UInt32) :
    Exchanges (if arg = endAddress then 1 else 0) (fun _ => 0) (Act.index arg) := by
  unfold Act.index
  change Exchanges (if arg = 0xffffffff then 1 else 0) _ _
  split
  · exact pop_bind fun _ => still (.pure _)
  · exact still (.pure _)

theorem element (arg : UInt32) :
    Exchanges (if arg = endAddress then 2 else 1) (fun _ => 1) (Act.element arg) :=
  bind (index arg) (fun _ => pop_bind fun _ => still_bind (.block _) fun _ =>
    still_bind (.readBlock _ _ _) fun _ => push _) (by split <;> simp) (by simp)

theorem setElement (arg : UInt32) :
    Exchanges (if arg = endAddress then 3 else 2) (fun _ => 0) (Act.setElement arg) :=
  bind (index arg) (fun _ => pop_bind fun _ => pop_bind fun _ => still_bind (.block _) fun _ =>
    still (.writeBlock _ _ _ _)) (by split <;> simp) (by simp)

theorem load (address : UInt32) : Exchanges 0 (fun _ => 1) (Act.load address) :=
  still_bind .get fun _ => still_bind (.lift _) fun _ => push _

theorem cast (arg : UInt32) : Exchanges 1 (fun _ => 1) (Act.cast arg) := by
  refine pop_bind fun x => ?_
  split
  · exact push _
  · exact push _
  · exact push _
  · exact push _
  · exact still_bind (.duplicate _ _ _) fun _ => push _

/-! ### Built-in functions -/

theorem print : Exchanges 1 (fun _ => 0) Act.print := by
  refine pop_bind fun x => still_bind .get fun m => still ?_
  dsimp only
  split
  · exact .emit _
  · exact .throw _

theorem toText : Exchanges 1 (fun _ => 1) Act.toText :=
  pop_bind fun x => still_bind (.addBlock _) fun n => still_bind .get fun _ =>
    still_bind (.spell n _ x) fun _ => push _

theorem readInt : Exchanges 0 (fun _ => 1) Act.readInt := still_bind (.take _) fun _ => push _

theorem readReal : Exchanges 0 (fun _ => 1) Act.readReal := still_bind (.take _) fun _ => push _

theorem readWord : Exchanges 0 (fun _ => 1) Act.readWord := still_bind (.take _) fun _ => pushText _

theorem tagName : Exchanges 1 (fun _ => 1) Act.tagName := pop_bind fun _ => pushText _

theorem readFile : Exchanges 3 (fun _ => 1) Act.readFile := by
  refine pop_bind fun x => still_bind (.fileName _) fun name => still_bind .get fun m => ?_
  split
  · exact fail _
  · exact pop_bind fun _ => pop_bind fun _ => still_bind (.addBlock _) fun _ =>
      still_bind (.readFrom _ _ _ _ _) fun _ => push _

theorem writeFile : Exchanges 4 (fun _ => 1) Act.writeFile := by
  refine pop_bind fun _ => still_bind (.fileName _) fun name => pop_bind fun _ =>
    pop_bind fun count => pop_bind fun replaces => ?_
  dsimp only
  split
  · exact fail_bind _ _
  · exact still_bind (.modify fun _ => rfl) fun _ => still_bind (.writeFrom _ _ _ _) fun _ => push _

theorem size : Exchanges 1 (fun _ => 1) Act.size :=
  pop_bind fun _ => still_bind (.block _) fun _ => push _

theorem append : Exchanges 2 (fun _ => 0) Act.append := by
  refine pop_bind fun list => pop_bind fun x => still_bind (.block _) fun b => ?_
  dsimp only
  split
  · exact fail_bind _ _
  · exact still (.writeBlock _ _ _ _)

theorem removeAt : Exchanges 2 (fun _ => 0) Act.removeAt := by
  refine pop_bind fun list => pop_bind fun i => still_bind (.block _) fun b => ?_
  dsimp only
  split
  · exact fail_bind _ _
  · exact still (.bind .get fun _ => .bind (.lift _) fun _ => .modify fun _ => rfl)

theorem isEmpty : Exchanges 1 (fun _ => 1) Act.isEmpty :=
  pop_bind fun _ => still_bind (.block _) fun _ => push _

theorem slice : Exchanges 3 (fun _ => 1) Act.slice := by
  refine pop_bind fun list => pop_bind fun start => pop_bind fun stop =>
    still_bind (.block _) fun b => still_bind (.addBlock _) fun n => ?_
  split <;> exact still_bind (.sliceFrom _ _ _ _ _ _ _) fun _ => push _

theorem keepList : Exchanges 2 (fun _ => 1) Act.keepList := pop_bind fun _ => pop_bind fun _ => push _

theorem best (better : Tag → UInt32 → UInt32 → Bool) :
    Exchanges 1 (fun _ => 1) (Act.best better) := by
  refine pop_bind fun n => still_bind (.block _) fun b => still_bind (.readBlock _ _ _) fun w =>
    still_bind (.forIn (fun i s => ?_) _ _) fun _ => push _
  refine .bind (.readBlock _ _ _) fun w => ?_
  split <;> exact .pure _

theorem mapText (f : UInt8 → UInt8) : Exchanges 1 (fun _ => 1) (Act.mapText f) := by
  refine pop_bind fun n => still_bind (.block _) fun b => ?_
  dsimp only
  split
  · exact fail_bind _ _
  · refine still_bind (.duplicate _ _ _) fun copy => still_bind (.block _) fun b =>
      still_bind (.forIn (fun i s => ?_) _ _) fun _ => push _
    exact .bind (.readBlock _ _ _) fun _ => .bind (.writeBlock _ _ _ _) fun _ => .pure _

/-- A built-in function takes its arguments and leaves its result. -/
theorem builtin (n : UInt32) :
    Exchanges (builtinExchange n.toNat).1 (fun _ => (builtinExchange n.toNat).2) (Act.builtin n) := by
  unfold Act.builtin
  split
  case h_1 => exact throw _
  case h_21 =>
    have hnone : builtinExchange n.toNat = (0, 0) := by
      unfold builtinExchange
      split <;> first | rfl | contradiction
    rw [hnone]
    exact still (.say _)
  all_goals rename_i h; rw [h]
  · exact print
  · exact readInt
  · exact readReal
  · exact readWord
  · exact tagName
  · exact readFile
  · exact writeFile
  · exact size
  · exact append
  · exact removeAt
  · exact isEmpty
  · exact slice
  · exact keepList
  · exact keepList
  · exact best _
  · exact best _
  · exact mapText _
  · exact mapText _
  · exact toText

/-- An operation that neither steers nor stores takes and leaves as many items as it says. -/
theorem perform {op : Operation} {arg : UInt32} (hsteers : op.steers = false)
    (hstore : op ≠ .storeMem) :
    Exchanges (op.exchange arg).1 (fun _ => (op.exchange arg).2) (Act.perform op arg) := by
  cases op with
  | compute op =>
    refine bind (i := fun b => if b then 3 else 0) (c := fun b _ => if b then 1 else 0) (compute op)
      (fun b => ?_) (fun b => ?_) (fun b _ => ?_)
    · cases b with
      | true => exact join
      | false => exact still (.pure _)
    all_goals cases op <;> cases b <;> rfl
  | push tag => exact push _
  | storeMem => exact absurd rfl hstore
  | load => exact load _
  | buildList => exact buildList _
  | element => exact element _
  | setElement => exact setElement _
  | defineType | create => exact still (.pure _)
  | cast => exact cast _
  | builtin => exact builtin _
  | jump | jumpIf | call | giveBack => cases hsteers

end Exchanges

end Act

namespace Machine

variable {m m' : Machine} {i : Instruction}

/-- Where the machine goes and what it returns to after an operation in `m`. -/
def Goes (m : Machine) (op : Operation) (arg : UInt32) (m' : Machine) : Prop :=
  match op with
  | .jump => m'.pc = arg.toNat ∧ m'.frames = m.frames
  | .jumpIf => (m'.pc = arg.toNat ∨ m'.pc = m.pc + 1) ∧ m'.frames = m.frames
  | .call => m'.frames = (m.pc + 1) :: m.frames
  | .giveBack => m.frames = m'.pc :: m'.frames
  | _ => m'.pc = m.pc + 1 ∧ m'.frames = m.frames

/-- What an operation does to the stack, to the place of the machine and to the memory. -/
structure Moved (m : Machine) (op : Operation) (arg : UInt32) (m' : Machine) : Prop where
  enough : (op.exchange arg).1 ≤ m.stack.length
  stack : ∃ ys, ys.length = (op.exchange arg).2 ∧ m'.stack = ys ++ m.stack.drop (op.exchange arg).1
  goes : m.Goes op arg m'
  memory : op ≠ .storeMem → m'.memory = m.memory

variable {arg : UInt32}

theorem moved_of_plain {op : Operation} (hsteers : op.steers = false) (hstore : op ≠ .storeMem)
    (h : Act.perform op arg m.onward = (.ok (), m')) : m.Moved op arg m' := by
  obtain ⟨hk, ys, hys, hcore⟩ := (Act.Exchanges.perform hsteers hstore).ends _ _ _ h
  obtain ⟨hpc, hframes, hstack, hmem⟩ := core_eq hcore
  refine ⟨hk, ⟨ys, hys, hstack⟩, ?_, fun _ => hmem⟩
  cases op with
  | jump | jumpIf | call | giveBack => cases hsteers
  | _ => exact ⟨hpc, hframes⟩

theorem moved_jumpIf (h : Act.perform .jumpIf arg m.onward = (.ok (), m')) :
    m.Moved .jumpIf arg m' := by
  rw [Act.perform] at h
  cases hs : m.stack with
  | nil =>
    rw [Act.run_bind_error (Act.run_pop_nil (m := m.onward) hs)] at h
    cases h
  | cons x rest =>
    rw [Act.run_bind_ok (Act.run_pop (m := m.onward) hs)] at h
    have hk : 1 ≤ m.stack.length := by simp [hs]
    split at h
    · cases h
      exact ⟨hk, ⟨[], rfl, by simp [hs, exchange]⟩, ⟨.inl rfl, rfl⟩, fun _ => rfl⟩
    · cases h
      exact ⟨hk, ⟨[], rfl, by simp [hs, exchange]⟩, ⟨.inr rfl, rfl⟩, fun _ => rfl⟩

theorem moved_call (h : Act.perform .call arg m.onward = (.ok (), m')) :
    m.Moved .call arg m' := by
  have entered {n : Machine} {place : UInt32} (h : Act.enter place n = (.ok (), m')) :
      m' = { n with pc := place.toNat, frames := n.pc :: n.frames } := by
    by_cases hlen : n.frames.length < frameLimit
    · rw [Act.run_enter place hlen] at h
      cases h
      rfl
    · rw [Act.run_enter_full place (Nat.not_lt.1 hlen)] at h
      cases h
  by_cases harg : arg = endAddress
  · have htake : call.exchange arg = (1, 0) := by rw [exchange, if_pos harg]
    simp only [Act.perform, Act.call, if_pos (show arg = 0xffffffff from harg), pure_bind] at h
    cases hs : m.stack with
    | nil =>
      rw [Act.run_bind_error (Act.run_pop_nil (m := m.onward) hs)] at h
      cases h
    | cons x rest =>
      rw [Act.run_bind_ok (Act.run_pop (m := m.onward) hs)] at h
      obtain rfl := entered h
      exact ⟨by simp [htake, hs], ⟨[], by simp [htake], by simp [htake, hs]⟩, rfl, fun _ => rfl⟩
  · have htake : call.exchange arg = (0, 0) := by rw [exchange, if_neg harg]
    simp only [Act.perform, Act.call, if_neg (show arg ≠ 0xffffffff from harg), pure_bind] at h
    rw [Act.run_get_bind] at h
    obtain rfl := entered h
    exact ⟨by simp [htake], ⟨[], by simp [htake], by simp [htake]⟩, rfl, fun _ => rfl⟩

theorem moved_giveBack (h : Act.perform .giveBack arg m.onward = (.ok (), m')) :
    m.Moved .giveBack arg m' := by
  rw [Act.perform, Act.giveBack, Act.run_get_bind] at h
  dsimp only at h
  cases hf : m.frames with
  | nil =>
    rw [hf] at h
    cases h
  | cons place rest =>
    rw [hf] at h
    cases h
    exact ⟨Nat.zero_le _, ⟨[], rfl, rfl⟩, hf, fun _ => rfl⟩

/-- What every instruction that does not stop the machine has done. -/
theorem moved_of_execute (h : m.execute i = .next m') :
    ∃ op, ofCode? i.code.toNat = some op ∧ m.Moved op i.arg m' := by
  obtain ⟨op, hop, hact⟩ := perform_of_execute h
  refine ⟨op, hop, ?_⟩
  cases op with
  | storeMem =>
    obtain ⟨x, rest, memory, hs, -, rfl⟩ := store_of_execute h hop
    exact ⟨by simp [hs, exchange], ⟨[], rfl, by simp [hs, exchange]⟩, ⟨rfl, rfl⟩,
      fun hne => absurd rfl hne⟩
  | jump =>
    cases hact
    exact ⟨Nat.zero_le _, ⟨[], rfl, rfl⟩, ⟨rfl, rfl⟩, fun _ => rfl⟩
  | jumpIf => exact moved_jumpIf hact
  | call => exact moved_call hact
  | giveBack => exact moved_giveBack hact
  | _ => exact moved_of_plain rfl Operation.noConfusion hact

/-- An instruction that is no store keeps the memory. -/
theorem memory_of_execute (h : m.execute i = .next m')
    (hi : ofCode? i.code.toNat ≠ some .storeMem) : m'.memory = m.memory := by
  obtain ⟨op, hop, hm⟩ := moved_of_execute h
  exact hm.memory fun hstore => hi (hstore ▸ hop)

end Machine

end StackLang
