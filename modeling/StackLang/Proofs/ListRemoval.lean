import StackLang.Proofs.BlockView

/-!
# Taking elements out of a list

When an element is taken out of a list, those behind it move up byte by byte, and the size of the
block becomes one byte less. So the elements are always right, but the block has as many bytes as
they need only if an element is a byte. Otherwise some bytes are left behind the last element, and
an item that is added later begins behind them.

* `Block.items_removed`: the elements that are left;
* `element_removed_iff`: when the block that is left is the list without the element, and is seen
  as this list by all that is done with it later.
-/

namespace StackLang

/-! ### Moving bytes -/

/-- The bytes behind a gap of some width have moved up, as many as were asked for. -/
theorem Segment.byte_moved (s c : Segment) (start width count i : Nat) :
    ((List.range count).foldl
      (fun s k => s.setByte (start + k) (c.byte (start + width + k))) s).byte i =
        if start ≤ i ∧ i < start + count then c.byte (i + width) else s.byte i := by
  induction count with
  | zero => rw [if_neg (by omega)]; rfl
  | succ count ih =>
    rw [List.range_succ, List.foldl_append, List.foldl_cons, List.foldl_nil, byte_setByte, ih]
    by_cases hlast : i = start + count
    · rw [if_pos hlast, if_pos (by omega), hlast, Nat.add_right_comm]
    · rw [if_neg hlast]
      by_cases hin : start ≤ i ∧ i < start + count
      · rw [if_pos hin, if_pos (by omega)]
      · rw [if_neg hin, if_neg (by omega)]

namespace Block

variable {b : Block} {n k i : Nat}

/-- The block after an element has been taken out. -/
def removed (b : Block) (k : Nat) : Block :=
  { b with
    cells :=
      { (List.range ((b.count - k - 1) * b.tag.width)).foldl
          (fun s j => s.setByte (k * b.tag.width + j)
            (b.cells.byte (k * b.tag.width + b.tag.width + j))) b.cells with
        size := b.size - 1 } }

theorem byte_removed (b : Block) (k i : Nat) : (b.removed k).cells.byte i =
    if k * b.tag.width ≤ i ∧ i < k * b.tag.width + (b.count - k - 1) * b.tag.width then
      b.cells.byte (i + b.tag.width) else b.cells.byte i :=
  Segment.byte_moved ..

@[simp] theorem tag_removed (b : Block) (k : Nat) : (b.removed k).tag = b.tag := rfl

@[simp] theorem size_removed (b : Block) (k : Nat) : (b.removed k).size = b.size - 1 := rfl

section

variable (hsize : b.size = n * b.tag.width) (hk : k < n)

include hsize hk

theorem count_removed : (b.removed k).count = n - 1 := by
  rw [count, size_removed, tag_removed, hsize]
  rcases b.tag.width_eq_one_or with hw | hw
  · rw [hw]
    omega
  · rw [hw]
    omega

/-- The elements in front of the one that was taken out are in their place, and those behind it
    one place further in front. -/
theorem word_removed (hi : i < n - 1) : (b.removed k).cells.word (i * b.tag.width) b.tag.width =
      b.cells.word ((if i < k then i else i + 1) * b.tag.width) b.tag.width := by
  have hmoved : k * b.tag.width + (n - k - 1) * b.tag.width = (n - 1) * b.tag.width := by
    rw [← Nat.add_mul]
    congr 1
    omega
  -- byte by byte, since what has moved is a row of bytes
  refine Segment.word_eq_of_bytes fun r hr => ?_
  rw [byte_removed, count_of_size hsize, hmoved]
  have hend := Nat.mul_le_mul_right b.tag.width (Nat.succ_le_of_lt hi)
  rw [Nat.succ_mul] at hend
  by_cases hik : i < k
  · have hfront := Nat.mul_le_mul_right b.tag.width (Nat.succ_le_of_lt hik)
    rw [Nat.succ_mul] at hfront
    rw [if_neg (by omega), if_pos hik]
  · have hbehind := Nat.mul_le_mul_right b.tag.width (Nat.le_of_not_lt hik)
    rw [if_pos (by omega), if_neg hik, Nat.succ_mul, Nat.add_right_comm]

/-- The elements that are left are the others in their order. -/
theorem items_removed : (b.removed k).items = b.items.eraseIdx k := by
  refine List.ext_getElem? fun i => ?_
  rw [getElem?_items, count_removed hsize hk, tag_removed, List.getElem?_eraseIdx, getElem?_items,
    getElem?_items, count_of_size hsize]
  by_cases hi : i < n - 1
  · rw [if_pos hi, word_removed hsize hk hi]
    by_cases hik : i < k
    · rw [if_pos hik, if_pos hik, if_pos (by omega)]
    · rw [if_neg hik, if_neg hik, if_pos (by omega)]
  · rw [if_neg hi, if_neg (by omega), if_neg (by omega)]

end

end Block

theorem Heap.removeElement_eq {h : Heap} {b : Block} {n k : Nat} (hb : h.blocks[n]? = some b)
    (hk : k < b.count) : h.removeElement n k b.tag.width =
      .ok ⟨h.blocks.setIfInBounds n (b.removed k)⟩ := by
  have hin : ¬b.size / b.tag.width ≤ k := Nat.not_le.2 hk
  unfold removeElement
  rw [hb]
  dsimp only
  rw [if_neg hin]
  rfl

/-! ### The function that takes elements out -/

namespace Machine

variable {m : Machine} {b : Block} {list i : Item} {rest : List Item} {n : Nat}

theorem execute_remove (hs : m.stack = list :: i :: rest)
    (hb : m.heap.blocks[list.block]? = some b) (hi : i.word.toNat < b.count) :
    m.execute ⟨0xFF, 10⟩ = .next
      { m with
        pc := m.pc + 1
        stack := rest
        heap := ⟨m.heap.blocks.setIfInBounds list.block (b.removed i.word.toNat)⟩ } := by
  have hle : ¬b.size < i.word.toNat := by
    have := Nat.div_le_self b.size b.tag.width
    rw [Block.count] at hi
    omega
  refine execute_of_perform rfl ?_
  change Act.removeAt _ = _
  unfold Act.removeAt
  rw [Act.run_bind_ok (Act.run_pop (m := m.onward) hs),
    Act.run_bind_ok (Act.run_pop rfl), Act.run_bind_ok (Act.run_block _ _)]
  dsimp only
  rw [Heap.block_eq hb, if_neg hle, Act.run_get_bind]
  dsimp only
  rw [Heap.removeElement_eq hb hi]
  rfl

/-- The removal that the machine is about to execute takes exactly the element `k` out of a list
    of `n` elements: the block has the size of `n - 1` elements, which are the others in their
    order, and this list is what is seen of it later. Other blocks stay, and nothing else changes
    but that the operands are taken. -/
def RemovesElement (m : Machine) (list : Item) (rest : List Item) (b : Block) (n k : Nat) : Prop :=
  ∃ h b', m.execute ⟨0xFF, 10⟩ = .next { m with pc := m.pc + 1, stack := rest, heap := h } ∧
    h.blocks[list.block]? = some b' ∧ (∀ j, j ≠ list.block → h.blocks[j]? = m.heap.blocks[j]?) ∧
    b'.tag = b.tag ∧ b'.size = (n - 1) * b.tag.width ∧ b'.items = b.items.eraseIdx k ∧
    b'.SeenAs b.tag (b.items.eraseIdx k)

end Machine

/-- Exactly one element is taken out of a list if and only if the elements are bytes and there are
    fewer than `2 ^ 32` of them. -/
theorem element_removed_iff {m : Machine} {b : Block} {list i : Item} {rest : List Item} {n : Nat}
    (hs : m.stack = list :: i :: rest) (hb : m.heap.blocks[list.block]? = some b)
    (hsize : b.size = n * b.tag.width) (hi : i.word.toNat < n) :
    m.RemovesElement list rest b n i.word.toNat ↔ b.tag.width = 1 ∧ n < 2 ^ 32 := by
  have hcount := Block.count_of_size hsize
  have hexec := Machine.execute_remove hs hb (hcount ▸ hi)
  have hlist : list.block < m.heap.blocks.size := (Array.getElem?_eq_some_iff.1 hb).1
  have hb' : (m.heap.blocks.setIfInBounds list.block (b.removed i.word.toNat))[list.block]? =
      some (b.removed i.word.toNat) := Array.getElem?_setIfInBounds_self_of_lt hlist
  have hitems := Block.items_removed hsize hi
  have hlength : (b.items.eraseIdx i.word.toNat).length = n - 1 := by
    rw [List.length_eraseIdx_of_lt (by rwa [Block.length_items, hcount]), Block.length_items, hcount]
  -- the block has the size of the elements that are left if these are bytes
  have hbytes : (b.removed i.word.toNat).size = (n - 1) * b.tag.width ↔ b.tag.width = 1 := by
    rw [Block.size_removed, hsize]
    rcases b.tag.width_eq_one_or with hw | hw
    · rw [hw]
      omega
    · rw [hw]
      omega
  have hseen (hw : b.tag.width = 1) :
      (b.removed i.word.toNat).SeenAs b.tag (b.items.eraseIdx i.word.toNat) ↔ n < 2 ^ 32 := by
    have hholds : (b.removed i.word.toNat).Holds b.tag (b.items.eraseIdx i.word.toNat) :=
      ⟨rfl, by rw [hlength]; exact hbytes.2 hw, hitems⟩
    rw [hholds.seenAs_iff, Block.size_removed, hsize, hw]
    omega
  constructor
  · rintro ⟨h, b', hexec', hblock, -, -, hsize', -, hseen'⟩
    rw [hexec, Transition.next.injEq, Machine.mk.injEq] at hexec'
    obtain rfl := hexec'.2.2.2.2.1
    obtain rfl := Option.some.inj (hb'.symm.trans hblock)
    have hw := hbytes.1 hsize'
    exact ⟨hw, (hseen hw).1 hseen'⟩
  · rintro ⟨hw, hn⟩
    exact ⟨_, _, hexec, hb', fun j hj => Array.getElem?_setIfInBounds_ne (Ne.symm hj), rfl,
      hbytes.2 hw, hitems, (hseen hw).2 hn⟩

/-- A text loses the character in its middle. -/
theorem element_removed_text :
    Machine.RemovesElement
      { stack := [.ofBlock 0, ⟨.int, 1⟩], heap := ⟨#[⟨.char, ⟨3, #[97, 98, 99]⟩⟩]⟩ }
      (.ofBlock 0) [] ⟨.char, ⟨3, #[97, 98, 99]⟩⟩ 3 1 :=
  (element_removed_iff (i := ⟨.int, 1⟩) rfl rfl rfl (by decide)).2 ⟨rfl, by decide⟩

/-- Of three integers two are left, but eleven bytes. -/
theorem element_removed_bytes_left : ∃ b : Block,
    { threeIntegers with stack := [.ofBlock 0, ⟨.int, 1⟩] }.execute ⟨0xFF, 10⟩ =
      .next { threeIntegers with pc := 1, stack := [], heap := ⟨#[b]⟩ } ∧
    b.items = [⟨.int, 7⟩, ⟨.int, 9⟩] ∧ b.size = 11 :=
  ⟨_, rfl, by decide, rfl⟩

end StackLang
