import Mathlib.Algebra.Group.Nat.Defs
import StackLang.Proofs.Execution
import StackLang.Proofs.Storage

/-!
# Lists in the heap

What the acts on lists do, said with the elements of a block (`Block.items`) and not with its
bytes.

* `Block.items_put_of_lt` and `Block.items_put_end`: a word that is written at a place of a list
  changes the element there, or adds one at the end;
* `Act.run_buildList`: items of one tag become the elements of a new block, in their order;
* `Act.run_elementAt` and `Act.run_setElementAt`: an access gives the element, and an assignment
  changes it.
-/

namespace StackLang

open List

theorem toNat_toUInt32 {n : Nat} (h : n < 2 ^ 32) : n.toUInt32.toNat = n := by
  rw [Nat.toUInt32_eq, UInt32.toNat_ofNat_of_lt' h]

theorem toNat_toUInt32_eq_mod (n : Nat) : n.toUInt32.toNat = n % 2 ^ 32 := by
  rw [Nat.toUInt32_eq, UInt32.toNat_ofNat']

theorem mapM_eq_some_iff {α β : Type} {f : α → Option β} {xs : List α} {ys : List β} :
    xs.mapM f = some ys ↔ xs.map f = ys.map some := by
  induction xs generalizing ys with
  | nil => cases ys <;> simp
  | cons x xs ih =>
    cases hx : f x with
    | none => cases ys <;> simp [hx]
    | some y => cases hxs : xs.mapM f <;> cases ys <;> simp_all [← ih]

theorem toUInt32_eq_endAddress_iff {n : Nat} :
    n.toUInt32 = endAddress ↔ n % 2 ^ 32 = 2 ^ 32 - 1 := by
  rw [← UInt32.toNat_inj, toNat_toUInt32_eq_mod]
  rfl

/-! ### Offsets -/

theorem Tag.width_eq_one_or (t : Tag) : t.width = 1 ∨ t.width = 4 := by
  cases t <;> decide

/-- How many elements of a tag have different offsets as words. -/
def Tag.reach (t : Tag) : Nat := 2 ^ 32 / t.width

theorem Tag.reach_mul_width (t : Tag) : t.reach * t.width = 2 ^ 32 := by
  cases t <;> rfl

theorem Tag.mod_reach {t : Tag} {i : Nat} (h : i * t.width < 2 ^ 32) : i % t.reach = i := by
  rw [← t.reach_mul_width] at h
  exact Nat.mod_eq_of_lt (Nat.lt_of_mul_lt_mul_right h)

/-- As a word, the offset of an element is the one of an element within reach. -/
theorem toNat_offset (t : Tag) (i : Nat) :
    (i * t.width).toUInt32.toNat = i % t.reach * t.width := by
  rw [toNat_toUInt32_eq_mod, ← t.reach_mul_width, Nat.mul_mod_mul_right]

/-! ### Elements of a block -/

/-- In a row of words, a word that is written leaves those at other places, whatever the size of
    the segment is. -/
theorem Segment.word_setWord_of_ne {s s' : Segment} {i j width : Nat} {w : UInt32}
    (hbytes : s.bytes = s'.bytes) (h : j ≠ i) :
    (s.setWord (i * width) w width).word (j * width) width = s'.word (j * width) width := by
  refine word_congr fun k hk hlt => ?_
  have hbyte : s.byte k = s'.byte k := by rw [byte, byte, hbytes]
  rw [← hbyte]
  refine byte_setWord_of_outside w ?_
  rcases Nat.lt_or_gt_of_ne h with hji | hij
  · have := Nat.mul_le_mul_right width (Nat.succ_le_of_lt hji)
    rw [Nat.succ_mul] at this
    omega
  · have := Nat.mul_le_mul_right width (Nat.succ_le_of_lt hij)
    rw [Nat.succ_mul] at this
    omega

theorem Segment.le_size_grow (s : Segment) (n : Nat) : n ≤ (s.grow n).size := Nat.le_max_right _ _

namespace Block

variable {b : Block} {i j : Nat} {w : UInt32}

@[simp] theorem length_items (b : Block) : b.items.length = b.count := by
  simp [items]

@[simp] theorem items_empty (t : Tag) : ({ tag := t } : Block).items = [] := by
  have hcount : ({ tag := t } : Block).count = 0 := Nat.zero_div _
  rw [items, hcount]
  rfl

theorem getElem?_items (b : Block) (i : Nat) : b.items[i]? =
    if i < b.count then some ⟨b.tag, b.cells.word (i * b.tag.width) b.tag.width⟩ else none := by
  by_cases h : i < b.count <;> simp [items, h]

/-- The bytes of an element lie in the block. -/
theorem lt_count_iff : i < b.count ↔ i * b.tag.width + b.tag.width ≤ b.size := by
  rw [count, Nat.lt_iff_add_one_le, Nat.le_div_iff_mul_le b.tag.width_pos, Nat.succ_mul]

theorem count_of_size {n : Nat} (hsize : b.size = n * b.tag.width) : b.count = n := by
  rw [count, hsize, Nat.mul_div_cancel _ b.tag.width_pos]

/-- The items of a block have its tag. -/
theorem tag_of_mem_items {x : Item} (h : x ∈ b.items) : x.tag = b.tag := by
  obtain ⟨i, -, rfl⟩ := mem_map.1 h
  rfl

/-- The block with a word of some bytes written at an offset, for which it grows as needed. The
    offset is cut to a word then, and if that is the mark for the end, the block grows once more. -/
def written (b : Block) (w : UInt32) (offset width : Nat) : Block :=
  let s := b.cells.grow (offset + width)
  { b with cells :=
      if offset.toUInt32 = endAddress then (s.grow (s.size + width)).setWord s.size w width
      else s.setWord offset.toUInt32.toNat w width }

@[simp] theorem tag_written (b : Block) (w : UInt32) (offset width : Nat) :
    (b.written w offset width).tag = b.tag := rfl

/-- An offset that is a word, and not the mark for the end, is the place of the write. -/
theorem cells_written {offset : Nat} (h : offset + 1 < 2 ^ 32) (width : Nat) :
    (b.written w offset width).cells =
      (b.cells.grow (offset + width)).setWord offset w width := by
  have hne : offset.toUInt32 ≠ endAddress := mt toUInt32_eq_endAddress_iff.1 (by omega)
  rw [written, if_neg hne, toNat_toUInt32 (by omega)]

theorem le_size_written (b : Block) (w : UInt32) (offset width : Nat) :
    max b.size (offset + width) ≤ (b.written w offset width).size := by
  change (b.cells.grow (offset + width)).size ≤ (b.written w offset width).cells.size
  rw [written]
  dsimp only
  by_cases hend : offset.toUInt32 = endAddress
  · rw [if_pos hend, Segment.size_setWord]
    exact Nat.le_max_left _ _
  · rw [if_neg hend]
    exact Nat.le_of_eq (Segment.size_setWord ..).symm

/-- The block with a word written at a place of the list, which grows as needed. -/
def put (b : Block) (i : Nat) (w : UInt32) : Block :=
  { b with cells :=
      (b.cells.grow (i * b.tag.width + b.tag.width)).setWord (i * b.tag.width) w b.tag.width }

@[simp] theorem tag_put (b : Block) (i : Nat) (w : UInt32) : (b.put i w).tag = b.tag := rfl

theorem size_put (b : Block) (i : Nat) (w : UInt32) :
    (b.put i w).size = max b.size (i * b.tag.width + b.tag.width) :=
  Segment.size_setWord ..

/-- What is read at the place of the word that was written. -/
theorem word_put_self (b : Block) (i : Nat) (w : UInt32) :
    (b.put i w).cells.word (i * b.tag.width) b.tag.width = (Item.mk b.tag w).kept.word :=
  word_setWord_kept _ _ ⟨b.tag, w⟩

/-- Words at other places stay. -/
theorem word_put_of_ne (h : j ≠ i) :
    (b.put i w).cells.word (j * b.tag.width) b.tag.width =
      b.cells.word (j * b.tag.width) b.tag.width :=
  Segment.word_setWord_of_ne rfl h

/-- Within the list, one element changes. -/
theorem items_put_of_lt (h : i < b.count) :
    (b.put i w).items = b.items.set i (Item.mk b.tag w).kept := by
  have hcount : (b.put i w).count = b.count := by
    rw [count, size_put, tag_put, Nat.max_eq_left (lt_count_iff.1 h), count]
  refine ext_getElem? fun j => ?_
  rw [getElem?_items, hcount, tag_put, getElem?_set, getElem?_items]
  by_cases hji : j = i
  · subst hji
    rw [if_pos h, if_pos rfl, length_items, if_pos h, word_put_self]
    rfl
  · rw [if_neg (Ne.symm hji), word_put_of_ne hji]

/-- At the end of the list, there is one element more. -/
theorem items_put_end (h : b.size = i * b.tag.width) :
    (b.put i w).items = b.items ++ [(Item.mk b.tag w).kept] := by
  have hb : b.count = i := count_of_size h
  have hcount : (b.put i w).count = i + 1 := by
    rw [count, size_put, tag_put, h, Nat.max_eq_right (Nat.le_add_right _ _), ← Nat.succ_mul,
      Nat.mul_div_cancel _ b.tag.width_pos]
  refine ext_getElem? fun j => ?_
  rw [getElem?_items, hcount, tag_put, getElem?_append, length_items, getElem?_items, hb]
  rcases Nat.lt_trichotomy j i with hji | rfl | hij
  · rw [if_pos (by omega), if_pos hji, if_pos hji, word_put_of_ne (by omega)]
  · rw [if_pos (by omega), if_neg (by omega), Nat.sub_self, word_put_self]
    rfl
  · rw [if_neg (by omega), if_neg (by omega), getElem?_eq_none (by simp; omega)]

end Block

/-! ### Words of a block -/

theorem Segment.write_ne_underflow {s : Segment} {address word : UInt32} {width : Nat} :
    s.write address word width ≠ .error .underflow := by
  unfold Segment.write
  dsimp only
  by_cases hwidth : width = 0 ∨ 4 < width
  · simp [hwidth]
  · rw [if_neg hwidth]
    split <;> split <;> simp

namespace Heap

variable {h : Heap} {b : Block} {n i : Nat} {w : UInt32} {offset width : Nat}

theorem block_eq (hb : h.blocks[n]? = some b) : h.block n = b := by
  rw [block, Array.getD_eq_getD_getElem?, hb]
  rfl

theorem getElem?_set_self (hb : h.blocks[n]? = some b) (c : Block) :
    (h.blocks.setIfInBounds n c)[n]? = some c :=
  Array.getElem?_setIfInBounds_self_of_lt (Array.getElem?_eq_some_iff.1 hb).1

theorem set_self (hb : h.blocks[n]? = some b) : h.blocks.setIfInBounds n b = h.blocks := by
  refine Array.ext_getElem? fun j => ?_
  by_cases hj : n = j
  · rw [← hj, getElem?_set_self hb, hb]
  · rw [Array.getElem?_setIfInBounds_ne hj]

theorem getElem?_older {bs : Array Block} (hb : bs[n]? = some b) (c : Block) :
    (bs.push c)[n]? = some b := by
  obtain ⟨hn, hb⟩ := Array.getElem?_eq_some_iff.1 hb
  rw [Array.getElem?_push_lt hn, hb]

theorem set_newest (bs : Array Block) (b c : Block) :
    (bs.push b).setIfInBounds bs.size c = bs.push c := by
  refine Array.ext_getElem? fun j => ?_
  by_cases hj : bs.size = j
  · subst hj
    rw [Array.getElem?_setIfInBounds_self_of_lt (by simp), Array.getElem?_push_size]
  · rw [Array.getElem?_setIfInBounds_ne hj, Array.getElem?_push, Array.getElem?_push,
      if_neg (Ne.symm hj), if_neg (Ne.symm hj)]

section

variable (hb : h.blocks[n]? = some b)

include hb

/-- Reading at the offset of any index gives the element within reach. -/
theorem read_eq (i : Nat) :
    h.read n (i * b.tag.width) b.tag.width = if i % b.tag.reach < b.count then
      .ok (b.cells.word (i % b.tag.reach * b.tag.width) b.tag.width) else
      .error (.readOutside b.tag.width (i % b.tag.reach * b.tag.width + b.tag.width) b.size) := by
  have hpos := b.tag.width_pos
  have hle := b.tag.width_le
  unfold read
  rw [hb]
  dsimp only
  rw [Segment.read, toNat_offset]
  by_cases hlt : i % b.tag.reach < b.count
  · have hin : i % b.tag.reach * b.tag.width + b.tag.width ≤ b.cells.size := Block.lt_count_iff.1 hlt
    rw [if_neg (by omega), if_pos hlt]
  · rw [if_neg hlt, if_pos (.inr (.inr (Nat.lt_of_not_le (mt Block.lt_count_iff.2 hlt))))]

theorem read_element (hsize : b.size < 2 ^ 32) (hi : i < b.count) :
    h.read n (i * b.tag.width) b.tag.width =
      .ok (b.cells.word (i * b.tag.width) b.tag.width) := by
  have hin := Block.lt_count_iff.1 hi
  rw [read_eq hb, Tag.mod_reach (by omega), if_pos hi]

/-- A write into a block never fails, since the block grows first. -/
theorem write_eq (hpos : 0 < width) (hle : width ≤ 4) : h.write n w offset width =
      .ok ⟨h.blocks.setIfInBounds n (b.written w offset width)⟩ := by
  have hcut := Nat.mod_le offset (2 ^ 32)
  rw [← toNat_toUInt32_eq_mod] at hcut
  unfold write
  rw [hb]
  dsimp only
  rw [Segment.write, if_neg (by omega), Block.written]
  by_cases hend : offset.toUInt32 = endAddress
  · rw [if_pos hend, if_pos hend, if_pos hend]
    dsimp only
    rw [if_neg (Nat.not_lt.2 (Segment.le_size_grow _ _))]
    rfl
  · have hroom := b.cells.le_size_grow (offset + width)
    rw [if_neg hend, if_neg hend, if_neg hend]
    dsimp only
    rw [if_neg (by omega)]
    rfl

/-- A word that is written at a place of a list, at most at its end. -/
theorem write_element (hi : i * b.tag.width + 1 < 2 ^ 32) :
    h.write n w (i * b.tag.width) b.tag.width =
      .ok ⟨h.blocks.setIfInBounds n (b.put i w)⟩ := by
  have hput : b.written w (i * b.tag.width) b.tag.width = b.put i w :=
    congrArg (Block.mk b.tag) (Block.cells_written hi _)
  rw [write_eq hb b.tag.width_pos b.tag.width_le, hput]

end

/-- Reading and writing words never wants for items. -/
theorem read_ne_underflow : h.read n offset width ≠ .error .underflow := by
  unfold read
  cases h.blocks[n]? with
  | none => simp
  | some b =>
    dsimp only
    rw [Segment.read]
    split <;> simp

theorem write_ne_underflow : h.write n w offset width ≠ .error .underflow := by
  unfold write
  cases h.blocks[n]? with
  | none => simp
  | some b =>
    intro heq
    dsimp only at heq
    cases hw : (b.cells.grow (offset + width)).write offset.toUInt32 w width with
    | error t =>
      rw [hw] at heq
      cases heq
      exact Segment.write_ne_underflow hw
    | ok r =>
      rw [hw] at heq
      cases heq

end Heap

/-! ### Acts -/

namespace Act

variable {m : Machine} {b : Block} {x y : Item} {xs rest : List Item} {i n : Nat}
  {offset width : Nat} {t : Trap} {h : Heap} {bs : Array Block}

theorem run_block (n : Nat) (m : Machine) : block n m = (.ok (m.heap.block n), m) := rfl

theorem run_addBlock (t : Tag) (m : Machine) :
    addBlock t m = (.ok m.heap.size, { m with heap := m.heap.add t }) := rfl

theorem run_writeBlock {w : UInt32} (hw : m.heap.write n w offset width = .ok h) :
    writeBlock n w offset width m = (.ok (), { m with heap := h }) := by
  unfold writeBlock
  rw [run_get_bind, hw]
  rfl

theorem run_readBlock {w : UInt32} (hw : m.heap.read n offset width = .ok w) :
    readBlock n offset width m = (.ok w, m) := by
  unfold readBlock
  rw [run_get_bind, hw]
  rfl

theorem run_writeBlock_error {w : UInt32} (hw : m.heap.write n w offset width = .error t) :
    writeBlock n w offset width m = (.error (.failed t), m) := by
  unfold writeBlock
  rw [run_get_bind, hw]
  rfl

theorem run_readBlock_error (hw : m.heap.read n offset width = .error t) :
    readBlock n offset width m = (.error (.failed t), m) := by
  unfold readBlock
  rw [run_get_bind, hw]
  rfl

/-- An item at the end of the newest block. -/
theorem run_writeBlock_end (hheap : m.heap = ⟨bs.push b⟩) (htag : x.tag = b.tag)
    (hkept : x.kept = x) (hsize : b.size = i * b.tag.width) (hi : i * b.tag.width + 1 < 2 ^ 32) :
    ∃ b', b'.tag = b.tag ∧ b'.size = (i + 1) * b.tag.width ∧ b'.items = b.items ++ [x] ∧
      writeBlock bs.size x.word (i * b.tag.width) b.tag.width m =
        (.ok (), { m with heap := ⟨bs.push b'⟩ }) := by
  refine ⟨b.put i x.word, rfl, ?_, ?_, run_writeBlock ?_⟩
  · rw [Block.size_put, hsize, Nat.max_eq_right (Nat.le_add_right _ _), Nat.succ_mul]
  · rw [Block.items_put_end hsize, ← htag, hkept]
  · rw [hheap, Heap.write_element (h := ⟨bs.push b⟩) Array.getElem?_push_size hi]
    congr 2
    grind

/-- Further items of the tag of the newest block become its last elements. -/
theorem run_fillList (hheap : m.heap = ⟨bs.push b⟩) (hs : m.stack = xs ++ rest)
    (hxs : ∀ x ∈ xs, x.tag = b.tag ∧ x.kept = x) (hsize : b.size = i * b.tag.width)
    (hi : i + xs.length ≤ stackLimit) :
    ∃ b', b'.tag = b.tag ∧ b'.items = b.items ++ xs ∧
      fillList bs.size b.tag.width i xs.length m =
        (.ok (), { m with stack := rest, heap := ⟨bs.push b'⟩ }) := by
  induction xs generalizing m b i with
  | nil =>
    rw [nil_append] at hs
    refine ⟨b, rfl, by rw [append_nil], ?_⟩
    rw [← hs, ← hheap]
    rfl
  | cons x xs ih =>
    rw [length_cons, stackLimit] at hi
    obtain ⟨⟨htag, hkept⟩, hxs⟩ := forall_mem_cons.1 hxs
    have hone : i * b.tag.width + 1 < 2 ^ 32 := by
      have := Nat.mul_le_mul_left i b.tag.width_le
      omega
    obtain ⟨b₁, htag₁, hsize₁, hitems₁, hwrite⟩ :=
      run_writeBlock_end (m := { m with stack := xs ++ rest }) hheap htag hkept hsize hone
    obtain ⟨b', htag', hitems', hfill⟩ := ih (b := b₁) (i := i + 1)
      (m := { m with stack := xs ++ rest, heap := ⟨bs.push b₁⟩ }) rfl rfl (by rwa [htag₁])
      (by rw [htag₁, hsize₁]) (by rw [stackLimit]; omega)
    refine ⟨b', htag'.trans htag₁, by rw [hitems', hitems₁, append_assoc]; rfl, ?_⟩
    rw [htag₁] at hfill
    rw [length_cons, fillList, run_bind_ok (run_pop hs)]
    exact (run_bind_ok hwrite).trans hfill

/-- Items of one tag on top of the stack become the elements of a new block. -/
theorem run_buildList {t : Tag} (hs : m.stack = xs ++ rest) (hne : xs ≠ [])
    (hxs : ∀ x ∈ xs, x.tag = t ∧ x.kept = x) (hlen : m.stack.length ≤ stackLimit) :
    ∃ b, b.tag = t ∧ b.items = xs ∧ buildList xs.length m =
      (.ok (), { m with stack := .ofBlock m.heap.size :: rest, heap := ⟨m.heap.blocks.push b⟩ }) := by
  obtain ⟨x, xs, rfl⟩ := exists_cons_of_ne_nil hne
  obtain ⟨⟨rfl, hkept⟩, hxs⟩ := forall_mem_cons.1 hxs
  rw [hs, length_append, length_cons] at hlen
  obtain ⟨b₁, htag₁, hsize₁, hitems₁, hwrite⟩ :=
    run_writeBlock_end (m := { m with stack := xs ++ rest, heap := m.heap.add x.tag })
      (b := { tag := x.tag }) (x := x) (i := 0) rfl rfl hkept
      (Nat.zero_mul _).symm (by rw [Nat.zero_mul]; decide)
  obtain ⟨b, htag, hitems, hfill⟩ := run_fillList (i := 1) (b := b₁)
    (m := { m with stack := xs ++ rest, heap := ⟨m.heap.blocks.push b₁⟩ }) rfl rfl
    (by rwa [htag₁]) (by rw [htag₁, hsize₁]) (by omega)
  rw [htag₁] at hfill
  refine ⟨b, htag.trans htag₁, by rw [hitems, hitems₁, Block.items_empty]; rfl, ?_⟩
  rw [length_cons, buildList, run_bind_ok (run_pop hs), run_bind_ok (run_addBlock _ _)]
  rw [Nat.zero_mul] at hwrite
  refine (run_bind_ok hwrite).trans ((run_bind_ok hfill).trans (run_push ?_))
  change rest.length < stackLimit
  omega

/-- No items become an empty block. -/
theorem run_buildList_zero (hlen : m.stack.length < stackLimit) : buildList 0 m =
    (.ok (), { m with stack := .ofBlock m.heap.size :: m.stack
                      heap := ⟨m.heap.blocks.push {}⟩ }) :=
  run_push (m := { m with heap := m.heap.add .unassigned }) hlen

/-! ### Access and assignment -/

/-- Push the element at a place of the list on top of the stack. -/
def elementAt (i : Nat) : Act Unit := do
  let n := (← pop).block
  let tag := (← block n).tag
  let w ← readBlock n (i * tag.width) tag.width
  push ⟨tag, w⟩

/-- Change the element at a place of the list on top of the stack to the item below it. -/
def setElementAt (i : Nat) : Act Unit := do
  let n := (← pop).block
  let x ← pop
  let tag := (← block n).tag
  writeBlock n x.word (i * tag.width) tag.width

theorem element_eq (arg : UInt32) : element arg = index arg >>= elementAt := rfl

theorem setElement_eq (arg : UInt32) : setElement arg = index arg >>= setElementAt := rfl

/-- An argument that is not the mark for the stack is the index. -/
theorem run_index {arg : UInt32} (h : arg ≠ endAddress) : index arg m = (.ok arg.toNat, m) := by
  unfold index
  rw [if_neg (show ¬arg = 0xffffffff from h)]
  rfl

/-- The mark for the stack takes the index from there. -/
theorem run_index_top (hs : m.stack = x :: rest) :
    index endAddress m = (.ok x.word.toNat, { m with stack := rest }) := by
  unfold index
  rw [if_pos (show endAddress = 0xffffffff from rfl), run_bind_ok (run_pop hs)]
  rfl

theorem run_elementAt (hs : m.stack = x :: rest) (hb : m.heap.blocks[x.block]? = some b)
    (hsize : b.size < 2 ^ 32) (hi : b.items[i]? = some y) (hlen : rest.length < stackLimit) :
    elementAt i m = (.ok (), { m with stack := y :: rest }) := by
  rw [Block.getElem?_items] at hi
  split at hi
  · rename_i hlt
    cases hi
    have hread := run_readBlock (m := { m with stack := rest }) (Heap.read_element hb hsize hlt)
    unfold elementAt
    rw [run_bind_ok (run_pop hs), run_bind_ok (run_block _ _)]
    dsimp only
    rw [Heap.block_eq hb, run_bind_ok hread]
    exact run_push hlen
  · cases hi

/-- An element is assigned as the heap is written. -/
theorem run_setElementAt (hs : m.stack = x :: y :: rest)
    (hw : m.heap.write x.block y.word (i * (m.heap.block x.block).tag.width)
      (m.heap.block x.block).tag.width = .ok h) :
    setElementAt i m = (.ok (), { m with stack := rest, heap := h }) := by
  unfold setElementAt
  rw [run_bind_ok (run_pop hs), run_bind_ok (run_pop rfl), run_bind_ok (run_block _ _)]
  exact run_writeBlock (m := { m with stack := rest }) hw

theorem run_setElementAt_error (hs : m.stack = x :: y :: rest)
    (hw : m.heap.write x.block y.word (i * (m.heap.block x.block).tag.width)
      (m.heap.block x.block).tag.width = .error t) :
    setElementAt i m = (.error (.failed t), { m with stack := rest }) := by
  unfold setElementAt
  rw [run_bind_ok (run_pop hs), run_bind_ok (run_pop rfl), run_bind_ok (run_block _ _)]
  exact run_writeBlock_error (m := { m with stack := rest }) hw

/-- There is no element behind the end. -/
theorem run_elementAt_error (hs : m.stack = x :: rest)
    (hr : m.heap.read x.block (i * (m.heap.block x.block).tag.width)
      (m.heap.block x.block).tag.width = .error t) :
    elementAt i m = (.error (.failed t), { m with stack := rest }) := by
  unfold elementAt
  rw [run_bind_ok (run_pop hs), run_bind_ok (run_block _ _)]
  dsimp only
  rw [run_bind_error (run_readBlock_error (m := { m with stack := rest }) hr)]

end Act

end StackLang
