import StackLang.Proofs.ListBlock

/-!
# Cells of a list

Access and assignment of elements as instructions. The offset of an element in its block is the
index times the width of an element. It is cut to a word before it is compared with the size of
the block, so only as many elements as a word can tell apart are reached (`Tag.reach`), and an
index beyond them names an element again that has a smaller one.

* `Machine.execute_access` and `Machine.execute_access_outside`: what an access does with any
  index;
* `access_checked_iff`: when an access is bounds checked, that is, when it pushes the element of
  its index if there is one, and else stops the machine;
* `access_after_assignment`: in a list that is not too long, an assignment changes the element of
  its index and nothing else.
-/

namespace StackLang

open List Block

/-! ### Cells -/

theorem Tag.reach_of_width_one {t : Tag} (h : t.width = 1) : t.reach = 2 ^ 32 := by
  rw [reach, h, Nat.div_one]

theorem Tag.reach_of_width_four {t : Tag} (h : t.width = 4) : t.reach = 2 ^ 30 := by
  rw [reach, h]
  rfl

theorem Tag.reach_pos (t : Tag) : 0 < t.reach := by
  cases t <;> decide

/-- What a list keeps of a word is its remainder. -/
theorem kept_eq_mod (t : Tag) (w : UInt32) :
    (Item.mk t w).kept = ⟨t, (w.toNat % 2 ^ (8 * t.width)).toUInt32⟩ := by
  rw [Item.kept, Item.mk.injEq, and_iff_right rfl]
  refine UInt32.toNat_inj.1 ?_
  rw [toNat_toUInt32 (Nat.lt_of_le_of_lt (Nat.mod_le _ _) w.toNat_lt)]
  rcases t.width_eq_one_or with h | h
  · rw [if_pos h, h, UInt32.toNat_mod]
    rfl
  · rw [if_neg (h ▸ by decide), h, Nat.mod_eq_of_lt w.toNat_lt]

namespace Block

variable {b : Block} {i : Nat} {x : Item}

@[simp] theorem length_itemsRead (b : Block) : b.itemsRead.length = b.count := by
  simp [itemsRead]

/-- What is read of a list are its elements within reach, in their order and again from the first. -/
theorem getElem?_itemsRead (b : Block) (hi : i < b.count) :
    b.itemsRead[i]? = b.items[i % b.tag.reach]? := by
  have hle := Nat.mod_le i b.tag.reach
  rw [getElem?_items, if_pos (by omega), ← toNat_offset]
  simp [itemsRead, hi]

theorem mem_itemsRead_iff : x ∈ b.itemsRead ↔ x ∈ b.items.take b.tag.reach := by
  simp only [mem_iff_getElem?]
  constructor
  · rintro ⟨i, hx⟩
    have hi := (List.getElem?_eq_some_iff.1 hx).1
    rw [length_itemsRead] at hi
    refine ⟨i % b.tag.reach, ?_⟩
    rw [getElem?_take_of_lt (Nat.mod_lt _ b.tag.reach_pos), ← getElem?_itemsRead b hi, hx]
  · rintro ⟨i, hx⟩
    have hlt := (List.getElem?_eq_some_iff.1 hx).1
    rw [length_take, length_items] at hlt
    obtain ⟨hreach, hi⟩ := Nat.lt_min.1 hlt
    rw [getElem?_take_of_lt hreach] at hx
    exact ⟨i, by rw [getElem?_itemsRead b hi, Nat.mod_eq_of_lt hreach, hx]⟩

end Block

namespace Heap

variable {h : Heap} {b : Block} {n i : Nat} {x : Item}

theorem read_cell (hb : h.blocks[n]? = some b) (hx : b.items[i % b.tag.reach]? = some x) :
    x.tag = b.tag ∧ h.read n (i * b.tag.width) b.tag.width = .ok x.word := by
  rw [getElem?_items] at hx
  rw [read_eq hb]
  by_cases hlt : i % b.tag.reach < b.count
  · rw [if_pos hlt] at hx ⊢
    cases hx
    exact ⟨rfl, rfl⟩
  · rw [if_neg hlt] at hx
    cases hx

theorem read_itemsRead (hb : h.blocks[n]? = some b) (hx : b.itemsRead[i]? = some x) :
    x.tag = b.tag ∧ h.read n (i * b.tag.width) b.tag.width = .ok x.word := by
  have hi := (List.getElem?_eq_some_iff.1 hx).1
  rw [length_itemsRead] at hi
  exact read_cell hb ((getElem?_itemsRead b hi).symm.trans hx)

theorem read_cell_outside (hb : h.blocks[n]? = some b)
    (hx : b.items[i % b.tag.reach]? = none) : h.read n (i * b.tag.width) b.tag.width =
      .error (.readOutside b.tag.width (i % b.tag.reach * b.tag.width + b.tag.width) b.size) := by
  rw [List.getElem?_eq_none_iff, length_items] at hx
  rw [read_eq hb, if_neg (Nat.not_lt.2 hx)]

end Heap

/-! ### Instructions -/

/-- An instruction with this argument on this stack has the index `i`, and the rest of the stack
    for the other operands: the index is the argument, or the top of the stack if the argument is
    the mark for that. -/
inductive IndexFrom : UInt32 → List Item → UInt32 → List Item → Prop
  | argument {i : UInt32} (h : i ≠ endAddress) (s : List Item) : IndexFrom i s i s
  | top (x : Item) (s : List Item) : IndexFrom endAddress (x :: s) x.word s

namespace IndexFrom

variable {m : Machine} {arg i : UInt32} {s s' : List Item}

theorem run_index (h : IndexFrom arg s i s') (hs : m.stack = s) :
    Act.index arg m = (.ok i.toNat, { m with stack := s' }) := by
  cases h with
  | argument h =>
    rw [Act.run_index h, ← hs]
  | top x => exact Act.run_index_top hs

theorem length_le (h : IndexFrom arg s i s') : s'.length ≤ s.length := by
  cases h with
  | argument _ => exact Nat.le_refl _
  | top _ => exact Nat.le_succ _

end IndexFrom

namespace Act

variable {m : Machine} {b : Block} {list x v : Item} {rest : List Item} {arg i : UInt32}

/-- An access pushes the element within reach. -/
theorem run_element (hindex : IndexFrom arg m.stack i (list :: rest))
    (hlen : m.stack.length ≤ stackLimit) (hb : m.heap.blocks[list.block]? = some b)
    (hx : b.items[i.toNat % b.tag.reach]? = some x) :
    element arg m = (.ok (), { m with stack := x :: rest }) := by
  obtain ⟨htag, hread⟩ := Heap.read_cell hb hx
  have hroom : rest.length < stackLimit :=
    Nat.lt_of_succ_le (Nat.le_trans hindex.length_le hlen)
  rw [element_eq, run_bind_ok (hindex.run_index rfl), elementAt, run_bind_ok (run_pop rfl),
    run_bind_ok (run_block _ _)]
  dsimp only
  rw [Heap.block_eq hb, run_bind_ok (run_readBlock (m := { m with stack := rest }) hread), ← htag]
  exact run_push hroom

/-- An access where there is no element fails. -/
theorem run_element_outside (hindex : IndexFrom arg m.stack i (list :: rest))
    (hb : m.heap.blocks[list.block]? = some b) (hx : b.items[i.toNat % b.tag.reach]? = none) :
    ∃ stop, element arg m = (.error (.failed (.readOutside b.tag.width stop b.size)),
      { m with stack := rest }) := by
  have hread := Heap.read_cell_outside hb hx
  rw [← Heap.block_eq hb] at hread ⊢
  rw [element_eq, run_bind_ok (hindex.run_index rfl)]
  exact ⟨_, run_elementAt_error (m := { m with stack := list :: rest }) rfl hread⟩

/-- An assignment writes into the block. -/
theorem run_setElement (hindex : IndexFrom arg m.stack i (list :: v :: rest))
    (hb : m.heap.blocks[list.block]? = some b) (hi : i.toNat * b.tag.width + 1 < 2 ^ 32) :
    setElement arg m = (.ok (),
      { m with
        stack := rest
        heap := ⟨m.heap.blocks.setIfInBounds list.block (b.put i.toNat v.word)⟩ }) := by
  have hwrite := Heap.write_element (w := v.word) hb hi
  rw [← Heap.block_eq hb] at hwrite ⊢
  rw [setElement_eq, run_bind_ok (hindex.run_index rfl)]
  exact run_setElementAt (m := { m with stack := list :: v :: rest }) rfl hwrite

end Act

namespace Machine

variable {m : Machine} {b : Block} {list x v : Item} {rest : List Item} {arg i : UInt32}

theorem execute_access (hindex : IndexFrom arg m.stack i (list :: rest))
    (hlen : m.stack.length ≤ stackLimit) (hb : m.heap.blocks[list.block]? = some b)
    (hx : b.items[i.toNat % b.tag.reach]? = some x) :
    m.execute ⟨0x1A, arg⟩ = .next { m with pc := m.pc + 1, stack := x :: rest } :=
  execute_of_perform rfl
    (Act.run_element (m := m.onward) hindex hlen hb hx)

theorem execute_access_outside (hindex : IndexFrom arg m.stack i (list :: rest))
    (hb : m.heap.blocks[list.block]? = some b) (hx : b.items[i.toNat % b.tag.reach]? = none) :
    ∃ t m', m.execute ⟨0x1A, arg⟩ = .halted (.failed t) m' ∧ t.cause.1 = "MemoryViolation" := by
  obtain ⟨stop, hact⟩ := Act.run_element_outside (m := m.onward) hindex hb hx
  exact ⟨_, _, execute_of_failed rfl hact, rfl⟩

theorem execute_assignment (hindex : IndexFrom arg m.stack i (list :: v :: rest))
    (hb : m.heap.blocks[list.block]? = some b) (hi : i.toNat * b.tag.width + 1 < 2 ^ 32) :
    m.execute ⟨0x1B, arg⟩ = .next
      { m with
        pc := m.pc + 1
        stack := rest
        heap := ⟨m.heap.blocks.setIfInBounds list.block (b.put i.toNat v.word)⟩ } :=
  execute_of_perform rfl
    (Act.run_setElement (m := m.onward) hindex hb hi)

end Machine

/-! ### Bounds -/

namespace Machine

variable {m : Machine} {b : Block} {list : Item} {rest : List Item} {arg i : UInt32}

/-- The access to the element `i` of a block is bounds checked: it succeeds just if the block has
    this element, which is pushed then, and else it is a memory violation. -/
structure ChecksBounds (m : Machine) (arg : UInt32) (b : Block) (i : Nat) (rest : List Item) :
    Prop where
  succeeds_iff : (∃ m', m.execute ⟨0x1A, arg⟩ = .next m') ↔ i < b.count
  pushes : ∀ x, b.items[i]? = some x →
    m.execute ⟨0x1A, arg⟩ = .next { m with pc := m.pc + 1, stack := x :: rest }
  violates : b.count ≤ i →
    ∃ t m', m.execute ⟨0x1A, arg⟩ = .halted (.failed t) m' ∧ t.cause.1 = "MemoryViolation"

/-- What counts is whether there is an element of the index, and if so, that it is the one within
    reach. -/
theorem checksBounds_iff (hindex : IndexFrom arg m.stack i (list :: rest))
    (hlen : m.stack.length ≤ stackLimit) (hb : m.heap.blocks[list.block]? = some b) :
    m.ChecksBounds arg b i.toNat rest ↔
      b.items[i.toNat]? = b.items[i.toNat % b.tag.reach]? := by
  cases hx : b.items[i.toNat % b.tag.reach]? with
  | some x =>
    -- the element within reach is pushed, so it has to be the one of the index
    have hexec := execute_access hindex hlen hb hx
    constructor
    · intro h
      have hlt : i.toNat < b.items.length := by
        rw [length_items]
        exact h.succeeds_iff.1 ⟨_, hexec⟩
      have hpush := h.pushes _ (getElem?_eq_getElem hlt)
      rw [hexec, Transition.next.injEq, Machine.mk.injEq, List.cons.injEq] at hpush
      rw [getElem?_eq_getElem hlt, hpush.2.2.1.1]
    · intro hi
      have hlt : i.toNat < b.count := by
        rw [← length_items]
        exact (List.getElem?_eq_some_iff.1 hi).1
      refine ⟨iff_of_true ⟨_, hexec⟩ hlt, fun y hy => ?_, fun h => absurd hlt (Nat.not_lt.2 h)⟩
      rw [hi, Option.some_inj] at hy
      rw [hexec, hy]
  | none =>
    obtain ⟨t, m', hexec, hcause⟩ := execute_access_outside hindex hb hx
    have hfails : ¬∃ m', m.execute ⟨0x1A, arg⟩ = .next m' := by
      rintro ⟨_, h⟩
      rw [hexec] at h
      cases h
    rw [List.getElem?_eq_none_iff, length_items]
    constructor
    · exact fun h => Nat.not_lt.1 (mt h.succeeds_iff.2 hfails)
    · intro hi
      refine ⟨iff_of_false hfails (Nat.not_lt.2 hi), fun y hy => ?_, fun _ => ⟨t, m', hexec, hcause⟩⟩
      rw [getElem?_eq_none (by rwa [length_items])] at hy
      cases hy

end Machine

/-- An access is bounds checked if the elements are bytes or the index is below `2 ^ 30`. If it is
    not, then just if the smaller index within reach happens to name an equal element, or none if
    there is none. -/
theorem access_checked_iff {m : Machine} {b : Block} {list : Item} {rest : List Item}
    {arg i : UInt32} (hindex : IndexFrom arg m.stack i (list :: rest))
    (hlen : m.stack.length ≤ stackLimit) (hb : m.heap.blocks[list.block]? = some b) :
    m.ChecksBounds arg b i.toNat rest ↔ b.tag.width = 1 ∨ i.toNat < 2 ^ 30 ∨
      b.items[i.toNat]? = b.items[i.toNat % 2 ^ 30]? := by
  rw [Machine.checksBounds_iff hindex hlen hb]
  rcases b.tag.width_eq_one_or with hw | hw
  · -- an index is a word, so it is always within reach
    rw [Tag.reach_of_width_one hw, Nat.mod_eq_of_lt i.toNat_lt]
    exact iff_of_true rfl (.inl hw)
  · rw [Tag.reach_of_width_four hw]
    by_cases hi : i.toNat < 2 ^ 30
    · rw [Nat.mod_eq_of_lt hi]
      exact iff_of_true rfl (.inr (.inl hi))
    · rw [or_iff_right (by omega), or_iff_right hi]

/-- A machine with the list of seven, eight and nine on its stack. -/
def threeIntegers : Machine :=
  { stack := [.ofBlock 0], heap := ⟨#[⟨.int, ⟨12, #[7, 0, 0, 0, 8, 0, 0, 0, 9]⟩⟩]⟩ }

/-- The index `2 ^ 30 + 3` is not within reach, but three is no index of the list, either. -/
theorem access_checked_far :
    threeIntegers.ChecksBounds 1073741827 (threeIntegers.heap.block 0) 1073741827 [] := by
  have hindex : IndexFrom 1073741827 threeIntegers.stack 1073741827 [.ofBlock 0] :=
    .argument (by decide) _
  exact (access_checked_iff hindex (by decide) rfl).2 (.inr (.inr (by decide)))

/-- With the index `2 ^ 30 + 2` the last element of three is pushed. -/
theorem access_unchecked_far : ¬(2 ^ 30 + 2 < (threeIntegers.heap.block 0).count) ∧
    threeIntegers.execute ⟨0x1A, 1073741826⟩ =
      .next { threeIntegers with pc := 1, stack := [⟨.int, 9⟩] } :=
  ⟨by decide, rfl⟩

/-! ### Assignment -/

/-- In a list of less than `2 ^ 31` bytes, an assignment to an element is seen by the accesses to
    this element, up to the bytes that it has room for, and by no others. The block keeps its size
    and its tag, and nothing else changes but that the operands are taken. -/
theorem access_after_assignment {m : Machine} {b : Block} {list v : Item} {rest : List Item}
    {arg i : UInt32} {n : Nat} (hindex : IndexFrom arg m.stack i (list :: v :: rest))
    (hb : m.heap.blocks[list.block]? = some b) (hsize : b.size = n * b.tag.width)
    (hn : n * b.tag.width < 2 ^ 31) (hi : i.toNat < n) :
    ∃ h b', m.execute ⟨0x1B, arg⟩ =
        .next { m with pc := m.pc + 1, stack := rest, heap := h } ∧
      h.blocks[list.block]? = some b' ∧ b'.size = b.size ∧ b'.tag = b.tag ∧
      h.size = m.heap.size ∧ (∀ k, k ≠ list.block → h.blocks[k]? = m.heap.blocks[k]?) ∧
      ∀ (m₁ : Machine) (arg₁ j : UInt32) (list₁ : Item) (rest₁ : List Item),
        m₁.heap = m.heap → IndexFrom arg₁ m₁.stack j (list₁ :: rest₁) →
        m₁.stack.length ≤ stackLimit → list₁.block = list.block → j.toNat < n →
        ∃ x, m₁.execute ⟨0x1A, arg₁⟩ = .next { m₁ with pc := m₁.pc + 1, stack := x :: rest₁ } ∧
          { m₁ with heap := h }.execute ⟨0x1A, arg₁⟩ = .next
            { m₁ with
              pc := m₁.pc + 1
              stack := (if i = j then
                ⟨b.tag, (v.word.toNat % 2 ^ (8 * b.tag.width)).toUInt32⟩ else x) :: rest₁
              heap := h } := by
  have hcount : b.count = n := Block.count_of_size hsize
  have hlist : list.block < m.heap.blocks.size := (Array.getElem?_eq_some_iff.1 hb).1
  have hoffset : i.toNat * b.tag.width + 1 < 2 ^ 32 := by
    have := Nat.mul_le_mul_right b.tag.width (Nat.le_of_lt hi)
    omega
  have hb' : (m.heap.blocks.setIfInBounds list.block (b.put i.toNat v.word))[list.block]? =
      some (b.put i.toNat v.word) := Array.getElem?_setIfInBounds_self_of_lt hlist
  refine ⟨_, _, Machine.execute_assignment hindex hb hoffset, hb', ?_, rfl,
    Array.size_setIfInBounds, fun k hk => Array.getElem?_setIfInBounds_ne (Ne.symm hk), ?_⟩
  · rw [Block.size_put]
    exact Nat.max_eq_left (Block.lt_count_iff.1 (hcount ▸ hi))
  · intro m₁ arg₁ j list₁ rest₁ hheap hindex₁ hlen hsame hj
    -- all indices of the list are within reach
    have hreach : j.toNat % b.tag.reach = j.toNat := by
      have := Nat.mul_le_mul_right b.tag.width (Nat.le_of_lt hj)
      exact Tag.mod_reach (by omega)
    have hlt : j.toNat < b.items.length := by rw [Block.length_items, hcount]; exact hj
    have hold := List.getElem?_eq_getElem hlt
    have hnew : (b.put i.toNat v.word).items[j.toNat]? = some (if i = j then
        ⟨b.tag, (v.word.toNat % 2 ^ (8 * b.tag.width)).toUInt32⟩ else b.items[j.toNat]) := by
      rw [Block.items_put_of_lt (hcount ▸ hi), List.getElem?_set, kept_eq_mod, hold]
      by_cases hij : i = j
      · subst hij
        rw [if_pos rfl, if_pos hlt, if_pos rfl]
      · rw [if_neg (mt UInt32.toNat_inj.1 hij), if_neg hij]
    refine ⟨b.items[j.toNat], ?_, ?_⟩
    · exact Machine.execute_access hindex₁ hlen (by rw [hheap, hsame, hb]) (by rw [hreach, hold])
    · refine Machine.execute_access (m := { m₁ with heap := _ }) hindex₁ hlen
        (by rw [hsame]; exact hb') ?_
      rw [Block.tag_put, hreach, hnew]

/-- A machine with the bytes seven, eight and nine, and 300 to be assigned to one of them. -/
def byteList : Machine :=
  { stack := [.ofBlock 0, ⟨.int, 300⟩], heap := ⟨#[⟨.byte, ⟨3, #[7, 8, 9]⟩⟩]⟩ }

/-- A byte has room for the remainder of 300. -/
theorem access_after_assignment_byteList :
    ∃ h, byteList.execute ⟨0x1B, 1⟩ = .next { byteList with pc := 1, stack := [], heap := h } ∧
      ∀ j : UInt32, j.toNat < 3 →
        ∃ x, { byteList with stack := [⟨.int, j⟩, .ofBlock 0] }.execute ⟨0x1A, 0xffffffff⟩ =
            .next { byteList with pc := 1, stack := [x] } ∧
          { byteList with stack := [⟨.int, j⟩, .ofBlock 0], heap := h }.execute ⟨0x1A, 0xffffffff⟩ =
            .next { byteList with pc := 1, stack := [if 1 = j then ⟨.byte, 44⟩ else x], heap := h } := by
  obtain ⟨h, -, hset, -, -, -, -, -, haccess⟩ := access_after_assignment (m := byteList)
    (b := byteList.heap.block 0) (i := 1) (n := 3) (.argument (by decide) _) rfl rfl (by decide)
    (by decide)
  exact ⟨h, hset, fun j hj => haccess { byteList with stack := [⟨.int, j⟩, .ofBlock 0] } _ j
    (.ofBlock 0) [] rfl (.top ⟨.int, j⟩ _) (show 2 ≤ stackLimit by decide) rfl hj⟩

end StackLang
