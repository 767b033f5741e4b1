import StackLang.Proofs.ListCell

/-!
# Adding elements to a list

An item is added to a list by a write at the end of its block. Two things come from elsewhere than
the block. How many bytes are written is said by the tag of the reference to the list, not by that
of the elements. And where they are written is a word, so behind `2 ^ 32` bytes the write goes to
the front of the block, and what the block shows at its end are the bytes that were there.

* `Block.extended`: the block after a write at its end, whatever its size is;
* `Block.getElem?_items_extended`: its elements if the width is that of the elements;
* `item_appended_iff`: when the item, and nothing else, is added to the list.
-/

namespace StackLang

theorem wordInt_eq_ite (w : UInt32) : wordInt w =
    if 2 * w.toNat < 2 ^ 32 then (w.toNat : Int) else w.toNat - (2 ^ 32 : Nat) :=
  BitVec.toInt_eq_toNat_cond _

/-- The number of a word counts up to `2 ^ 31`. -/
theorem wordInt_toUInt32_eq_iff {c n : Nat} :
    wordInt c.toUInt32 = n ↔ c % 2 ^ 32 = n ∧ n < 2 ^ 31 := by
  have hnat := toNat_toUInt32_eq_mod c
  have hlt := c.toUInt32.toNat_lt
  -- from `2 ^ 31` on the number of a word is negative
  rw [wordInt_eq_ite, ← hnat]
  split <;> omega

/-! ### Writing at the end -/

theorem Segment.size_grow (s : Segment) {n : Nat} (h : s.size ≤ n) : (s.grow n).size = n :=
  Nat.max_eq_right h

theorem Segment.grow_grow (s : Segment) {n k : Nat} (h : n ≤ k) : (s.grow n).grow k = s.grow k := by
  have hmax : max (max s.size n) k = max s.size k := by omega
  exact congrArg (Segment.mk · s.bytes) hmax

namespace Block

variable {b : Block} {w : UInt32} {width n i : Nat}

/-- The block after a word of some bytes has been written at its end. If the size as a word is the
    mark for the end, then at the end of what has been made larger by then. -/
def extended (b : Block) (w : UInt32) (width : Nat) : Block :=
  if b.size.toUInt32 = endAddress then
    { b with cells := (b.cells.grow (b.size + width + width)).setWord (b.size + width) w width }
  else
    { b with cells := (b.cells.grow (b.size + width)).setWord b.size.toUInt32.toNat w width }

/-- The mark stands for the end of a block that has grown already, and lets it grow once more. -/
theorem written_size (b : Block) (w : UInt32) (width : Nat) :
    b.written w b.size width = b.extended w width := by
  have hgrow := b.cells.size_grow (Nat.le_add_right b.size width)
  rw [written, extended, hgrow, Segment.grow_grow _ (Nat.le_add_right _ _)]
  by_cases hend : b.size.toUInt32 = endAddress
  · rw [if_pos hend, if_pos hend]
  · rw [if_neg hend, if_neg hend]

@[simp] theorem tag_extended (b : Block) (w : UInt32) (width : Nat) :
    (b.extended w width).tag = b.tag := by
  unfold extended
  split <;> rfl

theorem size_extended (h : b.size.toUInt32 ≠ endAddress) :
    (b.extended w width).size = b.size + width := by
  rw [extended, if_neg h, size, Segment.size_setWord, Segment.size_grow _ (Nat.le_add_right _ _)]

section

variable (hsize : b.size = n * b.tag.width)

include hsize

/-- A list that is not too long does not have the mark for a size. -/
theorem toUInt32_size_ne (hn : n + 1 < 2 ^ 32) : b.size.toUInt32 ≠ endAddress := by
  refine mt toUInt32_eq_endAddress_iff.1 ?_
  rcases b.tag.width_eq_one_or with hw | hw
  · rw [hw] at hsize
    omega
  · rw [hw] at hsize
    omega

/-- The elements after a write of the width of an element. The one within reach of the end has
    been written, and the others, also the new one if it is not the same, are what they were. -/
theorem getElem?_items_extended (hn : n + 1 < 2 ^ 32) (i : Nat) :
    (b.extended w b.tag.width).items[i]? = if i ≤ n then
      some (if i = n % b.tag.reach then (Item.mk b.tag w).kept
        else ⟨b.tag, b.cells.word (i * b.tag.width) b.tag.width⟩) else none := by
  have hne := toUInt32_size_ne hsize hn
  have hcount : (b.extended w b.tag.width).count = n + 1 := by
    rw [count, size_extended hne, tag_extended, hsize, ← Nat.succ_mul,
      Nat.mul_div_cancel _ b.tag.width_pos]
  -- a block that grows shows more of its bytes, so only the write changes any
  have hcells : (b.extended w b.tag.width).cells =
      (b.cells.grow (b.size + b.tag.width)).setWord (n % b.tag.reach * b.tag.width) w
        b.tag.width := by
    rw [extended, if_neg hne, ← toNat_offset, hsize]
  rw [getElem?_items, hcount, tag_extended, hcells]
  by_cases hi : i ≤ n
  · rw [if_pos (Nat.lt_succ_of_le hi), if_pos hi, Option.some_inj]
    by_cases hin : i = n % b.tag.reach
    · rw [if_pos hin, hin]
      exact congrArg (Item.mk b.tag) (word_setWord_kept _ _ ⟨b.tag, w⟩)
    · rw [if_neg hin]
      exact congrArg (Item.mk b.tag) (Segment.word_setWord_of_ne rfl hin)
  · rw [if_neg (by omega), if_neg hi]

/-- There is one element more if the width is that of the elements. -/
theorem wordInt_count_extended_iff {t : Tag} :
    wordInt (b.extended w t.width).count.toUInt32 = (n + 1 : Nat) ↔
      n + 1 < 2 ^ 31 ∧ t.width = b.tag.width := by
  rw [wordInt_toUInt32_eq_iff, and_comm]
  refine and_congr_right fun hn => ?_
  rw [count, tag_extended, size_extended (toUInt32_size_ne hsize (by omega)), hsize]
  rcases b.tag.width_eq_one_or with hb | hb
  · rcases t.width_eq_one_or with ht | ht
    · rw [hb, ht]
      omega
    · rw [hb, ht]
      omega
  · rcases t.width_eq_one_or with ht | ht
    · rw [hb, ht]
      omega
    · rw [hb, ht]
      omega

/-- The elements stay and the item is added behind them. -/
theorem items_extended_iff {x : Item} (hn : n < 2 ^ 31) (htag : x.tag = b.tag) :
    ((∀ i < n, (b.extended x.word b.tag.width).items[i]? = b.items[i]?) ∧
      (b.extended x.word b.tag.width).items[n]? = some x) ↔
      x.kept = x ∧ (n < b.tag.reach ∨ b.items[n % b.tag.reach]? = some x ∧
        b.cells.word (n * b.tag.width) b.tag.width = x.word) := by
  have hcount : b.count = n := count_of_size hsize
  have hx : (Item.mk b.tag x.word).kept = x.kept := by rw [← htag]
  simp only [getElem?_items_extended hsize (by omega : n + 1 < 2 ^ 32), getElem?_items, hcount, hx,
    Nat.le_refl, if_true, Option.some_inj]
  by_cases hreach : n < b.tag.reach
  · have hsame : ∀ i < n, (if i ≤ n then some (if i = n % b.tag.reach then x.kept
        else ⟨b.tag, b.cells.word (i * b.tag.width) b.tag.width⟩) else none) =
        if i < n then some ⟨b.tag, b.cells.word (i * b.tag.width) b.tag.width⟩ else none := by
      intro i hi
      rw [Nat.mod_eq_of_lt hreach, if_pos (Nat.le_of_lt hi), if_pos hi, if_neg (Nat.ne_of_lt hi)]
    rw [and_iff_right hsame, Nat.mod_eq_of_lt hreach, if_pos rfl, and_iff_left (.inl hreach)]
  · -- the element within reach is another one than the new one
    have hr : n % b.tag.reach < n :=
      Nat.lt_of_lt_of_le (Nat.mod_lt _ b.tag.reach_pos) (Nat.le_of_not_lt hreach)
    have hkept : x.kept = x := by
      rcases b.tag.width_eq_one_or with hw | hw
      · rw [Tag.reach_of_width_one hw] at hreach
        omega
      · rw [Item.kept, htag, hw]
        exact congrArg (Item.mk · x.word) htag.symm
    rw [if_neg (Nat.ne_of_gt hr), and_iff_right hkept, or_iff_right hreach, if_pos hr,
      Option.some_inj, hkept]
    refine and_congr ⟨fun h => ?_, fun h i hi => ?_⟩ ?_
    · have := h _ hr
      rw [if_pos (Nat.le_of_lt hr), if_pos rfl, if_pos hr, Option.some_inj] at this
      exact this.symm
    · rw [if_pos (Nat.le_of_lt hi), if_pos hi, Option.some_inj]
      by_cases hir : i = n % b.tag.reach
      · rw [if_pos hir, hir, h]
      · rw [if_neg hir]
    · rw [← htag]
      exact ⟨congrArg Item.word, congrArg (Item.mk x.tag)⟩

end

end Block

theorem Heap.write_end {h : Heap} {b : Block} {n width : Nat} {w : UInt32}
    (hb : h.blocks[n]? = some b) (hpos : 0 < width) (hle : width ≤ 4) :
    h.write n w b.size width = .ok ⟨h.blocks.setIfInBounds n (b.extended w width)⟩ := by
  rw [write_eq hb hpos hle, Block.written_size]

/-! ### Instructions -/

namespace Act

variable {m : Machine} {b : Block} {list x : Item} {rest : List Item}

/-- Add an item to a list, both taken from the stack. -/
def appendTo (list x : Item) : Act Unit := do
  let b ← block list.block
  if x.tag ≠ b.tag then fail .unknown
  writeBlock list.block x.word b.size list.tag.width

theorem run_append_eq (hs : m.stack = list :: x :: rest) :
    append m = appendTo list x { m with stack := rest } := by
  unfold append
  rw [run_bind_ok (run_pop hs), run_bind_ok (run_pop rfl)]
  rfl

theorem run_appendTo (hb : m.heap.blocks[list.block]? = some b) (htag : x.tag = b.tag) :
    appendTo list x m = (.ok (),
      { m with
        heap := ⟨m.heap.blocks.setIfInBounds list.block (b.extended x.word list.tag.width)⟩ }) := by
  unfold appendTo
  rw [run_bind_ok (run_block _ _), Heap.block_eq hb, if_neg (not_not_intro htag)]
  exact run_writeBlock (Heap.write_end hb list.tag.width_pos list.tag.width_le)

/-- An item of another tag than that of the list is refused. -/
theorem run_appendTo_of_ne (hb : m.heap.blocks[list.block]? = some b) (htag : x.tag ≠ b.tag) :
    appendTo list x m = (.error (.failed .unknown), m) := by
  unfold appendTo
  rw [run_bind_ok (run_block _ _), Heap.block_eq hb, if_pos htag]
  rfl

theorem run_size (hs : m.stack = list :: rest) (hlen : m.stack.length ≤ stackLimit)
    (hb : m.heap.blocks[list.block]? = some b) :
    size m = (.ok (), { m with stack := ⟨.int, b.count.toUInt32⟩ :: rest }) := by
  unfold size
  rw [run_bind_ok (run_pop hs), run_bind_ok (run_block _ _)]
  dsimp only
  rw [Heap.block_eq hb]
  refine run_push (m := { m with stack := rest }) ?_
  rw [hs] at hlen
  exact hlen

end Act

namespace Machine

variable {m : Machine} {b : Block} {list x : Item} {rest : List Item} {n : Nat}

theorem execute_append (hs : m.stack = list :: x :: rest)
    (hb : m.heap.blocks[list.block]? = some b) (htag : x.tag = b.tag) :
    m.execute ⟨0xFF, 9⟩ = .next
      { m with
        pc := m.pc + 1
        stack := rest
        heap := ⟨m.heap.blocks.setIfInBounds list.block (b.extended x.word list.tag.width)⟩ } :=
  execute_of_perform rfl
    ((Act.run_append_eq (m := m.onward) hs).trans (Act.run_appendTo hb htag))

theorem execute_size (hs : m.stack = list :: rest) (hlen : m.stack.length ≤ stackLimit)
    (hb : m.heap.blocks[list.block]? = some b) : m.execute ⟨0xFF, 8⟩ = .next
      { m with pc := m.pc + 1, stack := ⟨.int, b.count.toUInt32⟩ :: rest } :=
  execute_of_perform rfl
    (Act.run_size (m := m.onward) hs hlen hb)

/-- The append that the machine is about to execute adds the item to a list of `n` elements: these
    stay, the item is the element behind them, and the size of the list is then `n + 1`. Other
    blocks stay, and nothing else changes but that the operands are taken. -/
def AppendsItem (m : Machine) (list x : Item) (rest : List Item) (b : Block) (n : Nat) : Prop :=
  ∃ h b', m.execute ⟨0xFF, 9⟩ = .next { m with pc := m.pc + 1, stack := rest, heap := h } ∧
    h.blocks[list.block]? = some b' ∧ (∀ k, k ≠ list.block → h.blocks[k]? = m.heap.blocks[k]?) ∧
    (∀ i < n, b'.items[i]? = b.items[i]?) ∧ b'.items[n]? = some x ∧
    ∀ (m₁ : Machine) (list₁ : Item) (rest₁ : List Item), m₁.heap = h →
      m₁.stack = list₁ :: rest₁ → m₁.stack.length ≤ stackLimit → list₁.block = list.block →
      ∃ w, m₁.execute ⟨0xFF, 8⟩ = .next { m₁ with pc := m₁.pc + 1, stack := ⟨.int, w⟩ :: rest₁ } ∧
        wordInt w = (n + 1 : Nat)

/-- What counts is the block that is left. -/
theorem appendsItem_iff (hs : m.stack = list :: x :: rest)
    (hb : m.heap.blocks[list.block]? = some b) (htag : x.tag = b.tag) :
    m.AppendsItem list x rest b n ↔
      (∀ i < n, (b.extended x.word list.tag.width).items[i]? = b.items[i]?) ∧
      (b.extended x.word list.tag.width).items[n]? = some x ∧
      wordInt (b.extended x.word list.tag.width).count.toUInt32 = (n + 1 : Nat) := by
  have hlist : list.block < m.heap.blocks.size := (Array.getElem?_eq_some_iff.1 hb).1
  have hexec := execute_append hs hb htag
  have hb' : (m.heap.blocks.setIfInBounds list.block (b.extended x.word list.tag.width))[list.block]? =
      some (b.extended x.word list.tag.width) := Array.getElem?_setIfInBounds_self_of_lt hlist
  constructor
  · rintro ⟨h, b', hexec', hblock, -, hitems, hlast, hcount⟩
    rw [hexec, Transition.next.injEq, Machine.mk.injEq] at hexec'
    obtain rfl := hexec'.2.2.2.2.1
    obtain rfl := Option.some.inj (hb'.symm.trans hblock)
    refine ⟨hitems, hlast, ?_⟩
    -- a machine with nothing but the list on its stack asks for the size
    have hone : [list].length ≤ stackLimit := show 1 ≤ stackLimit by decide
    obtain ⟨w, hsize, hw⟩ := hcount { stack := [list], heap := ⟨_⟩ } list [] rfl rfl hone rfl
    rw [execute_size rfl hone hb', Transition.next.injEq, Machine.mk.injEq, List.cons.injEq,
      Item.mk.injEq] at hsize
    rw [hsize.2.2.1.1.2, hw]
  · rintro ⟨hitems, hlast, hcount⟩
    refine ⟨_, _, hexec, hb', fun k hk => Array.getElem?_setIfInBounds_ne (Ne.symm hk), hitems, hlast,
      fun m₁ list₁ rest₁ hheap hs₁ hlen hsame => ⟨_, execute_size hs₁ hlen ?_, hcount⟩⟩
    rw [hheap, hsame]
    exact hb'

end Machine

/-- An item is added to a list if and only if the reference has the width of the elements, the
    item is one that the list can hold, and there are fewer elements then than an integer can
    count; and if moreover the end of the list is within reach of a word, or the element that is
    written instead is the item already and so is what lies behind the end. -/
theorem item_appended_iff {m : Machine} {b : Block} {list x : Item} {rest : List Item} {n : Nat}
    (hs : m.stack = list :: x :: rest) (hb : m.heap.blocks[list.block]? = some b)
    (hsize : b.size = n * b.tag.width) (htag : x.tag = b.tag) :
    m.AppendsItem list x rest b n ↔
      list.tag.width = b.tag.width ∧ x.kept = x ∧ n + 1 < 2 ^ 31 ∧
        (n < b.tag.reach ∨ b.items[n % b.tag.reach]? = some x ∧
          b.cells.word (n * b.tag.width) b.tag.width = x.word) := by
  rw [Machine.appendsItem_iff hs hb htag, ← and_assoc]
  constructor
  · rintro ⟨hitems, hcount⟩
    obtain ⟨hn, hwidth⟩ := (Block.wordInt_count_extended_iff hsize).1 hcount
    rw [hwidth] at hitems
    obtain ⟨hkept, hreach⟩ := (Block.items_extended_iff hsize (by omega) htag).1 hitems
    exact ⟨hwidth, hkept, hn, hreach⟩
  · rintro ⟨hwidth, hkept, hn, hreach⟩
    refine ⟨?_, (Block.wordInt_count_extended_iff hsize).2 ⟨hn, hwidth⟩⟩
    rw [hwidth]
    exact (Block.items_extended_iff hsize (by omega) htag).2 ⟨hkept, hreach⟩

/-- A reference has the width of integers. -/
theorem item_appended_threeIntegers :
    { threeIntegers with stack := [.ofBlock 0, ⟨.int, 5⟩] }.AppendsItem (.ofBlock 0) ⟨.int, 5⟩ []
      (threeIntegers.heap.block 0) 3 :=
  (item_appended_iff rfl rfl rfl rfl).2 ⟨rfl, rfl, by decide, .inl (by decide)⟩

/-- A machine with a list of the byte one, and zero to be added to it. -/
def oneByte : Machine :=
  { stack := [.ofBlock 0, ⟨.byte, 0⟩], heap := ⟨#[⟨.byte, ⟨1, #[1]⟩⟩]⟩ }

/-- Four bytes are added to a list of one byte. -/
theorem item_appended_fourfold : ∃ b : Block, oneByte.execute ⟨0xFF, 9⟩ =
    .next { oneByte with pc := 1, stack := [], heap := ⟨#[b]⟩ } ∧ b.tag = .byte ∧ b.count = 5 :=
  ⟨⟨.byte, ⟨5, #[1, 0, 0, 0, 0]⟩⟩, rfl, rfl, rfl⟩

end StackLang
