import StackLang.Proofs.ListAppend
import StackLang.Proofs.RoundTrip

/-!
# What can be seen of a block

A block shows its tag, its size, and its bytes up to its size. What lies behind is not seen, as
long as it is not uncovered by a block that grows without being written there.

* `Block.Holds.alike`: two blocks that hold the same list show the same;
* `Act.Alike`: acts that cannot tell two machines apart which differ only in what lies behind the
  end of one block. The functions that print, measure and slice lists are such, and so is the one
  that adds an item, as long as the end of the block is a word (`Act.append_alike`);
* `Block.Holds.seenAs_iff`: for how long a block that holds a list is seen as that list by them.
-/

namespace StackLang

open Act Segment

/-! ### Segments -/

namespace Segment

variable {s s' : Segment} {i j k width : Nat} {w : UInt32}

/-- A byte of a segment that was written to is the one written, or the one from before. -/
theorem byte_setWord_congr (h : s.byte j = s'.byte j ∨ i ≤ j ∧ j < i + width) :
    (s.setWord i w width).byte j = (s'.setWord i w width).byte j := by
  induction width generalizing s s' i w with
  | zero =>
    rcases h with h | h
    · exact h
    · omega
  | succ width ih =>
    rw [setWord, setWord]
    -- the first byte is the same from now on
    refine ih ?_
    rw [byte_setByte, byte_setByte]
    by_cases hji : j = i
    · exact .inl (by rw [if_pos hji, if_pos hji])
    · rw [if_neg hji, if_neg hji]
      exact h.imp_right fun h => by omega

/-- Words of the same bytes are the same, wherever they lie. -/
theorem word_eq_of_bytes (h : ∀ r < width, s.byte (i + r) = s'.byte (j + r)) :
    s.word i width = s'.word j width := by
  induction width generalizing i j with
  | zero => rfl
  | succ width ih =>
    have hfirst := h 0 (Nat.succ_pos _)
    rw [word, word, ih fun r hr => ?_]
    · rw [Nat.add_zero, Nat.add_zero] at hfirst
      rw [hfirst]
    · have := h (r + 1) (Nat.succ_lt_succ hr)
      rwa [Nat.add_comm r, ← Nat.add_assoc, ← Nat.add_assoc] at this

/-- And a word says what its bytes are. -/
theorem bytes_of_word {t : Tag} (h : s.word i t.width = s'.word i t.width) :
    ∀ r < t.width, s.byte (i + r) = s'.byte (i + r) := by
  rcases t.width_eq_one_or with ht | ht
  · rw [ht] at h ⊢
    intro r hr
    obtain rfl : r = 0 := by omega
    have hbyte : (s.byte i).toUInt32 = (s'.byte i).toUInt32 := by simpa [word] using h
    simpa using congrArg UInt32.toUInt8 hbyte
  · rw [ht] at h ⊢
    rw [word_eq, word_eq] at h
    have hbytes := congrArg wordBytes h
    rw [wordBytes_wordOf, wordBytes_wordOf] at hbytes
    simp only [List.cons.injEq, and_true] at hbytes
    obtain ⟨h₀, h₁, h₂, h₃⟩ := hbytes
    intro r hr
    obtain rfl | rfl | rfl | rfl : r = 0 ∨ r = 1 ∨ r = 2 ∨ r = 3 := by omega
    · exact h₀
    · exact h₁
    · exact h₂
    · exact h₃

end Segment

/-! ### Blocks -/

namespace Block

variable {b b' : Block} {t : Tag} {xs : List Item} {w : UInt32} {width i : Nat}

/-- The blocks show the same. -/
structure Alike (b b' : Block) : Prop where
  tag : b'.tag = b.tag
  size : b'.size = b.size
  byte : ∀ i < b.size, b'.cells.byte i = b.cells.byte i

namespace Alike

theorem refl (b : Block) : Alike b b := ⟨rfl, rfl, fun _ _ => rfl⟩

section

variable (h : Alike b b')

include h

theorem count : b'.count = b.count := by
  rw [Block.count, Block.count, h.size, h.tag]

theorem word (hi : i + width ≤ b.size) : b'.cells.word i width = b.cells.word i width :=
  word_congr fun j _ hj => h.byte j (by omega)

theorem items : b'.items = b.items := by
  refine List.ext_getElem? fun i => ?_
  rw [getElem?_items, getElem?_items, h.count, h.tag]
  by_cases hi : i < b.count
  · rw [if_pos hi, if_pos hi, h.word (lt_count_iff.1 hi)]
  · rw [if_neg hi, if_neg hi]

theorem itemsRead : b'.itemsRead = b.itemsRead := by
  rw [Block.itemsRead, Block.itemsRead, h.count, h.tag]
  refine List.map_congr_left fun i hi => congrArg (Item.mk b.tag) (h.word ?_)
  -- the place that is read is not behind the one of the element
  have hin := lt_count_iff.1 (List.mem_range.1 hi)
  have hle := Nat.mod_le (i * b.tag.width) (2 ^ 32)
  rw [toNat_toUInt32_eq_mod]
  omega

theorem toList : b'.cells.toList = b.cells.toList := by
  have hsize : b'.cells.size = b.cells.size := h.size
  rw [Segment.toList, Segment.toList, hsize]
  exact List.map_congr_left fun i hi => h.byte i (List.mem_range.1 hi)

theorem read (address : UInt32) (width : Nat) :
    b'.cells.read address width = b.cells.read address width := by
  have hsize : b'.cells.size = b.cells.size := h.size
  rw [Segment.read, Segment.read, hsize]
  by_cases hin : width = 0 ∨ 4 < width ∨ b.cells.size < address.toNat + width
  · rw [if_pos hin, if_pos hin]
  · rw [if_neg hin, if_neg hin, h.word (show address.toNat + width ≤ b.cells.size by omega)]

/-- What is written at the end is all that is uncovered there. -/
theorem extended (hsize : b.size + 1 < 2 ^ 32) (w : UInt32) (width : Nat) :
    Alike (b.extended w width) (b'.extended w width) := by
  have hne : b.size.toUInt32 ≠ endAddress := mt toUInt32_eq_endAddress_iff.1 (by omega)
  have hne' : b'.size.toUInt32 ≠ endAddress := by rwa [h.size]
  refine ⟨?_, ?_, fun i hi => ?_⟩
  · rw [tag_extended, tag_extended, h.tag]
  · rw [size_extended hne, size_extended hne', h.size]
  · rw [size_extended hne] at hi
    rw [Block.extended, Block.extended, if_neg hne, if_neg hne', h.size,
      toNat_toUInt32 (by omega)]
    refine byte_setWord_congr ?_
    by_cases hlt : i < b.size
    · exact .inl (h.byte i hlt)
    · exact .inr ⟨Nat.le_of_not_lt hlt, hi⟩

end

end Alike

/-- The block is a list of these items, and nothing else. -/
structure Holds (b : Block) (t : Tag) (xs : List Item) : Prop where
  tag : b.tag = t
  size : b.size = xs.length * t.width
  items : b.items = xs

/-- Blocks that hold the same list show the same. -/
theorem Holds.alike (h : b.Holds t xs) (h' : b'.Holds t xs) : Alike b b' := by
  obtain ⟨rfl, hsize, rfl⟩ := h
  refine ⟨h'.tag, by rw [h'.size, hsize], fun i hi => ?_⟩
  have hpos := b.tag.width_pos
  rw [length_items] at hsize
  -- the byte is one of an element
  have hlt : i / b.tag.width < b.count := by
    rw [Nat.div_lt_iff_lt_mul hpos, ← hsize]
    exact hi
  have hlt' : i / b.tag.width < b'.count := by
    rw [← length_items, h'.items, length_items]
    exact hlt
  have helement := congrArg (·[i / b.tag.width]?) h'.items
  simp only [getElem?_items, if_pos hlt, if_pos hlt', h'.tag, Option.some_inj, Item.mk.injEq,
    true_and] at helement
  have hbyte := bytes_of_word helement _ (Nat.mod_lt i hpos)
  rwa [Nat.div_add_mod'] at hbyte

end Block

/-! ### Heaps and machines -/

/-- The heaps differ at most in what the block `n` does not show. -/
structure Heap.SameApart (n : Nat) (h h' : Heap) : Prop where
  alike : ∃ b b', h.blocks[n]? = some b ∧ h'.blocks[n]? = some b' ∧ b.Alike b'
  other : ∀ k, k ≠ n → h'.blocks[k]? = h.blocks[k]?

namespace Heap.SameApart

variable {n k : Nat} {h h' : Heap}

section

variable (hh : SameApart n h h')

include hh

theorem lt_size : n < h.size := by
  obtain ⟨b, -, hb, -⟩ := hh.alike
  exact (Array.getElem?_eq_some_iff.1 hb).1

theorem size : h'.size = h.size := by
  obtain ⟨-, b', -, hb', -⟩ := hh.alike
  have hlt' : n < h'.size := (Array.getElem?_eq_some_iff.1 hb').1
  -- where the one heap ends the other has no block, either
  have hend := hh.other h.size (Nat.ne_of_gt hh.lt_size)
  have hend' := hh.other h'.size (Nat.ne_of_gt hlt')
  rw [Array.getElem?_eq_none (Nat.le_refl _), Array.getElem?_eq_none_iff] at hend
  rw [Array.getElem?_eq_none (Nat.le_refl _), eq_comm, Array.getElem?_eq_none_iff] at hend'
  exact Nat.le_antisymm hend hend'

theorem block (k : Nat) : (h.block k).Alike (h'.block k) := by
  by_cases hk : k = n
  · obtain ⟨b, b', hb, hb', halike⟩ := hh.alike
    rw [hk, Heap.block_eq hb, Heap.block_eq hb']
    exact halike
  · have hsame : h'.block k = h.block k := by
      rw [Heap.block, Heap.block, Array.getD_eq_getD_getElem?, Array.getD_eq_getD_getElem?,
        hh.other k hk]
    rw [hsame]
    exact .refl _

theorem read (k offset width : Nat) : h'.read k offset width = h.read k offset width := by
  by_cases hk : k = n
  · obtain ⟨b, b', hb, hb', halike⟩ := hh.alike
    unfold Heap.read
    rw [hk, hb, hb']
    exact halike.read _ _
  · unfold Heap.read
    rw [hh.other k hk]

theorem add (t : Tag) : SameApart n (h.add t) (h'.add t) := by
  have hne : n ≠ h.blocks.size := Nat.ne_of_lt hh.lt_size
  have hsize : h'.blocks.size = h.blocks.size := hh.size
  obtain ⟨b, b', hb, hb', halike⟩ := hh.alike
  refine ⟨⟨b, b', ?_, ?_, halike⟩, fun k hk => ?_⟩
  · rw [Heap.add, Array.getElem?_push, if_neg hne, hb]
  · rw [Heap.add, Array.getElem?_push, hsize, if_neg hne, hb']
  · rw [Heap.add, Heap.add, Array.getElem?_push, Array.getElem?_push, hsize, hh.other k hk]

/-- The same block at the same place. -/
theorem set (hk : k ≠ n) (b : Block) :
    SameApart n ⟨h.blocks.setIfInBounds k b⟩ ⟨h'.blocks.setIfInBounds k b⟩ := by
  have hsize : h'.blocks.size = h.blocks.size := hh.size
  obtain ⟨c, c', hc, hc', halike⟩ := hh.alike
  refine ⟨⟨c, c', ?_, ?_, halike⟩, fun j hj => ?_⟩
  · rw [Array.getElem?_setIfInBounds_ne hk, hc]
  · rw [Array.getElem?_setIfInBounds_ne hk, hc']
  · rw [Array.getElem?_setIfInBounds, Array.getElem?_setIfInBounds, hsize, hh.other j hj]

/-- Blocks that show the same at the place `n`. -/
theorem replace {b b' : Block} (hb : b.Alike b') :
    SameApart n ⟨h.blocks.setIfInBounds n b⟩ ⟨h'.blocks.setIfInBounds n b'⟩ := by
  have hlt : n < h.blocks.size := hh.lt_size
  have hlt' : n < h'.blocks.size := Nat.lt_of_lt_of_eq hlt hh.size.symm
  refine ⟨⟨b, b', Array.getElem?_setIfInBounds_self_of_lt hlt,
    Array.getElem?_setIfInBounds_self_of_lt hlt', hb⟩, fun k hk => ?_⟩
  rw [Array.getElem?_setIfInBounds_ne (Ne.symm hk), Array.getElem?_setIfInBounds_ne (Ne.symm hk),
    hh.other k hk]

/-- A write into another block does the same in both heaps. -/
theorem write (hk : k ≠ n) (w : UInt32) (offset width : Nat) :
    (∃ t, h.write k w offset width = .error t ∧ h'.write k w offset width = .error t) ∨
      ∃ h₁ h₁', h.write k w offset width = .ok h₁ ∧ h'.write k w offset width = .ok h₁' ∧
        SameApart n h₁ h₁' := by
  unfold Heap.write
  rw [hh.other k hk]
  cases h.blocks[k]? with
  | none => exact .inl ⟨_, rfl, rfl⟩
  | some b =>
    dsimp only
    cases (b.cells.grow (offset + width)).write offset.toUInt32 w width with
    | error t => exact .inl ⟨t, rfl, rfl⟩
    | ok r => exact .inr ⟨_, _, rfl, rfl, hh.set hk _⟩

/-- What printing shows is what can be seen. -/
theorem printed (depth : Nat) (x : Item) : h'.printed depth x = h.printed depth x := by
  induction depth generalizing x with
  | zero =>
    unfold Heap.printed
    rfl
  | succ depth ih =>
    have halike := hh.block x.block
    unfold Heap.printed
    dsimp only
    rw [halike.tag, halike.itemsRead, halike.toList, funext ih]

end

end Heap.SameApart

/-- The machines differ at most in what the block `n` does not show. -/
structure Machine.SameApart (n : Nat) (m m' : Machine) : Prop where
  rest : m' = { m with heap := m'.heap }
  heap : m.heap.SameApart n m'.heap

/-! ### Acts -/

namespace Act

variable {α β : Type} {n k : Nat} {m m' : Machine}

/-- The acts do the same with machines that differ at most in what the block `n` does not show. -/
def Alike (n : Nat) (a a' : Act α) : Prop :=
  ∀ m m' : Machine, m.SameApart n m' → (a' m').1 = (a m).1 ∧ (a m).2.SameApart n (a' m').2

namespace Alike

theorem bind {a a' : Act α} {f f' : α → Act β} (ha : Alike n a a') (hf : ∀ x, Alike n (f x) (f' x)) :
    Alike n (a >>= f) (a' >>= f') := by
  intro m m' hm
  obtain ⟨hresult, hleft⟩ := ha m m' hm
  rw [run_bind, run_bind]
  -- both stop here, or both go on with the same result
  rcases hr : a m with ⟨_ | x, m₁⟩
  · rw [hr] at hresult hleft
    rcases hr' : a' m' with ⟨_ | x', m₁'⟩
    · rw [hr'] at hresult hleft
      cases hresult
      exact ⟨rfl, hleft⟩
    · rw [hr'] at hresult
      cases hresult
  · rw [hr] at hresult hleft
    rcases hr' : a' m' with ⟨_ | x', m₁'⟩
    · rw [hr'] at hresult
      cases hresult
    · rw [hr'] at hresult hleft
      cases hresult
      exact hf x m₁ m₁' hleft

theorem ite {c : Prop} [Decidable c] {a a' b b' : Act α} (ha : Alike n a a') (hb : Alike n b b') :
    Alike n (if c then a else b) (if c then a' else b') := by
  by_cases hc : c
  · rwa [if_pos hc, if_pos hc]
  · rwa [if_neg hc, if_neg hc]

theorem throw (e : Halt) : Alike n (throw e : Act α) (throw e) := fun _ _ hm => ⟨rfl, hm⟩

theorem pure (x : α) : Alike n (pure x : Act α) (pure x) := fun _ _ hm => ⟨rfl, hm⟩

/-- What does not look at the heap does not tell. -/
theorem of_heapless {a : Act α}
    (ha : ∀ m h, a { m with heap := h } = ((a m).1, { (a m).2 with heap := h })) : Alike n a a := by
  intro m m' hm
  have hheap : (a m).2.heap = m.heap := by
    have h := congrArg (fun r => r.2.heap) (ha m m.heap)
    exact h
  rw [hm.rest, ha m m'.heap]
  exact ⟨rfl, rfl, by rw [hheap]; exact hm.heap⟩

theorem pop : Alike n pop pop := by
  refine of_heapless ?_
  rintro ⟨pc, frames, _ | ⟨x, rest⟩, memory, heap, input, output, files⟩ h <;> rfl

theorem push (x : Item) : Alike n (push x) (push x) := by
  refine of_heapless fun m h => ?_
  by_cases hlen : m.stack.length < stackLimit
  · rw [run_push hlen, run_push (m := { m with heap := h }) hlen]
  · rw [run_push_full (Nat.le_of_not_lt hlen),
      run_push_full (m := { m with heap := h }) (Nat.le_of_not_lt hlen)]

theorem emit (bs : List UInt8) : Alike n (emit bs) (emit bs) :=
  of_heapless fun _ _ => rfl

theorem readBlock (k offset width : Nat) :
    Alike n (readBlock k offset width) (readBlock k offset width) := by
  intro m m' hm
  have hread := hm.heap.read k offset width
  cases hr : m.heap.read k offset width with
  | error t =>
    rw [run_readBlock_error hr, run_readBlock_error (hread.trans hr)]
    exact ⟨rfl, hm⟩
  | ok w =>
    rw [run_readBlock hr, run_readBlock (hread.trans hr)]
    exact ⟨rfl, hm⟩

theorem writeBlock (hk : k ≠ n) (w : UInt32) (offset width : Nat) :
    Alike n (writeBlock k w offset width) (writeBlock k w offset width) := by
  intro m m' hm
  rcases hm.heap.write hk w offset width with ⟨t, hw, hw'⟩ | ⟨h, h', hw, hw', hh⟩
  · rw [run_writeBlock_error hw, run_writeBlock_error hw']
    exact ⟨rfl, hm⟩
  · rw [run_writeBlock hw, run_writeBlock hw']
    exact ⟨rfl, by rw [hm.rest], hh⟩

/-- What is done with a block that is looked at may hang on what it shows. -/
theorem block {f f' : Block → Act α} (hf : ∀ b b', b.Alike b' → Alike n (f b) (f' b')) (k : Nat) :
    Alike n (block k >>= f) (block k >>= f') := by
  intro m m' hm
  rw [run_bind_ok (run_block k m), run_bind_ok (run_block k m')]
  exact hf _ _ (hm.heap.block k) m m' hm

/-- A new block has another number. -/
theorem addBlock {f f' : Nat → Act α} (hf : ∀ k, k ≠ n → Alike n (f k) (f' k)) (t : Tag) :
    Alike n (addBlock t >>= f) (addBlock t >>= f') := by
  intro m m' hm
  rw [run_bind_ok (run_addBlock t m), run_bind_ok (run_addBlock t m'), hm.heap.size]
  exact hf _ (Nat.ne_of_gt hm.heap.lt_size) _ _ ⟨by rw [hm.rest], hm.heap.add t⟩

theorem size : Alike n size size := by
  refine bind pop fun list => block (fun b b' hb => ?_) _
  rw [hb.count]
  exact push _

theorem sliceFrom {target : Nat} (htarget : target ≠ n) (source width : Nat) (step place : UInt32)
    (j count : Nat) : Alike n (sliceFrom source target width step place j count)
      (sliceFrom source target width step place j count) := by
  induction count generalizing place j with
  | zero => exact pure ()
  | succ count ih =>
    exact bind (readBlock _ _ _) fun w => bind (writeBlock htarget _ _ _) fun _ => ih _ _

theorem slice : Alike n slice slice := by
  refine bind pop fun list => bind pop fun start => bind pop fun stop => block (fun b b' hb => ?_) _
  rw [hb.tag, hb.size]
  exact addBlock (fun k hk => ite (bind (sliceFrom hk _ _ _ _ _ _) fun _ => push _)
    (bind (sliceFrom hk _ _ _ _ _ _) fun _ => push _)) _

theorem print : Alike n print print := by
  refine bind pop fun x m m' hm => ?_
  rw [run_get_bind, run_get_bind, hm.heap.size, hm.heap.printed]
  cases m.heap.printed (m.heap.size + 1) x with
  | none => exact throw .stuck m m' hm
  | some bs => exact emit bs m m' hm

end Alike

/-- An item that is added to a list is written where the list ends for all to see, if that is a
    word. -/
theorem appendTo_alike (hm : m.SameApart n m') (hsize : (m.heap.block n).size + 1 < 2 ^ 32)
    (list x : Item) : (appendTo list x m').1 = (appendTo list x m).1 ∧
      (appendTo list x m).2.SameApart n (appendTo list x m').2 := by
  by_cases hlist : list.block = n
  · subst hlist
    obtain ⟨b, b', hb, hb', halike⟩ := hm.heap.alike
    rw [Heap.block_eq hb] at hsize
    by_cases htag : x.tag = b.tag
    · rw [run_appendTo hb htag, run_appendTo hb' (htag.trans halike.tag.symm)]
      exact ⟨rfl, by rw [hm.rest], hm.heap.replace (halike.extended hsize _ _)⟩
    · rw [run_appendTo_of_ne hb htag, run_appendTo_of_ne hb' (by rwa [halike.tag])]
      exact ⟨rfl, hm⟩
  · -- another list is written to, so the block `n` does not matter
    refine Alike.block (fun b b' hb => ?_) _ m m' hm
    rw [hb.tag, hb.size]
    exact .ite (.throw _) (.writeBlock hlist _ _ _)

theorem append_alike (hm : m.SameApart n m') (hsize : (m.heap.block n).size + 1 < 2 ^ 32) :
    (append m').1 = (append m).1 ∧ (append m).2.SameApart n (append m').2 := by
  have hstack : m'.stack = m.stack := by rw [hm.rest]
  have hmoved (s : List Item) : { m with stack := s }.SameApart n { m' with stack := s } :=
    ⟨by rw [hm.rest], hm.heap⟩
  rcases hs : m.stack with _ | ⟨list, _ | ⟨x, rest⟩⟩
  · rw [hs] at hstack
    unfold append
    rw [run_bind_error (run_pop_nil hs), run_bind_error (run_pop_nil hstack)]
    exact ⟨rfl, hm⟩
  · rw [hs] at hstack
    unfold append
    rw [run_bind_ok (run_pop hs), run_bind_ok (run_pop hstack), run_bind_error (run_pop_nil rfl),
      run_bind_error (run_pop_nil rfl)]
    exact ⟨rfl, hmoved []⟩
  · rw [hs] at hstack
    rw [run_append_eq hs, run_append_eq hstack]
    exact appendTo_alike (hmoved rest) hsize list x

end Act

/-! ### Lists that are seen -/

/-- The machine with another block at a place. -/
def Machine.withBlock (m : Machine) (n : Nat) (b : Block) : Machine :=
  { m with heap := ⟨m.heap.blocks.setIfInBounds n b⟩ }

/-- The numbers of the functions that print, measure, extend and slice lists. -/
def listFunctions : List UInt32 := [1, 8, 9, 12]

namespace Block

variable {b : Block} {t : Tag} {xs : List Item} {w : UInt32} {width : Nat}

/-- Wherever the block lies, the functions on lists take it for the list of these items: they end
    in the same way, and leave the same to be seen, as with any block in its place that holds this
    list. -/
def SeenAs (b : Block) (t : Tag) (xs : List Item) : Prop :=
  ∀ f ∈ listFunctions, ∀ (m : Machine) (n : Nat) (b' : Block), m.heap.blocks[n]? = some b →
    b'.Holds t xs → (Act.builtin f (m.withBlock n b')).1 = (Act.builtin f m).1 ∧
      (Act.builtin f m).2.SameApart n (Act.builtin f (m.withBlock n b')).2

theorem Holds.seenAs (h : b.Holds t xs) (hsize : b.size + 1 < 2 ^ 32) : b.SeenAs t xs := by
  intro f hf m n b' hb hb'
  have hlt : n < m.heap.blocks.size := (Array.getElem?_eq_some_iff.1 hb).1
  have hm : m.SameApart n (m.withBlock n b') :=
    ⟨rfl, ⟨b, b', hb, Array.getElem?_setIfInBounds_self_of_lt hlt, h.alike hb'⟩,
      fun k hk => Array.getElem?_setIfInBounds_ne (Ne.symm hk)⟩
  simp only [listFunctions, List.mem_cons, List.not_mem_nil, or_false] at hf
  rcases hf with rfl | rfl | rfl | rfl
  · exact Act.Alike.print _ _ hm
  · exact Act.Alike.size _ _ hm
  · exact append_alike hm (by rwa [Heap.block_eq hb])
  · exact Act.Alike.slice _ _ hm

theorem lt_size_extended (hpos : 0 < width) : b.size < (b.extended w width).size := by
  by_cases hend : b.size.toUInt32 = endAddress
  · rw [extended, if_pos hend]
    change b.size < (setWord _ _ _ _).size
    rw [size_setWord]
    exact Nat.lt_of_lt_of_le (by omega) (Nat.le_max_right b.size (b.size + width + width))
  · rw [size_extended hend]
    exact Nat.lt_add_of_pos_right hpos

/-- Where the end is no word, or is the mark for it, the write goes elsewhere. -/
theorem byte_extended_end (hsize : 2 ^ 32 ≤ b.size + 1) (hle : width ≤ 4) :
    (b.extended w width).cells.byte b.size = b.cells.byte b.size := by
  by_cases hend : b.size.toUInt32 = endAddress
  · rw [extended, if_pos hend]
    exact byte_setWord_of_outside w (by omega)
  · have hcut := toNat_toUInt32_eq_mod b.size
    have hne := mt toUInt32_eq_endAddress_iff.2 hend
    rw [extended, if_neg hend]
    exact byte_setWord_of_outside w (by omega)

/-- The block with another byte behind its end. -/
def touched (b : Block) : Block :=
  { b with cells := b.cells.setByte b.size (b.cells.byte b.size + 1) }

theorem byte_touched (b : Block) (i : Nat) : b.touched.cells.byte i =
    if i = b.size then b.cells.byte b.size + 1 else b.cells.byte i :=
  byte_setByte ..

theorem alike_touched (b : Block) : Alike b b.touched :=
  ⟨rfl, rfl, fun i hi => by rw [byte_touched, if_neg (Nat.ne_of_lt hi)]⟩

theorem Holds.touched (h : b.Holds t xs) : b.touched.Holds t xs :=
  ⟨h.tag, h.size, b.alike_touched.items.trans h.items⟩

/-- It is not the same to write at the end of the one or of the other. -/
theorem not_alike_extended_touched (hsize : 2 ^ 32 ≤ b.size + 1) (hpos : 0 < width)
    (hle : width ≤ 4) : ¬Alike (b.extended w width) (b.touched.extended w width) := by
  intro h
  have hbyte := h.byte b.size (lt_size_extended hpos)
  have htouched : (b.touched.extended w width).cells.byte b.size = b.touched.cells.byte b.size :=
    byte_extended_end (b := b.touched) hsize hle
  rw [htouched, byte_extended_end hsize hle, byte_touched, if_pos rfl] at hbyte
  simp at hbyte

/-- A block is seen as the list that it holds until its end is no word any more: then an item that
    is added uncovers what lies behind. -/
theorem Holds.seenAs_iff (h : b.Holds t xs) : b.SeenAs t xs ↔ b.size + 1 < 2 ^ 32 := by
  refine ⟨fun hseen => ?_, h.seenAs⟩
  by_contra hsize
  -- a block that holds the same list, but with another byte behind it, would look alike
  obtain ⟨-, hleft⟩ := hseen 9 (by decide)
    { stack := [.ofBlock 0, ⟨b.tag, 0⟩], heap := ⟨#[b]⟩ } 0 b.touched rfl h.touched
  change (append _).2.SameApart 0 (append _).2 at hleft
  rw [run_append_eq rfl, run_append_eq rfl, run_appendTo rfl rfl,
    run_appendTo rfl rfl] at hleft
  exact not_alike_extended_touched (Nat.le_of_not_lt hsize) (by decide) (by decide)
    (hleft.heap.block 0)

end Block

end StackLang
