import StackLang.Proofs.BlockView
import StackLang.Proofs.Spelling
import StackLang.Proofs.Transfer

/-!
# Joined texts

An addition with a text gives a text. That should be the text of the left operand followed by the
one of the right operand, and the operands should stay as they are. But the bytes of the right
operand are written into the left one, with gaps between them, and if the left operand is a number,
it is taken for a block, too, and the text that is written there is the one of a pointer.

* `Block.byte_scattered_eq_zero`: a text of two or more bytes that is scattered has gaps;
* `Block.toList_fed_scattered_ne`: such a text is not made right by another one that is copied over
  it;
* `text_joined_iff`: texts are joined, and the operands left as they are, only if there is nothing
  to join.
-/

namespace StackLang

open List Heap

/-! ### The text of a number -/

section NumberText

variable {v w : UInt32}

theorem toList_signedText (n : Int) :
    (signedText n).toList = minusSign (n < 0) ++ Nat.toDigits 10 n.natAbs := by
  by_cases hneg : n < 0 <;> simp [signedText, hneg, decimalText, minusSign]

/-- The bytes of a number's text. -/
def wordText (w : UInt32) : List UInt8 := textBytes (signedText (wordInt w))

theorem wordText_eq (w : UInt32) : wordText w =
    (minusSign (wordInt w < 0) ++ Nat.toDigits 10 (wordInt w).natAbs).map
      fun c => c.toNat.toUInt8 := by
  rw [wordText, textBytes, toList_signedText]

theorem length_wordText (w : UInt32) : (wordText w).length =
    (if wordInt w < 0 then 1 else 0) + (Nat.toDigits 10 (wordInt w).natAbs).length := by
  rw [wordText_eq, length_map, length_append]
  by_cases hneg : wordInt w < 0 <;> simp [minusSign, hneg]

theorem length_wordText_pos (w : UInt32) : 0 < (wordText w).length := by
  have := Nat.length_toDigits_pos (b := 10) (n := (wordInt w).natAbs)
  rw [length_wordText]
  omega

theorem length_wordText_le (w : UInt32) : (wordText w).length ≤ 11 := by
  have hint := wordInt_eq_ite w
  have hlt := w.toNat_lt
  have hdigits : (Nat.toDigits 10 (wordInt w).natAbs).length ≤ 10 :=
    (Nat.length_toDigits_le_iff (by decide) (by decide)).2 (by split at hint <;> omega)
  rw [length_wordText]
  split <;> omega

/-- The numbers that are written with one byte are those of one digit. -/
theorem length_wordText_eq_one_iff : (wordText w).length = 1 ↔ w.toNat < 10 := by
  have hint := wordInt_eq_ite w
  have hpos := Nat.length_toDigits_pos (b := 10) (n := (wordInt w).natAbs)
  have hdigits := Nat.length_toDigits_le_iff (b := 10) (n := (wordInt w).natAbs) (by decide)
    Nat.one_pos
  have hlt := w.toNat_lt
  rw [length_wordText]
  split at hint <;> split <;> omega

/-- No byte of a number's text is zero. -/
theorem zero_notMem_wordText (w : UInt32) : 0 ∉ wordText w := by
  rw [wordText_eq]
  intro h
  obtain ⟨c, hc, hzero⟩ := mem_map.1 h
  have hcode : c.toNat % 256 = 0 := by simpa using congrArg UInt8.toNat hzero
  rcases mem_append.1 hc with hminus | hdigit
  · have : c = '-' := by
      rw [minusSign] at hminus
      split at hminus
      · exact mem_singleton.1 hminus
      · cases hminus
    subst this
    revert hcode
    decide
  · have hdigit := Nat.isDigit_of_mem_toDigits (by decide) (by decide) hdigit
    simp only [Char.isDigit, Bool.and_eq_true, decide_eq_true_eq, UInt32.le_iff_toNat_le] at hdigit
    have hlow : 48 ≤ c.toNat := hdigit.1
    have hhigh : c.toNat ≤ 57 := hdigit.2
    omega

theorem wordText_inj (hv : v.toNat < 10) (hw : w.toNat < 10) (h : wordText v = wordText w) :
    v = w := by
  have hdigit {w : UInt32} (hw : w.toNat < 10) :
      wordText w = [(Nat.digitChar w.toNat).toNat.toUInt8] := by
    have hint : wordInt w = w.toNat := by rw [wordInt_eq_ite, if_pos (by omega)]
    rw [wordText_eq, hint, Int.natAbs_natCast, Nat.toDigits_of_lt_base hw, minusSign, if_neg (by simp)]
    rfl
  have hchar : ∀ i < 10, ∀ j < 10,
      (Nat.digitChar i).toNat.toUInt8 = (Nat.digitChar j).toNat.toUInt8 → i = j := by decide
  rw [hdigit hv, hdigit hw, singleton_inj] at h
  exact UInt32.toNat_inj.1 (hchar _ hv _ hw h)

/-- Only reals are not written as integers. -/
theorem Item.textBytes_numberText (x : Item) (h : x.tag ≠ .real) :
    textBytes x.numberText = wordText x.word := by
  unfold numberText
  split
  · contradiction
  · rfl

end NumberText

/-! ### Bytes that are written -/

theorem Segment.length_toList (s : Segment) : s.toList.length = s.size := by
  simp [toList]

/-- A segment that begins with the bytes of another one. -/
theorem Segment.toList_eq_append {s s' : Segment} (hsize : s.size ≤ s'.size)
    (hbyte : ∀ i < s.size, s'.byte i = s.byte i) :
    s'.toList = s.toList ++ s'.slice s.size (s'.size - s.size) := by
  have hrange : List.range s'.size = List.range s.size ++ List.range' s.size (s'.size - s.size) := by
    rw [range_eq_range', range_eq_range', ← Nat.add_sub_cancel' hsize,
      ← range'_append_1, Nat.zero_add, Nat.add_sub_cancel_left]
  rw [toList, hrange, map_append, slice]
  congr 1
  exact map_congr_left fun i hi => hbyte i (mem_range.1 hi)

namespace Block

variable {b c : Block} {w : UInt32} {bs : List UInt8} {s : Segment} {offset count i j : Nat}

theorem size_written (h : offset + 1 < 2 ^ 32) :
    (b.written w offset 1).size = max b.size (offset + 1) := by
  rw [size, cells_written h, Segment.size_setWord]
  rfl

theorem byte_written (h : offset + 1 < 2 ^ 32) : (b.written w offset 1).cells.byte j =
    if j = offset then w.toUInt8 else b.cells.byte j := by
  rw [cells_written h]
  exact Segment.byte_setByte ..

/-! #### Moved bytes -/

/-- Bytes that go behind the end of a block make it larger. -/
theorem add_le_size_fed {place : Nat → Nat → Nat} (hplace : ∀ size i, size ≤ place size i)
    (s : Segment) (count i : Nat) (b : Block) : b.size + count ≤ (b.fed place s count i).size := by
  induction count generalizing i b with
  | zero => exact Nat.le_refl _
  | succ count ih =>
    have hgrown := b.le_size_written (s.word (i % 2 ^ 32) 1) (place b.size i) 1
    have hrest := ih (i + 1) (b.written (s.word (i % 2 ^ 32) 1) (place b.size i) 1)
    have := hplace b.size i
    rw [fed]
    omega

theorem size_fed_samePlace (h : i + count < 2 ^ 32) (hi : i ≤ b.size) :
    (b.fed samePlace s count i).size = max b.size (i + count) := by
  induction count generalizing i b with
  | zero => exact (Nat.max_eq_left hi).symm
  | succ count ih =>
    have hsize : (b.written (s.word (i % 2 ^ 32) 1) i 1).size = max b.size (i + 1) :=
      size_written (by omega)
    rw [fed, samePlace, ih (by omega) (by omega), hsize]
    omega

theorem byte_fed_samePlace (h : i + count < 2 ^ 32) : (b.fed samePlace s count i).cells.byte j =
    if i ≤ j ∧ j < i + count then s.byte j else b.cells.byte j := by
  induction count generalizing i b with
  | zero => rw [if_neg (by omega), fed]
  | succ count ih =>
    have hword : (s.word (i % 2 ^ 32) 1).toUInt8 = s.byte i := by
      rw [Nat.mod_eq_of_lt (by omega)]
      simp [Segment.word]
    rw [fed, samePlace, ih (by omega), byte_written (by omega), hword]
    by_cases hji : j = i
    · rw [if_neg (by omega), if_pos hji, if_pos (by omega), hji]
    · rw [if_neg hji]
      by_cases hin : i + 1 ≤ j ∧ j < i + 1 + count
      · rw [if_pos hin, if_pos (by omega)]
      · rw [if_neg hin, if_neg (by omega)]

/-! #### Scattered bytes -/

/-- The block with bytes written behind its end, each one further behind than the one before. -/
def scattered : (bs : List UInt8) → (i : Nat) → Block → Block
  | [], _, b => b
  | w :: bs, i, b => scattered bs (i + 1) (b.written w.toUInt32 (b.size + i) 1)

theorem add_le_size_scattered (bs : List UInt8) (i : Nat) (b : Block) :
    b.size + bs.length ≤ (b.scattered bs i).size := by
  induction bs generalizing i b with
  | nil => exact Nat.le_refl _
  | cons w bs ih =>
    have hgrown := b.le_size_written w.toUInt32 (b.size + i) 1
    have hrest := ih (i + 1) (b.written w.toUInt32 (b.size + i) 1)
    rw [scattered, length_cons]
    omega

/-- There are only zeros behind the end of the block. -/
def Clean (b : Block) : Prop := ∀ i, b.size ≤ i → b.cells.byte i = 0

theorem Clean.written (hb : b.Clean) (h : offset + 1 < 2 ^ 32) : (b.written w offset 1).Clean := by
  intro i hi
  rw [size_written h] at hi
  rw [byte_written h, if_neg (by omega)]
  exact hb i (by omega)

/-- If the last one of the bytes has a place of its own, there is a zero before it. -/
theorem byte_scattered_eq_zero (bs : List UInt8) (i : Nat) (hb : b.Clean) (hbs : bs ≠ [])
    (hgap : 2 ≤ i + bs.length) (h : b.size + (i + bs.length) * bs.length + 1 < 2 ^ 32) :
    (b.scattered bs i).cells.byte ((b.scattered bs i).size - 2) = 0 := by
  -- each write keeps the block clean and the bound on the places, and only the last one counts
  induction bs generalizing i b with
  | nil => exact absurd rfl hbs
  | cons w bs ih =>
    rw [length_cons] at h hgap
    have hmul : (i + (bs.length + 1)) * (bs.length + 1) =
        (i + 1 + bs.length) * bs.length + (i + 1 + bs.length) := by
      rw [Nat.mul_succ, Nat.add_right_comm, Nat.add_assoc]
    have hoffset : b.size + i + 1 < 2 ^ 32 := by omega
    have hsize := size_written (b := b) (w := w.toUInt32) hoffset
    rw [scattered]
    cases bs with
    | nil =>
      rw [length_nil] at hgap
      rw [scattered, hsize, byte_written hoffset, if_neg (by omega)]
      exact hb _ (by omega)
    | cons w' bs =>
      rw [length_cons] at hmul h hgap
      refine ih (i + 1) (hb.written hoffset) (by simp) (by rw [length_cons]; omega) ?_
      rw [hsize, length_cons]
      omega

/-- If a text that covers a block from the front on makes it some bytes followed by that text, then
    what is not covered are those bytes in some order. -/
theorem perm_of_toList_fed {ts : List UInt8} (hc : c.size < 2 ^ 31) (hts : 0 < ts.length)
    (heq : (b.fed samePlace c.cells c.size 0).cells.toList = ts ++ c.cells.toList) :
    b.size = ts.length + c.size ∧ (b.cells.slice c.size ts.length).Perm ts := by
  have hbyte (j : Nat) : (b.fed samePlace c.cells c.size 0).cells.byte j =
      if j < c.size then c.cells.byte j else b.cells.byte j := by
    rw [byte_fed_samePlace (by omega), Nat.zero_add]
    simp
  have hsize : (b.fed samePlace c.cells c.size 0).cells.size = max b.size c.size :=
    (size_fed_samePlace (by omega) (Nat.zero_le _)).trans (by rw [Nat.zero_add])
  have hlength : max b.size c.size = ts.length + c.size := by
    have := congrArg List.length heq
    rwa [Segment.length_toList, hsize, length_append, Segment.length_toList] at this
  refine ⟨by omega, ?_⟩
  have hslice : (b.fed samePlace c.cells c.size 0).cells.slice c.size ts.length =
      b.cells.slice c.size ts.length :=
    map_congr_left fun j hj => by
      rw [hbyte, if_neg (Nat.not_lt.2 (mem_range'_1.1 hj).1)]
  have hsplit : (b.fed samePlace c.cells c.size 0).cells.toList = c.cells.toList ++ _ :=
    Segment.toList_eq_append (by rw [hsize]; exact Nat.le_max_right _ _) fun j hj => by
      rw [hbyte, if_pos hj]
  rw [hsize, hlength, Nat.add_sub_cancel, hslice, heq] at hsplit
  -- the text is at the front of one list and at the end of the other
  refine (perm_append_left_iff c.cells.toList).1 ?_
  rw [← hsplit]
  exact perm_append_comm

/-- A number's text that is scattered, and then covered by another text from the front on, is not
    the text of a greater number followed by that other text. -/
theorem toList_fed_scattered_ne {t : Tag} {v w : UInt32} (hc : c.size < 2 ^ 31)
    (hlt : v.toNat < w.toNat) :
    ((({ tag := t } : Block).scattered (wordText v) 0).fed samePlace c.cells c.size 0).cells.toList ≠
      wordText w ++ c.cells.toList := by
  intro heq
  obtain ⟨hsize, hperm⟩ := perm_of_toList_fed hc (length_wordText_pos w) heq
  have hpos := length_wordText_pos w
  by_cases hone : v.toNat < 10
  · -- a single byte has no gap before it, so both numbers have this one digit
    obtain ⟨d, hd⟩ := length_eq_one_iff.1 (length_wordText_eq_one_iff.2 hone)
    have hblock : ({ tag := t } : Block).scattered (wordText v) 0 =
        ({ tag := t } : Block).written d.toUInt32 0 1 := by
      rw [hd]
      rfl
    have hbyte : (({ tag := t } : Block).written d.toUInt32 0 1).cells.byte 0 = d := by
      rw [byte_written (by decide), if_pos rfl]
      simp
    rw [hblock, size_written (by decide)] at hsize
    obtain ⟨hempty, hdigit⟩ : c.size = 0 ∧ (wordText w).length = 1 := by
      rw [show max (({ tag := t } : Block).size) (0 + 1) = 1 from rfl] at hsize
      omega
    rw [hblock, hempty, hdigit, Segment.slice, range'_one, map_singleton, hbyte]
      at hperm
    have hsame := wordText_inj hone (length_wordText_eq_one_iff.1 hdigit)
      (hd.trans hperm.singleton_eq)
    exact Nat.ne_of_lt hlt (congrArg UInt32.toNat hsame)
  · -- there is a gap before the last byte, and it is not covered
    have hv := mt length_wordText_eq_one_iff.1 hone
    have hw := mt (length_wordText_eq_one_iff (w := w)).1 (by omega)
    have hvpos := length_wordText_pos v
    have hvle := length_wordText_le v
    have hsquare := Nat.mul_le_mul hvle hvle
    have hzero := byte_scattered_eq_zero (wordText v) 0 (b := { tag := t }) (fun _ _ => rfl)
      (ne_nil_of_length_pos hvpos) (by omega)
      (show 0 + (0 + _) * _ + 1 < _ by rw [Nat.zero_add, Nat.zero_add]; omega)
    exact zero_notMem_wordText w (hperm.mem_iff.1
      (mem_map.2 ⟨_, mem_range'_1.2 (by omega), hzero⟩))

end Block

/-! ### Joining a text and a number -/

namespace Act

variable {m : Machine} {b : Block} {x y : Item} {bs : List UInt8} {n i : Nat}

theorem run_modify (f : Machine → Machine) (m : Machine) : (modify f : Act Unit) m = (.ok (), f m) :=
  rfl

theorem run_scatter (hb : m.heap.blocks[n]? = some b) : scatter n i bs m =
    (.ok (), { m with heap := ⟨m.heap.blocks.setIfInBounds n (b.scattered bs i)⟩ }) := by
  induction bs generalizing i b m with
  | nil =>
    rw [Block.scattered, set_self hb]
    rfl
  | cons w bs ih =>
    rw [scatter, run_bind_ok (run_block _ _), block_eq hb,
      run_bind_ok (run_writeBlock (write_eq hb (by decide) (by decide))),
      ih (getElem?_set_self hb _), Block.scattered]
    simp only [Array.setIfInBounds_setIfInBounds]

theorem run_scatter_unknown (hn : m.heap.blocks[n]? = none) (hbs : bs ≠ []) :
    scatter n i bs m = (.error (.failed .unknown), m) := by
  cases bs with
  | nil => exact absurd rfl hbs
  | cons w bs =>
    have hwrite (offset : Nat) : m.heap.write n w.toUInt32 offset 1 = .error .unknown := by
      unfold write
      rw [hn]
    rw [scatter, run_bind_ok (run_block _ _), run_bind_error (run_writeBlock_error (hwrite _))]

/-- The text of a number is scattered behind the text before it. -/
theorem run_joinItems_textNumber (hx : x.tag = .pointer) (hy : y.tag = .int)
    (hb : m.heap.blocks[x.block]? = some b) (htag : b.tag = .char)
    (hlen : m.stack.length < stackLimit) : joinItems x y m = (.ok (),
      { m with
        stack := x :: m.stack
        heap := ⟨m.heap.blocks.setIfInBounds x.block (b.scattered (wordText y.word) 0)⟩ }) := by
  have hretag : m.heap.retag x.block .char = m.heap := by
    -- the block has the tag already
    refine congrArg mk (Array.ext_getElem? fun j => ?_)
    rw [Array.getElem?_modify]
    by_cases hj : x.block = j
    · rw [if_pos hj, ← hj, hb, Option.map_some, ← htag]
    · rw [if_neg hj]
  unfold joinItems
  rw [if_pos hx, if_neg (by rw [hy]; decide), y.textBytes_numberText (by rw [hy]; decide),
    run_bind_ok (run_modify _ _)]
  dsimp only
  rw [hretag, run_bind_ok (run_scatter hb)]
  exact run_push hlen

end Act

/-- The heap with a new block for a text, and bytes scattered behind the end of block `n`. -/
def Heap.withScattered (h : Heap) (n : Nat) (bs : List UInt8) : Heap :=
  ⟨(h.add .char).blocks.setIfInBounds n (((h.add .char).block n).scattered bs 0)⟩

namespace Heap

variable {h : Heap} {c : Block} {bs : List UInt8} {n j : Nat}

theorem getElem?_add_size (h : Heap) (t : Tag) : (h.add t).blocks[h.size]? = some { tag := t } :=
  Array.getElem?_push_size

theorem getElem?_add (hc : h.blocks[j]? = some c) (t : Tag) : (h.add t).blocks[j]? = some c := by
  obtain ⟨hlt, rfl⟩ := Array.getElem?_eq_some_iff.1 hc
  exact Array.getElem?_push_lt hlt

theorem getElem?_withScattered (n : Nat) (bs : List UInt8) (hc : (h.add .char).blocks[j]? = some c) :
    (h.withScattered n bs).blocks[j]? = some (if n = j then c.scattered bs 0 else c) := by
  have hlt : j < (h.add .char).blocks.size := (Array.getElem?_eq_some_iff.1 hc).1
  rw [withScattered, Array.getElem?_setIfInBounds]
  by_cases hnj : n = j
  · subst hnj
    rw [if_pos rfl, if_pos hlt, if_pos rfl, block_eq hc]
  · rw [if_neg hnj, if_neg hnj, hc]

end Heap

namespace Act

variable {m : Machine} {b c : Block} {x y : Item}

theorem run_scatter_add {bs : List UInt8} {n : Nat} (hn : n ≤ m.heap.size) :
    scatter n 0 bs { m with heap := m.heap.add .char } =
      (.ok (), { m with heap := m.heap.withScattered n bs }) := by
  have hlt : n < (m.heap.add .char).blocks.size := by
    rw [add, Array.size_push]
    exact Nat.lt_succ_of_le hn
  have hb := Array.getElem?_eq_getElem hlt
  rw [run_scatter (m := { m with heap := m.heap.add .char }) hb, withScattered,
    block_eq hb]

/-- If a number comes first, a text is scattered behind the block that the number would point to,
    and the other text is copied to a new block. -/
theorem run_joinItems_numberText (hx : x.tag = .int) (hy : y.tag = .pointer)
    (hle : x.block ≤ m.heap.size) (hlt : y.block < m.heap.size)
    (hb : (m.heap.withScattered x.block (wordText y.word)).blocks[m.heap.size]? = some b)
    (hc : (m.heap.withScattered x.block (wordText y.word)).blocks[y.block]? = some c)
    (hlen : m.stack.length < stackLimit) : joinItems x y m = (.ok (),
      { m with
        stack := .ofBlock m.heap.size :: m.stack
        heap := ⟨(m.heap.withScattered x.block (wordText y.word)).blocks.setIfInBounds m.heap.size
          (b.fed samePlace c.cells c.size 0)⟩ }) := by
  unfold joinItems
  rw [if_neg (by rw [hx]; decide), y.textBytes_numberText (by rw [hy]; decide),
    run_bind_ok (run_addBlock _ _), run_bind_ok (run_scatter_add hle), run_bind_ok (run_block _ _),
    block_eq hc, copyFrom_eq, run_bind_ok (run_transferFrom (Nat.ne_of_lt hlt) hc hb (Nat.le_add_left _ _))]
  exact run_push hlen

/-- There may be no such block. -/
theorem run_joinItems_unknown (hx : x.tag = .int) (hy : y.tag = .pointer)
    (hgt : m.heap.size < x.block) : (joinItems x y m).1 = .error (.failed .unknown) := by
  have hnone : (m.heap.add .char).blocks[x.block]? = none :=
    Array.getElem?_eq_none (by rw [add, Array.size_push]; exact hgt)
  unfold joinItems
  rw [if_neg (by rw [hx]; decide), y.textBytes_numberText (by rw [hy]; decide),
    run_bind_ok (run_addBlock _ _), run_bind_error (run_scatter_unknown (m := { m with heap := m.heap.add .char }) hnone
      (ne_nil_of_length_pos (length_wordText_pos _)))]

end Act

/-! ### Texts that are joined -/

namespace Machine

variable {m : Machine} {b c : Block} {x y : Item} {rest : List Item} {arg : UInt32}

/-- The text of an operand: the bytes of its block, or a number as a decimal. -/
def text (m : Machine) (x : Item) : List UInt8 :=
  if x.tag = .pointer then (m.heap.block x.block).cells.toList else wordText x.word

/-- The item is a pointer to a text. The places in it are counted with signed words. -/
def IsText (m : Machine) (x : Item) : Prop :=
  x.tag = .pointer ∧ ∃ b, m.heap.blocks[x.block]? = some b ∧ b.tag = .char ∧ b.size < 2 ^ 31

/-- The items are two different texts, or a text and an integer. -/
inductive TextOperands (m : Machine) (x y : Item) : Prop
  | texts (hx : m.IsText x) (hy : m.IsText y) (hne : x.block ≠ y.block)
  | textNumber (hx : m.IsText x) (hy : y.tag = .int)
  | numberText (hx : x.tag = .int) (hy : m.IsText y)

/-- The addition that the machine is about to execute joins the texts of its operands: it pushes a
    pointer to the text of the left one followed by the text of the right one, and the blocks of
    both show what they showed before. -/
def JoinsTexts (m : Machine) (arg : UInt32) (x y : Item) (rest : List Item) : Prop :=
  ∃ z h c, m.execute ⟨1, arg⟩ =
      .next { m with pc := m.pc + 1, stack := z :: rest, heap := h } ∧
    z.tag = .pointer ∧ h.blocks[z.block]? = some c ∧ c.tag = .char ∧
    c.cells.toList = m.text x ++ m.text y ∧
    ∀ o ∈ [x, y], o.tag = .pointer →
      ∃ b, h.blocks[o.block]? = some b ∧ (m.heap.block o.block).Alike b

/-- What is left of a block that has become larger does not show the same. -/
theorem not_kept {h : Heap} {b b' : Block} {o : Item} (hb : m.heap.blocks[o.block]? = some b)
    (hb' : h.blocks[o.block]? = some b') (hlt : b.size < b'.size) :
    ¬∃ b, h.blocks[o.block]? = some b ∧ (m.heap.block o.block).Alike b := by
  rintro ⟨b₁, hb₁, halike⟩
  obtain rfl := Option.some.inj (hb'.symm.trans hb₁)
  have := halike.size
  rw [block_eq hb] at this
  omega

/-- Texts are joined if there is nothing to join. -/
theorem joinsTexts_iff (hs : m.stack = y :: x :: rest) (hx : x.tag = .pointer)
    (hy : y.tag = .pointer) (hne : x.block ≠ y.block) (hb : m.heap.blocks[x.block]? = some b)
    (htag : b.tag = .char) (hc : m.heap.blocks[y.block]? = some c) :
    m.JoinsTexts arg x y rest ↔ c.size = 0 ∧ rest.length + 3 ≤ stackLimit := by
  have hjoin : x.isJoin y = true := by simp [Item.isJoin, hx]
  have hrun (hlen : rest.length + 3 ≤ stackLimit) :
      Act.joinItems x y { m with pc := m.pc + 1, stack := rest } = (.ok (),
        { m with
          pc := m.pc + 1
          stack := x :: rest
          heap := ⟨m.heap.blocks.setIfInBounds x.block (b.fed behindGap c.cells c.size 0)⟩ }) := by
    rw [Act.run_joinItems_texts (m := { m with pc := m.pc + 1, stack := rest }) hx hy hc,
      Act.run_bind_ok (Act.run_transferFrom (m := { m with pc := m.pc + 1, stack := rest })
        (Ne.symm hne) hc hb (Nat.le_add_left _ _))]
    exact Act.run_push (show rest.length < stackLimit by omega)
  constructor
  · rintro ⟨z, h, -, hexec, -, -, -, -, hkept⟩
    obtain ⟨hlen, hitems⟩ := (execute_add_iff hs hjoin).1 hexec
    rw [hrun hlen, Prod.mk.injEq, Machine.mk.injEq] at hitems
    obtain rfl := hitems.2.2.2.2.2.1
    refine ⟨?_, hlen⟩
    by_contra hpos
    have hgrown := Block.add_le_size_fed le_behindGap c.cells c.size 0 b
    exact not_kept hb (getElem?_set_self hb _) (by omega) (hkept x (by simp) hx)
  · rintro ⟨hempty, hlen⟩
    refine ⟨x, m.heap, b, (execute_add_iff hs hjoin).2 ⟨hlen, ?_⟩, hx, hb, htag, ?_, ?_⟩
    · rw [hrun hlen, hempty, Block.fed, set_self hb]
    · have hnil : c.cells.toList = [] :=
        eq_nil_of_length_eq_zero (c.cells.length_toList.trans hempty)
      rw [text, text, if_pos hx, if_pos hy, block_eq hb, block_eq hc, hnil,
        append_nil]
    · intro o ho _
      rw [mem_pair] at ho
      rcases ho with rfl | rfl
      · exact ⟨b, hb, block_eq hb ▸ .refl b⟩
      · exact ⟨c, hc, block_eq hc ▸ .refl c⟩

/-- A text and a number are never joined. -/
theorem not_joinsTexts_textNumber (hs : m.stack = y :: x :: rest) (hx : x.tag = .pointer)
    (hy : y.tag = .int) (hb : m.heap.blocks[x.block]? = some b) (htag : b.tag = .char) :
    ¬m.JoinsTexts arg x y rest := by
  rintro ⟨z, h, -, hexec, -, -, -, -, hkept⟩
  obtain ⟨hlen, hitems⟩ := (execute_add_iff hs (by simp [Item.isJoin, hx])).1 hexec
  rw [Act.run_joinItems_textNumber (m := { m with pc := m.pc + 1, stack := rest }) hx hy hb htag
    (show rest.length < stackLimit by omega), Prod.mk.injEq, Machine.mk.injEq] at hitems
  obtain rfl := hitems.2.2.2.2.2.1
  have hgrown := Block.add_le_size_scattered (wordText y.word) 0 b
  have hpos := length_wordText_pos y.word
  exact not_kept hb (getElem?_set_self hb _) (by omega) (hkept x (by simp) hx)

/-- Nor are a number and a text. -/
theorem not_joinsTexts_numberText (hs : m.stack = y :: x :: rest) (hheap : m.heap.size < 2 ^ 32)
    (hx : x.tag = .int) (hy : y.tag = .pointer) (hc : m.heap.blocks[y.block]? = some c)
    (hsize : c.size < 2 ^ 31) : ¬m.JoinsTexts arg x y rest := by
  rintro ⟨z, h, f, hexec, -, hz, -, htext, hkept⟩
  obtain ⟨hlen, hitems⟩ := (execute_add_iff hs (by simp [Item.isJoin, hy])).1 hexec
  rw [text, text, if_neg (by rw [hx]; decide), if_pos hy, block_eq hc] at htext
  have hlt : y.block < m.heap.size := (Array.getElem?_eq_some_iff.1 hc).1
  -- the number may be the one of a block, also of the new one, or of none
  by_cases hle : x.block ≤ m.heap.size
  · have hb₁ := getElem?_withScattered x.block (wordText y.word)
      (m.heap.getElem?_add_size .char)
    have hc₁ := getElem?_withScattered x.block (wordText y.word)
      (getElem?_add hc .char)
    rw [Act.run_joinItems_numberText (m := { m with pc := m.pc + 1, stack := rest }) hx hy hle hlt
      hb₁ hc₁ (show rest.length < stackLimit by omega), Prod.mk.injEq, Machine.mk.injEq] at hitems
    obtain ⟨-, -, -, hstack, -, rfl, -⟩ := hitems
    obtain rfl := (List.cons.inj hstack).1
    have hblock : (Item.ofBlock m.heap.size).block = m.heap.size := toNat_toUInt32 hheap
    rw [hblock, getElem?_set_self hb₁, Option.some.injEq] at hz
    subst hz
    by_cases hsame : x.block = y.block
    · -- what is copied is larger by then, so it has not been kept
      have hgrown := Block.add_le_size_scattered (wordText y.word) 0 c
      have hpos := length_wordText_pos y.word
      rw [if_pos hsame] at hc₁
      exact not_kept hc ((Array.getElem?_setIfInBounds_ne (Nat.ne_of_gt hlt)).trans hc₁) (by omega)
        (hkept y (by simp) hy)
    rw [if_neg hsame] at htext
    by_cases hfresh : x.block = m.heap.size
    · -- the new block is the one that the number points to
      rw [if_pos hfresh] at htext
      exact Block.toList_fed_scattered_ne hsize (Nat.lt_of_lt_of_eq hlt hfresh.symm) htext
    · -- the new text has no byte of the number
      have hpos := length_wordText_pos x.word
      rw [if_neg hfresh] at htext
      obtain ⟨hempty, -⟩ := Block.perm_of_toList_fed hsize hpos htext
      rw [show ({ tag := .char } : Block).size = 0 from rfl] at hempty
      omega
  · have hunknown := Act.run_joinItems_unknown (m := { m with pc := m.pc + 1, stack := rest }) hx hy
      (Nat.lt_of_not_le hle)
    rw [hitems] at hunknown
    cases hunknown

end Machine

/-- The texts of two operands are joined, and their blocks left as they are, if and only if both are
    pointers and the right one is to a text without bytes. -/
theorem text_joined_iff {m : Machine} {x y : Item} {rest : List Item} {arg : UInt32}
    (hs : m.stack = y :: x :: rest) (hheap : m.heap.size < 2 ^ 32) (hops : m.TextOperands x y) :
    m.JoinsTexts arg x y rest ↔ (x.tag = .pointer ∧ y.tag = .pointer) ∧
      (m.heap.block y.block).size = 0 ∧ rest.length + 3 ≤ stackLimit := by
  cases hops with
  | texts hx hy hne =>
    obtain ⟨hx, b, hb, htag, -⟩ := hx
    obtain ⟨hy, c, hc, -, -⟩ := hy
    rw [Machine.joinsTexts_iff hs hx hy hne hb htag hc, Heap.block_eq hc]
    exact (and_iff_right ⟨hx, hy⟩).symm
  | textNumber hx hy =>
    obtain ⟨hx, b, hb, htag, -⟩ := hx
    refine iff_of_false (Machine.not_joinsTexts_textNumber hs hx hy hb htag) fun h => ?_
    rw [hy] at h
    exact absurd h.1.2 (by decide)
  | numberText hx hy =>
    obtain ⟨hy, c, hc, -, hsize⟩ := hy
    refine iff_of_false (Machine.not_joinsTexts_numberText hs hheap hx hy hc hsize) fun h => ?_
    rw [hx] at h
    exact absurd h.1.1 (by decide)

/-- A text stays as it is when an empty one is added. -/
theorem text_joined_empty :
    Machine.JoinsTexts { twoTexts with heap := ⟨#[⟨.char, ⟨2, #[97, 98]⟩⟩, ⟨.char, {}⟩]⟩ } 0
      (.ofBlock 0) (.ofBlock 1) [] :=
  (text_joined_iff rfl (by decide) (.texts ⟨rfl, _, rfl, rfl, by decide⟩
    ⟨rfl, _, rfl, rfl, by decide⟩ (by decide))).2 ⟨⟨rfl, rfl⟩, rfl, by decide⟩

/-- Of two texts of two bytes each, one of six bytes is made, in the place of the left one. -/
theorem text_joined_gaps :
    twoTexts.text (.ofBlock 0) ++ twoTexts.text (.ofBlock 1) = [97, 98, 99, 100] ∧
      twoTexts.execute ⟨1, 0⟩ = .next
        { twoTexts with
          pc := 1
          stack := [.ofBlock 0]
          heap := ⟨#[⟨.char, ⟨6, #[97, 98, 0, 99, 0, 100]⟩⟩, ⟨.char, ⟨2, #[99, 100]⟩⟩]⟩ } :=
  ⟨rfl, rfl⟩

end StackLang
