import StackLang.Proofs.Loading

/-!
# Words in memory

What writing a word does to a segment, byte by byte, and to the memory of the machine.

* `Segment.slice_setWord` and `Segment.slice_setWord_of_disjoint`: the bytes of a word are
  where it was written, and other bytes stay.
* `Memory.load_of_store`: an item that a store does not touch reads the same after it.
* `Memory.Holds`: memory consists of integers, four bytes each. Loads give them back, stores
  change one of them, and a store at the end adds one.
-/

namespace StackLang

open Segment

/-! ### Segments -/

namespace Segment

variable {s s' : Segment} {address word : UInt32} {width a : Nat} {i j : Nat}

@[simp] theorem size_setByte (s : Segment) (i : Nat) (b : UInt8) : (s.setByte i b).size = s.size :=
  rfl

@[simp] theorem size_setWord (s : Segment) (i : Nat) (w : UInt32) (width : Nat) :
    (s.setWord i w width).size = s.size := by
  induction width generalizing s i w with
  | zero => rfl
  | succ width ih => rw [setWord, ih, size_setByte]

/-- A write at the end makes room for itself. -/
theorem write_end (s : Segment) (word : UInt32) (hw : 0 < width) (hle : width ≤ 4) :
    ∃ s', s.write endAddress word width = .ok (s', s.size) ∧ s'.size = s.size + width := by
  refine ⟨(s.grow (s.size + width)).setWord s.size word width, ?_, ?_⟩
  · unfold write
    rw [if_neg (by omega)]
    simp [grow]
  · simp [grow]

/-- A write elsewhere does not. -/
theorem write_ne (ha : address ≠ endAddress) (h : s.write address word width = .ok (s', a)) :
    s'.size = s.size := by
  unfold write at h
  split at h
  · cases h
  · dsimp only at h
    split at h
    · cases h
    · cases h
      exact size_setWord ..

/-- The bytes from a place on. -/
def slice (s : Segment) (i n : Nat) : List UInt8 := (List.range' i n).map s.byte

theorem byte_setByte (s : Segment) (i j : Nat) (b : UInt8) :
    (s.setByte i b).byte j = if j = i then b else s.byte j := by
  simp only [byte, setByte, Array.getD_eq_getD_getElem?]
  split <;> grind

/-- A word that was written elsewhere leaves a byte as it was. -/
theorem byte_setWord_of_outside (w : UInt32) (h : j < i ∨ i + width ≤ j) :
    (s.setWord i w width).byte j = s.byte j := by
  induction width generalizing s i w with
  | zero => rfl
  | succ width ih => rw [setWord, ih _ (by omega), byte_setByte, if_neg (by omega)]

/-- The bytes of a word lie where it was written. -/
theorem slice_setWord (s : Segment) (i : Nat) (w : UInt32) :
    (s.setWord i w 4).slice i 4 = wordBytes w := by
  have h₁ : w >>> 8 >>> 8 = w >>> 16 := by
    refine UInt32.toBitVec_inj.1 (BitVec.eq_of_getLsbD_eq fun k hk => ?_)
    simp
  have h₂ : w >>> 16 >>> 8 = w >>> 24 := by
    refine UInt32.toBitVec_inj.1 (BitVec.eq_of_getLsbD_eq fun k hk => ?_)
    simp
  simp [slice, setWord, byte_setByte, wordBytes, List.range', h₁, h₂, Nat.add_assoc]

/-- Bytes elsewhere stay. -/
theorem slice_setWord_of_disjoint {n : Nat} (w : UInt32) (hij : j + n ≤ i ∨ i + 4 ≤ j) :
    (s.setWord i w 4).slice j n = s.slice j n := by
  refine List.map_congr_left fun k hk => ?_
  rw [List.mem_range'_1] at hk
  exact byte_setWord_of_outside w (by omega)

theorem word_eq (s : Segment) (i : Nat) :
    s.word i 4 = wordOf (s.byte i) (s.byte (i + 1)) (s.byte (i + 2)) (s.byte (i + 3)) := by
  simp only [word, wordOf]
  refine UInt32.toBitVec_inj.1 (BitVec.eq_of_getLsbD_eq fun k hk => ?_)
  simp
  grind

/-- A word is read from its bytes. -/
theorem word_of_slice {w : UInt32} (h : s.slice i 4 = wordBytes w) : s.word i 4 = w := by
  simp only [slice, List.range', List.map_cons, List.map_nil, wordBytes, List.cons.injEq] at h
  obtain ⟨h₀, h₁, h₂, h₃, -⟩ := h
  rw [word_eq, h₀, h₁, h₂, h₃, wordOf_wordBytes]

/-- The place where a word that is written at an address goes to. -/
def place (s : Segment) (address : UInt32) : Nat :=
  if address = endAddress then s.size else address.toNat

/-- A write changes the bytes of its word, for which there is room then, and the size only at
    the end. -/
theorem write_eq_ok (h : s.write address word width = .ok (s', a)) :
    a = s.place address ∧ a + width ≤ s'.size ∧
      s'.size = s.size + (if address = endAddress then width else 0) ∧
      ∃ n, s' = setWord { s with size := n } a word width := by
  unfold write at h
  split at h
  · cases h
  · by_cases ha : address = endAddress
    · simp only [ha, if_true] at h
      split at h
      · cases h
      · rename_i hroom
        cases h
        rw [size_setWord, if_pos ha, place, if_pos ha]
        exact ⟨rfl, Nat.le_of_not_lt hroom, by simp [grow], _, rfl⟩
    · simp only [ha, if_false] at h
      split at h
      · cases h
      · rename_i hroom
        cases h
        rw [size_setWord, if_neg ha, place, if_neg ha]
        exact ⟨rfl, Nat.le_of_not_lt hroom, rfl, _, rfl⟩

/-- A word depends on its own bytes only. -/
theorem word_congr (h : ∀ j, i ≤ j → j < i + width → s.byte j = s'.byte j) :
    s.word i width = s'.word i width := by
  induction width generalizing i with
  | zero => rfl
  | succ width ih =>
    rw [word, word, h i (Nat.le_refl _) (by omega),
      ih fun j hj hlt => h j (by omega) (by omega)]

end Segment

theorem wordBytes_inj {w w' : UInt32} (h : wordBytes w = wordBytes w') : w = w' := by
  simp only [wordBytes, List.cons.injEq] at h
  obtain ⟨h₀, h₁, h₂, h₃, -⟩ := h
  rw [← wordOf_wordBytes w, h₀, h₁, h₂, h₃, wordOf_wordBytes]

/-- What memory gives back of an item: of a byte or a character, it has the lowest byte only. -/
def Item.kept (x : Item) : Item := ⟨x.tag, if x.tag.width = 1 then x.word % 256 else x.word⟩

/-- A word that was written at a place is read there. -/
theorem word_setWord_kept (s : Segment) (i : Nat) (x : Item) :
    (s.setWord i x.word x.tag.width).word i x.kept.tag.width = x.kept.word := by
  obtain ⟨t, w⟩ := x
  have hone : (s.setWord i w 1).word i 1 = w % 256 := by
    simp [setWord, word, byte_setByte]
  have hfour : (s.setWord i w 4).word i 4 = w := Segment.word_of_slice (s.slice_setWord i w)
  cases t with
  | byte | char => exact hone
  | unassigned | int | real | pointer => exact hfour

/-! ### Memory -/

namespace Memory

variable {m m' : Memory} {address w : UInt32} {x y : Item}

theorem tag_setTag (m : Memory) (i j : Nat) (t : Tag) :
    (m.setTag i t).tag j = if j = i then t else m.tag j := by
  simp only [tag, setTag, Array.getD_eq_getD_getElem?]
  split <;> grind

theorem store_eq_ok (h : m.store address x = .ok m') :
    ∃ a, m.cells.write address x.word x.tag.width = .ok (m'.cells, a) ∧
      ∀ j, m'.tag j = if j = a then x.tag else m.tag j := by
  unfold store at h
  cases hw : m.cells.write address x.word x.tag.width with
  | error t =>
    rw [hw] at h
    cases h
  | ok r =>
    rw [hw] at h
    cases h
    exact ⟨r.2, rfl, fun j => tag_setTag _ r.2 j x.tag⟩

/-- Reading gives an item back if its tag is at the address and its bytes are in memory. -/
theorem load_eq_ok_iff : m.load w = .ok x ↔ m.tag w.toNat = x.tag ∧
    w.toNat + x.tag.width ≤ m.cells.size ∧ m.cells.word w.toNat x.tag.width = x.word := by
  have hpos := (m.tag w.toNat).width_pos
  have hle := (m.tag w.toNat).width_le
  obtain ⟨t, v⟩ := x
  by_cases hin : w.toNat + (m.tag w.toNat).width ≤ m.cells.size
  · have hread : m.load w = .ok ⟨m.tag w.toNat, m.cells.word w.toNat (m.tag w.toNat).width⟩ := by
      rw [load, Segment.read, if_neg (by omega)]
      rfl
    rw [hread, Except.ok.injEq, Item.mk.injEq]
    constructor
    · rintro ⟨rfl, rfl⟩
      exact ⟨rfl, hin, rfl⟩
    · rintro ⟨rfl, -, hword⟩
      exact ⟨rfl, hword⟩
  · have hread : ∃ e, m.load w = .error e := by
      rw [load, Segment.read, if_pos (by omega)]
      exact ⟨_, rfl⟩
    obtain ⟨e, hread⟩ := hread
    rw [hread]
    refine iff_of_false nofun ?_
    rintro ⟨rfl, h, -⟩
    exact hin h

instance (m : Memory) (w : UInt32) (x : Item) : Decidable (m.load w = .ok x) :=
  decidable_of_iff _ load_eq_ok_iff.symm

/-- What a store does not touch reads the same before and after it. -/
theorem load_of_store (h : m.store address y = .ok m')
    (hout : w.toNat + x.tag.width ≤ m.cells.place address ∨
      m.cells.place address + y.tag.width ≤ w.toNat) :
    m'.load w = .ok x ↔ m.load w = .ok x := by
  have hx := x.tag.width_pos
  have hy := y.tag.width_pos
  obtain ⟨a, hw, htag⟩ := store_eq_ok h
  obtain ⟨rfl, -, hsize, n, hcells⟩ := write_eq_ok hw
  have hword : m'.cells.word w.toNat x.tag.width = m.cells.word w.toNat x.tag.width := by
    refine word_congr fun j hj hlt => ?_
    rw [hcells]
    exact byte_setWord_of_outside _ (by omega)
  have hin : w.toNat + x.tag.width ≤ m'.cells.size ↔ w.toNat + x.tag.width ≤ m.cells.size := by
    by_cases hend : address = endAddress
    · -- what lies behind the old end does not fit before the store nor after it
      rw [place, if_pos hend] at hout
      rw [if_pos hend] at hsize
      omega
    · rw [hsize, if_neg hend, Nat.add_zero]
  rw [load_eq_ok_iff, load_eq_ok_iff, htag, if_neg (by omega), hword, hin]

/-- What was stored last at an address is read there. -/
theorem load_of_store_self (h : m.store address y = .ok m')
    (hw : m.cells.place address = w.toNat) : m'.load w = .ok y.kept := by
  obtain ⟨a, hwrite, htag⟩ := store_eq_ok h
  obtain ⟨rfl, hroom, -, n, hcells⟩ := write_eq_ok hwrite
  rw [hw] at hroom hcells htag
  refine load_eq_ok_iff.2 ⟨by rw [htag, if_pos rfl]; rfl, hroom, ?_⟩
  rw [hcells]
  exact word_setWord_kept ..

/-- Memory consists of integers with these words. -/
structure Holds (m : Memory) (ws : List UInt32) : Prop where
  size : m.cells.size = 4 * ws.length
  bytes : ∀ {i w}, ws[i]? = some w → m.cells.slice (4 * i) 4 = wordBytes w
  tag : ∀ {i}, i < ws.length → m.tag (4 * i) = .int

namespace Holds

variable {ws : List UInt32} {i : Nat} {w : UInt32}

theorem initial : Holds {} [] := ⟨rfl, by simp, by simp⟩

theorem load (h : m.Holds ws) (hi : ws[i]? = some w) (ha : address.toNat = 4 * i) :
    m.load address = .ok ⟨.int, w⟩ := by
  have hlt : i < ws.length := (List.getElem?_eq_some_iff.1 hi).1
  have hread : m.cells.read address 4 = .ok w := by
    rw [Segment.read, if_neg (by rw [ha, h.size]; omega), ha, Segment.word_of_slice (h.bytes hi)]
  simp only [Memory.load, ha, h.tag hlt, Tag.width, hread]
  rfl

/-- Memory after a word has been written, if that changes one of the integers or makes room
    for it. -/
theorem change (h : m.Holds ws) (i : Nat) (w : UInt32) {ws' : List UInt32} {c : Segment} (hc : c.bytes = m.cells.bytes)
    (hsize : c.size = 4 * ws'.length) (hws : ∀ j, ws'[j]? = if j = i then some w else ws[j]?) :
    (setTag { m with cells := c.setWord (4 * i) w 4 } (4 * i) .int).Holds ws' := by
  have hslice (j n : Nat) : c.slice j n = m.cells.slice j n := by
    simp [slice, byte, hc]
  refine ⟨by simpa [setTag] using hsize, fun {j w'} hj => ?_, fun {j} hj => ?_⟩
  · rw [hws] at hj
    change (c.setWord (4 * i) w 4).slice (4 * j) 4 = _
    split at hj
    · rename_i hji
      cases hj
      rw [hji, slice_setWord]
    · rw [slice_setWord_of_disjoint w (by omega), hslice, h.bytes hj]
  · rw [tag_setTag]
    split
    · rfl
    · have hlt : j < ws.length := by
        have hj' := List.getElem?_eq_getElem hj
        rw [hws, if_neg (by omega)] at hj'
        exact (List.getElem?_eq_some_iff.1 hj').1
      exact h.tag hlt

/-- A store changes one of the integers. -/
theorem store (h : m.Holds ws) (hi : i < ws.length) (ha : address.toNat = 4 * i) (w : UInt32) :
    ∃ m', m.store address ⟨.int, w⟩ = .ok m' ∧ m'.Holds (ws.set i w) := by
  -- the address of the end is no multiple of four
  have hne : address ≠ endAddress := by
    rintro rfl
    simp [endAddress] at ha
    omega
  have hwrite : m.cells.write address w 4 = .ok (m.cells.setWord (4 * i) w 4, 4 * i) := by
    simp [write, hne, ha, h.size]
    omega
  refine ⟨_, ?_, h.change i w rfl (by simpa using h.size) fun j => ?_⟩
  · simp only [Memory.store, Tag.width, hwrite]
    rfl
  · rw [List.getElem?_set]
    grind

/-- A store at the end adds one. -/
theorem store_end (h : m.Holds ws) (w : UInt32) :
    ∃ m', m.store endAddress ⟨.int, w⟩ = .ok m' ∧ m'.Holds (ws ++ [w]) := by
  have hwrite : m.cells.write endAddress w 4 =
      .ok ((m.cells.grow (m.cells.size + 4)).setWord (4 * ws.length) w 4, 4 * ws.length) := by
    rw [← h.size]
    simp [write, grow]
  have hsize : (m.cells.grow (m.cells.size + 4)).size = 4 * (ws ++ [w]).length := by
    simp [grow, h.size]
    omega
  refine ⟨_, ?_, h.change ws.length w (c := m.cells.grow (m.cells.size + 4)) rfl hsize fun j => ?_⟩
  · simp only [Memory.store, Tag.width, hwrite]
    rfl
  · grind

end Holds

end Memory

end StackLang
