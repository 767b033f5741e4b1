import StackLang.Proofs.TextJoin

/-!
# Texts in lower and in upper case

Two functions push a copy of a text with its letters in one case. The copy is made byte by byte in a
new block, which is then changed byte by byte in its place.

* `LetterCase.builtin_number`: the functions change each byte as the character that it stands for;
* `Act.run_mapText`: what the two loops leave in the new block;
* `letter_case_mapped`: the text that is pushed, and that only the case that was taken last counts.
-/

namespace StackLang

/-- The cases of letters. -/
inductive LetterCase where
  | lower
  | upper
  deriving DecidableEq, Repr

namespace LetterCase

/-- The number of the function that pushes a text in a case. -/
def number : LetterCase → UInt32
  | lower => 17
  | upper => 18

/-- A character in a case. -/
def onChar : LetterCase → Char → Char
  | lower => Char.toLower
  | upper => Char.toUpper

/-- A byte in a case, as the character of its number. -/
def onByte (k : LetterCase) (b : UInt8) : UInt8 := (k.onChar (Char.ofUInt8 b)).toUInt8

/-- Where the character of a byte is, the byte is. -/
theorem char_mem_iff (c d : Char) {b : UInt8} :
    c.val ≤ (Char.ofUInt8 b).val ∧ (Char.ofUInt8 b).val ≤ d.val ↔
      c.toNat ≤ b.toNat ∧ b.toNat ≤ d.toNat := by
  rw [UInt32.le_iff_toNat_le, UInt32.le_iff_toNat_le]
  change c.toNat ≤ b.toUInt32.toNat ∧ b.toUInt32.toNat ≤ d.toNat ↔ _
  rw [UInt8.toNat_toUInt32]

theorem toNat_onByte_lower (b : UInt8) : (lower.onByte b).toNat =
    if 65 ≤ b.toNat ∧ b.toNat ≤ 90 then b.toNat + 32 else b.toNat := by
  rw [onByte, onChar]
  delta Char.toLower
  by_cases h : 65 ≤ b.toNat ∧ b.toNat ≤ 90
  · rw [if_pos h, dif_pos ((char_mem_iff 'A' 'Z').2 h)]
    change (b.toUInt32 + 32).toUInt8.toNat = _
    rw [UInt32.toNat_toUInt8, UInt32.toNat_add, UInt8.toNat_toUInt32]
    change (b.toNat + 32) % _ % _ = _
    omega
  · rw [if_neg h, dif_neg (mt (char_mem_iff 'A' 'Z').1 h)]
    exact congrArg UInt8.toNat (UInt8.toUInt8_toUInt32 b)

theorem toNat_onByte_upper (b : UInt8) : (upper.onByte b).toNat =
    if 97 ≤ b.toNat ∧ b.toNat ≤ 122 then b.toNat - 32 else b.toNat := by
  rw [onByte, onChar]
  delta Char.toUpper
  by_cases h : 97 ≤ b.toNat ∧ b.toNat ≤ 122
  · rw [if_pos h, dif_pos ((char_mem_iff 'a' 'z').2 h)]
    -- the distance between the cases is negative, so it is a word close to `2 ^ 32`
    change (b.toUInt32 + 4294967264).toUInt8.toNat = _
    rw [UInt32.toNat_toUInt8, UInt32.toNat_add, UInt8.toNat_toUInt32]
    change (b.toNat + 4294967264) % _ % _ = _
    omega
  · rw [if_neg h, dif_neg (mt (char_mem_iff 'a' 'z').1 h)]
    exact congrArg UInt8.toNat (UInt8.toUInt8_toUInt32 b)

theorem lowerByte_eq : Act.lowerByte = lower.onByte := by
  funext b
  rw [← UInt8.toNat_inj, toNat_onByte_lower, Act.lowerByte]
  simp only [UInt8.le_iff_toNat_le, Bool.and_eq_true, decide_eq_true_eq, UInt8.reduceToNat]
  by_cases h : 65 ≤ b.toNat ∧ b.toNat ≤ 90
  · rw [if_pos h, if_pos h, UInt8.toNat_add]
    change (b.toNat + 32) % _ = _
    omega
  · rw [if_neg h, if_neg h]

theorem upperByte_eq : Act.upperByte = upper.onByte := by
  funext b
  rw [← UInt8.toNat_inj, toNat_onByte_upper, Act.upperByte]
  simp only [UInt8.le_iff_toNat_le, Bool.and_eq_true, decide_eq_true_eq, UInt8.reduceToNat]
  by_cases h : 97 ≤ b.toNat ∧ b.toNat ≤ 122
  · rw [if_pos h, if_pos h, UInt8.toNat_sub]
    change (2 ^ 8 - 32 + b.toNat) % _ = _
    omega
  · rw [if_neg h, if_neg h]

theorem builtin_number (k : LetterCase) : Act.builtin k.number = Act.mapText k.onByte := by
  cases k with
  | lower => exact congrArg Act.mapText lowerByte_eq
  | upper => exact congrArg Act.mapText upperByte_eq

/-- Only the case that is taken last counts. -/
theorem onByte_onByte (k k' : LetterCase) (b : UInt8) : k'.onByte (k.onByte b) = k'.onByte b := by
  have hlt := b.toNat_lt
  rw [← UInt8.toNat_inj]
  cases k <;> cases k' <;> simp only [toNat_onByte_lower, toNat_onByte_upper] <;> grind

end LetterCase

/-! ### Changing the bytes of a block -/

namespace Block

variable {b : Block} {f : Nat → UInt8} {n j : Nat}

/-- The block after the bytes at its first places were written one after the other. -/
def changed (b : Block) (f : Nat → UInt8) : (n : Nat) → Block
  | 0 => b
  | n + 1 => (b.changed f n).written (f n).toUInt32 n 1

@[simp] theorem tag_changed (b : Block) (f : Nat → UInt8) (n : Nat) :
    (b.changed f n).tag = b.tag := by
  induction n with
  | zero => rfl
  | succ n ih => rw [changed, tag_written, ih]

theorem size_changed (h : n < 2 ^ 32) : (b.changed f n).size = max b.size n := by
  induction n with
  | zero => exact (Nat.max_zero b.size).symm
  | succ n ih =>
    rw [changed, size_written h, ih (Nat.lt_of_succ_lt h)]
    omega

theorem byte_changed (h : n < 2 ^ 32) :
    (b.changed f n).cells.byte j = if j < n then f j else b.cells.byte j := by
  induction n with
  | zero => rfl
  | succ n ih =>
    rw [changed, byte_written h, ih (Nat.lt_of_succ_lt h)]
    by_cases hj : j = n
    · rw [if_pos hj, hj, if_pos (Nat.lt_succ_self n), UInt8.toUInt8_toUInt32]
    · have hlt : j < n ↔ j < n + 1 := by omega
      rw [if_neg hj]
      simp only [hlt]

/-- Writing all bytes of a block leaves just these. -/
theorem toList_changed (h : b.size < 2 ^ 32) :
    (b.changed f b.size).cells.toList = (List.range b.size).map f := by
  have hsize : (b.changed f b.size).cells.size = b.size :=
    (size_changed h).trans (Nat.max_self b.size)
  rw [Segment.toList, hsize]
  refine List.map_congr_left fun i hi => ?_
  rw [byte_changed h, if_pos (List.mem_range.1 hi)]

end Block

namespace Heap

variable {h : Heap} {b : Block} {n i : Nat}

theorem read_byte (hb : h.blocks[n]? = some b) (hi : i < b.size) (hlt : i < 2 ^ 32) :
    h.read n i 1 = .ok (b.cells.byte i).toUInt32 := by
  have hin : i < b.cells.size := hi
  unfold read
  rw [hb]
  dsimp only
  rw [Segment.read, toNat_toUInt32 hlt, if_neg (by omega), Segment.word, Segment.word]
  simp

end Heap

namespace Act

variable {m : Machine} {b c : Block} {bs : Array Block} {f : UInt8 → UInt8} {n : Nat}

theorem run_addCopy (hb : m.heap.blocks[n]? = some b) (t : Tag) :
    addCopy n (some t) m = (.ok (b, m.heap.size),
      { m with heap := ⟨m.heap.blocks.push ⟨t, ⟨b.size, #[]⟩⟩⟩ }) := by
  obtain ⟨hn, -⟩ := Array.getElem?_eq_some_iff.1 hb
  have hgrown : (m.heap.blocks.push { tag := t }).modify m.heap.size
      (fun c => { c with cells := c.cells.grow b.size }) =
      m.heap.blocks.push ⟨t, ⟨b.size, #[]⟩⟩ := by
    refine Array.ext_getElem? fun i => ?_
    rw [Array.getElem?_modify, Array.getElem?_push, Array.getElem?_push]
    by_cases hi : m.heap.size = i
    · subst hi
      simp [Segment.grow]
    · simp [hi, Ne.symm hi]
  unfold addCopy
  rw [run_get_bind, if_neg (Nat.not_le.2 hn)]
  dsimp only
  rw [run_bind_ok (run_block _ _), run_bind_ok (run_addBlock _ _), run_bind_ok (run_modify _ _)]
  simp only [Heap.block_eq hb, Option.getD_some, Heap.add, hgrown]
  rfl

/-- The bytes of a block are copied to the front of the newest one. -/
theorem run_copyWords (m : Machine) (hb : bs[n]? = some b) (c : Block) (hsize : b.size < 2 ^ 32) :
    copyWords n bs.size .char b.size { m with heap := ⟨bs.push c⟩ } =
      (.ok (), { m with heap := ⟨bs.push (c.changed b.cells.byte b.size)⟩ }) := by
  unfold copyWords
  refine run_bind_ok (run_forIn_range (fun _ => PUnit.unit)
    (fun i => { m with heap := ⟨bs.push (c.changed b.cells.byte i)⟩ }) fun i hi => ?_)
  rw [show Tag.char.width = 1 from rfl, Nat.mul_one,
    run_bind_ok (run_readBlock (Heap.read_byte (Heap.getElem?_older hb _) hi (Nat.lt_trans hi hsize))),
    run_bind_ok (run_writeBlock (Heap.write_eq Array.getElem?_push_size Nat.one_pos (by decide))),
    Heap.set_newest]
  rfl

/-- The bytes of the newest block are changed in their places. -/
theorem run_mapBytes (m : Machine) (bs : Array Block) (hsize : c.size < 2 ^ 32) :
    (forIn (List.range c.size) PUnit.unit fun i _ => do
      let w ← readBlock bs.size i 1
      writeBlock bs.size (f w.toUInt8).toUInt32 i 1
      pure (.yield PUnit.unit) : Act PUnit) { m with heap := ⟨bs.push c⟩ } =
      (.ok (), { m with heap := ⟨bs.push (c.changed (fun i => f (c.cells.byte i)) c.size)⟩ }) := by
  refine run_forIn_range (fun _ => PUnit.unit)
    (fun i => { m with heap := ⟨bs.push (c.changed (fun i => f (c.cells.byte i)) i)⟩ }) fun i hi => ?_
  have hlt := Nat.lt_trans hi hsize
  -- the bytes from place `i` on are still to be changed
  have hbyte : (c.changed (fun i => f (c.cells.byte i)) i).cells.byte i = c.cells.byte i := by
    rw [Block.byte_changed hlt, if_neg (Nat.lt_irrefl i)]
  have hin : i < (c.changed (fun i => f (c.cells.byte i)) i).size := by
    rw [Block.size_changed hlt]
    exact Nat.lt_of_lt_of_le hi (Nat.le_max_left _ _)
  rw [run_bind_ok (run_readBlock (Heap.read_byte Array.getElem?_push_size hin hlt)),
    run_bind_ok (run_writeBlock (Heap.write_eq Array.getElem?_push_size Nat.one_pos (by decide))),
    Heap.set_newest, hbyte, UInt8.toUInt8_toUInt32]
  rfl

end Act

namespace Block

variable {b : Block} (f : UInt8 → UInt8)

/-- A copy of a text in a new block. -/
def textCopy (b : Block) : Block := .changed ⟨.char, ⟨b.size, #[]⟩⟩ b.cells.byte b.size

/-- A copy of a text with its bytes changed. -/
def mapped (b : Block) : Block :=
  b.textCopy.changed (fun i => f (b.textCopy.cells.byte i)) b.textCopy.size

@[simp] theorem tag_mapped (b : Block) : (b.mapped f).tag = .char := by
  rw [mapped, textCopy, tag_changed, tag_changed]

theorem size_textCopy (h : b.size < 2 ^ 32) : b.textCopy.size = b.size :=
  (size_changed h).trans (Nat.max_self b.size)

theorem toList_mapped (h : b.size < 2 ^ 32) :
    (b.mapped f).cells.toList = b.cells.toList.map f := by
  have hsize := size_textCopy h
  rw [mapped, toList_changed (by rwa [hsize]), hsize, Segment.toList, List.map_map]
  refine List.map_congr_left fun i hi => ?_
  rw [textCopy, byte_changed h, if_pos (List.mem_range.1 hi)]
  rfl

end Block

namespace Act

variable {m : Machine} {b : Block} {text : Item} {rest : List Item}

theorem run_duplicate_text (hb : m.heap.blocks[text.block]? = some b) (hsize : b.size < 2 ^ 32) :
    duplicate text.block .char 1 m =
      (.ok m.heap.size, { m with heap := ⟨m.heap.blocks.push b.textCopy⟩ }) := by
  unfold duplicate
  rw [run_bind_ok (run_addCopy hb .char)]
  exact run_bind_ok (run_copyWords m hb _ hsize)

/-- A text is copied, the copy is changed, and a pointer to it is pushed. -/
theorem run_mapText (f : UInt8 → UInt8) (hs : m.stack = text :: rest)
    (hlen : m.stack.length ≤ stackLimit) (hb : m.heap.blocks[text.block]? = some b)
    (htag : b.tag = .char) (hsize : b.size < 2 ^ 32) :
    mapText f m = (.ok (),
      { m with
        stack := .ofBlock m.heap.size :: rest
        heap := ⟨m.heap.blocks.push (b.mapped f)⟩ }) := by
  have hcopy : b.textCopy.size < 2 ^ 32 := by rwa [Block.size_textCopy hsize]
  have hnew : Heap.block ⟨m.heap.blocks.push b.textCopy⟩ m.heap.size = b.textCopy :=
    Heap.block_eq Array.getElem?_push_size
  unfold mapText
  rw [run_bind_ok (run_pop hs), run_bind_ok (run_block _ _)]
  dsimp only
  rw [Heap.block_eq hb, if_neg (not_not_intro htag),
    run_bind_ok (run_duplicate_text (m := { m with stack := rest }) hb hsize),
    run_bind_ok (run_block _ _)]
  dsimp only
  rw [hnew]
  refine (run_bind_ok (run_mapBytes { m with stack := rest } m.heap.blocks hcopy)).trans (run_push ?_)
  rw [hs] at hlen
  exact hlen

end Act

/-- The function turns one text into another: wherever a pointer to the first one is on top of a
    stack, it takes that and pushes a pointer to a new block with the second one. Nothing else
    changes. -/
def LetterCase.Maps (k : LetterCase) (b c : Block) : Prop :=
  ∀ (m : Machine) (text : Item) (rest : List Item), m.stack = text :: rest →
    m.stack.length ≤ stackLimit → m.heap.blocks[text.block]? = some b → m.heap.size < 2 ^ 32 →
    ∃ new : Item, new.tag = .pointer ∧ new.block = m.heap.size ∧ m.execute ⟨0xFF, k.number⟩ = .next
      { m with pc := m.pc + 1, stack := new :: rest, heap := ⟨m.heap.blocks.push c⟩ }

theorem LetterCase.maps_mapped (k : LetterCase) {b : Block} (htag : b.tag = .char)
    (hsize : b.size < 2 ^ 32) : k.Maps b (b.mapped k.onByte) := by
  intro m text rest hs hlen hb hheap
  refine ⟨.ofBlock m.heap.size, rfl, toNat_toUInt32 hheap, Machine.execute_of_perform rfl ?_⟩
  change Act.builtin k.number _ = _
  rw [k.builtin_number]
  exact Act.run_mapText (m := m.onward) k.onByte hs hlen hb htag hsize

/-- A text that can be addressed by words is pushed in the other case, byte by byte, and of two cases
    that are taken one after the other the second one alone gives the same text. -/
theorem letter_case_mapped (k : LetterCase) {b : Block} (htag : b.tag = .char)
    (hsize : b.size < 2 ^ 32) :
    ∃ c, k.Maps b c ∧ c.tag = .char ∧ c.size = b.size ∧
      c.cells.toList = b.cells.toList.map k.onByte ∧
      ∀ k' : LetterCase, ∃ d d', k'.Maps b d ∧ k'.Maps c d' ∧ d'.cells.toList = d.cells.toList := by
  have hlist := b.toList_mapped k.onByte hsize
  have hsame : (b.mapped k.onByte).size = b.size := by
    rw [Block.size, ← Segment.length_toList, hlist, List.length_map, Segment.length_toList]
  refine ⟨b.mapped k.onByte, k.maps_mapped htag hsize, Block.tag_mapped _ b, hsame, hlist,
    fun k' => ⟨_, _, k'.maps_mapped htag hsize,
      k'.maps_mapped (Block.tag_mapped _ b) (hsame ▸ hsize), ?_⟩⟩
  rw [Block.toList_mapped _ (hsame ▸ hsize), hlist, Block.toList_mapped _ hsize, List.map_map]
  exact List.map_congr_left fun x _ => k.onByte_onByte k' x

/-- A text with a small letter, a capital and the signs right before and behind the letters. -/
theorem letter_case_mapped_mixed :
    let b : Block := ⟨.char, ⟨6, #[97, 90, 64, 91, 96, 123]⟩⟩
    b.tag = .char ∧ b.size < 2 ^ 32 ∧
      ∃ c, LetterCase.upper.Maps b c ∧ c.cells.toList = [65, 90, 64, 91, 96, 123] := by
  obtain ⟨c, hmaps, -, -, hlist, -⟩ := letter_case_mapped .upper
    (b := ⟨.char, ⟨6, #[97, 90, 64, 91, 96, 123]⟩⟩) rfl (by decide)
  exact ⟨rfl, by decide, c, hmaps, hlist.trans rfl⟩

end StackLang
