import Mathlib.Data.List.Forall2
import StackLang.Proofs.Loading

/-!
# Images written and loaded

Writing and loading an image undo each other. What an argument comes to in an
image is said without the writer, as its *pattern* (`Argument.Pattern`): the word
whose signed value the integer is, one or zero for a truth value, the bits of the
nearest single for a real.

* `Image.argumentWord?_eq_some_iff`: the word that an argument writes is its
  pattern, so an argument writes a word just if it has one;
* `Image.forall₂_loadBytes`: of instructions whose arguments have patterns, the
  machine loads the numbers and the patterns, in order;
* `Image.writeSlots_loadBytes`: whole instructions that are loaded and written
  again give the bytes they were loaded from.
-/

namespace StackLang

namespace Argument

/-- The word that stands for an argument in an image. Texts and lists have none,
    and neither have integers beyond the signed words. -/
inductive Pattern : Argument → UInt32 → Prop
  | int (w : UInt32) : Pattern (.int (wordInt w)) w
  | bool (b : Bool) : Pattern (.atom (.bool b)) (if b then 1 else 0)
  | real (x : Real64) : Pattern (.atom (.real x)) (Real32.ofReal64 x).bits

/-- Whether an argument is a number: a text, a list and nothing at all are none. -/
def isNumber : Argument → Bool
  | .atom (.int _) | .atom (.bool _) | .atom (.real _) => true
  | _ => false

/-- Whether an argument is a number that an image has room for. -/
def fits : Argument → Bool
  | .atom (.int n) => fitsWord n
  | a => a.isNumber

end Argument

/-! ### Words and bytes -/

theorem fitsWord_iff {n : Int} : fitsWord n = true ↔ -0x80000000 ≤ n ∧ n < 0x80000000 := by
  simp [fitsWord]

theorem wordInt_eq (w : UInt32) : wordInt w = w.toBitVec.toInt := rfl

theorem intWord_eq (n : Int) : intWord n = UInt32.ofBitVec (BitVec.ofInt 32 n) := by
  apply UInt32.toNat_inj.1
  simp only [intWord, Nat.toUInt32_eq, UInt32.toNat_ofNat', UInt32.toNat_ofBitVec,
    BitVec.toNat_ofInt]
  omega

theorem fitsWord_wordInt (w : UInt32) : fitsWord (wordInt w) = true := by
  rw [fitsWord_iff, wordInt_eq]
  have hlo := w.toBitVec.le_toInt
  have hhi := w.toBitVec.toInt_lt
  omega

/-- A word is the word of its signed value. -/
theorem intWord_wordInt (w : UInt32) : intWord (wordInt w) = w := by
  rw [intWord_eq, wordInt_eq, BitVec.ofInt_toInt]

/-- An integer that fits is the signed value of its word. -/
theorem wordInt_intWord {n : Int} (h : fitsWord n) : wordInt (intWord n) = n := by
  rw [fitsWord_iff] at h
  rw [intWord_eq, wordInt_eq, BitVec.toInt_ofInt]
  exact Int.bmod_eq_of_le (by omega) (by omega)

/-- Each bit of a word is a bit of one of its bytes. -/
theorem getLsbD_wordOf (a b c d : UInt8) {i : Nat} (hi : i < 32) :
    (wordOf a b c d).toBitVec.getLsbD i =
      if i < 8 then a.toBitVec.getLsbD i else if i < 16 then b.toBitVec.getLsbD (i - 8)
      else if i < 24 then c.toBitVec.getLsbD (i - 16) else d.toBitVec.getLsbD (i - 24) := by
  have beyond (x : UInt8) {j : Nat} (hj : 8 ≤ j) : x.toBitVec.getLsbD j = false :=
    BitVec.getLsbD_of_ge _ _ hj
  simp only [wordOf, UInt32.toBitVec_or, UInt32.toBitVec_shiftLeft, UInt8.toBitVec_toUInt32,
    BitVec.getLsbD_or]
  split_ifs with h8 h16 h24
  · simp [h8, hi, show i < 16 by omega, show i < 24 by omega]
  · simp [h8, h16, hi, show i < 24 by omega, beyond a (show 8 ≤ i by omega)]
  · simp [h8, h16, h24, hi, beyond a (show 8 ≤ i by omega), beyond b (show 8 ≤ i - 8 by omega)]
  · simp [h8, h16, h24, hi, beyond a (show 8 ≤ i by omega), beyond b (show 8 ≤ i - 8 by omega),
      beyond c (show 8 ≤ i - 16 by omega)]

/-- The bytes of the word of four bytes are those bytes. -/
theorem wordBytes_wordOf (a b c d : UInt8) : wordBytes (wordOf a b c d) = [a, b, c, d] := by
  simp only [wordBytes, List.cons.injEq, and_true]
  refine ⟨?_, ?_, ?_, ?_⟩ <;>
    refine UInt8.toBitVec_inj.1 (BitVec.eq_of_getLsbD_eq fun i hi => ?_)
  · simp [-BitVec.getLsbD_eq_getElem, getLsbD_wordOf, hi, show i < 32 by omega]
  · simp [-BitVec.getLsbD_eq_getElem, getLsbD_wordOf, hi, show 8 + i < 32 by omega,
      show 8 + i < 16 by omega]
  · simp [-BitVec.getLsbD_eq_getElem, getLsbD_wordOf, hi, show 16 + i < 32 by omega,
      show ¬16 + i < 8 by omega, show ¬16 + i < 16 by omega, show 16 + i < 24 by omega]
  · simp [-BitVec.getLsbD_eq_getElem, getLsbD_wordOf, hi, show 24 + i < 32 by omega,
      show ¬24 + i < 8 by omega, show ¬24 + i < 16 by omega, show ¬24 + i < 24 by omega]

theorem Argument.Pattern.of_fitsWord {n : Int} (h : fitsWord n) : Pattern (.int n) (intWord n) := by
  simpa only [wordInt_intWord h] using Pattern.int (intWord n)

namespace Image

variable {a : Argument} {w : UInt32}

/-- The word that an argument writes is its pattern. -/
theorem argumentWord?_eq_some_iff : argumentWord? a = .ok (some w) ↔ a.Pattern w := by
  constructor
  · fun_cases argumentWord? a with
    | case1 n hn =>
      simp only [Except.ok.injEq, Option.some.injEq]
      rintro rfl
      exact .of_fitsWord hn
    | case2 n hn | case5 a =>
      intro h
      cases h
    | case3 b =>
      simp only [Except.ok.injEq, Option.some.injEq]
      rintro rfl
      exact .bool b
    | case4 x =>
      simp only [Except.ok.injEq, Option.some.injEq]
      rintro rfl
      exact .real x
  · rintro (w | b | x)
    · simp [argumentWord?, fitsWord_wordInt, intWord_wordInt]
    all_goals rfl

/-- Just the numbers that fit have a pattern. -/
theorem fits_iff : a.fits ↔ ∃ w, a.Pattern w := by
  constructor
  · intro h
    cases a with
    | nodes xs => cases h
    | atom x =>
      cases x with
      | int n => exact ⟨_, .of_fitsWord h⟩
      | bool b => exact ⟨_, .bool b⟩
      | real x => exact ⟨_, .real x⟩
      | nothing | text => cases h
  · rintro ⟨_, h⟩
    cases h with
    | int w => exact fitsWord_wordInt _
    | bool b | real x => rfl

theorem writeSlots_instruction (h : a.Pattern w) (c : Nat) (ss : List Slot) :
    writeSlots (.instruction c a :: ss) =
      ⟨c.toUInt8 :: (wordBytes w ++ (writeSlots ss).bytes), (writeSlots ss).fault⟩ := by
  simp [writeSlots, argumentWord?_eq_some_iff.2 h]

theorem loadBytes_wordBytes (c : UInt8) (w : UInt32) (bytes : List UInt8) :
    loadBytes (c :: (wordBytes w ++ bytes)) = ⟨c, w⟩ :: loadBytes bytes := by
  simp [wordBytes, loadBytes, wordOf_wordBytes]

/-- Instructions whose arguments fit are written to the end, and the machine loads
    their numbers and the patterns of their arguments. -/
theorem forall₂_loadBytes {is : List (Nat × Argument)} (h : ∀ i ∈ is, i.1 < 256 ∧ i.2.fits) :
    (writeSlots (is.map fun i => .instruction i.1 i.2)).fault = none ∧
      List.Forall₂ (fun i j => j.code.toNat = i.1 ∧ i.2.Pattern j.arg) is
        (loadBytes (writeSlots (is.map fun i => .instruction i.1 i.2)).bytes) := by
  induction is with
  | nil => exact ⟨rfl, .nil⟩
  | cons i is ih =>
    obtain ⟨hc, ha⟩ := h i List.mem_cons_self
    obtain ⟨w, hw⟩ := fits_iff.1 ha
    obtain ⟨hf, hl⟩ := ih fun j hj => h j (List.mem_cons_of_mem _ hj)
    rw [List.map_cons, writeSlots_instruction hw, loadBytes_wordBytes]
    exact ⟨hf, .cons ⟨by simpa using hc, hw⟩ hl⟩

/-- Whole instructions, written as they were loaded, are the bytes again. -/
theorem writeSlots_loadBytes (bytes : List UInt8) (h : 5 ∣ bytes.length) :
    writeSlots ((loadBytes bytes).map fun i => .instruction i.code.toNat (.int (wordInt i.arg))) =
      ⟨bytes, none⟩ := by
  fun_induction loadBytes bytes with
  | case1 code a b c d rest ih =>
    have hrest : 5 ∣ rest.length := by
      simp only [List.length_cons] at h
      omega
    rw [List.map_cons, writeSlots_instruction (.int _), ih hrest, wordBytes_wordOf]
    simp
  | case2 bytes hshort =>
    -- fewer than five bytes, and five divides their number: none
    have hlt : bytes.length < 5 := by
      rcases bytes with _ | ⟨code, _ | ⟨a, _ | ⟨b, _ | ⟨c, _ | ⟨d, rest⟩⟩⟩⟩⟩
      case cons.cons.cons.cons.cons => exact (hshort code a b c d rest rfl).elim
      all_goals simp
    obtain rfl : bytes = [] := List.length_eq_zero_iff.1 (by omega)
    rfl

end Image

/-- Writing and loading undo each other. Of instructions with numbers below 256
    and arguments that fit, the machine loads as many instructions, in order, with
    the same numbers and the patterns of the arguments. And of bytes that make
    whole instructions, the instructions that the machine loads, with their
    arguments read as signed words, are written as the same bytes. -/
theorem image_round_trip :
    (∀ is : List (Nat × Argument), (∀ i ∈ is, i.1 < 256 ∧ i.2.fits) →
      let written := Image.writeSlots (is.map fun i => .instruction i.1 i.2)
      written.fault = none ∧
        List.Forall₂ (fun i j => j.code.toNat = i.1 ∧ i.2.Pattern j.arg) is
          (Image.load written.bytes).toList) ∧
    (∀ bytes : List UInt8, 5 ∣ bytes.length →
      Image.writeSlots ((Image.load bytes).toList.map fun i =>
        .instruction i.code.toNat (.int (wordInt i.arg))) = ⟨bytes, none⟩) := by
  refine ⟨fun is h => ?_, fun bytes h => ?_⟩
  · simpa only [Image.load] using Image.forall₂_loadBytes h
  · simpa only [Image.load] using Image.writeSlots_loadBytes bytes h

/-- The least word, a real and a truth value come back as their patterns, and so do
    the bytes of the greatest word. -/
theorem image_round_trip_mixed :
    let is : List (Nat × Argument) :=
      [(0x13, .int (-0x80000000)), (0x11, .atom (.real ⟨0x3FF8000000000000⟩)),
        (0xFF, .atom (.bool true))]
    let bytes : List UInt8 := [0x0F, 0xFF, 0xFF, 0xFF, 0x7F]
    (∀ i ∈ is, i.1 < 256 ∧ i.2.fits) ∧ 5 ∣ bytes.length ∧
      List.Forall₂ (fun i j => j.code.toNat = i.1 ∧ i.2.Pattern j.arg) is
        (Image.load (Image.writeSlots (is.map fun i => .instruction i.1 i.2)).bytes).toList ∧
      Image.writeSlots [.instruction 0x0F (.int 0x7FFFFFFF)] = ⟨bytes, none⟩ := by
  intro is bytes
  have hfits : ∀ i ∈ is, i.1 < 256 ∧ i.2.fits := by
    simp [is, Argument.fits, Argument.isNumber, fitsWord]
  have hbytes : 5 ∣ bytes.length := by decide
  exact ⟨hfits, hbytes, (image_round_trip.1 is hfits).2, image_round_trip.2 bytes hbytes⟩

end StackLang
