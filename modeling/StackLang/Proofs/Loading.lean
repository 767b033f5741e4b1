import StackLang.Machine.Run

/-!
# Images that are whole

An argument that writes no word makes what follows it move up. An image is whole if
that happens nowhere: then the machine loads one instruction for every slot.

* `wordOf_wordBytes`: a word is read as it was written.
* `Generator.Whole.fetch`: of a whole image, the machine fetches the instruction of
  each slot.
-/

namespace StackLang

open Image

/-- The word of the bytes of a word is the word. -/
theorem wordOf_wordBytes (w : UInt32) :
    wordOf w.toUInt8 (w >>> 8).toUInt8 (w >>> 16).toUInt8 (w >>> 24).toUInt8 = w := by
  refine UInt32.toBitVec_inj.1 (BitVec.eq_of_getLsbD_eq fun i hi => ?_)
  simp only [wordOf, UInt32.toBitVec_or, UInt32.toBitVec_shiftLeft, UInt8.toBitVec_toUInt32,
    UInt32.toBitVec_toUInt8, UInt32.toBitVec_shiftRight, BitVec.getLsbD_or]
  -- each bit lies in just one of the four bytes
  by_cases h8 : i < 8
  · simp [h8, hi, show i < 16 by omega, show i < 24 by omega]
  by_cases h16 : i < 16
  · simp [h8, h16, hi, show i < 24 by omega, show i - 8 < 32 by omega, show i - 8 < 8 by omega,
      show 8 + (i - 8) = i by omega]
  by_cases h24 : i < 24
  · simp [h8, h16, h24, hi, show ¬i - 8 < 8 by omega, show i - 16 < 32 by omega,
      show i - 16 < 8 by omega, show 16 + (i - 16) = i by omega]
  · simp [h8, h16, h24, hi, show ¬i - 8 < 8 by omega, show ¬i - 16 < 8 by omega,
      show i - 24 < 32 by omega, show i - 24 < 8 by omega, show 24 + (i - 24) = i by omega]

/-- Of the integers from minus one on, only that one is written like the end of
    memory. -/
theorem eq_neg_one_of_word {x : Int} {w : UInt32} (hx : -1 ≤ x)
    (h : argumentWord? (.int x) = .ok (some w)) : w = endAddress ↔ x = -1 := by
  rw [argumentWord?] at h
  split at h
  · rename_i hfits
    cases h
    simp only [fitsWord, Bool.and_eq_true, decide_eq_true_eq] at hfits
    constructor
    · intro heq
      have hnat := congrArg UInt32.toNat heq
      simp only [intWord, endAddress, Nat.toUInt32, UInt32.toNat_ofNat', UInt32.toNat_ofNat] at hnat
      omega
    · rintro rfl
      rfl
  · cases h

/-- Of the integers that are not negative, each is written as itself. -/
theorem eq_toNat_of_word {x : Int} {w : UInt32} (hx : 0 ≤ x)
    (h : argumentWord? (.int x) = .ok (some w)) : x = w.toNat := by
  rw [argumentWord?] at h
  split at h
  · rename_i hfits
    cases h
    simp only [fitsWord, Bool.and_eq_true, decide_eq_true_eq] at hfits
    simp only [intWord, Nat.toUInt32, UInt32.toNat_ofNat']
    omega
  · cases h

namespace Image

variable {ss : List Slot}

theorem length_writeSlots_le (ss : List Slot) : (writeSlots ss).bytes.length ≤ 5 * ss.length := by
  induction ss with
  | nil => simp [writeSlots]
  | cons s ss ih =>
    cases s with
    | bare n | label text => simp [writeSlots]
    | instruction c a =>
      rw [writeSlots]
      split
      · simp
        omega
      · rename_i word _
        cases word <;> simp [wordBytes] <;> omega

/-- If every slot writes a whole instruction, the machine loads one for each. -/
theorem loadBytes_writeSlots (hf : (writeSlots ss).fault = none)
    (hl : (writeSlots ss).bytes.length = 5 * ss.length) :
    (loadBytes (writeSlots ss).bytes).length = ss.length ∧
      ∀ (i : Nat) (s : Slot), ss[i]? = some s → ∃ c a w, s = .instruction c a ∧ argumentWord? a = .ok (some w) ∧
        (loadBytes (writeSlots ss).bytes)[i]? = some ⟨c.toUInt8, w⟩ := by
  induction ss with
  | nil => simp [writeSlots, loadBytes]
  | cons s ss ih =>
    cases s with
    | bare n | label text => simp [writeSlots] at hf
    | instruction c a =>
      have hle := length_writeSlots_le ss
      cases ha : argumentWord? a with
      | error f => simp [writeSlots, ha] at hf
      | ok word =>
        simp only [writeSlots, ha] at hf hl ⊢
        cases word with
        | none =>
          simp at hl
          omega
        | some w =>
          simp only [Option.map_some, Option.getD_some, wordBytes, List.cons_append,
            List.nil_append, List.length_cons] at hl ⊢
          obtain ⟨hlen, hall⟩ := ih hf (by omega)
          rw [loadBytes, wordOf_wordBytes]
          refine ⟨by rw [List.length_cons, hlen], fun i s hs => ?_⟩
          cases i with
          | zero =>
            rw [List.getElem?_cons_zero, Option.some.injEq] at hs
            exact ⟨c, a, w, hs.symm, ha, rfl⟩
          | succ i => exact hall i s hs

end Image

/-- The image of the code is written to its end, and every instruction has a word. -/
structure Generator.Whole (g : Generator) : Prop where
  written : (Image.write g).fault = none
  words : (Image.write g).bytes.length = 5 * g.code.size

instance (g : Generator) : Decidable g.Whole :=
  decidable_of_iff
    ((write g).fault.isNone ∧ (write g).bytes.length = 5 * g.code.size)
    ⟨fun h => ⟨Option.isNone_iff_eq_none.1 h.1, h.2⟩,
      fun h => ⟨Option.isNone_iff_eq_none.2 h.written, h.words⟩⟩

/-- The program that a machine loads from the code. -/
def Generator.program (g : Generator) : Program := Image.load (Image.write g).bytes

namespace Generator.Whole

variable {g : Generator}

theorem size (h : g.Whole) : g.program.size = g.code.size := by
  have := (loadBytes_writeSlots h.written (by simpa [write] using h.words)).1
  simpa [program, load, write] using this

/-- Every slot of a whole image is an instruction, which the machine fetches. -/
theorem fetch (h : g.Whole) {i : Nat} {s : Slot} (hs : g.code[i]? = some s) :
    ∃ c a w, s = .instruction c a ∧ argumentWord? a = .ok (some w) ∧
      g.program[i]? = some ⟨c.toUInt8, w⟩ := by
  have := (loadBytes_writeSlots h.written (by simpa [write] using h.words)).2 i s
    (by simpa using hs)
  simpa [program, load, write] using this

end Generator.Whole

end StackLang
