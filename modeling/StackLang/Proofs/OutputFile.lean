import Mathlib.Logic.Function.Basic
import StackLang.CommandLine
import StackLang.Proofs.RoundTrip

/-!
# What a failed compilation leaves

A run of the compiler that fails while it reads the arguments, the source, the tokens, the
tree or the code has not opened its result, so every file stays as it was. The writer of
images opens the result before it looks at the code. It stops at the first slot that no
image can hold, and what stands before that slot is then all that the file holds.

* `Image.exists_of_fault`: where the writer stops, and what it has written by then.
* `Compilation.run_failed`: a failed run wrote nothing, or the image of its code up to there.
* `output_kept_iff`: a file is as before a failed run iff it is not the result, there is no
  code, or it held those bytes already.
-/

namespace StackLang

/-! ### Where the writer stops -/

/-- A slot that no image can hold: one without an instruction, or with an integer that is
    no word. -/
inductive Slot.Unwritable : Slot → Prop
  | bare (n : Nat) : Unwritable (.bare n)
  | label (text : String) : Unwritable (.label text)
  | wide (code : Nat) {n : Int} (h : n < -0x80000000 ∨ 0x80000000 ≤ n) :
    Unwritable (.instruction code (.atom (.int n)))

/-- What is written of a slot that no image can hold: the number of its instruction, if it
    has one. -/
def Slot.start : Slot → List UInt8
  | .instruction code _ => [code.toUInt8]
  | _ => []

namespace Image

variable {ss : List Slot} {a : Argument} {f : Fault}

/-- An argument has no word only if it is an integer out of range. -/
theorem wide_of_argumentWord? (h : argumentWord? a = .error f) :
    ∃ n : Int, a = .atom (.int n) ∧ (n < -0x80000000 ∨ 0x80000000 ≤ n) := by
  fun_cases argumentWord? a with
  | case1 n hfits => simp [argumentWord?, hfits] at h
  | case2 n hfits =>
    refine ⟨n, rfl, ?_⟩
    rw [fitsWord_iff] at hfits
    omega
  | case3 b | case4 x => simp [argumentWord?] at h
  | case5 a _ _ _ => simp_all [argumentWord?]

/-- The writer stops at the first slot that no image can hold. -/
theorem exists_of_fault (h : (writeSlots ss).fault = some f) :
    ∃ front slot rest, ss = front ++ slot :: rest ∧ slot.Unwritable ∧
      (writeSlots front).fault = none ∧
      (writeSlots ss).bytes = (writeSlots front).bytes ++ slot.start := by
  induction ss with
  | nil => cases h
  | cons s ss ih =>
    cases s with
    | bare n => exact ⟨[], .bare n, ss, rfl, .bare n, rfl, rfl⟩
    | label text => exact ⟨[], .label text, ss, rfl, .label text, rfl, rfl⟩
    | instruction c a =>
      cases ha : argumentWord? a with
      | error e =>
        obtain ⟨n, rfl, hn⟩ := wide_of_argumentWord? ha
        refine ⟨[], .instruction c (.atom (.int n)), ss, rfl, .wide c hn, rfl, ?_⟩
        simp [writeSlots, ha, Slot.start]
      | ok word =>
        simp only [writeSlots, ha] at h
        obtain ⟨front, slot, rest, rfl, hslot, hfront, hbytes⟩ := ih h
        refine ⟨.instruction c a :: front, slot, rest, rfl, hslot, ?_, ?_⟩
        · simp [writeSlots, ha, hfront]
        · simp [writeSlots, ha, hbytes]

/-- The slots before the one where the writer stops are the same however the code is cut. -/
theorem writeSlots_of_unwritable {front rest : List Slot} {slot : Slot} (hslot : slot.Unwritable)
    (hfront : (writeSlots front).fault = none) :
    (writeSlots (front ++ slot :: rest)).bytes = (writeSlots front).bytes ++ slot.start := by
  induction front with
  | nil =>
    cases hslot with
    | bare n | label text => rfl
    | wide c hn =>
      rename_i n
      have hfits : fitsWord n = false := by
        rw [Bool.eq_false_iff, Ne, fitsWord_iff]
        omega
      simp [writeSlots, argumentWord?, hfits, Slot.start]
  | cons s front ih =>
    -- what is in front was written, so it is an instruction whose argument is a word
    cases s with
    | bare n | label text => cases hfront
    | instruction c a =>
      cases ha : argumentWord? a with
      | error e => simp [writeSlots, ha] at hfront
      | ok word =>
        simp only [writeSlots, ha] at hfront
        simp [writeSlots, ha, ih hfront]

end Image

/-! ### Files around a run -/

/-- The bytes of the files in a folder, by name. -/
abbrev Folder := String → Option (List UInt8)

namespace Compilation

variable {args : List String} {file? : String → Option String}
  {place : String → Except Fault String} {f : Fault}

/-- The files after a run, from those before it. -/
def leaves (c : Compilation) (before : Folder) : Folder :=
  c.written.elim before fun file => Function.update before file.1 (some file.2)

/-- The code that the source file of the options compiles to. -/
def generated (o : Options) (file? : String → Option String) : Except Fault Generator :=
  if o.source = "." ∨ o.source = ".." then .error .isFolder
  else
    match file? o.source with
    | none => .error (.noSuchFile o.source)
    | some text => codeOf (sourceText text)

/-- A run that has come to the code of its source, or to a fault. -/
def ofCode (o : Options) (place : String → Except Fault String) :
    Except Fault Generator → Compilation
  | .error f => failure f
  | .ok g => writeResult o place g

/-- The arguments ask for an image, and for nothing to be shown. -/
def Plain (args : List String) : Prop := ∀ a ∈ args, a ∉ ["-l", "-p", "-d", "-b"]

theorem Plain.contains (h : Plain args) {a : String} (ha : a ∈ ["-l", "-p", "-d", "-b"]) :
    args.contains a = false := by
  rw [Bool.eq_false_iff, Ne, List.contains_iff_mem]
  exact fun hmem => h a hmem ha

theorem Plain.options (h : Plain args) {o : Options} (ho : Options.ofArgs args = .ok o) :
    o.showTokens = false ∧ o.showTree = false ∧ o.listNames = false ∧ o.listNumbers = false := by
  cases args with
  | nil => cases ho
  | cons source rest =>
    cases ho
    exact ⟨h.contains (by simp), h.contains (by simp), h.contains (by simp), h.contains (by simp)⟩

/-- Without options that show or list, a run compiles its source and writes the image. -/
theorem run_of_plain (h : Plain args) {o : Options} (ho : Options.ofArgs args = .ok o) :
    run args file? place = ofCode o place (generated o file?) := by
  obtain ⟨hl, hp, -, -⟩ := h.options ho
  simp only [run, ho, generated]
  split
  · rfl
  · cases file? o.source with
    | none => rfl
    | some text =>
      simp only [ofSource, codeOf, hl, hp, Bool.false_eq_true, if_false]
      cases parse (scan (sourceText text)) with
      | error e => rfl
      | ok r =>
        cases hg : generateProgram r.1 with
        | error e | ok g => simp [hg, bind, Except.bind, ofCode]

/-- A failed run wrote nothing and had nothing to write, or it wrote the image of its code
    up to the fault. -/
theorem run_failed (h : Plain args) (hfail : (run args file? place).ending = .failed f) :
    ((run args file? place).written = none ∧
      ∀ o g out, Options.ofArgs args = .ok o → generated o file? = .ok g →
        place o.result ≠ .ok out) ∨
    ∃ o g out, Options.ofArgs args = .ok o ∧ generated o file? = .ok g ∧
      place o.result = .ok out ∧ (Image.write g).fault = some f ∧
      (run args file? place).written = some (out, (Image.write g).bytes) := by
  cases ho : Options.ofArgs args with
  | error e =>
    left
    exact ⟨by simp [run, ho, failure], fun o g out h' => by cases h'⟩
  | ok o =>
    obtain ⟨-, -, hd, hb⟩ := h.options ho
    rw [run_of_plain h ho] at hfail ⊢
    cases hg : generated o file? with
    | error e =>
      left
      refine ⟨rfl, fun o' g out h' hg' => ?_⟩
      cases h'
      rw [hg] at hg'
      cases hg'
    | ok g =>
      simp only [hg, ofCode, writeResult, hd, hb, Bool.or_self, Bool.false_eq_true, if_false] at hfail ⊢
      cases hplace : place o.result with
      | error e =>
        left
        refine ⟨by simp only [failure], fun o' g' out h' _ => ?_⟩
        cases h'
        simp [hplace]
      | ok out =>
        right
        simp only [hplace] at hfail ⊢
        refine ⟨o, g, out, rfl, hg, hplace, ?_, rfl⟩
        cases hfault : (Image.write g).fault with
        | none => simp [hfault, endingOf] at hfail
        | some e =>
          simp only [hfault, endingOf, Ending.failed.injEq] at hfail
          rw [hfail]

end Compilation

/-- After a failed run without options, a file is what it was iff the source has no code, the
    file is not the result, or it already held the code up to the first slot that no image
    can hold, with the number of the instruction there. -/
theorem output_kept_iff {args : List String} {file? : String → Option String}
    {place : String → Except Fault String} {f : Fault} (hargs : Compilation.Plain args)
    (hfail : (Compilation.run args file? place).ending = .failed f)
    (before : Folder) (out : String) :
    (Compilation.run args file? place).leaves before out = before out ↔
      ∀ o g, Options.ofArgs args = .ok o → Compilation.generated o file? = .ok g →
        place o.result = .ok out →
        ∃ front slot rest, g.code.toList = front ++ slot :: rest ∧
          (Image.writeSlots front).fault = none ∧ slot.Unwritable ∧
          before out = some ((Image.writeSlots front).bytes ++ slot.start) := by
  obtain ⟨hnone, hnothing⟩ | ⟨o, g, file, ho, hg, hplace, hfault, hwritten⟩ :=
    Compilation.run_failed hargs hfail
  · -- nothing was opened
    simp only [Compilation.leaves, hnone, Option.elim_none, true_iff]
    exact fun o g ho hg hplace => absurd hplace (hnothing o g out ho hg)
  · simp only [Compilation.leaves, hwritten, Option.elim_some]
    by_cases hout : out = file
    · subst hout
      rw [Function.update_self]
      constructor
      · intro hkept o' g' ho' hg' _
        cases ho.symm.trans ho'
        cases hg.symm.trans hg'
        obtain ⟨front, slot, rest, hcode, hslot, hfront, hbytes⟩ := Image.exists_of_fault hfault
        exact ⟨front, slot, rest, hcode, hfront, hslot, by rw [← hkept, ← hbytes]; rfl⟩
      · intro h
        obtain ⟨front, slot, rest, hcode, hfront, hslot, hbefore⟩ := h o g ho hg hplace
        rw [hbefore, Image.write, hcode, Image.writeSlots_of_unwritable hslot hfront]
    · rw [Function.update_of_ne hout, eq_self_iff_true, true_iff]
      intro o' g' ho' hg' hplace'
      cases ho.symm.trans ho'
      exact absurd (Except.ok.inj (hplace'.symm.trans hplace)) hout

/-- A folder in which every file holds three bytes. -/
def threeBytes : Folder := fun _ => some [1, 2, 3]

/-- A name without a declaration stops the parser: the image of an earlier run is kept. -/
theorem output_kept_undeclared :
    (Compilation.run ["p.lx"] (fun _ => some "x = 1;") fileAt).ending =
        .failed (.typing (.undefined (.text "x")) 1) ∧
      (Compilation.run ["p.lx"] (fun _ => some "x = 1;") fileAt).leaves threeBytes "output.o" =
        threeBytes "output.o" := by
  have hargs : Compilation.Plain ["p.lx"] := by simp [Compilation.Plain]
  have hfail : (Compilation.run ["p.lx"] (fun _ => some "x = 1;") fileAt).ending =
      .failed (.typing (.undefined (.text "x")) 1) := by decide +kernel
  refine ⟨hfail, (output_kept_iff hargs hfail threeBytes "output.o").2 fun o g ho hg => ?_⟩
  cases ho
  have hnone : (Compilation.codeOf (sourceText "x = 1;")).isOk = false := by decide +kernel
  have hcode : Compilation.codeOf (sourceText "x = 1;") = .ok g := by
    simpa [Compilation.generated] using hg
  rw [hcode] at hnone
  cases hnone

/-- An integer that is no word gets as far as the writer, which leaves just the number of its
    instruction in the file. -/
theorem output_lost_wide :
    (Compilation.run ["p.lx"] (fun _ => some "int x = 2147483648;") fileAt).ending =
        .failed .wordRange ∧
      (Compilation.run ["p.lx"] (fun _ => some "int x = 2147483648;") fileAt).leaves threeBytes
        "output.o" = some [15] ∧
      threeBytes "output.o" = some [1, 2, 3] := by
  decide +kernel

end StackLang
