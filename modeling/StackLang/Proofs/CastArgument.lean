import StackLang.Proofs.Loading

/-!
# Arguments of conversions

The generator packs the two types of a conversion into one number, and the machine
takes the number apart again. A type is known by a name without brackets and the
pairs of brackets behind it; for the machine it is the tag of its single values and
a depth, in which a string is a list of characters.

As long as both depths fit into eight bits, the number is a word that is not
negative, and the fields that the machine takes out of it are the two tags and the
larger depth (`castFields_castArgument`).
-/

namespace StackLang

/-! ### Types with brackets -/

/-- `n` pairs of brackets. -/
def pairs (n : Nat) : List Char := (List.replicate n ['[', ']']).flatten

/-- The type of the lists of `base`, `n` levels deep. -/
def listsOf (base : String) (n : Nat) : String := String.ofList (base.toList ++ pairs n)

/-- The tag of the single values of a type without brackets; a string has characters. -/
def baseTag : String → Tag
  | "BOOL" | "BYTE" => .byte
  | "INT" => .int
  | "FLOAT" => .real
  | "CHAR" | "STRING" => .char
  | _ => .unassigned

/-- How deep the lists of `base` are, `n` levels of brackets counted. -/
def depthOf (base : String) (n : Nat) : Nat := if base = "STRING" then n + 1 else n

section Brackets

variable {cs : List Char}

theorem countPairs_cons_of_ne {c : Char} (h : c ≠ '[') : countPairs (c :: cs) = countPairs cs := by
  rw [countPairs]
  rintro r ⟨⟩
  exact absurd rfl h

theorem dropPairs_cons_of_ne {c : Char} (n : Nat) (h : c ≠ '[') :
    dropPairs (n + 1) (c :: cs) = c :: dropPairs (n + 1) cs := by
  rw [dropPairs]
  rintro r ⟨⟩
  exact absurd rfl h

theorem pairs_succ (n : Nat) : pairs (n + 1) = '[' :: ']' :: pairs n := rfl

/-- Only the pairs behind the name are counted. -/
theorem countPairs_append_pairs (h : '[' ∉ cs) (n : Nat) : countPairs (cs ++ pairs n) = n := by
  induction cs with
  | nil =>
    induction n with
    | zero => rfl
    | succ n ih => rw [List.nil_append, pairs_succ, countPairs, ← List.nil_append (pairs n), ih]
  | cons c cs ih =>
    rw [List.mem_cons, not_or] at h
    rw [List.cons_append, countPairs_cons_of_ne (Ne.symm h.1), ih h.2]

/-- Only the pairs behind the name are dropped. -/
theorem dropPairs_append_pairs (h : '[' ∉ cs) {n m : Nat} (hn : n ≤ m) :
    dropPairs m (cs ++ pairs n) = cs := by
  induction cs with
  | nil =>
    induction n generalizing m with
    | zero => cases m <;> rfl
    | succ n ih =>
      obtain ⟨m, rfl⟩ := Nat.exists_eq_add_one_of_ne_zero (Nat.ne_zero_of_lt hn)
      exact ih (Nat.le_of_succ_le_succ hn)
  | cons c cs ih =>
    rw [List.mem_cons, not_or] at h
    cases m with
    | zero =>
      obtain rfl := Nat.le_zero.1 hn
      exact List.append_nil _
    | succ m => rw [List.cons_append, dropPairs_cons_of_ne m (Ne.symm h.1), ih h.2]

end Brackets

theorem not_mem_of_typeNumber {base : String} (h : (typeNumber? base).isSome) :
    '[' ∉ base.toList := by
  unfold typeNumber? at h
  split at h <;> first | decide | cases h

theorem typeInfo_listsOf {base : String} (h : (typeNumber? base).isSome) (n : Nat) :
    typeInfo (listsOf base n) = .ok ((baseTag base).code, depthOf base n) := by
  have hplain := not_mem_of_typeNumber h
  have hlevels : listLevels (listsOf base n) = n := by
    rw [listLevels, listsOf, String.toList_ofList, countPairs_append_pairs hplain]
  have hbase : baseType (listsOf base n) = base := by
    have hle : n ≤ (base.toList ++ pairs n).length := by simp [pairs]; omega
    rw [baseType, listsOf, String.toList_ofList, dropPairs_append_pairs hplain hle,
      String.ofList_toList]
  unfold typeInfo
  rw [hlevels, hbase]
  unfold typeNumber? at h
  split at h <;> first | rfl | cases h

/-! ### Fields of words -/

/-- Fields of eight bits lie side by side. -/
theorem fields_eq {s t : Nat} (d : Nat) (hs : s < 256) (ht : t < 256) :
    d <<< 16 ||| s <<< 8 ||| t = d * 65536 + s * 256 + t := by
  have hlow : s <<< 8 + t < 65536 := by
    rw [Nat.shiftLeft_eq]
    omega
  rw [Nat.or_assoc, ← Nat.shiftLeft_add_eq_or_of_lt ht s, ← Nat.shiftLeft_add_eq_or_of_lt hlow d,
    Nat.shiftLeft_eq, Nat.shiftLeft_eq, Nat.add_assoc]

theorem toNat_and_byte (w : UInt32) : (w &&& 0xff).toNat = w.toNat % 256 :=
  (UInt32.toNat_and w 0xff).trans (Nat.and_two_pow_sub_one_eq_mod w.toNat 8)

theorem castFields_eq (w : UInt32) :
    Act.castFields w = ⟨w.toNat / 256 % 256, w.toNat % 256, w.toNat / 65536 % 256⟩ := by
  unfold Act.castFields
  rw [toNat_and_byte, toNat_and_byte, toNat_and_byte, UInt32.toNat_shiftRight,
    UInt32.toNat_shiftRight, Nat.shiftRight_eq_div_pow, Nat.shiftRight_eq_div_pow]
  rfl

theorem castFields_of_fields {s t d : Nat} {w : UInt32} (hs : s < 256) (ht : t < 256)
    (hd : d < 256) (hw : w.toNat = d <<< 16 ||| s <<< 8 ||| t) : Act.castFields w = ⟨s, t, d⟩ := by
  rw [castFields_eq, hw, fields_eq d hs ht]
  congr 1 <;> omega

/-! ### The way of an argument -/

theorem code_lt (t : Tag) : t.code < 256 := by cases t <;> decide

/-- A number that is not negative as a signed word is written as itself. -/
theorem exists_word {x : Int} (hx : 0 ≤ x) (h : x < 0x80000000) :
    ∃ w : UInt32, Image.argumentWord? (.int x) = .ok (some w) ∧ x = w.toNat := by
  have hfits : fitsWord x = true := by
    simp only [fitsWord, Bool.and_eq_true, decide_eq_true_eq]
    omega
  have hword : Image.argumentWord? (.int x) = .ok (some (intWord x)) := if_pos hfits
  exact ⟨intWord x, hword, eq_toNat_of_word hx hword⟩

/-- The argument of a conversion between types that are known is taken apart as it was put
    together: it is written as a word, and the machine finds there the tags of both types and the
    larger of their depths. -/
theorem castFields_castArgument {a b : String} (ha : (typeNumber? a).isSome)
    (hb : (typeNumber? b).isSome) {j k : Nat} (hj : depthOf a j ≤ 255) (hk : depthOf b k ≤ 255) :
    typeInfo (listsOf a j) = .ok ((baseTag a).code, depthOf a j) ∧
    typeInfo (listsOf b k) = .ok ((baseTag b).code, depthOf b k) ∧
    ∃ (n : Nat) (w : UInt32), castArgument (listsOf a j) (listsOf b k) = .ok n ∧ n < 0x80000000 ∧
      Image.argumentWord? (.int n) = .ok (some w) ∧
      Act.castFields w = ⟨(baseTag a).code, (baseTag b).code, max (depthOf a j) (depthOf b k)⟩ := by
  have hsource := typeInfo_listsOf ha j
  have htarget := typeInfo_listsOf hb k
  have hs := code_lt (baseTag a)
  have ht := code_lt (baseTag b)
  have hd : max (depthOf a j) (depthOf b k) < 256 := Nat.lt_succ_of_le (Nat.max_le.2 ⟨hj, hk⟩)
  have harg : castArgument (listsOf a j) (listsOf b k) = .ok (max (depthOf a j) (depthOf b k) <<< 16
      ||| (baseTag a).code <<< 8 ||| (baseTag b).code) := by
    rw [castArgument, hsource, htarget]
    rfl
  have hlt : max (depthOf a j) (depthOf b k) <<< 16 ||| (baseTag a).code <<< 8 |||
      (baseTag b).code < 0x80000000 := by
    rw [fields_eq _ hs ht]
    omega
  obtain ⟨w, hword, hw⟩ := exists_word (Int.natCast_nonneg _) (Int.ofNat_lt.2 hlt)
  have hfields := castFields_of_fields hs ht hd (Int.ofNat_inj.1 hw).symm
  exact ⟨hsource, htarget, _, w, harg, hlt, hword, hfields⟩

/-- The deepest lists of strings, and those of integers one level deeper: 255 levels for both. -/
theorem castFields_castArgument_deepest : ∃ (n : Nat) (w : UInt32),
    castArgument (listsOf "STRING" 254) (listsOf "INT" 255) = .ok n ∧
    Image.argumentWord? (.int n) = .ok (some w) ∧ Act.castFields w = ⟨4, 2, 255⟩ := by
  obtain ⟨-, -, n, w, harg, -, hword, hfields⟩ := castFields_castArgument (a := "STRING")
    (b := "INT") (j := 254) (k := 255) rfl rfl (by decide) (by decide)
  exact ⟨n, w, harg, hword, hfields⟩

end StackLang
