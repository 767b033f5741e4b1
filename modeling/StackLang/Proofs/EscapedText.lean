import StackLang.Proofs.Coverage
import StackLang.Proofs.Literal
import StackLang.Proofs.SourceCode

/-!
# Escapes in strings

The scanner divides the body of a quoted string into *units*: a character by
itself, or a backslash with the character that it escapes. The generator does not
see them: it replaces the escapes of line breaks and then those of tabs wherever
their two characters stand, and knows no other escape.

* `StringUnit`: a unit, the text it is written as and the character it stands for;
* `unescaped_replaced`, `unescaped_backslash`, `unescaped_of_ne`: what the
  replacements make of the front of a text;
* `string_code_iff`: a string is coded unit by unit exactly if every escape in it
  is one of a line break or a tab.
-/

namespace StackLang

open List

variable {c : Char} {cs : List Char}

/-- A unit of the body of a quoted string. -/
inductive StringUnit where
  | plain (c : Char) (h : c ≠ '"' ∧ c ≠ '\\' ∧ c ≠ '\n')
  | escaped (c : Char) (h : c ≠ '\n')

namespace StringUnit

/-- The characters that a unit is written with. -/
def text : StringUnit → List Char
  | plain c _ => [c]
  | escaped c _ => ['\\', c]

/-- The character that a unit stands for. -/
def meaning : StringUnit → Char
  | plain c _ => c
  | escaped c _ => if c = 'n' then '\n' else if c = 't' then '\t' else c

/-- The unit is a character by itself, a line break or a tab. -/
def Replaced : StringUnit → Prop
  | plain _ _ => True
  | escaped c _ => c = 'n' ∨ c = 't'

end StringUnit

/-- The code of a text: its characters from the last one to the first, and the list of them. -/
def textCode (cs : List Char) : List Slot :=
  cs.reverse.map (fun c => .instruction Op.storeChar (.int c.toNat)) ++
    [.instruction Op.buildList (.int cs.length)]

/-- The body of a quoted string is divided into units. -/
theorem exists_units_of_quotable {body : List Char} (h : Quotable body) :
    ∃ us : List StringUnit, body = us.flatMap StringUnit.text := by
  induction h with
  | nil => exact ⟨[], rfl⟩
  | @plain c _ hquote hback hbreak _ ih =>
    obtain ⟨us, rfl⟩ := ih
    exact ⟨.plain c ⟨hquote, hback, hbreak⟩ :: us, rfl⟩
  | @escaped c _ hbreak _ ih =>
    obtain ⟨us, rfl⟩ := ih
    exact ⟨.escaped c hbreak :: us, rfl⟩

/-- The value of a string token is the body of a quoted string. -/
theorem quotable_of_spelled {x : List Char} {kind : Kind} {value : Atom}
    (h : Spells x kind value ∨ Stray x kind value) (hkind : kind = .stringLiteral) :
    ∃ body, Quotable body ∧ value = .text (String.ofList body) := by
  rcases h with h | ⟨_, _, _, rfl, _⟩
  · cases h with
    | quoted hbody => exact ⟨_, hbody, rfl⟩
    | word _ _ =>
      have := hkind ▸ isLiteralKind_ofWord _
      cases this
    | operator hmem =>
      have hall : ∀ p ∈ operatorSigns, p.2 ≠ .stringLiteral := by decide
      exact absurd hkind (hall _ hmem)
    | _ => cases hkind
  · cases hkind

theorem quotable_of_scan {source : String} {t : Token} (ht : t ∈ (scan source).tokens)
    (hkind : t.kind = .stringLiteral) :
    ∃ body, Quotable body ∧ t.value = .text (String.ofList body) := by
  obtain ⟨x, hspelled⟩ := spelled_of_scan ht
  exact quotable_of_spelled hspelled hkind

/-! ### Replacing escapes -/

/-- A text with the escapes of line breaks and then those of tabs replaced. -/
def unescaped (cs : List Char) : List Char := tabEscapes (breakEscapes cs)

theorem breakEscapes_cons (h : c = '\\' → cs.head? ≠ some 'n') :
    breakEscapes (c :: cs) = c :: breakEscapes cs := by
  rw [breakEscapes]
  rintro r rfl rfl
  exact h rfl rfl

theorem tabEscapes_cons (h : c = '\\' → cs.head? ≠ some 't') :
    tabEscapes (c :: cs) = c :: tabEscapes cs := by
  rw [tabEscapes]
  rintro r rfl rfl
  exact h rfl rfl

/-- A character is kept that is no backslash. -/
theorem unescaped_of_ne (hc : c ≠ '\\') (cs : List Char) :
    unescaped (c :: cs) = c :: unescaped cs := by
  rw [unescaped, breakEscapes_cons (absurd · hc), tabEscapes_cons (absurd · hc), unescaped]

/-- Without a backslash there are no escapes. -/
theorem unescaped_eq_self (h : ∀ c ∈ cs, c ≠ '\\') : unescaped cs = cs := by
  induction cs with
  | nil => rfl
  | cons c cs ih =>
    obtain ⟨hc, hcs⟩ := forall_mem_cons.1 h
    rw [unescaped_of_ne hc, ih hcs]

/-- The escapes of line breaks and tabs are replaced. -/
theorem unescaped_replaced (h : c = 'n' ∨ c = 't') (cs : List Char) :
    unescaped ('\\' :: c :: cs) = (if c = 'n' then '\n' else '\t') :: unescaped cs := by
  rcases h with rfl | rfl
  · rw [unescaped, breakEscapes, tabEscapes_cons (by simp), if_pos rfl, unescaped]
  · rw [unescaped, breakEscapes_cons (by simp), breakEscapes_cons (by simp), tabEscapes,
      if_neg (by decide), unescaped]

/-- A backslash is kept where neither escape follows. -/
theorem unescaped_backslash (h : ∀ c ∈ cs.head?, c ≠ 'n' ∧ c ≠ 't') :
    unescaped ('\\' :: cs) = '\\' :: unescaped cs := by
  have hbreak : '\\' = '\\' → cs.head? ≠ some 'n' := fun _ hn => (h _ hn).1 rfl
  have htab : '\\' = '\\' → (breakEscapes cs).head? ≠ some 't' := by
    intro _ ht
    fun_cases breakEscapes cs with
    | case1 => cases ht
    | case2 r =>
      rw [breakEscapes] at ht
      cases ht
    | case3 c r hr =>
      rw [breakEscapes] at ht
      · exact (h _ ht).2 rfl
      · exact hr
  rw [unescaped, breakEscapes_cons hbreak, tabEscapes_cons htab, unescaped]

/-! ### Units -/

theorem length_lt_backslash {n : Nat} (h : n ≤ (unescaped cs).length)
    (hback : n ≤ (unescaped ('\\' :: cs)).length) (c : Char) :
    n < (unescaped ('\\' :: c :: cs)).length := by
  by_cases hc : c = 'n' ∨ c = 't'
  · rw [unescaped_replaced hc]
    exact Nat.lt_succ_of_le h
  · rw [unescaped_backslash (by simpa using hc)]
    by_cases hb : c = '\\'
    · subst hb
      exact Nat.lt_succ_of_le hback
    · rw [unescaped_of_ne hb]
      exact Nat.lt_succ_of_lt (Nat.lt_succ_of_le h)

namespace StringUnit

/-- Units do not get lost, nor do they behind a backslash. -/
theorem length_le_unescaped (us : List StringUnit) :
    us.length ≤ (unescaped (us.flatMap text)).length ∧
      us.length ≤ (unescaped ('\\' :: us.flatMap text)).length := by
  induction us with
  | nil => decide
  | cons u us ih =>
    obtain ⟨h, hback⟩ := ih
    cases u with
    | plain c hc =>
      refine ⟨?_, length_lt_backslash h hback c⟩
      change _ ≤ (unescaped (c :: us.flatMap text)).length
      rw [unescaped_of_ne hc.2.1]
      exact Nat.succ_le_succ h
    | escaped c hc =>
      -- two backslashes in a row: the first one stays
      have hfirst : us.length < (unescaped ('\\' :: c :: us.flatMap text)).length :=
        length_lt_backslash h hback c
      refine ⟨hfirst, ?_⟩
      rw [unescaped_backslash (by simp [text])]
      exact Nat.succ_le_succ (Nat.le_of_lt hfirst)

/-- A backslash that is left over in front of units is never made up for. -/
theorem unescaped_backslash_ne_meaning (us : List StringUnit) :
    unescaped ('\\' :: us.flatMap text) ≠ us.map meaning := by
  intro h
  cases us with
  | nil => exact absurd h (by decide)
  | cons u us =>
    cases u with
    | plain c hc =>
      change unescaped ('\\' :: c :: us.flatMap text) = c :: us.map meaning at h
      by_cases hr : c = 'n' ∨ c = 't'
      · rw [unescaped_replaced hr] at h
        rcases hr with rfl | rfl <;> exact absurd (List.cons.inj h).1 (by decide)
      · rw [unescaped_backslash (by simpa using hr)] at h
        exact hc.2.1 (List.cons.inj h).1.symm
    | escaped c hc =>
      -- one character more than there are units
      rw [unescaped_backslash (by simp [text])] at h
      have hlength := congrArg List.length h
      have hle := (length_le_unescaped (escaped c hc :: us)).1
      rw [length_cons, length_map] at hlength
      omega

/-- The replacements give each unit its meaning exactly if they know its escape. -/
theorem unescaped_eq_meaning_iff (us : List StringUnit) :
    unescaped (us.flatMap text) = us.map meaning ↔ ∀ u ∈ us, u.Replaced := by
  induction us with
  | nil => exact iff_of_true rfl (forall_mem_nil _)
  | cons u us ih =>
    rw [forall_mem_cons, ← ih]
    cases u with
    | plain c hc =>
      change unescaped (c :: us.flatMap text) = c :: us.map meaning ↔ True ∧ _
      rw [unescaped_of_ne hc.2.1, cons_inj_right, true_and]
    | escaped c hc =>
      change unescaped ('\\' :: c :: us.flatMap text) =
        (if c = 'n' then '\n' else if c = 't' then '\t' else c) :: us.map meaning ↔
          (c = 'n' ∨ c = 't') ∧ _
      by_cases hr : c = 'n' ∨ c = 't'
      · rw [unescaped_replaced hr]
        rcases hr with rfl | rfl <;> simp
      · -- the backslash stays, so the escape would have to be one of a backslash, and that one is left over
        rw [unescaped_backslash (by simpa using hr), if_neg (mt .inl hr), if_neg (mt .inr hr)]
        refine iff_of_false (fun h => ?_) fun h => hr h.1
        obtain ⟨rfl, h⟩ := List.cons.inj h
        exact unescaped_backslash_ne_meaning us h

end StringUnit

/-! ### Code -/

namespace Gen

variable {g g' : Generator}

theorem ends_storeChars {u : Unit} :
    Ends (cs.forM fun c => emitInt Op.storeChar c.toNat) g u g' ↔
      g' = g.pushAll (cs.map fun c => .instruction Op.storeChar (.int c.toNat)) := by
  induction cs generalizing g with
  | nil => simp [Generator.pushAll]
  | cons c cs ih =>
    simp only [List.forM, ends_bind, ends_emitInt]
    refine ⟨?_, fun h => ⟨(), _, rfl, ih.2 h⟩⟩
    rintro ⟨_, _, rfl, h⟩
    exact ih.1 h

theorem ends_string :
    Ends (generate (.literal "STRING_LITERAL" (.text (String.ofList cs)))) g () g' ↔
      g' = g.pushAll (textCode (unescaped cs)) := by
  have hlast : g.pushAll (textCode (unescaped cs)) =
      (g.pushAll ((unescaped cs).reverse.map fun c => .instruction Op.storeChar (.int c.toNat))).push
        (.instruction Op.buildList (.int (unescaped cs).length)) := by
    rw [textCode, Generator.pushAll_append]
    rfl
  have hchars : stringChars (String.ofList cs) = unescaped cs := by
    rw [stringChars, String.toList_ofList, unescaped]
  rw [generate, hlast, literalCode, hchars]
  simp only [ends_bind, ends_storeChars, ends_emitInt]
  refine ⟨?_, fun h => ⟨(), _, rfl, h⟩⟩
  rintro ⟨_, _, rfl, h⟩
  exact h

end Gen

theorem textCode_inj {ds : List Char} (h : textCode cs = textCode ds) : cs = ds := by
  obtain ⟨h, -⟩ := append_inj' h rfl
  refine reverse_inj.1 ((map_inj_right fun c d hcd => ?_).1 h)
  exact Char.toNat_inj.1 (by simpa using hcd)

/-- The body of a string is divided into units, and its code is theirs exactly if every escape in it is one
    of a line break or a tab. -/
theorem string_code_iff {source : String} {t : Token} (ht : t ∈ (scan source).tokens)
    (hkind : t.kind = .stringLiteral) :
    (∃ us : List StringUnit, t.value = .text (String.ofList (us.flatMap StringUnit.text))) ∧
      ∀ us : List StringUnit, t.value = .text (String.ofList (us.flatMap StringUnit.text)) → ∀ g,
        Gen.Ends (Gen.generate (.literal t.kind.name t.value)) g ()
          (g.pushAll (textCode (us.map StringUnit.meaning))) ↔ ∀ u ∈ us, u.Replaced := by
  obtain ⟨body, hbody, hvalue⟩ := quotable_of_scan ht hkind
  obtain ⟨us, rfl⟩ := exists_units_of_quotable hbody
  refine ⟨⟨us, hvalue⟩, fun us hvalue g => ?_⟩
  rw [hvalue, hkind, ← StringUnit.unescaped_eq_meaning_iff]
  refine Gen.ends_string.trans ⟨fun h => ?_, fun h => by rw [h]⟩
  have hcode := congrArg (·.code.toList) h
  simp only [Generator.pushAll_eq, Array.toList_append, List.append_cancel_left_eq] at hcode
  exact (textCode_inj hcode).symm

/-- A name, a tab and a number in a string: four units and as many stores. -/
theorem string_code_tab :
    let t : Token := ⟨.stringLiteral, .text "ab\\t1", 1, 4⟩
    let us := [StringUnit.plain 'a' (by decide), .plain 'b' (by decide), .escaped 't' (by decide),
      .plain '1' (by decide)]
    t ∈ (scan "s = \"ab\\t1\";").tokens ∧ t.kind = .stringLiteral ∧
      t.value = .text (String.ofList (us.flatMap StringUnit.text)) ∧ ∀ g,
        Gen.Ends (Gen.generate (.literal t.kind.name t.value)) g ()
          (g.pushAll (textCode (us.map StringUnit.meaning))) := by
  intro t us
  have ht : t ∈ (scan "s = \"ab\\t1\";").tokens := by decide +kernel
  have hus : t.value = .text (String.ofList (us.flatMap StringUnit.text)) := by rfl
  refine ⟨ht, rfl, hus, fun g => ((string_code_iff ht rfl).2 us hus g).2 ?_⟩
  simp [us, StringUnit.Replaced]

/-- The escape of a quote is one unit, and its code stores two characters. -/
theorem string_code_quote :
    let us := [StringUnit.escaped '"' (by decide)]
    (scan "\"\\\"\"").tokens = [⟨.stringLiteral, .text (String.ofList (us.flatMap StringUnit.text)), 1, 0⟩] ∧
      textCode (us.map StringUnit.meaning) =
        [.instruction Op.storeChar (.int 34), .instruction Op.buildList (.int 1)] ∧
      Gen.Ends (Gen.generate (.literal "STRING_LITERAL"
        (.text (String.ofList (us.flatMap StringUnit.text))))) {} () (Generator.pushAll {}
          [.instruction Op.storeChar (.int 34), .instruction Op.storeChar (.int 92),
           .instruction Op.buildList (.int 2)]) := by
  intro us
  exact ⟨by decide +kernel, rfl, Gen.ends_string.2 rfl⟩

end StackLang
