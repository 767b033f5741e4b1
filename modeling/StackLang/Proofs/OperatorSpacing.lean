import Mathlib.Data.List.Chain
import StackLang.Proofs.OperandRun
import StackLang.Proofs.Precedence

/-!
# Blanks around operators

An expression is written with or without blanks around its operators. `tighten` deletes those blanks from a
text. What the scanner finds stays the same, except for one thing: a numeral owns the minus sign in front of
it, so a minus sign that comes to touch a numeral becomes a part of it.

* `Piece`: names, numerals, parentheses, operators and blanks, of which texts of expressions are made;
* `Spaced`: such texts by their characters, with an operand between any two operators;
* `agree_tighten`: the scan of the text without the blanks, lexeme by lexeme along the scan of the text;
* `operator_spacing_iff`: both scans find the same kinds and values exactly if no minus sign comes right
  before a numeral.
-/

namespace StackLang

open List

/-! ### Texts of expressions -/

/-- A part of the text of an expression. -/
inductive Piece where
  | word (c : Char) (cs : List Char) (hc : isWordStart c) (hcs : cs.all isWordRest)
  | integer (digits : List Char) (hne : digits ≠ []) (hdigits : digits.all isDecimalDigit)
  | decimal (whole places : List Char) (hwhole : whole ≠ []) (hplaces : places ≠ [])
      (hdigits : (whole ++ places).all isDecimalDigit)
  | paren (opens : Bool)
  | sign (text : List Char) (kind : Kind) (h : (text, kind) ∈ binarySigns)
  | blank (tab : Bool)

namespace Piece

def text : Piece → List Char
  | word c cs _ _ => c :: cs
  | integer digits _ _ => digits
  | decimal whole places _ _ _ => whole ++ '.' :: places
  | paren opens => [if opens then '(' else ')']
  | sign text _ _ => text
  | blank tab => [if tab then '\t' else ' ']

def isSign : Piece → Bool
  | sign .. => true
  | _ => false

def isBlank : Piece → Bool
  | blank _ => true
  | _ => false

end Piece

/-- No operator follows another one, with blanks between them or without. -/
def NoSignsAdjacent (ps : List Piece) : Prop :=
  (ps.filter fun p => !p.isBlank).IsChain fun p q => ¬(p.isSign ∧ q.isSign)

instance (ps : List Piece) : Decidable (NoSignsAdjacent ps) :=
  inferInstanceAs (Decidable ((ps.filter fun p => !p.isBlank).IsChain fun p q => ¬(p.isSign ∧ q.isSign)))

/-- Behind blanks, an operator comes next. -/
def meetsSign (cs : List Char) : Bool := (cs.dropWhile isSpace).head?.any isSignChar

/-- The text without the blanks before and behind its operators. What comes before it may be an operator. -/
def tighten (after : Bool) : List Char → List Char
  | [] => []
  | c :: cs =>
    if isSpace c then
      if after || meetsSign cs then tighten after cs else c :: tighten false cs
    else c :: tighten (isSignChar c) cs

/-! ### Texts with an operand between any two operators -/

/-- The text is made of blanks, characters of operands, and operators with characters of operands between
    them. What comes before it may be an operator. -/
inductive Spaced : (after : Bool) → List Char → Prop
  | nil {after : Bool} : Spaced after []
  | blank {after : Bool} {c : Char} {cs : List Char} (hc : isSpace c) (hcs : Spaced after cs) :
      Spaced after (c :: cs)
  | operand {after : Bool} {c : Char} {cs : List Char} (hc : isOperandChar c) (hcs : Spaced false cs) :
      Spaced after (c :: cs)
  | sign {text : List Char} {kind : Kind} {cs : List Char} (h : (text, kind) ∈ binarySigns)
      (hcs : Spaced true cs) : Spaced false (text ++ cs)

namespace Spaced

variable {after : Bool} {c : Char} {cs : List Char}

/-- What a text begins with, and what comes behind it. -/
theorem uncons (h : Spaced after (c :: cs)) : isSpace c ∧ Spaced after cs ∨
    isOperandChar c ∧ Spaced false cs ∨ isSignChar c ∧ after = false := by
  generalize ht : c :: cs = t at h
  cases h with
  | nil => cases ht
  | blank hc hcs =>
    cases ht
    exact .inl ⟨hc, hcs⟩
  | operand hc hcs =>
    cases ht
    exact .inr (.inl ⟨hc, hcs⟩)
  | @sign text kind cs' h _ =>
    obtain ⟨hne, hsigns⟩ := isSignChar_of_binarySigns h
    obtain ⟨d, ds, rfl⟩ := exists_cons_of_ne_nil hne
    cases ht
    exact .inr (.inr ⟨hsigns c mem_cons_self, rfl⟩)

/-- Behind a character of operands anything may come. -/
theorem tail (h : Spaced after (c :: cs)) (hc : isOperandChar c) : Spaced false cs := by
  rcases h.uncons with ⟨hspace, -⟩ | ⟨-, hcs⟩ | ⟨hsign, -⟩
  · exact absurd hc (by simp [isOperandChar_false (.inl hspace)])
  · exact hcs
  · exact absurd hc (by simp [isOperandChar_false (.inr hsign)])

theorem tail_blank (h : Spaced after (c :: cs)) (hc : isSpace c) : Spaced after cs := by
  rcases h.uncons with ⟨-, hcs⟩ | ⟨hoperand, -⟩ | ⟨hsign, -⟩
  · exact hcs
  · exact absurd hc (by simp [isSpace_of_operand hoperand])
  · exact absurd hc (by simp [isSpace_of_sign hsign])

theorem dropBlanks (h : Spaced after cs) : Spaced after (cs.dropWhile isSpace) := by
  induction cs with
  | nil => exact h
  | cons c cs ih =>
    rw [dropWhile_cons]
    split
    · rename_i hc
      exact ih (h.tail_blank hc)
    · exact h

theorem head_operand (h : Spaced true (c :: cs)) (hc : ¬isSpace c) : isOperandChar c := by
  rcases h.uncons with ⟨hspace, -⟩ | ⟨hoperand, -⟩ | ⟨-, hafter⟩
  · exact absurd hspace hc
  · exact hoperand
  · cases hafter

/-- No operator follows an operator. -/
theorem head_apart (h : Spaced true cs) : ∀ c ∈ cs.head?, isSignChar c = false := by
  intro c hc
  cases cs with
  | nil => cases hc
  | cons d cs =>
    cases hc
    by_cases hspace : isSpace c
    · exact isSignChar_of_isSpace hspace
    · exact isSignChar_of_operand (h.head_operand hspace)

theorem append {u : List Char} (hu : ∀ d ∈ u, isOperandChar d) (h : Spaced false cs) :
    Spaced false (u ++ cs) := by
  induction u with
  | nil => exact h
  | cons d u ih =>
    obtain ⟨hd, hu⟩ := forall_mem_cons.1 hu
    exact .operand hd (ih hu)

/-- Characters of operands up to where their run ends. -/
theorem run (h : Spaced false cs) : ∃ u y, cs = u ++ y ∧ (∀ c ∈ u, isOperandChar c) ∧ EndsRun y ∧
    Spaced false y := by
  refine ⟨cs.takeWhile isOperandChar, cs.dropWhile isOperandChar,
    takeWhile_append_dropWhile.symm, fun c hc => mem_takeWhile_imp hc, ?_⟩
  have hrest : Spaced false (cs.dropWhile isOperandChar) := by
    induction cs with
    | nil => exact h
    | cons c cs ih =>
      rw [dropWhile_cons]
      split
      · rename_i hc
        exact ih (h.tail hc)
      · exact h
  refine ⟨fun c hc => ?_, hrest⟩
  obtain ⟨r, hr⟩ := head?_eq_some_iff.1 (Option.mem_def.1 hc)
  have hstop := head?_dropWhile_not isOperandChar cs
  rw [hr] at hrest hstop
  rcases hrest.uncons with ⟨hspace, -⟩ | ⟨hoperand, -⟩ | ⟨hsign, -⟩
  · exact .inl hspace
  · exact absurd hoperand (by simpa using hstop)
  · exact .inr hsign

end Spaced

/-! ### The text without blanks around operators -/

section

variable {after : Bool} {c : Char} {cs : List Char}

theorem meetsSign_cons (hc : isSpace c = false) : meetsSign (c :: cs) = isSignChar c := by
  simp [meetsSign, hc]

theorem tighten_blank (hc : isSpace c) (hsign : after = true ∨ meetsSign cs = true) :
    tighten after (c :: cs) = tighten after cs := by
  rw [tighten, if_pos hc, if_pos (by rwa [Bool.or_eq_true])]

theorem tighten_kept (hc : isSpace c) (hsign : meetsSign cs = false) :
    tighten false (c :: cs) = c :: tighten false cs := by
  rw [tighten, if_pos hc, hsign]
  rfl

theorem tighten_cons (hc : isSpace c = false) :
    tighten after (c :: cs) = c :: tighten (isSignChar c) cs := by
  rw [tighten, hc]
  rfl

theorem tighten_operand (hc : isOperandChar c) :
    tighten after (c :: cs) = c :: tighten false cs := by
  rw [tighten_cons (isSpace_of_operand hc), isSignChar_of_operand hc]

theorem tighten_run {u : List Char} (hu : ∀ d ∈ u, isOperandChar d) (y : List Char) :
    tighten false (u ++ y) = u ++ tighten false y := by
  induction u with
  | nil => rfl
  | cons d u ih =>
    obtain ⟨hd, hu⟩ := forall_mem_cons.1 hu
    rw [cons_append, tighten_operand hd, ih hu]
    rfl

theorem tighten_signs {text : List Char} (hne : text ≠ []) (htext : ∀ c ∈ text, isSignChar c)
    (cs : List Char) : tighten after (text ++ cs) = text ++ tighten true cs := by
  induction text generalizing after with
  | nil => exact absurd rfl hne
  | cons c text ih =>
    obtain ⟨hc, htext⟩ := forall_mem_cons.1 htext
    rw [cons_append, tighten_cons (isSpace_of_sign hc), hc]
    cases text with
    | nil => rfl
    | cons d text =>
      rw [ih (cons_ne_nil _ _) htext]
      rfl

/-- Behind an operator, the first character that is no blank comes next. -/
theorem head_tighten : (tighten true cs).head? = (cs.dropWhile isSpace).head? := by
  induction cs with
  | nil => rfl
  | cons c cs ih =>
    by_cases hc : isSpace c
    · rw [tighten_blank hc (.inl rfl), ih, dropWhile_cons_of_pos hc]
    · rw [tighten_cons (by simpa using hc), dropWhile_cons_of_neg hc]
      rfl

/-- If no digit comes next behind blanks, none touches. -/
theorem head_notDigit (h : ∀ d ∈ (cs.dropWhile isSpace).head?, isDecimalDigit d = false) :
    ∀ d ∈ cs.head?, isDecimalDigit d = false := by
  intro d hd
  cases cs with
  | nil => cases hd
  | cons c cs =>
    cases hd
    by_cases hc : isSpace d
    · exact isDecimalDigit_of_isSpace hc
    · exact h d (by rw [dropWhile_cons_of_neg hc]; rfl)

/-- A run of characters of operands ends where it ended. -/
theorem endsRun_tighten (h : EndsRun cs) : EndsRun (tighten false cs) := by
  induction cs with
  | nil => exact h
  | cons c cs ih =>
    by_cases hc : isSpace c
    · by_cases hsign : meetsSign cs
      · rw [tighten_blank hc (.inr hsign)]
        refine ih fun d hd => ?_
        cases cs with
        | nil => cases hd
        | cons e cs =>
          cases hd
          by_cases hd : isSpace d
          · exact .inl hd
          · rw [meetsSign_cons (by simpa using hd)] at hsign
            exact .inr hsign
      · rw [tighten_kept hc (by simpa using hsign)]
        exact h
    · rw [tighten_cons (by simpa using hc)]
      exact h

end

/-! ### What a scan finds -/

/-- The kinds and values of the tokens, and the fault that stopped the scan. -/
def Scan.contents (s : Scan) : List Sign × Option Fault := (s.tokens.map Token.sign, s.fault)

/-- The kinds of the lexemes that a scan comes to. A numeral with too many digits is the last one. -/
def Scan.kinds (s : Scan) : List Kind :=
  s.tokens.map Token.kind ++ if s.fault.isSome then [.intLiteral] else []

/-- No minus sign comes right before a numeral. -/
def NoMinusBeforeNumeral (ks : List Kind) : Prop := ∀ k ∈ numeralKinds, ¬[.minus, k] <:+: ks

instance (ks : List Kind) : Decidable (NoMinusBeforeNumeral ks) :=
  inferInstanceAs (Decidable (∀ k ∈ numeralKinds, ¬[.minus, k] <:+: ks))

theorem noMinus_cons {k : Kind} {ks : List Kind}
    (h : k = .minus → ∀ k' ∈ ks.head?, k' ∉ numeralKinds) :
    NoMinusBeforeNumeral (k :: ks) ↔ NoMinusBeforeNumeral ks := by
  refine forall₂_congr fun k' hk' => not_congr ?_
  rw [infix_cons_iff, or_iff_right]
  rintro ⟨rest, hprefix⟩
  obtain ⟨rfl, rfl⟩ := List.cons.inj hprefix
  exact h rfl k' rfl hk'

theorem not_noMinus {k : Kind} {ks : List Kind} (hk : k ∈ numeralKinds) :
    ¬NoMinusBeforeNumeral (.minus :: k :: ks) :=
  fun h => h k hk ⟨[], ks, rfl⟩

theorem kinds_of_contents {s s' : Scan} (h : s.contents = s'.contents) : s.kinds = s'.kinds := by
  obtain ⟨htokens, hfault⟩ := Prod.mk.inj h
  have hkinds (ts : List Token) : ts.map Token.kind = (ts.map Token.sign).map Prod.fst := by
    rw [map_map]
    rfl
  rw [Scan.kinds, Scan.kinds, hkinds, hkinds, htokens, hfault]

/-- A scan with a token at its front. -/
def Scan.withToken (t : Token) (s : Scan) : Scan := { s with tokens := t :: s.tokens }

@[simp] theorem kinds_withToken (t : Token) (s : Scan) : (s.withToken t).kinds = t.kind :: s.kinds := rfl

theorem contents_withToken {t t' : Token} {s s' : Scan} (h : t.sign = t'.sign) :
    (s.withToken t).contents = (s'.withToken t').contents ↔ s.contents = s'.contents := by
  simp [Scan.contents, Scan.withToken, h]

variable {before before' : Option Char} {c : Char} {cs : List Char}

theorem scanFrom_found {x r : List Char} {kind : Kind} {value : Atom} (hc : c ∉ gapChars)
    (hf : findFirst before (c :: (x ++ r)) = some (.token kind value (c :: x).length))
    (offset line : Nat) : scanFrom 0 before offset line (c :: (x ++ r)) =
      (scanFrom 0 (c :: x).getLast? (offset + (c :: x).length) line r).withToken
        ⟨kind, value, line, offset⟩ :=
  scanFrom_token (cons_ne_nil c x) (fun d hd => by cases hd; exact hc) hf offset line

/-- There the scan comes to a lexeme of the kind that is found. -/
theorem kinds_of_found {f : Found} (hc : c ∉ gapChars ∧ c ≠ '/')
    (hf : findFirst before (c :: cs) = some f) (offset line : Nat) : ∃ k ks,
      (scanFrom 0 before offset line (c :: cs)).kinds = k :: ks ∧ (k ∈ numeralKinds ↔ f.IsNumeral) := by
  rcases lexeme_of_fits hc (fits_of_findFirst hf) with rfl | ⟨kind, value, x, r, rfl, rfl⟩
  · rw [scanFrom_overlong hc.1 hf]
    exact ⟨.intLiteral, [], rfl, iff_of_true mem_cons_self trivial⟩
  · rw [scanFrom_found hc.1 hf]
    exact ⟨kind, _, rfl, Iff.rfl⟩

/-- Where a digit stands, perhaps behind a minus sign, the scan comes to a numeral. -/
theorem kinds_of_digit (neg : Bool) {d : Char} (r : List Char) (hd : isDecimalDigit d)
    (offset line : Nat) : ∃ k ∈ numeralKinds, ∃ ks,
      (scanFrom 0 before offset line (minusSign neg ++ d :: r)).kinds = k :: ks := by
  obtain ⟨f, hf, hnumeral⟩ := exists_numeral before neg r hd
  obtain ⟨c, cs, htext, hc⟩ : ∃ c cs, minusSign neg ++ d :: r = c :: cs ∧ c ∉ gapChars ∧ c ≠ '/' := by
    cases neg with
    | true => exact ⟨'-', d :: r, rfl, by decide⟩
    | false => exact ⟨d, r, rfl, operand_apart (isOperandChar_of_isDecimalDigit d hd)⟩
  rw [htext] at hf ⊢
  obtain ⟨k, ks, hkinds, hk⟩ := kinds_of_found hc hf offset line
  exact ⟨k, hk.2 hnumeral, ks, hkinds⟩

theorem kinds_behind_blanks {d : Char} (hd : d ∈ (cs.dropWhile isSpace).head?)
    (hdigit : isDecimalDigit d) (offset line : Nat) :
    ∃ k ∈ numeralKinds, ∃ ks, (scanFrom 0 before offset line cs).kinds = k :: ks := by
  obtain ⟨r, hr⟩ := head?_eq_some_iff.1 (Option.mem_def.1 hd)
  have hgap : ∀ c ∈ cs.takeWhile isSpace, c ∈ gapChars :=
    fun c hc => mem_gapChars_of_isSpace (mem_takeWhile_imp hc)
  rw [← takeWhile_append_dropWhile (p := isSpace) (l := cs), hr, scanFrom_gap hgap]
  exact kinds_of_digit false r hdigit _ _

/-- The scan of the second text finds what the scan of the first one finds, unless there a minus sign comes
    right before a numeral. -/
def Agree (before before' : Option Char) (cs cs' : List Char) : Prop :=
  ∀ offset offset' line line',
    (scanFrom 0 before' offset' line' cs').contents = (scanFrom 0 before offset line cs).contents ↔
      NoMinusBeforeNumeral (scanFrom 0 before offset line cs).kinds

/-- If the same is found at the front of both texts, the rest decides. -/
theorem agree_of_found {u y y' : List Char} {f : Found} (hc : c ∉ gapChars ∧ c ≠ '/')
    (hf : findFirst before (c :: u ++ y) = some f) (hf' : findFirst before' (c :: u ++ y') = some f)
    (hfits : f.Fits (c :: u)) (hkind : ∀ k v n, f = .token k v n → k ≠ .minus)
    (hrest : ∀ x r b, u = x ++ r → Agree b b (r ++ y) (r ++ y')) :
    Agree before before' (c :: u ++ y) (c :: u ++ y') := by
  intro offset offset' line line'
  rw [cons_append] at hf hf' ⊢
  rw [cons_append]
  rcases lexeme_of_fits hc hfits with rfl | ⟨kind, value, x, r, rfl, rfl⟩
  · rw [scanFrom_overlong hc.1 hf, scanFrom_overlong hc.1 hf']
    -- one numeral alone has no minus sign before it
    exact iff_of_true rfl fun k _ hinfix => absurd hinfix.length_le (Nat.not_succ_le_self 1)
  · rw [append_assoc] at hf hf' ⊢
    rw [append_assoc, scanFrom_found hc.1 hf, scanFrom_found hc.1 hf']
    refine (contents_withToken rfl).trans ((hrest x r _ rfl _ _ _ _).trans ?_)
    exact (noMinus_cons fun h => absurd h (hkind _ _ _ rfl)).symm

/-- Behind an operator and blanks the scan comes to no numeral if no digit comes next. -/
theorem kinds_of_operand (h : Spaced true cs)
    (hnext : ∀ c ∈ (cs.dropWhile isSpace).head?, isDecimalDigit c = false) (offset line : Nat) :
    ∀ k ∈ (scanFrom 0 before offset line cs).kinds.head?, k ∉ numeralKinds := by
  induction cs generalizing before offset line with
  | nil => exact fun k hk => by cases hk
  | cons c cs ih =>
    by_cases hc : isSpace c
    · rw [scanFrom_gapChar (mem_gapChars_of_isSpace hc)]
      rw [dropWhile_cons_of_pos hc] at hnext
      exact ih (h.tail_blank hc) hnext _ _
    · rw [dropWhile_cons_of_neg hc] at hnext
      have hoperand : isOperandChar c := h.head_operand hc
      obtain ⟨f, hf⟩ := exists_findFirst before c cs
      obtain ⟨k, ks, hkinds, hk⟩ := kinds_of_found (operand_apart hoperand) hf offset line
      rw [hkinds]
      intro k' hk'
      cases hk'
      exact mt hk.1 (not_isNumeral hoperand (hnext c rfl) (fits_of_findFirst hf))

/-- Texts of fewer characters agree with what is left of them without the blanks. Where an operator or a
    blank has come before, the characters in front of the two texts may differ. -/
def AgreesBelow (n : Nat) : Prop :=
  ∀ {after : Bool} {cs : List Char}, cs.length < n → Spaced after cs → ∀ {before before' : Option Char},
    Alike before before' ∨ meetsSign cs → (after = true → (before'.map isWordChar).getD false = false) →
    Agree before before' cs (tighten after cs)

section

variable {n : Nat} (ih : AgreesBelow n) {c : Char} {cs : List Char}
include ih

theorem AgreesBelow.plain {r : List Char} (hlt : r.length < n) (hr : Spaced false r) (b : Option Char) :
    Agree b b r (tighten false r) :=
  ih hlt hr (.inl rfl) (absurd · Bool.false_ne_true)

theorem agree_blank {after : Bool} (hn : (c :: cs).length = n) (hc : isSpace c)
    (hcs : Spaced after cs) (hafter : after = true → (before'.map isWordChar).getD false = false) :
    Agree before before' (c :: cs) (tighten after (c :: cs)) := by
  have hgap := mem_gapChars_of_isSpace hc
  have hlt : cs.length < n := hn ▸ Nat.lt_succ_self _
  intro offset offset' line line'
  by_cases hsign : after = true ∨ meetsSign cs = true
  · rw [tighten_blank hc hsign, scanFrom_gapChar hgap]
    -- the blank goes, so it stands in front of one of the texts only
    refine ih hlt hcs ?_ hafter _ _ _ _
    rcases hsign with hsign | hsign
    · exact .inl ((isWordChar_false (.inl hc)).trans (hafter hsign).symm)
    · exact .inr hsign
  · rw [not_or, Bool.not_eq_true, Bool.not_eq_true] at hsign
    obtain ⟨rfl, hsign⟩ := hsign
    rw [tighten_kept hc hsign, scanFrom_gapChar hgap, scanFrom_gapChar hgap]
    exact ih.plain hlt hcs _ _ _ _ _

/-- A lexeme that begins a run of characters of operands, perhaps with a minus sign before them. What is left
    of the run is read again, so the text behind it need not begin with a blank or an operator. -/
theorem agree_of_run {u y : List Char} {f : Found} (hn : (c :: u ++ y).length = n)
    (hc : c ∉ gapChars ∧ c ≠ '/') (hu : ∀ d ∈ u, isOperandChar d) (hy : Spaced false y)
    (hf : findFirst before' (c :: u) = some f) (hfront : findFirst before (c :: u ++ y) = some f)
    (hfront' : findFirst before' (c :: u ++ tighten false y) = some f)
    (hkind : ∀ k v n, f = .token k v n → k ≠ .minus) :
    Agree before before' (c :: u ++ y) (c :: u ++ tighten false y) := by
  refine agree_of_found hc hfront hfront' (fits_of_findFirst hf) hkind fun x r b hx => ?_
  subst hx
  have hr : ∀ d ∈ r, isOperandChar d := fun d hd => hu d (mem_append_right _ hd)
  rw [← tighten_run hr]
  refine ih.plain ?_ (hy.append hr) b
  simp only [← hn, length_append, length_cons]
  omega

theorem agree_operand {after : Bool} (hn : (c :: cs).length = n) (hc : isOperandChar c)
    (hcs : Spaced false cs) (hb : Alike before before' ∨ meetsSign (c :: cs)) :
    Agree before before' (c :: cs) (tighten after (c :: cs)) := by
  have halike : Alike before before' := by
    refine hb.resolve_right fun hsign => ?_
    rw [meetsSign_cons (isSpace_of_operand hc), isSignChar_of_operand hc] at hsign
    cases hsign
  obtain ⟨u, y, rfl, hu, hy, hspaced⟩ := hcs.run
  obtain ⟨f, hf⟩ := exists_findFirst before' c u
  rw [tighten_operand hc, tighten_run hu]
  refine agree_of_run ih hn (operand_apart hc) hu hspaced hf ((findFirst_front halike hy hc).trans hf)
    ((findFirst_front rfl (endsRun_tighten hy) hc).trans hf) ?_
  rintro k v n rfl
  obtain ⟨x, r, hx, -, hne, hspells⟩ := fits_of_findFirst hf
  obtain ⟨d, x, rfl⟩ := exists_cons_of_ne_nil hne
  obtain ⟨rfl, -⟩ := List.cons.inj hx
  exact (kind_of_operand hc hspells).1

/-- A minus sign that touches a numeral already is a part of it in both texts. -/
theorem agree_touching {d : Char} (hn : ('-' :: d :: cs).length = n) (hdigit : isDecimalDigit d)
    (hcs : Spaced true (d :: cs)) :
    Agree before before' ('-' :: d :: cs) ('-' :: tighten true (d :: cs)) := by
  have hoperand := isOperandChar_of_isDecimalDigit d hdigit
  obtain ⟨u, y, rfl, hu, hy, hspaced⟩ := (hcs.tail hoperand).run
  obtain ⟨f, hf, hnumeral⟩ := exists_numeral before' true u hdigit
  rw [tighten_operand hoperand, tighten_run hu]
  refine agree_of_run ih hn ⟨by decide, by decide⟩ (forall_mem_cons.2 ⟨hoperand, hu⟩) hspaced hf
    ((findFirst_digit hy true u hdigit).trans hf)
    ((findFirst_digit (endsRun_tighten hy) true u hdigit).trans hf) ?_
  rintro k v n rfl rfl
  exact minus_notMem_numeralKinds hnumeral

end

theorem scanFrom_binarySign {text : List Char} {kind : Kind} (h : (text, kind) ∈ binarySigns)
    {r : List Char} (hr : ∀ d ∈ r.head?, isSignChar d = false)
    (hminus : text = ['-'] → ∀ d ∈ r.head?, isDecimalDigit d = false) (offset line : Nat) :
    scanFrom 0 before offset line (text ++ r) =
      (scanFrom 0 text.getLast? (offset + text.length) line r).withToken
        ⟨kind, .text (String.ofList text), line, offset⟩ := by
  obtain ⟨hne, hsigns⟩ := isSignChar_of_binarySigns h
  refine scanFrom_token hne (fun c hc => ?_) (findFirst_binarySign h hr hminus) offset line
  exact notMem_gapChars_of_sign (hsigns c (mem_of_mem_head? hc))

/-- A minus sign that comes to touch a numeral becomes a part of it. -/
theorem agree_merged {d : Char} (hc : isSpace c) (hd : d ∈ (cs.dropWhile isSpace).head?)
    (hdigit : isDecimalDigit d) :
    Agree before before' ('-' :: c :: cs) ('-' :: tighten true (c :: cs)) := by
  intro offset offset' line line'
  obtain ⟨r', hr'⟩ : ∃ r', tighten true (c :: cs) = d :: r' := by
    rw [← head?_eq_some_iff, head_tighten, dropWhile_cons_of_pos hc]
    exact hd
  have hmerged : ∃ k ∈ numeralKinds, ∃ ks,
      (scanFrom 0 before' offset' line' ('-' :: tighten true (c :: cs))).kinds = k :: ks := by
    rw [hr']
    exact kinds_of_digit true r' hdigit _ _
  have hapart : ∃ k ∈ numeralKinds, ∃ ks,
      (scanFrom 0 before offset line ('-' :: c :: cs)).kinds = .minus :: k :: ks := by
    have hblank : ∀ e ∈ (c :: cs).head?, isSpace e := fun e he => by cases he; exact hc
    have hminus : (['-'], Kind.minus) ∈ binarySigns := by decide
    rw [← singleton_append, scanFrom_binarySign hminus
      (fun e he => isSignChar_of_isSpace (hblank e he))
      fun _ e he => isDecimalDigit_of_isSpace (hblank e he), kinds_withToken]
    obtain ⟨k, hk, ks, hkinds⟩ := kinds_behind_blanks (by rwa [dropWhile_cons_of_pos hc]) hdigit _ _
    exact ⟨k, hk, ks, congrArg _ hkinds⟩
  obtain ⟨k', hk', ks', hkinds'⟩ := hmerged
  obtain ⟨k, hk, ks, hkinds⟩ := hapart
  refine iff_of_false (fun hcontents => ?_) ?_
  · have heq := kinds_of_contents hcontents
    rw [hkinds, hkinds'] at heq
    obtain ⟨rfl, -⟩ := List.cons.inj heq
    exact minus_notMem_numeralKinds hk'
  · rw [hkinds]
    exact not_noMinus hk

/-- An operator that is found in both texts. -/
theorem agree_sign {n : Nat} (ih : AgreesBelow n) {text : List Char} {kind : Kind}
    (hn : (text ++ cs).length = n) (htext : (text, kind) ∈ binarySigns) (hcs : Spaced true cs)
    (hnext : text = ['-'] → ∀ d ∈ (cs.dropWhile isSpace).head?, isDecimalDigit d = false) :
    Agree before before' (text ++ cs) (text ++ tighten true cs) := by
  obtain ⟨hne, hsigns⟩ := isSignChar_of_binarySigns htext
  have hlt : cs.length < n := by
    rw [← hn, length_append]
    exact Nat.lt_add_of_pos_left (length_pos_iff.2 hne)
  have hlast : (text.getLast?.map isWordChar).getD false = false := by
    rw [getLast?_eq_some_getLast hne]
    exact isWordChar_false (.inr (hsigns _ (getLast_mem hne)))
  have hapart : ∀ d ∈ (tighten true cs).head?, isSignChar d = false := by
    rw [head_tighten]
    exact hcs.dropBlanks.head_apart
  intro offset offset' line line'
  rw [scanFrom_binarySign htext hcs.head_apart fun h => head_notDigit (hnext h),
    scanFrom_binarySign htext hapart (by rwa [head_tighten])]
  refine (contents_withToken rfl).trans ((ih hlt hcs (.inl rfl) (fun _ => hlast) _ _ _ _).trans ?_)
  refine (noMinus_cons fun hkind => ?_).symm
  exact kinds_of_operand hcs (hnext (text_of_minus htext hkind)) _ _

/-- The text without blanks around its operators agrees with the text. -/
theorem agree_tighten {after : Bool} (h : Spaced after cs)
    (hb : Alike before before' ∨ meetsSign cs)
    (hafter : after = true → (before'.map isWordChar).getD false = false) :
    Agree before before' cs (tighten after cs) := by
  induction hn : cs.length using Nat.strong_induction_on generalizing cs after before before' with
  | h n ih =>
    have ih : AgreesBelow n := fun hlt h _ _ hb hafter => ih _ hlt h hb hafter rfl
    cases h with
    | nil =>
      exact fun _ _ _ _ =>
        iff_of_true rfl fun k _ hinfix => absurd hinfix.length_le (Nat.not_succ_le_zero 1)
    | blank hc hcs => exact agree_blank ih hn hc hcs hafter
    | operand hc hcs => exact agree_operand ih hn hc hcs hb
    | @sign text kind cs htext hcs =>
      obtain ⟨hne, hsigns⟩ := isSignChar_of_binarySigns htext
      rw [tighten_signs hne hsigns]
      by_cases hmerge : text = ['-'] ∧ ∃ d ∈ (cs.dropWhile isSpace).head?, isDecimalDigit d
      · obtain ⟨rfl, d, hd, hdigit⟩ := hmerge
        cases cs with
        | nil => cases hd
        | cons c cs =>
          by_cases hc : isSpace c
          · rw [dropWhile_cons_of_pos hc] at hd
            exact agree_merged hc hd hdigit
          · rw [dropWhile_cons_of_neg hc] at hd
            cases hd
            exact agree_touching ih hn hdigit hcs
      · refine agree_sign ih hn htext hcs fun hminus d hd => ?_
        by_contra hdigit
        exact hmerge ⟨hminus, d, hd, by simpa using hdigit⟩

/-! ### Texts of pieces -/

theorem Piece.text_operand {p : Piece} (hsign : p.isSign = false) (hblank : p.isBlank = false) :
    p.text ≠ [] ∧ ∀ c ∈ p.text, isOperandChar c := by
  cases p with
  | word c cs hc hcs =>
    refine ⟨cons_ne_nil _ _, forall_mem_cons.2 ⟨?_, fun d hd => ?_⟩⟩
    · exact isOperandChar_of_isWordRest c (isWordRest_of_isWordStart hc)
    · exact isOperandChar_of_isWordRest d (all_eq_true.1 hcs d hd)
  | integer digits hne hdigits =>
    exact ⟨hne, fun d hd => isOperandChar_of_isDecimalDigit d (all_eq_true.1 hdigits d hd)⟩
  | decimal whole places hwhole hplaces hdigits =>
    rw [all_eq_true] at hdigits
    refine ⟨append_ne_nil_of_left_ne_nil hwhole _, forall_mem_append.2 ⟨fun d hd => ?_,
      forall_mem_cons.2 ⟨by decide, fun d hd => ?_⟩⟩⟩
    · exact isOperandChar_of_isDecimalDigit d (hdigits d (mem_append_left _ hd))
    · exact isOperandChar_of_isDecimalDigit d (hdigits d (mem_append_right _ hd))
  | paren opens =>
    exact ⟨cons_ne_nil _ _, forall_mem_singleton.2 (by cases opens <;> decide)⟩
  | sign text kind h => cases hsign
  | blank tab => cases hblank

/-- Where no operator follows another one, operands stand between them. -/
theorem spaced_of_pieces {after : Bool} {ps : List Piece} (h : NoSignsAdjacent ps)
    (hfirst : after = true → ∀ p ∈ (ps.filter fun p => !p.isBlank).head?, p.isSign = false) :
    Spaced after (ps.flatMap Piece.text) := by
  induction ps generalizing after with
  | nil => exact .nil
  | cons p ps ih =>
    rw [flatMap_cons]
    cases hblank : p.isBlank with
    | true =>
      rw [NoSignsAdjacent, filter_cons_of_neg (by simp [hblank])] at h
      rw [filter_cons_of_neg (by simp [hblank])] at hfirst
      cases p with
      | blank tab => exact .blank (by cases tab <;> decide) (ih h hfirst)
      | _ => cases hblank
    | false =>
      rw [NoSignsAdjacent, filter_cons_of_pos (by simp [hblank]), isChain_cons] at h
      rw [filter_cons_of_pos (by simp [hblank])] at hfirst
      obtain ⟨hnext, h⟩ := h
      cases hsign : p.isSign with
      | true =>
        have hafter : after = false := by
          by_contra hafter
          rw [hfirst (by simpa using hafter) p rfl] at hsign
          cases hsign
        subst hafter
        cases p with
        | sign text kind hmem =>
          refine .sign hmem (ih h fun _ q hq => ?_)
          simpa using fun hq' => hnext q hq ⟨rfl, hq'⟩
        | _ => cases hsign
      | false =>
        obtain ⟨hne, htext⟩ := Piece.text_operand hsign hblank
        obtain ⟨c, u, hu⟩ := exists_cons_of_ne_nil hne
        rw [hu] at htext ⊢
        obtain ⟨hc, hus⟩ := forall_mem_cons.1 htext
        exact .operand hc (.append hus (ih h (absurd · Bool.false_ne_true)))

/-- Deleting the blanks around the operators of an expression leaves the kinds and values of its tokens as
    they are exactly if no minus sign stands before a numeral in it. -/
theorem operator_spacing_iff (ps : List Piece) (h : NoSignsAdjacent ps) :
    (scan (String.ofList (tighten false (ps.flatMap Piece.text)))).contents =
        (scan (String.ofList (ps.flatMap Piece.text))).contents ↔
      NoMinusBeforeNumeral (scan (String.ofList (ps.flatMap Piece.text))).kinds := by
  have hagree : Agree none none _ _ :=
    agree_tighten (spaced_of_pieces h (absurd · Bool.false_ne_true)) (.inl rfl)
      (absurd · Bool.false_ne_true)
  rw [scan, scan, String.toList_ofList, String.toList_ofList]
  exact hagree 0 0 1 1

/-- `a1 <= (b / 2) - c % 10`, with a tab behind the minus sign. -/
def mixedPieces : List Piece :=
  [.word 'a' ['1'] (by decide) (by decide), .blank false, .sign ['<', '='] .le (by decide), .blank false,
   .paren true, .word 'b' [] (by decide) (by decide), .blank false, .sign ['/'] .divide (by decide),
   .blank false, .integer ['2'] (by decide) (by decide), .paren false, .blank false,
   .sign ['-'] .minus (by decide), .blank true, .word 'c' [] (by decide) (by decide), .blank false,
   .sign ['%'] .mod (by decide), .blank false, .integer ['1', '0'] (by decide) (by decide)]

theorem operator_spacing_mixed : NoSignsAdjacent mixedPieces ∧
    tighten false (mixedPieces.flatMap Piece.text) = "a1<=(b/2)-c%10".toList ∧
    (scan (String.ofList (tighten false (mixedPieces.flatMap Piece.text)))).contents =
      (scan (String.ofList (mixedPieces.flatMap Piece.text))).contents := by
  have h : NoSignsAdjacent mixedPieces := by decide
  have hkinds : (scan (String.ofList (mixedPieces.flatMap Piece.text))).kinds =
      [.identifier, .le, .lparen, .identifier, .divide, .intLiteral, .rparen, .minus, .identifier, .mod,
       .intLiteral] := by
    decide +kernel
  refine ⟨h, by decide, (operator_spacing_iff mixedPieces h).2 ?_⟩
  rw [hkinds]
  decide

/-- `a - 1` -/
def minusOne : List Piece :=
  [.word 'a' [] (by decide) (by decide), .blank false, .sign ['-'] .minus (by decide), .blank false,
   .integer ['1'] (by decide) (by decide)]

/-- Without the blanks, `a - 1` is a name and the number `-1`. -/
theorem operator_spacing_minus_one : NoSignsAdjacent minusOne ∧
    (scan (String.ofList (minusOne.flatMap Piece.text))).contents =
      ([(.identifier, .text "a"), (.minus, .text "-"), (.intLiteral, .int 1)], none) ∧
    (scan (String.ofList (tighten false (minusOne.flatMap Piece.text)))).contents =
      ([(.identifier, .text "a"), (.intLiteral, .int (-1))], none) := by
  decide +kernel

end StackLang
