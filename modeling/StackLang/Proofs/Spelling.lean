import Mathlib.Data.List.Induction
import Mathlib.Data.List.TakeDrop
import Mathlib.Data.List.TakeWhile
import Mathlib.Data.Nat.Digits.Defs
import StackLang.Token.Scan

/-!
# How lexemes are spelled

Which texts stand for a token, and what the rules of the scanner find at the
front of a text. A token is *spelled* by a text (`Spells`) if the text is one of
the lexemes of the language and the token has its kind and its value: a numeral
and the number it writes, a quoted string and its body, a truth value, a word, an
operator. Any other character by itself is taken for a point (`Stray`).

* `fits_of_findFirst`: whatever the first rule finds is a lexeme, a comment or a
  run of line breaks at the front of the text, and so many characters long;
* `findFirst_of_spells`: a lexeme with blanks on both sides is found, whichever
  rules are tried before the one that knows it.
-/

namespace StackLang

open List

variable {cs : List Char} {f : Found} {c : Char} {before : Option Char}

/-! ### Lexemes -/

/-- The characters that stand between lexemes and mean nothing. -/
def gapChars : List Char := [' ', '\t', '\n']

/-- The sign in front of a numeral. -/
def minusSign (neg : Bool) : List Char := if neg then ['-'] else []

/-- The number that digits write in base ten, the last one first. -/
def numberOf (digits : List Char) : Nat :=
  Nat.ofDigits 10 (digits.reverse.map fun d => (decimalDigit? d).getD 0)

/-- The bodies of quoted strings: no line break, no quote without a backslash in
    front of it, and behind every backslash a character that it escapes. -/
inductive Quotable : List Char → Prop
  | nil : Quotable []
  | plain {c : Char} {cs : List Char} : c ≠ '"' → c ≠ '\\' → c ≠ '\n' → Quotable cs → Quotable (c :: cs)
  | escaped {c : Char} {cs : List Char} : c ≠ '\n' → Quotable cs → Quotable ('\\' :: c :: cs)

/-- The truth values as they are written. -/
def truthText (b : Bool) : List Char := if b then ['t', 'r', 'u', 'e'] else ['f', 'a', 'l', 's', 'e']

/-- The operators and the punctuation of the language. -/
def operatorSigns : List (List Char × Kind) :=
  [(['-', '>'], .ret), (['+'], .plus), (['-'], .minus), (['*'], .multiply), (['/'], .divide),
   (['%'], .mod), (['^'], .pow), (['('], .lparen), ([')'], .rparen), (['[', ']'], .emptyArr),
   (['['], .startList), ([']'], .endList), (['\x7b'], .lbrace), (['\x7d'], .rbrace),
   (['='], .assign), ([';'], .semicolon), ([','], .comma), (['=', '='], .eq), (['!', '='], .neq),
   (['<'], .lt), (['>'], .gt), (['<', '='], .le), (['>', '='], .ge), (['.'], .point)]

/-- The text is a lexeme of the language, which stands for a token of the kind and the value.
    A decimal numeral has the double nearest to the fraction that it writes. -/
inductive Spells : List Char → Kind → Atom → Prop
  | integer (neg : Bool) {digits : List Char} : digits ≠ [] → (∀ d ∈ digits, isDecimalDigit d) →
      digits.length ≤ maxIntDigits →
      Spells (minusSign neg ++ digits) .intLiteral (.int (signed neg (numberOf digits)))
  | decimal (neg : Bool) {whole places : List Char} : whole ≠ [] → (∀ d ∈ whole, isDecimalDigit d) →
      places ≠ [] → (∀ d ∈ places, isDecimalDigit d) →
      Spells (minusSign neg ++ (whole ++ '.' :: places)) .floatLiteral
        (.real (.ofFraction neg (numberOf (whole ++ places)) (10 ^ places.length) 0))
  | quoted {body : List Char} : Quotable body →
      Spells ('"' :: (body ++ ['"'])) .stringLiteral (.text (String.ofList body))
  | truth (b : Bool) : Spells (truthText b) .boolLiteral (.bool b)
  | word {c : Char} {cs : List Char} : isWordStart c → (∀ d ∈ cs, isWordRest d) →
      Spells (c :: cs) (.ofWord (String.ofList (c :: cs))) (.text (String.ofList (c :: cs)))
  | operator {text : List Char} {kind : Kind} : (text, kind) ∈ operatorSigns →
      Spells text kind (.text (String.ofList text))

/-- A character that begins no lexeme, taken for a point. -/
def Stray (text : List Char) (kind : Kind) (value : Atom) : Prop :=
  ∃ c, c ≠ '\n' ∧ text = [c] ∧ kind = .point ∧ value = .text (String.ofList [c])

/-- The text is a comment if `rest` follows it: up to the end of a line, or up to the first
    mark that ends it. -/
inductive Comment : List Char → List Char → Prop
  | line {body rest : List Char} : '\n' ∉ body → (∀ c ∈ rest.head?, c = '\n') →
      Comment ('/' :: '/' :: body) rest
  | block {body rest : List Char} : ¬['*', '/'] <:+: body →
      Comment ('/' :: '*' :: (body ++ ['*', '/'])) rest

/-- An integer numeral with more digits than there can be stands at the front of the text. -/
def Overlong (cs : List Char) : Prop :=
  ∃ neg digits rest, cs = minusSign neg ++ (digits ++ rest) ∧ (∀ d ∈ digits, isDecimalDigit d) ∧
    maxIntDigits < digits.length ∧ (∀ c ∈ rest.head?, isDecimalDigit c = false) ∧
    ∀ c cs, rest = '.' :: c :: cs → isDecimalDigit c = false

/-- What a rule has found stands at the front of the text. -/
def Found.Fits (cs : List Char) : Found → Prop
  | .token kind value n =>
    ∃ x rest, cs = x ++ rest ∧ x.length = n ∧ x ≠ [] ∧ (Spells x kind value ∨ Stray x kind value)
  | .comment n => ∃ x rest, cs = x ++ rest ∧ x.length = n ∧ Comment x rest
  | .breaks n => ∃ rest, 0 < n ∧ cs = List.replicate n '\n' ++ rest
  | .overlong => Overlong cs

/-! ### Numerals -/

theorem digitsValue_eq (digits : List Char) : digitsValue digits = numberOf digits := by
  induction digits using List.reverseRecOn with
  | nil => rfl
  | append_singleton ds d ih =>
    have hlast : digitsValue (ds ++ [d]) = 10 * digitsValue ds + (decimalDigit? d).getD 0 := by
      rw [digitsValue, foldl_append]
      rfl
    rw [hlast, ih, numberOf, numberOf, reverse_append, reverse_singleton,
      singleton_append, map_cons, Nat.ofDigits_cons, Nat.add_comm]

/-- The places of a numeral are never so many that its value is not computed from its digits. -/
theorem realOfDigits_eq (neg : Bool) (whole places : List Char) :
    realOfDigits neg (whole ++ places) (-places.length) =
      .ofFraction neg (numberOf (whole ++ places)) (10 ^ places.length) 0 := by
  have hlow : ¬(-(places.length : Int) < -((whole ++ places).length : Int) - 400) := by
    rw [length_append]
    omega
  have hhigh : ¬(-(places.length : Int) > 400) := by omega
  have hscale : scaleByTen (numberOf (whole ++ places)) 1 (-places.length) =
      (numberOf (whole ++ places), 10 ^ places.length) := by
    unfold scaleByTen
    split
    · rename_i h
      have hzero : places.length = 0 := by omega
      simp [hzero]
    · rw [Int.neg_neg, Int.toNat_natCast, Nat.one_mul]
      rfl
  simp only [realOfDigits, digitsValue_eq, hlow, hhigh, and_false, false_and, if_false, hscale]

theorem isDecimalDigit_minus : isDecimalDigit '-' = false := by decide

theorem isDecimalDigit_point : isDecimalDigit '.' = false := by decide

/-- The front of a numeral and the rest make up the text, and no digit is left out. -/
theorem numeralHead_spec {digits rest : List Char} {neg : Bool}
    (h : numeralHead cs = (neg, digits, rest)) :
    cs = minusSign neg ++ (digits ++ rest) ∧ (∀ d ∈ digits, isDecimalDigit d) ∧
      ∀ c ∈ rest.head?, isDecimalDigit c = false := by
  have hspan : ∀ r : List Char, r.span isDecimalDigit = (digits, rest) →
      r = digits ++ rest ∧ (∀ d ∈ digits, isDecimalDigit d) ∧
        ∀ c ∈ rest.head?, isDecimalDigit c = false := by
    intro r hr
    rw [span_eq_takeWhile_dropWhile] at hr
    obtain ⟨rfl, rfl⟩ := Prod.mk.inj hr
    refine ⟨takeWhile_append_dropWhile.symm, fun d hd => mem_takeWhile_imp hd, ?_⟩
    intro c hc
    have hstop := head?_dropWhile_not isDecimalDigit r
    rwa [Option.mem_def.1 hc] at hstop
  unfold numeralHead at h
  split at h
  · obtain ⟨rfl, hr⟩ := Prod.mk.inj h
    obtain ⟨rfl, hdigits⟩ := hspan _ hr
    exact ⟨rfl, hdigits⟩
  · obtain ⟨rfl, hr⟩ := Prod.mk.inj h
    exact hspan _ hr

/-- A sign and all digits up to something else are the front of a numeral. -/
theorem numeralHead_eq (neg : Bool) {digits rest : List Char} (hne : digits ≠ [])
    (hdigits : ∀ d ∈ digits, isDecimalDigit d) (hrest : ∀ c ∈ rest.head?, isDecimalDigit c = false) :
    numeralHead (minusSign neg ++ (digits ++ rest)) = (neg, digits, rest) := by
  have hspan : (digits ++ rest).span isDecimalDigit = (digits, rest) := by
    rw [span_eq_takeWhile_dropWhile, takeWhile_append_of_pos hdigits,
      dropWhile_append_of_pos hdigits]
    cases rest with
    | nil => simp
    | cons c cs =>
      have hc : isDecimalDigit c = false := hrest c rfl
      simp [hc]
  obtain ⟨d, ds, rfl⟩ := exists_cons_of_ne_nil hne
  cases neg with
  | true => rw [← hspan]; rfl
  | false =>
    -- a digit is no sign
    have hd : d ≠ '-' := by
      rintro rfl
      simpa [isDecimalDigit_minus] using hdigits '-' mem_cons_self
    simp only [minusSign, Bool.false_eq_true, if_false, nil_append, cons_append]
    rw [numeralHead]
    · rw [← cons_append, hspan]
    · intro r hr
      exact hd (List.cons.inj hr).1

theorem fits_of_findReal (h : findReal cs = some f) : f.Fits cs := by
  unfold findReal at h
  split at h
  · rename_i neg whole rest hhead
    obtain ⟨rfl, hwhole, -⟩ := numeralHead_spec hhead
    dsimp only at h
    split at h
    · cases h
    · rename_i hne
      rw [not_or] at hne
      cases h
      rw [realOfDigits_eq]
      have hplaces : ∀ d ∈ rest.takeWhile isDecimalDigit, isDecimalDigit d :=
        fun d hd => mem_takeWhile_imp hd
      refine ⟨_, rest.dropWhile isDecimalDigit, ?_, ?_, ?_,
        .inl (.decimal neg hne.1 hwhole hne.2 hplaces)⟩
      · simp [takeWhile_append_dropWhile]
      · cases neg <;> simp [minusSign] <;> omega
      · simp
  · cases h

/-- Digits on both sides of a point are a decimal numeral. -/
theorem findReal_ne_none {digits rest : List Char} {neg : Bool} (hne : digits ≠ [])
    (hhead : numeralHead cs = (neg, digits, '.' :: c :: rest)) (hc : isDecimalDigit c) :
    findReal cs ≠ none := by
  simp [findReal, hhead, hne, hc]

theorem fits_of_findInt (hreal : findReal cs = none) (h : findInt cs = some f) : f.Fits cs := by
  unfold findInt at h
  split at h
  rename_i neg digits rest hhead
  obtain ⟨rfl, hdigits, hrest⟩ := numeralHead_spec hhead
  split at h
  · cases h
  · rename_i hne
    split at h
    · rename_i hlong
      cases h
      refine ⟨neg, digits, rest, rfl, hdigits, hlong, hrest, ?_⟩
      rintro c cs rfl
      by_contra hc
      exact findReal_ne_none ‹_› hhead (by simpa using hc) hreal
    · rename_i hshort
      cases h
      rw [digitsValue_eq]
      refine ⟨_, rest, (append_assoc _ _ _).symm, ?_, by simp [hne],
        .inl (.integer neg hne hdigits (Nat.le_of_not_lt hshort))⟩
      cases neg <;> simp [minusSign]
      omega

/-- Where there are no digits there is no numeral. -/
theorem findNumeral_of_nil (h : (numeralHead cs).2.1 = []) :
    findReal cs = none ∧ findInt cs = none := by
  rcases hp : numeralHead cs with ⟨neg, digits, rest⟩
  rw [hp] at h
  obtain rfl : digits = [] := h
  constructor
  · unfold findReal
    rw [hp]
    split
    · rename_i hsame
      obtain ⟨-, rfl, -⟩ := hsame
      simp
    · rfl
  · simp [findInt, hp]

theorem findNumeral_none (cs : List Char) (hc : isDecimalDigit c = false)
    (hminus : c = '-' → ∀ d ∈ cs.head?, isDecimalDigit d = false) :
    findReal (c :: cs) = none ∧ findInt (c :: cs) = none := by
  refine findNumeral_of_nil ?_
  unfold numeralHead
  split
  · rename_i r hr
    obtain ⟨rfl, rfl⟩ := List.cons.inj hr
    rw [span_eq_takeWhile_dropWhile]
    cases cs with
    | nil => rfl
    | cons d ds =>
      have hd := hminus rfl d rfl
      simp [hd]
  · rw [span_eq_takeWhile_dropWhile]
    simp [hc]

/-! ### Quoted strings -/

theorem quotable_of_stringBody {body : List Char} (h : stringBody? cs = some body) :
    Quotable body ∧ ∃ rest, cs = body ++ '"' :: rest := by
  fun_induction stringBody? cs generalizing body with
  | case1 | case3 | case4 | case6 => cases h
  | case2 r =>
    cases h
    exact ⟨.nil, r, rfl⟩
  | case5 c r hc ih =>
    obtain ⟨body, hbody, rfl⟩ := Option.map_eq_some_iff.1 h
    obtain ⟨hq, rest, rfl⟩ := ih hbody
    exact ⟨.escaped hc hq, rest, rfl⟩
  | case7 c r hquote hbreak _ hescape hlast ih =>
    obtain ⟨body, hbody, rfl⟩ := Option.map_eq_some_iff.1 h
    obtain ⟨hq, rest, rfl⟩ := ih hbody
    refine ⟨.plain hquote ?_ hbreak hq, rest, rfl⟩
    rintro rfl
    cases body <;> exact hescape _ _ rfl rfl

theorem stringBody_of_quotable {body : List Char} (h : Quotable body) (rest : List Char) :
    stringBody? (body ++ '"' :: rest) = some body := by
  induction h with
  | nil => rfl
  | @plain c cs hquote hslash hbreak _ ih =>
    rw [cons_append, stringBody?, ih]
    · rfl
    all_goals simp_all
  | @escaped c cs hbreak _ ih =>
    rw [cons_append, cons_append, stringBody?, ih]
    · rfl
    · simp_all

theorem findString_none (cs : List Char) (h : c ≠ '"') : findString (c :: cs) = none := by
  unfold findString
  split
  · rename_i hc
    exact absurd (List.cons.inj hc).1 h
  · rfl

theorem fits_of_findString (h : findString cs = some f) : f.Fits cs := by
  unfold findString at h
  split at h
  · obtain ⟨body, hbody, rfl⟩ := Option.map_eq_some_iff.1 h
    obtain ⟨hq, rest, rfl⟩ := quotable_of_stringBody hbody
    exact ⟨_, rest, by simp, by simp, by simp, .inl (.quoted hq)⟩
  · cases h

/-! ### Truth values and words -/

/-- What begins or goes on in a word of a source text is a character of words. -/
theorem isWordChar_of_isWordRest (h : isWordRest c) : isWordChar c := by
  have hascii : c.toNat < 128 := by
    delta isWordRest Char.isAlphanum Char.isAlpha Char.isUpper Char.isLower Char.isDigit at h
    simp only [Bool.or_eq_true, Bool.and_eq_true, decide_eq_true_eq, beq_iff_eq] at h
    rcases h with ((⟨-, h⟩ | ⟨-, h⟩) | ⟨-, h⟩) | rfl
    · exact Nat.lt_of_le_of_lt h (by decide)
    · exact Nat.lt_of_le_of_lt h (by decide)
    · exact Nat.lt_of_le_of_lt h (by decide)
    · decide
  rw [isWordChar, if_pos hascii]
  exact h

theorem isWordRest_of_isWordStart (h : isWordStart c) : isWordRest c := by
  simp only [isWordStart, isWordRest, Char.isAlphanum, Bool.or_eq_true] at h ⊢
  exact h.elim (fun h => .inl (.inl h)) .inr

/-- A truth value stands there if no character of a word touches it. -/
theorem findBool_eq_some_iff :
    findBool before cs = some f ↔ ∃ b rest, cs = truthText b ++ rest ∧
      f = .token .boolLiteral (.bool b) (truthText b).length ∧ wordEnds rest ∧
      (before.map isWordChar).getD false = false := by
  constructor
  · intro h
    unfold findBool at h
    split at h
    · rename_i r
      split at h
      · rename_i hends
        rw [Bool.and_eq_true, Bool.not_eq_true'] at hends
        cases h
        exact ⟨true, r, rfl, rfl, hends.2, hends.1⟩
      · cases h
    · rename_i r
      split at h
      · rename_i hends
        rw [Bool.and_eq_true, Bool.not_eq_true'] at hends
        cases h
        exact ⟨false, r, rfl, rfl, hends.2, hends.1⟩
      · cases h
    · cases h
  · rintro ⟨b, rest, rfl, rfl, hends, hbefore⟩
    cases b <;> simp [truthText, findBool, hends, hbefore]

theorem fits_of_findBool (h : findBool before cs = some f) : f.Fits cs := by
  obtain ⟨b, rest, rfl, rfl, -⟩ := findBool_eq_some_iff.1 h
  exact ⟨_, rest, rfl, rfl, by cases b <;> simp [truthText], .inl (.truth b)⟩

/-- What holds of names and of all reserved words holds of every word. -/
theorem Kind.forall_ofWord {P : Kind → Prop} (hname : P .identifier)
    (hwords : ∀ p ∈ reservedWords, P p.2) (w : String) : P (.ofWord w) := by
  unfold Kind.ofWord
  cases h : reservedWords.lookup w with
  | none => exact hname
  | some k =>
    obtain ⟨l₁, l₂, hl, -⟩ := lookup_eq_some_iff.1 h
    exact hwords (w, k) (hl ▸ mem_append_right _ mem_cons_self)

theorem fits_of_findWord (h : findWord cs = some f) : f.Fits cs := by
  unfold findWord at h
  split at h
  · cases h
  · rename_i c r
    split at h
    · rename_i hc
      cases h
      refine ⟨c :: r.takeWhile isWordRest, r.dropWhile isWordRest, ?_, rfl, by simp,
        .inl (.word hc fun d hd => mem_takeWhile_imp hd)⟩
      rw [cons_append, takeWhile_append_dropWhile]
    · cases h

/-! ### Comments and line breaks -/

theorem fits_of_findLineComment (h : findLineComment cs = some f) : f.Fits cs := by
  unfold findLineComment at h
  split at h
  · rename_i r
    cases h
    refine ⟨'/' :: '/' :: r.takeWhile (· != '\n'), r.dropWhile (· != '\n'), ?_, ?_, .line ?_ ?_⟩
    · simp [takeWhile_append_dropWhile]
    · simp only [length_cons]
      omega
    · intro hbreak
      simpa using mem_takeWhile_imp hbreak
    · intro c hc
      have := head?_dropWhile_not (· != '\n') r
      rw [Option.mem_def.1 hc] at this
      simpa using this
  · cases h

theorem findComment_none (cs : List Char) (h : c = '/' → ∀ d ∈ cs.head?, d ≠ '/' ∧ d ≠ '*') :
    findLineComment (c :: cs) = none ∧ findBlockComment (c :: cs) = none := by
  constructor
  · unfold findLineComment
    split
    · rename_i hc
      obtain ⟨rfl, rfl⟩ := List.cons.inj hc
      exact absurd rfl (h rfl '/' rfl).1
    · rfl
  · unfold findBlockComment
    split
    · rename_i hc
      obtain ⟨rfl, rfl⟩ := List.cons.inj hc
      exact absurd rfl (h rfl '*' rfl).2
    · rfl

/-- The end of a block comment is the first mark that ends one. -/
theorem comment_of_commentEnd {n : Nat} (h : commentEnd? cs = some n) :
    ∃ body rest, cs = body ++ ['*', '/'] ++ rest ∧ n = body.length + 2 ∧ ¬['*', '/'] <:+: body := by
  fun_induction commentEnd? cs generalizing n with
  | case1 => cases h
  | case2 r =>
    cases h
    exact ⟨[], r, rfl, rfl, by simp⟩
  | case3 c r hend ih =>
    obtain ⟨m, hm, rfl⟩ := Option.map_eq_some_iff.1 h
    obtain ⟨body, rest, rfl, rfl, hbody⟩ := ih hm
    refine ⟨c :: body, rest, rfl, rfl, ?_⟩
    rw [infix_cons_iff, not_or]
    refine ⟨?_, hbody⟩
    rintro ⟨t, ht⟩
    obtain ⟨rfl, rfl⟩ := List.cons.inj ht
    exact hend (t ++ ['*', '/'] ++ rest) rfl rfl

theorem fits_of_findBlockComment (h : findBlockComment cs = some f) : f.Fits cs := by
  unfold findBlockComment at h
  split at h
  · obtain ⟨n, hn, rfl⟩ := Option.map_eq_some_iff.1 h
    obtain ⟨body, rest, rfl, rfl, hbody⟩ := comment_of_commentEnd hn
    exact ⟨_, rest, by simp, by simp, .block hbody⟩
  · cases h

theorem fits_of_findBreaks (h : findBreaks cs = some f) : f.Fits cs := by
  unfold findBreaks at h
  split at h
  · rename_i r
    cases h
    refine ⟨r.dropWhile (· == '\n'), by omega, ?_⟩
    have hrun : r.takeWhile (· == '\n') = List.replicate (r.takeWhile (· == '\n')).length '\n' :=
      eq_replicate_of_mem fun c hc => by simpa using mem_takeWhile_imp hc
    rw [Nat.add_comm, replicate_succ, cons_append, ← hrun,
      takeWhile_append_dropWhile]
  · cases h

/-! ### Operators -/

/-- The operators of two characters are those of the table. -/
theorem mem_operatorSigns_of_pair {d : Char} {k : Kind} (h : pairOperator? c d = some k) :
    ([c, d], k) ∈ operatorSigns := by
  unfold pairOperator? at h
  split at h <;> cases h <;> decide

theorem spells_singleOperator (hc : c ≠ '\n') :
    Spells [c] (singleOperator c) (.text (String.ofList [c])) ∨
      Stray [c] (singleOperator c) (.text (String.ofList [c])) := by
  unfold singleOperator
  split
  case h_18 => exact .inr ⟨c, hc, rfl, rfl, rfl⟩
  all_goals exact .inl (.operator (by decide))

theorem fits_of_findOperator (hbreak : findBreaks cs = none) (h : findOperator cs = some f) :
    f.Fits cs := by
  have single : ∀ {c : Char} {r : List Char}, cs = c :: r →
      Found.Fits cs (.token (singleOperator c) (.text (String.ofList [c])) 1) := by
    rintro c r rfl
    refine ⟨[c], r, rfl, rfl, by simp, spells_singleOperator ?_⟩
    rintro rfl
    cases hbreak
  unfold findOperator at h
  split at h
  · cases h
  · cases h
    exact single rfl
  · rename_i c d r
    split at h
    · rename_i k hk
      cases h
      exact ⟨[c, d], r, rfl, rfl, by simp, .inl (.operator (mem_operatorSigns_of_pair hk))⟩
    · cases h
      exact single rfl

/-! ### All rules together -/

/-- Every rule finds what stands at the front of the text. -/
theorem fits_of_findFirst (h : findFirst before cs = some f) : f.Fits cs := by
  have orElse : ∀ {a : Option Found} {b : Unit → Option Found}, a.orElse b = some f →
      (a = some f → f.Fits cs) → (a = none → b () = some f → f.Fits cs) → f.Fits cs := by
    intro a b h ha hb
    cases a with
    | none => exact hb rfl h
    | some x => exact ha h
  refine orElse h fits_of_findReal fun hreal h => ?_
  refine orElse h (fits_of_findInt hreal) fun _ h => ?_
  refine orElse h fits_of_findString fun _ h => ?_
  refine orElse h fits_of_findBool fun _ h => ?_
  refine orElse h fits_of_findLineComment fun _ h => ?_
  refine orElse h fits_of_findBlockComment fun _ h => ?_
  refine orElse h fits_of_findWord fun _ h => ?_
  exact orElse h fits_of_findBreaks fits_of_findOperator

/-- Some rule finds something wherever a character is left. -/
theorem exists_findFirst (before : Option Char) (c : Char) (cs : List Char) :
    ∃ f, findFirst before (c :: cs) = some f := by
  have orElse : ∀ {a : Option Found} {b : Unit → Option Found},
      (∃ f, b () = some f) → ∃ f, a.orElse b = some f := by
    rintro a b ⟨f, hf⟩
    cases a with
    | none => exact ⟨f, hf⟩
    | some x => exact ⟨x, rfl⟩
  refine orElse (orElse (orElse (orElse (orElse (orElse (orElse (orElse ?_)))))))
  unfold findOperator
  split
  · rename_i hnil
    cases hnil
  · exact ⟨_, rfl⟩
  · split
    · exact ⟨_, rfl⟩
    · exact ⟨_, rfl⟩

/-! ### Lexemes with blanks around them -/

/-- A blank is no digit, no quote, no mark of a comment and no character of words. -/
theorem gapChar_spec (h : c ∈ gapChars) : isDecimalDigit c = false ∧ c ≠ '.' ∧
    isWordRest c = false ∧ isWordChar c = false ∧ c ≠ '/' ∧ c ≠ '*' := by
  simp only [gapChars, mem_cons, not_mem_nil, or_false] at h
  rcases h with rfl | rfl | rfl <;> decide

/-- What begins a word is no digit, no quote, no slash and no line break. -/
theorem wordStart_spec (h : isWordStart c) :
    isDecimalDigit c = false ∧ c ≠ '-' ∧ c ≠ '"' ∧ c ≠ '/' := by
  refine ⟨?_, ?_⟩
  · have hcode : c.toNat < 128 ∧ (c.toNat < 48 ∨ 57 < c.toNat) := by
      delta isWordStart Char.isAlpha Char.isUpper Char.isLower at h
      simp only [Bool.or_eq_true, Bool.and_eq_true, decide_eq_true_eq, beq_iff_eq, ge_iff_le,
        UInt32.le_iff_toNat_le] at h
      rcases h with (⟨h₁, h₂⟩ | ⟨h₁, h₂⟩) | rfl
      · exact ⟨Nat.lt_of_le_of_lt h₂ (by decide), .inr (Nat.lt_of_lt_of_le (by decide) h₁)⟩
      · exact ⟨Nat.lt_of_le_of_lt h₂ (by decide), .inr (Nat.lt_of_lt_of_le (by decide) h₁)⟩
      · decide
    have hrange : ¬('0' ≤ c ∧ c ≤ '9') := by
      rintro ⟨h₁, h₂⟩
      have h₁ : 48 ≤ c.toNat := h₁
      have h₂ : c.toNat ≤ 57 := h₂
      omega
    rw [isDecimalDigit, decimalDigit?, if_pos hcode.1, if_neg hrange]
    rfl
  · refine ⟨?_, ?_, ?_⟩ <;>
    · rintro rfl
      exact absurd h (by decide)

/-- The table of operators: one character, which is no operator of two together with a blank, or
    two. None of them begins a lexeme of another sort. -/
theorem operatorSigns_spec {kind : Kind} (h : (c :: cs, kind) ∈ operatorSigns) :
    (isDecimalDigit c = false ∧ c ≠ '"' ∧ isWordStart c = false ∧ c ≠ '\n') ∧
      (c = '/' → cs = []) ∧ (c = '-' → cs = [] ∨ cs = ['>']) ∧
      (cs = [] → singleOperator c = kind ∧ ∀ d ∈ gapChars, pairOperator? c d = none) ∧
      ∀ d ∈ cs, cs = [d] ∧ pairOperator? c d = some kind := by
  -- looked up in the table; its signs are not empty, so the blank never stands in
  have htable : ∀ o ∈ operatorSigns,
      (isDecimalDigit (o.1.headD ' ') = false ∧ o.1.headD ' ' ≠ '"' ∧
        isWordStart (o.1.headD ' ') = false ∧ o.1.headD ' ' ≠ '\n') ∧
      (o.1.headD ' ' = '/' → o.1.tail = []) ∧
      (o.1.headD ' ' = '-' → o.1.tail = [] ∨ o.1.tail = ['>']) ∧
      (o.1.tail = [] → singleOperator (o.1.headD ' ') = o.2 ∧
        gapChars.all fun d => pairOperator? (o.1.headD ' ') d = none) ∧
      o.1.tail.all fun d => o.1.tail = [d] ∧ pairOperator? (o.1.headD ' ') d = some o.2 := by
    decide
  obtain ⟨hhead, hslash, hminus, hsingle, hpair⟩ := htable _ h
  refine ⟨hhead, hslash, hminus, fun hcs => ⟨(hsingle hcs).1, fun d hd => ?_⟩, fun d hd => ?_⟩
  · exact of_decide_eq_true (all_eq_true.1 (hsingle hcs).2 d hd)
  · exact of_decide_eq_true (all_eq_true.1 hpair d hd)

/-- What does not begin with something that is dropped keeps its beginning when its end is
    dropped. -/
theorem exists_reverse_dropWhile {p : Char → Bool} (hc : p c = false) (cs : List Char) :
    ∃ ds, ((c :: cs).reverse.dropWhile p).reverse = c :: ds := by
  rw [reverse_cons, dropWhile_append]
  split
  · exact ⟨[], by simp [hc]⟩
  · exact ⟨(cs.reverse.dropWhile p).reverse, by simp⟩

section

variable {before : Option Char} {r : List Char} (hr : ∀ c ∈ r.head?, c ∈ gapChars)
include hr

/-- A run of characters that no blank belongs to ends in front of a blank. -/
theorem takeWhile_gap {p : Char → Bool} {xs : List Char} (hxs : ∀ x ∈ xs, p x)
    (hp : ∀ c ∈ gapChars, p c = false) : (xs ++ r).takeWhile p = xs := by
  rw [takeWhile_append_of_pos hxs]
  cases r with
  | nil => simp
  | cons c cs =>
    have hc := hp c (hr c rfl)
    simp [hc]

theorem findFirst_integer (neg : Bool) {digits : List Char} (hne : digits ≠ [])
    (hdigits : ∀ d ∈ digits, isDecimalDigit d) (hshort : digits.length ≤ maxIntDigits) :
    findFirst before (minusSign neg ++ digits ++ r) =
      some (.token .intLiteral (.int (signed neg (numberOf digits)))
        (minusSign neg ++ digits).length) := by
  have hhead : numeralHead (minusSign neg ++ digits ++ r) = (neg, digits, r) := by
    rw [append_assoc]
    exact numeralHead_eq neg hne hdigits fun c hc => (gapChar_spec (hr c hc)).1
  have hreal : findReal (minusSign neg ++ digits ++ r) = none := by
    unfold findReal
    rw [hhead]
    split
    · rename_i hsame
      obtain ⟨-, -, rfl⟩ := hsame
      exact absurd rfl (gapChar_spec (hr '.' rfl)).2.1
    · rfl
  have hlength : neg.toNat + digits.length = (minusSign neg ++ digits).length := by
    cases neg <;> simp [minusSign]
    omega
  have hint : findInt (minusSign neg ++ digits ++ r) = some (.token .intLiteral
      (.int (signed neg (numberOf digits))) (minusSign neg ++ digits).length) := by
    simp only [findInt, hhead, hne, Nat.not_lt.2 hshort, if_false, digitsValue_eq, hlength]
  simp only [findFirst, hreal, hint, Option.orElse_none, Option.orElse_some]

theorem findFirst_decimal (neg : Bool) {whole places : List Char} (hwhole : whole ≠ [])
    (hw : ∀ d ∈ whole, isDecimalDigit d) (hplaces : places ≠ [])
    (hp : ∀ d ∈ places, isDecimalDigit d) :
    findFirst before (minusSign neg ++ (whole ++ '.' :: places) ++ r) =
      some (.token .floatLiteral
        (.real (.ofFraction neg (numberOf (whole ++ places)) (10 ^ places.length) 0))
        (minusSign neg ++ (whole ++ '.' :: places)).length) := by
  have htext : minusSign neg ++ (whole ++ '.' :: places) ++ r =
      minusSign neg ++ (whole ++ '.' :: (places ++ r)) := by simp
  have hhead : numeralHead (minusSign neg ++ (whole ++ '.' :: places) ++ r) =
      (neg, whole, '.' :: (places ++ r)) := by
    rw [htext]
    refine numeralHead_eq neg hwhole hw fun c hc => ?_
    obtain rfl : '.' = c := by simpa using hc
    exact isDecimalDigit_point
  have hrun := takeWhile_gap hr hp fun c hc => (gapChar_spec hc).1
  have hlength : neg.toNat + whole.length + 1 + places.length =
      (minusSign neg ++ (whole ++ '.' :: places)).length := by
    cases neg <;> simp [minusSign] <;> omega
  have hreal : findReal (minusSign neg ++ (whole ++ '.' :: places) ++ r) = some (.token .floatLiteral
      (.real (.ofFraction neg (numberOf (whole ++ places)) (10 ^ places.length) 0))
      (minusSign neg ++ (whole ++ '.' :: places)).length) := by
    simp only [findReal, hhead, hrun, hwhole, hplaces, or_self, if_false, hlength, realOfDigits_eq]
  simp only [findFirst, hreal, Option.orElse_some]

omit hr in
theorem findFirst_quoted {body : List Char} (h : Quotable body) :
    findFirst before ('"' :: (body ++ ['"']) ++ r) =
      some (.token .stringLiteral (.text (String.ofList body)) ('"' :: (body ++ ['"'])).length) := by
  have htext : '"' :: (body ++ ['"']) ++ r = '"' :: (body ++ '"' :: r) := by simp
  obtain ⟨hreal, hint⟩ := findNumeral_none (c := '"') (body ++ '"' :: r) (by decide)
    fun hquote => absurd hquote (by decide)
  have hstring : findString ('"' :: (body ++ '"' :: r)) = some (.token .stringLiteral
      (.text (String.ofList body)) ('"' :: (body ++ ['"'])).length) := by
    simp [findString, stringBody_of_quotable h]
  rw [htext]
  simp only [findFirst, hreal, hint, hstring, Option.orElse_none, Option.orElse_some]

/-- A word that is no truth value is taken up to the blank behind it. -/
theorem findFirst_word (hc : isWordStart c) (hcs : ∀ d ∈ cs, isWordRest d)
    (htruth : ∀ b, c :: cs ≠ truthText b) :
    findFirst before (c :: cs ++ r) =
      some (.token (.ofWord (String.ofList (c :: cs))) (.text (String.ofList (c :: cs)))
        (c :: cs).length) := by
  obtain ⟨hdigit, hminus, hquote, hslash⟩ := wordStart_spec hc
  obtain ⟨hreal, hint⟩ := findNumeral_none (cs ++ r) hdigit fun h => absurd h hminus
  have hstring := findString_none (cs ++ r) hquote
  have hgap : ∀ d ∈ gapChars, isWordRest d = false := fun d hd => (gapChar_spec hd).2.2.1
  have hbool : findBool before (c :: (cs ++ r)) = none := by
    rw [Option.eq_none_iff_forall_ne_some]
    intro f hf
    -- both words are all that the text begins with
    obtain ⟨b, rest, htext, -, hends, -⟩ := findBool_eq_some_iff.1 hf
    have hword : (c :: cs ++ r).takeWhile isWordRest = c :: cs :=
      takeWhile_gap hr (forall_mem_cons.2 ⟨isWordRest_of_isWordStart hc, hcs⟩) hgap
    have hletters : ∀ d ∈ truthText b, isWordRest d :=
      all_eq_true.1 (by cases b <;> decide)
    rw [cons_append, htext, takeWhile_append_of_pos hletters] at hword
    refine htruth b (hword.symm.trans ?_)
    cases rest with
    | nil => simp
    | cons d ds =>
      have hd : isWordRest d = false := by
        by_contra hd
        simp [wordEnds, isWordChar_of_isWordRest (by simpa using hd)] at hends
      simp [hd]
  obtain ⟨hline, hblock⟩ := findComment_none (cs ++ r) fun h => absurd h hslash
  have hword : findWord (c :: (cs ++ r)) = some (.token (.ofWord (String.ofList (c :: cs)))
      (.text (String.ofList (c :: cs))) (c :: cs).length) := by
    simp only [findWord, hc, if_true, takeWhile_gap hr hcs hgap]
  rw [cons_append]
  simp only [findFirst, hreal, hint, hstring, hbool, hline, hblock, hword, Option.orElse_none,
    Option.orElse_some]

theorem findFirst_truth (hbefore : ∀ c ∈ before, c ∈ gapChars) (b : Bool) :
    findFirst before (truthText b ++ r) =
      some (.token .boolLiteral (.bool b) (truthText b).length) := by
  have hleft : (before.map isWordChar).getD false = false := by
    cases before with
    | none => rfl
    | some c => exact (gapChar_spec (hbefore c rfl)).2.2.2.1
  have hright : wordEnds r = true := by
    cases r with
    | nil => rfl
    | cons c cs => simp [wordEnds, (gapChar_spec (hr c rfl)).2.2.2.1]
  have hbool : findBool before (truthText b ++ r) =
      some (.token .boolLiteral (.bool b) (truthText b).length) :=
    findBool_eq_some_iff.2 ⟨b, r, rfl, rfl, hright, hleft⟩
  have hstart : ∃ c cs, truthText b ++ r = c :: cs ∧ isWordStart c := by
    cases b
    · exact ⟨'f', _, rfl, by decide⟩
    · exact ⟨'t', _, rfl, by decide⟩
  obtain ⟨c, cs, htext, hc⟩ := hstart
  obtain ⟨hdigit, hminus, hquote, -⟩ := wordStart_spec hc
  rw [htext] at hbool ⊢
  obtain ⟨hreal, hint⟩ := findNumeral_none cs hdigit fun h => absurd h hminus
  have hstring := findString_none cs hquote
  simp only [findFirst, hreal, hint, hstring, hbool, Option.orElse_none, Option.orElse_some]

omit hr in
/-- What begins no numeral, string, word, comment or line break is left to the operators. -/
theorem findFirst_sign (hdigit : isDecimalDigit c = false)
    (hminus : c = '-' → ∀ d ∈ cs.head?, isDecimalDigit d = false) (hquote : c ≠ '"')
    (hword : isWordStart c = false) (hslash : c = '/' → ∀ d ∈ cs.head?, d ≠ '/' ∧ d ≠ '*')
    (hbreak : c ≠ '\n') : findFirst before (c :: cs) = findOperator (c :: cs) := by
  obtain ⟨hreal, hint⟩ := findNumeral_none cs hdigit hminus
  have hstring := findString_none cs hquote
  have hbool : findBool before (c :: cs) = none := by
    rw [Option.eq_none_iff_forall_ne_some]
    intro f hf
    obtain ⟨b, rest, htext, -⟩ := findBool_eq_some_iff.1 hf
    cases b <;> obtain ⟨rfl, -⟩ := List.cons.inj htext <;> exact absurd hword (by decide)
  obtain ⟨hline, hblock⟩ := findComment_none cs hslash
  have hname : findWord (c :: cs) = none := by simp [findWord, hword]
  have hlines : findBreaks (c :: cs) = none := by
    unfold findBreaks
    split
    · rename_i hc
      exact absurd (List.cons.inj hc).1 hbreak
    · rfl
  simp only [findFirst, hreal, hint, hstring, hbool, hline, hblock, hname, hlines,
    Option.orElse_none]

theorem findFirst_operator {text : List Char} {kind : Kind} (h : (text, kind) ∈ operatorSigns) :
    findFirst before (text ++ r) =
      some (.token kind (.text (String.ofList text)) text.length) := by
  have hne : ∀ o ∈ operatorSigns, o.1 ≠ [] := by decide
  obtain ⟨c, cs, rfl⟩ := exists_cons_of_ne_nil (hne _ h)
  obtain ⟨⟨hdigit, hquote, hword, hbreak⟩, hslash, hminus, hsingle, hpair⟩ := operatorSigns_spec h
  rw [cons_append, findFirst_sign hdigit ?_ hquote hword ?_ hbreak]
  · cases cs with
    | nil =>
      obtain ⟨hsingle, hgap⟩ := hsingle rfl
      cases r with
      | nil => simp [findOperator, hsingle]
      | cons d ds => simp [findOperator, hgap d (hr d rfl), hsingle]
    | cons d ds =>
      obtain ⟨hds, hpair⟩ := hpair d mem_cons_self
      obtain rfl := (List.cons.inj hds).2
      simp [findOperator, hpair]
  · rintro rfl d hd
    rcases hminus rfl with rfl | rfl
    · exact (gapChar_spec (hr d hd)).1
    · obtain rfl : '>' = d := by simpa using hd
      decide
  · rintro rfl d hd
    obtain rfl := hslash rfl
    have hgap := gapChar_spec (hr d hd)
    exact ⟨hgap.2.2.2.2.1, hgap.2.2.2.2.2⟩

end

/-- A lexeme with blanks or nothing on both sides is found as the token that it spells. -/
theorem findFirst_of_spells {text r : List Char} {kind : Kind} {value : Atom}
    (h : Spells text kind value) (htruth : kind ≠ .trueWord ∧ kind ≠ .falseWord)
    (hbefore : ∀ c ∈ before, c ∈ gapChars) (hr : ∀ c ∈ r.head?, c ∈ gapChars) :
    findFirst before (text ++ r) = some (.token kind value text.length) := by
  cases h with
  | integer neg hne hdigits hshort => exact findFirst_integer hr neg hne hdigits hshort
  | decimal neg hwhole hw hplaces hp => exact findFirst_decimal hr neg hwhole hw hplaces hp
  | quoted h => exact findFirst_quoted h
  | truth b => exact findFirst_truth hr hbefore b
  | word hc hcs =>
    refine findFirst_word hr hc hcs fun b hb => ?_
    rw [hb] at htruth
    cases b
    · exact absurd rfl htruth.2
    · exact absurd rfl htruth.1
  | operator h => exact findFirst_operator hr h

end StackLang
