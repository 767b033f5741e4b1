import StackLang.Proofs.Spacing

/-!
# Lexemes of expressions

Texts of expressions are made of operands, parentheses, operators and blanks. What the scanner finds at the
front of such a text hardly depends on what comes further behind: a lexeme ends with the run of characters of
operands that it begins in, and an operator ends where an operand or a blank follows.

* `findFirst_front`: what stands behind a run of characters of operands does not matter for what is found on
  it, if it is a blank, an operator or nothing. Of what stands before the run, it only matters whether it
  belongs to a word;
* `findFirst_digit`: a numeral owns the minus sign that it touches;
* `findFirst_binarySign`: an operator is found where no other one follows, and no digit if it is a minus sign;
* `kind_of_operand`: what begins with a character of operands is no minus sign.
-/

namespace StackLang

open List

variable {c : Char} {cs : List Char} {kind : Kind}

/-! ### Characters -/

/-- The operators between two operands that are no words, as they are written. -/
def binarySigns : List (List Char × Kind) :=
  [(['+'], .plus), (['-'], .minus), (['*'], .multiply), (['/'], .divide), (['%'], .mod), (['^'], .pow),
   (['=', '='], .eq), (['!', '='], .neq), (['<'], .lt), (['<', '='], .le), (['>'], .gt),
   (['>', '='], .ge)]

/-- The characters that operators are made of. -/
def isSignChar (c : Char) : Bool := ['+', '-', '*', '/', '%', '^', '=', '!', '<', '>'].contains c

def isSpace (c : Char) : Bool := c == ' ' || c == '\t'

/-- The characters that operands and parentheses are made of. -/
def isOperandChar (c : Char) : Bool :=
  isWordRest c || isDecimalDigit c || ['.', '(', ')'].contains c

theorem isSpace_iff : isSpace c ↔ c = ' ' ∨ c = '\t' := by
  rw [isSpace, Bool.or_eq_true, beq_iff_eq, beq_iff_eq]

theorem mem_gapChars_of_isSpace (h : isSpace c) : c ∈ gapChars := by
  rcases isSpace_iff.1 h with rfl | rfl <;> decide

theorem isSignChar_iff : isSignChar c ↔ c = '+' ∨ c = '-' ∨ c = '*' ∨ c = '/' ∨ c = '%' ∨
    c = '^' ∨ c = '=' ∨ c = '!' ∨ c = '<' ∨ c = '>' := by
  simp [isSignChar]

/-- What is no part of an operand. -/
theorem isOperandChar_false (h : isSpace c ∨ isSignChar c) : isOperandChar c = false := by
  rw [isSpace_iff, isSignChar_iff] at h
  rcases h with (rfl | rfl) | rfl | rfl | rfl | rfl | rfl | rfl | rfl | rfl | rfl | rfl <;> decide

theorem isWordChar_false (h : isSpace c ∨ isSignChar c) : isWordChar c = false := by
  rw [isSpace_iff, isSignChar_iff] at h
  rcases h with (rfl | rfl) | rfl | rfl | rfl | rfl | rfl | rfl | rfl | rfl | rfl | rfl <;> decide

theorem isSpace_of_operand (h : isOperandChar c) : isSpace c = false := by
  by_contra hc
  rw [isOperandChar_false (.inl (by simpa using hc))] at h
  cases h

theorem isSignChar_of_operand (h : isOperandChar c) : isSignChar c = false := by
  by_contra hc
  rw [isOperandChar_false (.inr (by simpa using hc))] at h
  cases h

theorem notMem_gapChars_of_sign (hc : isSignChar c) : c ∉ gapChars := by
  simp only [gapChars, mem_cons, not_mem_nil, or_false]
  rintro (rfl | rfl | rfl) <;> exact absurd hc (by decide)

/-- A character of operands is skipped nowhere and begins no comment. -/
theorem operand_apart (hc : isOperandChar c) : c ∉ gapChars ∧ c ≠ '/' := by
  constructor
  · simp only [gapChars, mem_cons, not_mem_nil, or_false]
    rintro (rfl | rfl | rfl) <;> exact absurd hc (by decide)
  · rintro rfl
    exact absurd hc (by decide)

theorem isSignChar_of_isSpace (h : isSpace c) : isSignChar c = false := by
  rcases isSpace_iff.1 h with rfl | rfl <;> decide

theorem isDecimalDigit_of_isSpace (h : isSpace c) : isDecimalDigit c = false := by
  rcases isSpace_iff.1 h with rfl | rfl <;> decide

theorem isSpace_of_sign (h : isSignChar c) : isSpace c = false := by
  rw [isSignChar_iff] at h
  rcases h with rfl | rfl | rfl | rfl | rfl | rfl | rfl | rfl | rfl | rfl <;> decide

/-- A character of operands begins no numeral with a sign, no string, no comment and no line break, and it
    is no operator together with another one. -/
theorem operand_spec (h : isOperandChar c) :
    c ≠ '-' ∧ c ≠ '"' ∧ c ≠ '/' ∧ c ≠ '\n' ∧ ∀ d, pairOperator? c d = none := by
  refine ⟨?_, ?_, ?_, ?_, fun d => ?_⟩
  case refine_5 =>
    unfold pairOperator?
    split
    case h_7 => rfl
    all_goals exact absurd h (by decide)
  all_goals
    rintro rfl
    exact absurd h (by decide)

/-! ### What is found on a run -/

/-- The text is empty or goes on with a blank or an operator. -/
def EndsRun (cs : List Char) : Prop := ∀ c ∈ cs.head?, isSpace c ∨ isSignChar c

theorem EndsRun.nil : EndsRun [] := fun _ h => by cases h

theorem EndsRun.apart (h : EndsRun cs) {p : Char → Bool} (hp : ∀ c, p c → isOperandChar c) :
    ∀ c ∈ cs.head?, p c = false := by
  intro c hc
  by_contra hpc
  have := hp c (by simpa using hpc)
  rw [isOperandChar_false (h c hc)] at this
  cases this

theorem isOperandChar_of_isWordRest (c : Char) (h : isWordRest c) : isOperandChar c := by
  simp [isOperandChar, h]

theorem isOperandChar_of_isDecimalDigit (c : Char) (h : isDecimalDigit c) : isOperandChar c := by
  simp [isOperandChar, h]

/-- A run ends where the text stops. -/
theorem takeWhile_stop {p : Char → Bool} {u y : List Char} (hy : ∀ c ∈ y.head?, p c = false) :
    (u ++ y).takeWhile p = u.takeWhile p := by
  induction u with
  | nil =>
    cases y with
    | nil => rfl
    | cons c y => simp [hy c rfl]
  | cons c u ih =>
    rw [cons_append, takeWhile_cons, takeWhile_cons, ih]

/-- Of the character in front of a text, only whether it belongs to a word matters. -/
def Alike (before before' : Option Char) : Prop :=
  (before.map isWordChar).getD false = (before'.map isWordChar).getD false

theorem findBool_front {before before' : Option Char} (hb : Alike before before') (u : List Char)
    {y : List Char} (hy : EndsRun y) : findBool before (u ++ y) = findBool before' u := by
  refine Option.ext fun f => ?_
  rw [findBool_eq_some_iff, findBool_eq_some_iff, hb]
  constructor
  · rintro ⟨b, rest, htext, hf, hends, hbefore⟩
    have hletters : ∀ d ∈ truthText b, isWordRest d := all_eq_true.1 (by cases b <;> decide)
    rcases append_eq_append_iff.1 htext with ⟨letters, htruth, rfl⟩ | ⟨left, rfl, rfl⟩
    · cases letters with
      | nil => exact ⟨b, [], by rw [htruth, append_nil, append_nil], hf, rfl, hbefore⟩
      | cons c letters =>
        -- no letter stands where the run ends
        have hc := hletters c (htruth ▸ mem_append_right _ mem_cons_self)
        rw [hy.apart isOperandChar_of_isWordRest c rfl] at hc
        cases hc
    · refine ⟨b, left, rfl, hf, ?_, hbefore⟩
      cases left with
      | nil => rfl
      | cons c left => exact hends
  · rintro ⟨b, rest, rfl, hf, hends, hbefore⟩
    refine ⟨b, rest ++ y, append_assoc _ _ _, hf, ?_, hbefore⟩
    cases rest with
    | nil =>
      cases y with
      | nil => rfl
      | cons c y => simp [wordEnds, isWordChar_false (hy c rfl)]
    | cons c rest => exact hends

section

variable {before before' : Option Char} (hb : Alike before before') {y : List Char} (hy : EndsRun y)
  {d : Char} {u : List Char}
include hb hy

omit hb in
/-- The digits of a numeral end before the run does, or with it. -/
theorem numeralHead_front (neg : Bool) (u : List Char) (hd : isDecimalDigit d) :
    ∃ digits e, digits ≠ [] ∧ numeralHead (minusSign neg ++ d :: u) = (neg, digits, e) ∧
      numeralHead (minusSign neg ++ d :: u ++ y) = (neg, digits, e ++ y) := by
  obtain ⟨digits, e, htext, hdigits, he⟩ : ∃ digits e, d :: u = d :: digits ++ e ∧
      (∀ x ∈ d :: digits, isDecimalDigit x) ∧ ∀ c ∈ e.head?, isDecimalDigit c = false := by
    refine ⟨u.takeWhile isDecimalDigit, u.dropWhile isDecimalDigit, ?_, ?_, fun c hc => ?_⟩
    · rw [cons_append, takeWhile_append_dropWhile]
    · exact forall_mem_cons.2 ⟨hd, fun x hx => mem_takeWhile_imp hx⟩
    · have hstop := head?_dropWhile_not isDecimalDigit u
      rwa [Option.mem_def.1 hc] at hstop
  have hey : ∀ c ∈ (e ++ y).head?, isDecimalDigit c = false := by
    cases e with
    | nil => exact hy.apart isOperandChar_of_isDecimalDigit
    | cons c e => exact he
  refine ⟨d :: digits, e, cons_ne_nil _ _, ?_, ?_⟩
  · rw [htext]
    exact numeralHead_eq neg (cons_ne_nil _ _) hdigits he
  · rw [htext, append_assoc, append_assoc]
    exact numeralHead_eq neg (cons_ne_nil _ _) hdigits hey

omit hb in
/-- What begins with a digit, or with a minus sign and a digit, is a numeral. -/
theorem findFirst_digit (neg : Bool) (u : List Char) (hd : isDecimalDigit d) :
    findFirst before (minusSign neg ++ d :: u ++ y) = findFirst before' (minusSign neg ++ d :: u) := by
  obtain ⟨digits, e, hne, hhead, hheady⟩ := numeralHead_front hy neg u hd
  have hreal : findReal (minusSign neg ++ d :: u ++ y) = findReal (minusSign neg ++ d :: u) := by
    unfold findReal
    rw [hhead, hheady]
    cases e with
    | nil =>
      -- the run ends with the digits, and not at a point
      cases y with
      | nil => rfl
      | cons c y =>
        have hpoint : c ≠ '.' := by
          rintro rfl
          exact absurd (hy '.' rfl) (by decide)
        simp [hpoint]
    | cons c e =>
      by_cases hpoint : c = '.'
      · subst hpoint
        simp only [cons_append, takeWhile_stop (hy.apart isOperandChar_of_isDecimalDigit)]
      · simp [hpoint]
  have hint : findInt (minusSign neg ++ d :: u ++ y) = findInt (minusSign neg ++ d :: u) := by
    simp only [findInt, hhead, hheady]
  obtain ⟨f, hf⟩ : ∃ f, findInt (minusSign neg ++ d :: u) = some f := by
    simp only [findInt, hhead, hne, if_false]
    split <;> exact ⟨_, rfl⟩
  simp only [findFirst, hreal, hint, hf, Option.orElse_some]

/-- What begins with another character of operands is a word, a truth value or one character. -/
theorem findFirst_operand (hc : isOperandChar c) (hdigit : isDecimalDigit c = false) :
    findFirst before (c :: u ++ y) = findFirst before' (c :: u) := by
  obtain ⟨hminus, hquote, hslash, hbreak, hpair⟩ := operand_spec hc
  have hnumeral (r : List Char) := findNumeral_none r hdigit fun h => absurd h hminus
  have hcomment (r : List Char) := findComment_none r fun h => absurd h hslash
  have hbool : findBool before (c :: (u ++ y)) = findBool before' (c :: u) :=
    findBool_front hb (c :: u) hy
  have hword : findWord (c :: (u ++ y)) = findWord (c :: u) := by
    rw [findWord, findWord, takeWhile_stop (hy.apart isOperandChar_of_isWordRest)]
  have hbreaks (r : List Char) : findBreaks (c :: r) = none := by
    unfold findBreaks
    split
    · rename_i hc
      exact absurd (List.cons.inj hc).1 hbreak
    · rfl
  have hoperator (r : List Char) :
      findOperator (c :: r) = some (.token (singleOperator c) (.text (String.ofList [c])) 1) := by
    cases r with
    | nil => rfl
    | cons d r => simp only [findOperator, hpair]
  rw [cons_append]
  simp only [findFirst, (hnumeral _).1, (hnumeral _).2, findString_none _ hquote, hbool, (hcomment _).1,
    (hcomment _).2, hword, hbreaks, hoperator, Option.orElse_none]

theorem findFirst_front (hc : isOperandChar c) :
    findFirst before (c :: u ++ y) = findFirst before' (c :: u) := by
  by_cases hdigit : isDecimalDigit c
  · exact findFirst_digit hy false u hdigit
  · exact findFirst_operand hb hy hc (by simpa using hdigit)

end

/-- The kinds of numerals. -/
def numeralKinds : List Kind := [.intLiteral, .floatLiteral]

theorem minus_notMem_numeralKinds : Kind.minus ∉ numeralKinds := by decide

/-- What is found is a numeral, or one with too many digits. -/
def Found.IsNumeral : Found → Prop
  | .token kind _ _ => kind ∈ numeralKinds
  | .overlong => True
  | _ => False

theorem exists_numeral (before : Option Char) (neg : Bool) {d : Char} (r : List Char)
    (hd : isDecimalDigit d) :
    ∃ f, findFirst before (minusSign neg ++ d :: r) = some f ∧ f.IsNumeral := by
  obtain ⟨digits, e, hne, hhead, -⟩ := numeralHead_front EndsRun.nil neg r hd
  cases hreal : findReal (minusSign neg ++ d :: r) with
  | some f =>
    refine ⟨f, by simp only [findFirst, hreal, Option.orElse_some], ?_⟩
    unfold findReal at hreal
    split at hreal
    · dsimp only at hreal
      split at hreal
      · cases hreal
      · cases hreal
        exact mem_cons_of_mem _ mem_cons_self
    · cases hreal
  | none =>
    simp only [findFirst, hreal, findInt, hhead, hne, if_false, Option.orElse_none]
    split
    · exact ⟨_, rfl, trivial⟩
    · exact ⟨_, rfl, mem_cons_self⟩

/-- Operators are written with the characters that operators are made of. -/
theorem isSignChar_of_binarySigns {text : List Char} (h : (text, kind) ∈ binarySigns) :
    text ≠ [] ∧ ∀ c ∈ text, isSignChar c := by
  have htable : ∀ o ∈ binarySigns, o.1 ≠ [] ∧ o.1.all isSignChar := by decide
  exact ⟨(htable _ h).1, all_eq_true.1 (htable _ h).2⟩

theorem pairOperator_none {d : Char} (hc : isSignChar c) (hd : isSignChar d = false) :
    pairOperator? c d = none := by
  unfold pairOperator?
  split
  case h_7 => rfl
  case h_1 => exact absurd hc (by decide)
  all_goals exact absurd hd (by decide)

theorem text_of_minus {text : List Char} (h : (text, kind) ∈ binarySigns) (hkind : kind = .minus) :
    text = ['-'] := by
  have htable : ∀ o ∈ binarySigns, o.2 = .minus → o.1 = ['-'] := by decide
  exact htable _ h hkind

/-- A binary operator is found where no other operator follows, and no digit if it is a minus sign. -/
theorem findFirst_binarySign {before : Option Char} {text : List Char}
    (h : (text, kind) ∈ binarySigns) {r : List Char} (hr : ∀ d ∈ r.head?, isSignChar d = false)
    (hminus : text = ['-'] → ∀ d ∈ r.head?, isDecimalDigit d = false) :
    findFirst before (text ++ r) = some (.token kind (.text (String.ofList text)) text.length) := by
  have hsubset : ∀ o ∈ binarySigns, o ∈ operatorSigns ∧ o.1 ≠ ['-', '>'] := by decide
  obtain ⟨hne, hsigns⟩ := isSignChar_of_binarySigns h
  obtain ⟨c, cs, rfl⟩ := exists_cons_of_ne_nil hne
  obtain ⟨⟨hdigit, hquote, hword, hbreak⟩, hslash, hdash, hsingle, hpair⟩ :=
    operatorSigns_spec (hsubset _ h).1
  rw [cons_append, findFirst_sign hdigit ?_ hquote hword ?_ hbreak]
  · cases cs with
    | nil =>
      cases r with
      | nil => simp [findOperator, (hsingle rfl).1]
      | cons d r =>
        simp [findOperator, pairOperator_none (hsigns c mem_cons_self) (hr d rfl), (hsingle rfl).1]
    | cons d cs =>
      obtain ⟨hcs, hkind⟩ := hpair d mem_cons_self
      obtain rfl := (List.cons.inj hcs).2
      simp [findOperator, hkind]
  · rintro rfl d hd
    rcases hdash rfl with rfl | rfl
    · exact hminus rfl d hd
    · exact absurd rfl (hsubset _ h).2
  · rintro rfl d hd
    obtain rfl := hslash rfl
    have hsign := hr d hd
    constructor
    · rintro rfl
      exact absurd hsign (by decide)
    · rintro rfl
      exact absurd hsign (by decide)

/-! ### What begins with a character of operands -/

/-- Where no blank, no line break and no slash stands, a token is found or a numeral with too many
    digits. -/
theorem lexeme_of_fits {f : Found} (hc : c ∉ gapChars ∧ c ≠ '/') (h : f.Fits (c :: cs)) :
    f = .overlong ∨ ∃ kind value x r, cs = x ++ r ∧ f = .token kind value (c :: x).length := by
  cases f with
  | token kind value n =>
    obtain ⟨x, r, htext, rfl, hne, -⟩ := h
    obtain ⟨d, x, rfl⟩ := exists_cons_of_ne_nil hne
    rw [cons_append, List.cons.injEq] at htext
    obtain ⟨rfl, rfl⟩ := htext
    exact .inr ⟨kind, value, x, r, rfl, rfl⟩
  | overlong => exact .inl rfl
  | comment n =>
    obtain ⟨x, r, htext, -, hcomment⟩ := h
    cases hcomment with
    | line _ _ | block _ => exact absurd (List.cons.inj htext).1 hc.2
  | breaks n =>
    obtain ⟨r, hn, htext⟩ := h
    obtain ⟨m, rfl⟩ := Nat.exists_eq_add_of_lt hn
    rw [Nat.zero_add, replicate_succ] at htext
    obtain ⟨rfl, -⟩ := List.cons.inj htext
    exact absurd (by decide) hc.1

theorem ofWord_notMem : ∀ w, Kind.ofWord w ∉ .minus :: numeralKinds :=
  Kind.forall_ofWord (P := (· ∉ .minus :: numeralKinds)) (by decide) (by decide)

/-- What begins with a character of operands is no minus sign, and a numeral only if it begins with a
    digit. -/
theorem kind_of_operand {value : Atom} (hc : isOperandChar c)
    (h : Spells (c :: cs) kind value ∨ Stray (c :: cs) kind value) :
    kind ≠ .minus ∧ (kind ∈ numeralKinds → isDecimalDigit c) := by
  have hminus := (operand_spec hc).1
  rcases h with h | ⟨d, -, -, rfl, -⟩
  · generalize htext : c :: cs = text at h
    cases h with
    | @integer neg digits hne hdigits _ =>
      refine ⟨by decide, fun _ => ?_⟩
      cases neg with
      | true => exact absurd (List.cons.inj htext).1 hminus
      | false =>
        obtain ⟨d, digits, rfl⟩ := exists_cons_of_ne_nil hne
        rw [(List.cons.inj htext).1]
        exact hdigits d mem_cons_self
    | @decimal neg whole places hwhole hdigits _ _ =>
      refine ⟨by decide, fun _ => ?_⟩
      cases neg with
      | true => exact absurd (List.cons.inj htext).1 hminus
      | false =>
        obtain ⟨d, whole, rfl⟩ := exists_cons_of_ne_nil hwhole
        rw [(List.cons.inj htext).1]
        exact hdigits d mem_cons_self
    | quoted _ | truth _ => exact ⟨by decide, fun h => absurd h (by decide)⟩
    | @word c cs _ _ =>
      have hword := ofWord_notMem (String.ofList (c :: cs))
      rw [mem_cons, not_or] at hword
      exact ⟨hword.1, fun h => absurd h hword.2⟩
    | operator h =>
      have htable : ∀ o ∈ operatorSigns, (o.2 = .minus → o.1 = ['-']) ∧ o.2 ∉ numeralKinds := by decide
      refine ⟨fun hkind => ?_, fun hkind => absurd hkind (htable _ h).2⟩
      have htext' := (htable _ h).1 hkind
      rw [← htext] at htext'
      exact absurd (List.cons.inj htext').1 hminus
  · exact ⟨by decide, fun h => absurd h (by decide)⟩

/-- No numeral is found where a character of operands stands that is no digit. -/
theorem not_isNumeral {f : Found} (hc : isOperandChar c) (hdigit : isDecimalDigit c = false)
    (h : f.Fits (c :: cs)) : ¬f.IsNumeral := by
  intro hnumeral
  cases f with
  | token kind value n =>
    obtain ⟨x, r, hx, -, hne, hspells⟩ := h
    obtain ⟨d, x, rfl⟩ := exists_cons_of_ne_nil hne
    obtain ⟨rfl, -⟩ := List.cons.inj hx
    exact Bool.false_ne_true (hdigit.symm.trans ((kind_of_operand hc hspells).2 hnumeral))
  | overlong =>
    obtain ⟨neg, digits, r, htext, hdigits, hlong, -⟩ := h
    obtain ⟨d, digits, rfl⟩ := exists_cons_of_length_pos (Nat.zero_lt_of_lt hlong)
    cases neg with
    | true => exact (operand_spec hc).1 (List.cons.inj htext).1
    | false =>
      obtain ⟨rfl, -⟩ := List.cons.inj htext
      exact Bool.false_ne_true (hdigit.symm.trans (hdigits c mem_cons_self))
  | comment n | breaks n => exact hnumeral

end StackLang
