import StackLang.Proofs.Coverage

/-!
# Lexemes with blanks between them

Lexemes that are written one behind the other, with blanks between them, are
read back: each as one token of its kind and with its value, at the offset at
which it begins and on the line that the breaks before it lead to. What stands
on both sides of a lexeme is then a blank or nothing, so no rule takes more or
less than the lexeme (`findFirst_of_spells`).

* `Spelling`: a lexeme by itself, `joined` and `placed`: lexemes with blanks in
  front of them as a text and as tokens;
* `scan_joined`: the tokens of the text are the ones that the lexemes stand for.
-/

namespace StackLang

open List

/-- A lexeme by itself, with the kind and the value of its token. The words `true` and `false` stand
    for truth values. -/
structure Spelling where
  text : List Char
  kind : Kind
  value : Atom
  spells : Spells text kind value
  notTruth : kind ≠ .trueWord ∧ kind ≠ .falseWord

/-- The text of lexemes, each with blanks in front of it. -/
def joined : List (List Char × Spelling) → List Char
  | [] => []
  | (gap, x) :: r => gap ++ (x.text ++ joined r)

/-- The tokens of lexemes, each with blanks in front of it, from an offset and a line on. -/
def placed (offset line : Nat) : List (List Char × Spelling) → List Token
  | [] => []
  | (gap, x) :: r =>
    ⟨x.kind, x.value, line + gap.count '\n', offset + gap.length⟩ ::
      placed (offset + gap.length + x.text.length) (line + gap.count '\n') r

/-- A lexeme is not empty and begins with something else than a blank. -/
theorem Spells.head_notMem {text : List Char} {kind : Kind} {value : Atom}
    (h : Spells text kind value) : text ≠ [] ∧ ∀ c ∈ text.head?, c ∉ gapChars := by
  have hfirst : ∀ {c : Char} {cs : List Char}, c ∉ gapChars →
      c :: cs ≠ [] ∧ ∀ d ∈ (c :: cs).head?, d ∉ gapChars := by
    intro c cs hc
    exact ⟨by simp, by simpa using hc⟩
  -- a sign or a digit
  have hnumeral : ∀ (neg : Bool) {digits : List Char} (rest : List Char), digits ≠ [] →
      (∀ d ∈ digits, isDecimalDigit d) → minusSign neg ++ (digits ++ rest) ≠ [] ∧
        ∀ c ∈ (minusSign neg ++ (digits ++ rest)).head?, c ∉ gapChars := by
    intro neg digits rest hne hdigits
    obtain ⟨d, ds, rfl⟩ := exists_cons_of_ne_nil hne
    cases neg
    · refine hfirst fun hd => ?_
      have := hdigits d mem_cons_self
      rw [(gapChar_spec hd).1] at this
      cases this
    · exact hfirst (by decide)
  cases h with
  | integer neg hne hdigits _ => simpa using hnumeral neg [] hne hdigits
  | decimal neg hwhole hw _ _ => exact hnumeral neg _ hwhole hw
  | quoted _ => exact hfirst (by decide)
  | truth b => cases b <;> exact hfirst (by decide)
  | word hc _ =>
    refine hfirst fun hgap => ?_
    have := isWordRest_of_isWordStart hc
    rw [(gapChar_spec hgap).2.2.1] at this
    cases this
  | operator h =>
    have htable : ∀ o ∈ operatorSigns, o.1 ≠ [] ∧ o.1.headD ' ' ∉ gapChars := by decide
    obtain ⟨hne, hhead⟩ := htable _ h
    obtain ⟨c, cs, rfl⟩ := exists_cons_of_ne_nil hne
    exact hfirst hhead

/-- Blanks are passed over, and the line breaks among them are counted. -/
theorem scanFrom_gap {gap : List Char} (hgap : ∀ c ∈ gap, c ∈ gapChars) (before : Option Char)
    (offset line : Nat) (r : List Char) : scanFrom 0 before offset line (gap ++ r) =
      scanFrom 0 (gap.getLast?.or before) (offset + gap.length) (line + gap.count '\n') r := by
  induction gap generalizing before offset line with
  | nil => simp
  | cons c cs ih =>
    obtain ⟨hc, hcs⟩ := forall_mem_cons.1 hgap
    have hlast : cs.getLast?.or (some c) = (c :: cs).getLast?.or before := by
      rw [getLast?_cons]
      cases cs.getLast? <;> rfl
    have hcount : (c :: cs).count '\n' = [c].count '\n' + cs.count '\n' := by
      rw [← singleton_append, count_append]
    rw [cons_append, scanFrom_gapChar hc, ih hcs, hlast, hcount, length_cons,
      Nat.add_assoc, Nat.add_comm 1, Nat.add_assoc]

/-- The last of the blanks in front of a lexeme is a blank, and so is the first one behind it. -/
theorem mem_gapChars_of_getLast {gap : List Char} {before : Option Char}
    (hgap : ∀ c ∈ gap, c ∈ gapChars) (h : gap = [] → ∀ c ∈ before, c ∈ gapChars) :
    ∀ c ∈ gap.getLast?.or before, c ∈ gapChars := by
  intro c hc
  cases hlast : gap.getLast? with
  | none =>
    rw [hlast] at hc
    exact h (getLast?_eq_none_iff.1 hlast) c hc
  | some d =>
    rw [hlast] at hc
    obtain rfl : d = c := by simpa using hc
    exact hgap d (mem_of_getLast? hlast)

theorem head_joined {pieces : List (List Char × Spelling)} {last : List Char}
    (hgap : ∀ p ∈ pieces, ∀ c ∈ p.1, c ∈ gapChars) (hparted : ∀ p ∈ pieces, p.1 ≠ [])
    (hlast : ∀ c ∈ last, c ∈ gapChars) : ∀ c ∈ (joined pieces ++ last).head?, c ∈ gapChars := by
  intro c hc
  cases pieces with
  | nil => exact hlast c (mem_of_head? hc)
  | cons p ps =>
    obtain ⟨d, gap, hd⟩ := exists_cons_of_ne_nil (hparted p mem_cons_self)
    rw [joined, hd] at hc
    obtain rfl : d = c := by simpa using hc
    exact hgap p mem_cons_self d (hd ▸ mem_cons_self)

/-- The scan of joined lexemes, from any offset and line on and behind a blank, or with blanks in
    front of the first lexeme too. -/
theorem scanFrom_joined (pieces : List (List Char × Spelling)) (last : List Char)
    (hgap : ∀ p ∈ pieces, ∀ c ∈ p.1, c ∈ gapChars) (hparted : ∀ p ∈ pieces.tail, p.1 ≠ [])
    (hlast : ∀ c ∈ last, c ∈ gapChars) (before : Option Char) (offset line : Nat)
    (hbefore : ∀ p ∈ pieces.head?, p.1 = [] → ∀ c ∈ before, c ∈ gapChars) :
    scanFrom 0 before offset line (joined pieces ++ last) =
      ⟨placed offset line pieces, line + (pieces.flatMap Prod.fst ++ last).count '\n', none⟩ := by
  induction pieces generalizing before offset line with
  | nil =>
    have hend := scanFrom_gap hlast before offset line []
    rw [append_nil] at hend
    rw [joined, nil_append, hend, scanFrom]
    rfl
  | cons p ps ih =>
    obtain ⟨gap, x⟩ := p
    obtain ⟨hgap₁, hgaps⟩ := forall_mem_cons.1 hgap
    obtain ⟨hne, hhead⟩ := x.spells.head_notMem
    have hfound : findFirst (gap.getLast?.or before) (x.text ++ (joined ps ++ last)) =
        some (.token x.kind x.value x.text.length) :=
      findFirst_of_spells x.spells x.notTruth (mem_gapChars_of_getLast hgap₁ (hbefore _ rfl))
        (head_joined hgaps hparted hlast)
    have hnext := ih hgaps (fun q hq => hparted q (mem_of_mem_tail hq)) x.text.getLast?
      (offset + gap.length + x.text.length) (line + gap.count '\n')
      fun q hq hnil => absurd hnil (hparted q (mem_of_head? hq))
    have hcount : line + (((gap, x) :: ps).flatMap Prod.fst ++ last).count '\n' =
        line + gap.count '\n' + (ps.flatMap Prod.fst ++ last).count '\n' := by
      rw [flatMap_cons, append_assoc, count_append, Nat.add_assoc]
    rw [joined, append_assoc, append_assoc, scanFrom_gap hgap₁,
      scanFrom_token hne hhead hfound, hnext, placed, hcount]

/-- Lexemes with blanks between them are scanned as the tokens that they stand for, one for each, in
    order and at their offsets. -/
theorem scan_joined (pieces : List (List Char × Spelling)) (last : List Char)
    (hgap : ∀ p ∈ pieces, ∀ c ∈ p.1, c ∈ gapChars) (hparted : ∀ p ∈ pieces.tail, p.1 ≠ [])
    (hlast : ∀ c ∈ last, c ∈ gapChars) :
    scan (String.ofList (joined pieces ++ last)) =
      ⟨placed 0 1 pieces, 1 + (pieces.flatMap Prod.fst ++ last).count '\n', none⟩ := by
  rw [scan, String.toList_ofList]
  exact scanFrom_joined pieces last hgap hparted hlast none 0 1 fun _ _ _ _ h => by cases h

/-- A negative numeral, an arrow, a string with an escaped quote and a truth value. -/
theorem scan_joined_escaped :
    scan "-12 ->\n\"a\\\"b\"\ttrue" =
      ⟨[⟨.intLiteral, .int (-12), 1, 0⟩, ⟨.ret, .text "->", 1, 4⟩,
        ⟨.stringLiteral, .text "a\\\"b", 2, 7⟩, ⟨.boolLiteral, .bool true, 2, 14⟩], 2, none⟩ := by
  have hnumeral : Spells ['-', '1', '2'] .intLiteral (.int (-12)) :=
    .integer true (List.cons_ne_nil '1' ['2']) (List.all_eq_true.1 (by decide)) (by decide)
  have harrow : Spells ['-', '>'] .ret (.text "->") := .operator (by decide)
  have hbody : Quotable ['a', '\\', '"', 'b'] :=
    .plain (by decide) (by decide) (by decide) (.escaped (by decide)
      (.plain (by decide) (by decide) (by decide) .nil))
  exact scan_joined
    [([], ⟨_, _, _, hnumeral, by decide⟩), ([' '], ⟨_, _, _, harrow, by decide⟩),
      (['\n'], ⟨_, _, _, .quoted hbody, by decide⟩), (['\t'], ⟨_, _, _, .truth true, by decide⟩)]
    [] (by simp [gapChars]) (by simp) (by simp)

end StackLang
