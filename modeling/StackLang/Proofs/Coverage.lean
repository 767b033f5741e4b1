import StackLang.Proofs.Spelling

/-!
# What a scan covers

A scan goes through a text from its front to its end. At each step it takes one
blank, one comment or one lexeme, so that the text is divided (`Divided`) into
the lexemes of the tokens and what is passed over between them. Only an integer
numeral with too many digits stops it.

* `scanFrom_gapChar`, `scanFrom_comment`, `scanFrom_token`: the steps;
* `divided_of_scanFrom`: the whole scan, by induction on the text;
* `scan_accounts_for_text`: every character up to the end, or up to the numeral
  that stops the scan, belongs to one token or is passed over for a reason.
-/

namespace StackLang

open List

/-! ### Steps of the scanner -/

/-- The characters that the last lexeme still covers are passed over. -/
theorem scanFrom_covered (before : Option Char) (offset line : Nat) (x r : List Char) :
    scanFrom x.length before offset line (x ++ r) =
      scanFrom 0 (x.getLast?.or before) (offset + x.length) line r := by
  induction x generalizing before offset with
  | nil => simp
  | cons c x ih =>
    have hlast : (c :: x).getLast?.or before = x.getLast?.or (some c) := by
      rw [getLast?_cons]
      cases x.getLast? <;> rfl
    rw [cons_append, length_cons, scanFrom, ih, hlast]
    congr 1
    omega

/-- A line break is passed over by itself, also if more of them follow. -/
theorem scanFrom_break (before : Option Char) (offset line : Nat) (r : List Char) :
    scanFrom 0 before offset line ('\n' :: r) = scanFrom 0 (some '\n') (offset + 1) (line + 1) r := by
  have hstep : ∀ (before : Option Char) (offset line : Nat) (r : List Char),
      scanFrom 0 before offset line ('\n' :: r) = scanFrom (r.takeWhile (· == '\n')).length (some '\n')
        (offset + 1) (line + (1 + (r.takeWhile (· == '\n')).length)) r := by
    intro before offset line r
    have hfound : findFirst before ('\n' :: r) =
        some (.breaks (1 + (r.takeWhile (· == '\n')).length)) := by
      obtain ⟨hreal, hint⟩ := findNumeral_none (c := '\n') r (by decide)
        fun h => absurd h (by decide)
      simp only [findFirst, hreal, hint, findString, findBool, findLineComment, findBlockComment,
        findWord, findBreaks, Option.orElse_none, Option.orElse_some]
      rfl
    rw [scanFrom, hfound]
    simp
  rw [hstep]
  cases r with
  | nil => simp [scanFrom]
  | cons c cs =>
    by_cases hc : c = '\n'
    · subst hc
      rw [hstep, takeWhile_cons_of_pos (by rfl), length_cons, scanFrom]
      congr 1
      omega
    · simp [hc]

/-- A blank is passed over, and a line break is counted. -/
theorem scanFrom_gapChar {c : Char} (hc : c ∈ gapChars) (before : Option Char) (offset line : Nat)
    (r : List Char) : scanFrom 0 before offset line (c :: r) =
      scanFrom 0 (some c) (offset + 1) (line + [c].count '\n') r := by
  simp only [gapChars, mem_cons, not_mem_nil, or_false] at hc
  rcases hc with rfl | rfl | rfl
  · simp [scanFrom]
  · simp [scanFrom]
  · exact scanFrom_break before offset line r

/-- What follows the characters `c :: x` of a lexeme is scanned from behind them. -/
theorem scanFrom_behind (c : Char) (x r : List Char) (offset line : Nat) :
    scanFrom x.length (some c) (offset + 1) line (x ++ r) =
      scanFrom 0 (c :: x).getLast? (offset + (c :: x).length) line r := by
  have hlast : (c :: x).getLast? = x.getLast?.or (some c) := by
    rw [getLast?_cons]
    cases x.getLast? <;> rfl
  rw [scanFrom_covered, hlast, length_cons, Nat.add_assoc, Nat.add_comm 1]

theorem not_blank {c : Char} (h : c ∉ gapChars) : (c == ' ' || c == '\t') = false := by
  simp_all [gapChars]

section

variable {before : Option Char} {x r : List Char} (hne : x ≠ []) (hx : ∀ c ∈ x.head?, c ∉ gapChars)
include hne hx

theorem scanFrom_token {kind : Kind} {value : Atom}
    (h : findFirst before (x ++ r) = some (.token kind value x.length)) (offset line : Nat) :
    scanFrom 0 before offset line (x ++ r) =
      { scanFrom 0 x.getLast? (offset + x.length) line r with
        tokens := ⟨kind, value, line, offset⟩ ::
          (scanFrom 0 x.getLast? (offset + x.length) line r).tokens } := by
  obtain ⟨c, x, rfl⟩ := exists_cons_of_ne_nil hne
  rw [← scanFrom_behind]
  rw [cons_append] at h ⊢
  rw [scanFrom, not_blank (hx c rfl), h]
  simp

theorem scanFrom_comment (h : findFirst before (x ++ r) = some (.comment x.length))
    (offset line : Nat) : scanFrom 0 before offset line (x ++ r) =
      scanFrom 0 x.getLast? (offset + x.length) line r := by
  obtain ⟨c, x, rfl⟩ := exists_cons_of_ne_nil hne
  rw [← scanFrom_behind]
  rw [cons_append] at h ⊢
  rw [scanFrom, not_blank (hx c rfl), h]
  simp

end

theorem scanFrom_overlong {before : Option Char} {c : Char} {r : List Char} (hc : c ∉ gapChars)
    (h : findFirst before (c :: r) = some .overlong) (offset line : Nat) :
    scanFrom 0 before offset line (c :: r) = ⟨[], line, some .malformedNumber⟩ := by
  rw [scanFrom, not_blank hc, h]
  simp

/-! ### The whole scan -/

/-- A token with the number of characters that it was found on. -/
structure Slice where
  token : Token
  width : Nat

namespace Slice

/-- Where the characters of a token end. -/
def finish (s : Slice) : Nat := s.token.offset + s.width

/-- The characters that a token was found on. -/
def text (s : Slice) (cs : List Char) : List Char := (cs.drop s.token.offset).take s.width

/-- The characters are such as the token can be found on. -/
def Spelled (s : Slice) (x : List Char) : Prop :=
  Spells x s.token.kind s.token.value ∨ Stray x s.token.kind s.token.value

end Slice

/-- The text `cs`, which begins at the offset `start`, is divided into lexemes, comments and blanks
    up to the offset `stop`, where `rest` is left. -/
inductive Divided : (start : Nat) → (cs : List Char) → List Slice → (stop : Nat) →
    (rest : List Char) → Prop
  | done {start : Nat} {cs : List Char} : Divided start cs [] start cs
  | gap {start stop : Nat} {c : Char} {cs rest : List Char} {slices : List Slice} : c ∈ gapChars →
      Divided (start + 1) cs slices stop rest → Divided start (c :: cs) slices stop rest
  | comment {start stop : Nat} {x cs rest : List Char} {slices : List Slice} : Comment x cs →
      Divided (start + x.length) cs slices stop rest → Divided start (x ++ cs) slices stop rest
  | token {stop : Nat} {x cs rest : List Char} {s : Slice} {slices : List Slice} : x ≠ [] →
      s.width = x.length → s.Spelled x → Divided s.finish cs slices stop rest →
      Divided s.token.offset (x ++ cs) (s :: slices) stop rest

theorem Comment.ne_nil {x r : List Char} (h : Comment x r) : x ≠ [] := by
  cases h <;> simp

/-- How a scan ends: with nothing left, or at an integer numeral with too many digits. -/
def Scan.EndsWith (s : Scan) (rest : List Char) : Prop :=
  s.fault = none ∧ rest = [] ∨ s.fault = some .malformedNumber ∧ Overlong rest

/-- A scan divides its text. -/
theorem divided_of_scanFrom (cs : List Char) (before : Option Char) (offset line : Nat) :
    ∃ slices stop rest, Divided offset cs slices stop rest ∧
      slices.map Slice.token = (scanFrom 0 before offset line cs).tokens ∧
      (scanFrom 0 before offset line cs).EndsWith rest := by
  induction hn : cs.length using Nat.strong_induction_on generalizing cs before offset line with
  | h n ih =>
    subst hn
    cases cs with
    | nil => exact ⟨[], offset, [], .done, rfl, .inl ⟨rfl, rfl⟩⟩
    | cons c r =>
      by_cases hc : c ∈ gapChars
      · rw [scanFrom_gapChar hc]
        obtain ⟨slices, stop, rest, hdiv, htokens, hend⟩ :=
          ih _ (Nat.lt_succ_self r.length) r (some c) (offset + 1) (line + [c].count '\n') rfl
        exact ⟨slices, stop, rest, .gap hc hdiv, htokens, hend⟩
      obtain ⟨f, hf⟩ := exists_findFirst before c r
      have hfits := fits_of_findFirst hf
      -- behind what is found, less than the text is left
      have hrest : ∀ {x r' : List Char}, c :: r = x ++ r' → x ≠ [] →
          r'.length < (c :: r).length ∧ ∀ d ∈ x.head?, d ∉ gapChars := by
        intro x r' htext hx
        obtain ⟨d, x, rfl⟩ := exists_cons_of_ne_nil hx
        obtain ⟨rfl, rfl⟩ := List.cons.inj htext
        refine ⟨?_, by simpa using hc⟩
        change r'.length < (x ++ r').length + 1
        rw [length_append]
        omega
      cases f with
      | token kind value n =>
        obtain ⟨x, r', htext, rfl, hne, hspelled⟩ := hfits
        obtain ⟨hlt, hx⟩ := hrest htext hne
        rw [htext] at hf ⊢
        rw [scanFrom_token hne hx hf]
        obtain ⟨slices, stop, rest, hdiv, htokens, hend⟩ :=
          ih _ hlt r' x.getLast? (offset + x.length) line rfl
        have hslice : Divided offset (x ++ r')
            (⟨⟨kind, value, line, offset⟩, x.length⟩ :: slices) stop rest :=
          .token (s := ⟨⟨kind, value, line, offset⟩, x.length⟩) hne rfl hspelled hdiv
        exact ⟨_, stop, rest, hslice, by rw [map_cons, htokens], hend⟩
      | comment n =>
        obtain ⟨x, r', htext, rfl, hcomment⟩ := hfits
        obtain ⟨hlt, hx⟩ := hrest htext hcomment.ne_nil
        rw [htext] at hf ⊢
        rw [scanFrom_comment hcomment.ne_nil hx hf]
        obtain ⟨slices, stop, rest, hdiv, htokens, hend⟩ :=
          ih _ hlt r' x.getLast? (offset + x.length) line rfl
        exact ⟨slices, stop, rest, .comment hcomment hdiv, htokens, hend⟩
      | breaks n =>
        obtain ⟨r', hn, htext⟩ := hfits
        obtain ⟨m, rfl⟩ := Nat.exists_eq_add_of_lt hn
        rw [Nat.zero_add, replicate_succ] at htext
        exact absurd (by rw [(List.cons.inj htext).1]; decide) hc
      | overlong =>
        rw [scanFrom_overlong hc hf]
        exact ⟨[], offset, c :: r, .done, rfl, .inr ⟨rfl, hfits⟩⟩

/-! ### Offsets -/

/-- The character at an offset is passed over: it is a blank, or part of a comment, behind the
    offset `low`, that has no character in common with a token. -/
def PassedOver (cs : List Char) (low : Nat) (slices : List Slice) (i : Nat) : Prop :=
  (∃ c ∈ gapChars, cs[i]? = some c) ∨
    ∃ start stop, low ≤ start ∧ start ≤ i ∧ i < stop ∧
      Comment ((cs.drop start).take (stop - start)) (cs.drop stop) ∧
      ∀ s ∈ slices, s.finish ≤ start ∨ stop ≤ s.token.offset

/-- The slices account for the characters of a text from one offset to another: they are not empty,
    lie there one behind the other, each on a lexeme of its token, and the other characters are
    passed over. -/
structure Accounts (cs : List Char) (start stop : Nat) (slices : List Slice) : Prop where
  within : ∀ s ∈ slices, start ≤ s.token.offset ∧ 0 < s.width ∧ s.finish ≤ stop
  ordered : slices.Pairwise fun s t => s.finish ≤ t.token.offset
  spelled : ∀ s ∈ slices, s.Spelled (s.text cs)
  others : ∀ i, start ≤ i → i < stop → (∀ s ∈ slices, i < s.token.offset ∨ s.finish ≤ i) →
    PassedOver cs start slices i

section

variable {start stop : Nat} {cs rest text : List Char} {slices : List Slice}

theorem Divided.stop_add
    (h : Divided start cs slices stop rest) : stop + rest.length = start + cs.length := by
  induction h with
  | done => rfl
  | gap _ _ ih =>
    rw [ih, length_cons]
    omega
  | comment _ _ ih =>
    rw [ih, length_append]
    omega
  | token _ hwidth _ _ ih =>
    rw [ih, length_append, Slice.finish, hwidth]
    omega

theorem Divided.start_le
    (h : Divided start cs slices stop rest) : start ≤ stop := by
  induction h with
  | done => exact Nat.le_refl _
  | gap _ _ ih | comment _ _ ih => omega
  | token _ _ _ _ ih =>
    rw [Slice.finish] at ih
    omega

theorem Divided.rest_eq
    (h : Divided start cs slices stop rest) (ht : text.drop start = cs) : text.drop stop = rest := by
  induction h with
  | done => exact ht
  | gap _ _ ih => exact ih (by rw [← drop_drop, ht]; rfl)
  | comment _ _ ih => exact ih (by rw [← drop_drop, ht, drop_left])
  | token _ hwidth _ _ ih =>
    exact ih (by rw [Slice.finish, hwidth, ← drop_drop, ht, drop_left])

theorem PassedOver.mono {low low' i : Nat} (h : PassedOver text low slices i) (hlow : low' ≤ low) :
    PassedOver text low' slices i := by
  rcases h with h | ⟨start, stop, hstart, h⟩
  · exact .inl h
  · exact .inr ⟨start, stop, Nat.le_trans hlow hstart, h⟩

/-- What stands right in front of the slices is no part of them. -/
theorem PassedOver.cons {s : Slice} {i : Nat} (h : PassedOver text s.finish slices i) :
    PassedOver text s.finish (s :: slices) i := by
  rcases h with h | ⟨start, stop, hstart, hi, hi', hcomment, hapart⟩
  · exact .inl h
  · exact .inr ⟨start, stop, hstart, hi, hi', hcomment, forall_mem_cons.2 ⟨.inl hstart, hapart⟩⟩

/-- A divided text is accounted for, step by step. -/
theorem Divided.accounts (h : Divided start cs slices stop rest) (ht : text.drop start = cs) :
    Accounts text start stop slices := by
  induction h with
  | done => exact ⟨forall_mem_nil _, .nil, forall_mem_nil _, fun i hi hi' => by omega⟩
  | @gap start stop c cs rest slices hc hdiv ih =>
    have hnext : text.drop (start + 1) = cs := by
      rw [← drop_drop, ht]
      rfl
    obtain ⟨hwithin, hordered, hspelled, hothers⟩ := ih hnext
    refine ⟨fun s hs => ?_, hordered, hspelled, fun i hi hi' hout => ?_⟩
    · have := hwithin s hs
      omega
    · rcases Nat.eq_or_lt_of_le hi with rfl | hi
      · refine .inl ⟨c, hc, ?_⟩
        have hhead : (text.drop start)[0]? = text[start]? := getElem?_drop
        rwa [ht, eq_comm] at hhead
      · exact (hothers i hi hi' hout).mono (Nat.le_succ _)
  | @comment start stop x cs rest slices hcomment hdiv ih =>
    have hnext : text.drop (start + x.length) = cs := by rw [← drop_drop, ht, drop_left]
    obtain ⟨hwithin, hordered, hspelled, hothers⟩ := ih hnext
    refine ⟨fun s hs => ?_, hordered, hspelled, fun i hi hi' hout => ?_⟩
    · have := hwithin s hs
      omega
    · by_cases hx : i < start + x.length
      · refine .inr ⟨start, start + x.length, Nat.le_refl _, hi, hx, ?_, fun s hs => .inr (hwithin s hs).1⟩
        rwa [Nat.add_sub_cancel_left, ht, take_left, hnext]
      · exact (hothers i (Nat.le_of_not_lt hx) hi' hout).mono (Nat.le_add_right _ _)
  | @token stop x cs rest s slices hne hwidth hspells hdiv ih =>
    have hnext : text.drop s.finish = cs := by
      rw [Slice.finish, hwidth, ← drop_drop, ht, drop_left]
    obtain ⟨hwithin, hordered, hspelled, hothers⟩ := ih hnext
    have hpos : 0 < s.width := by
      rw [hwidth]
      exact length_pos_iff.2 hne
    have hstart : s.token.offset ≤ s.finish := Nat.le_add_right _ _
    refine ⟨forall_mem_cons.2 ⟨⟨Nat.le_refl _, hpos, hdiv.start_le⟩, fun t ht => ?_⟩,
      pairwise_cons.2 ⟨fun t ht => (hwithin t ht).1, hordered⟩,
      forall_mem_cons.2 ⟨?_, hspelled⟩, fun i hi hi' hout => ?_⟩
    · have := hwithin t ht
      omega
    · rwa [Slice.text, hwidth, ht, take_left]
    · obtain ⟨hs, hout⟩ := forall_mem_cons.1 hout
      have hbehind : s.finish ≤ i := by omega
      exact (hothers i hbehind hi' hout).cons.mono hstart

/-- Slices that lie one behind the other begin one behind the other. -/
theorem Accounts.pairwise_offset (h : Accounts text start stop slices) :
    (slices.map fun s => s.token.offset).Pairwise (· < ·) := by
  rw [pairwise_map]
  refine h.ordered.imp_of_mem fun {s t} hs _ hst => ?_
  have := (h.within s hs).2.1
  rw [Slice.finish] at hst
  omega

end

/-- Every token of a text was found on characters that it can be found on. -/
theorem spelled_of_scan {source : String} {t : Token} (ht : t ∈ (scan source).tokens) :
    ∃ x, Spells x t.kind t.value ∨ Stray x t.kind t.value := by
  obtain ⟨slices, stop, rest, hdiv, htokens, -⟩ := divided_of_scanFrom source.toList none 0 1
  rw [scan, ← htokens] at ht
  obtain ⟨s, hs, rfl⟩ := mem_map.1 ht
  exact ⟨_, (hdiv.accounts drop_zero).spelled s hs⟩

/-- The tokens of a text lie on lexemes of it, one behind the other, and every other character is a
    blank or part of a comment: up to the end of the text, and then there is no fault, or up to an
    integer numeral with too many digits. -/
theorem scan_accounts_for_text (source : String) :
    ∃ slices stop, slices.map Slice.token = (scan source).tokens ∧
      ((scan source).tokens.map Token.offset).Pairwise (· < ·) ∧
      Accounts source.toList 0 stop slices ∧
      ((scan source).fault = none ∧ stop = source.toList.length ∨
        (scan source).fault = some .malformedNumber ∧ Overlong (source.toList.drop stop)) := by
  obtain ⟨slices, stop, rest, hdiv, htokens, hend⟩ := divided_of_scanFrom source.toList none 0 1
  have haccounts := hdiv.accounts List.drop_zero
  refine ⟨slices, stop, htokens, ?_, haccounts, ?_⟩
  · rw [scan, ← htokens, List.map_map]
    exact haccounts.pairwise_offset
  · rw [hdiv.rest_eq List.drop_zero]
    rcases hend with ⟨hfault, rfl⟩ | ⟨hfault, hlong⟩
    · refine .inl ⟨hfault, ?_⟩
      simpa using hdiv.stop_add
    · exact .inr ⟨hfault, hlong⟩

end StackLang
