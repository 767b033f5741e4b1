import StackLang.Proofs.Coverage

/-!
# Lines of tokens

A token lies on the line that the line breaks in front of it lead to, counted
from 1. The scanner counts line breaks by a rule of their own, so it misses those
that another rule takes along: lexemes hold none, but comments between marks can
(`comments` lists what a scan passes over).

* `line_add_hiddenBreaks`: at each place of a scan the line that it has counted
  and the breaks that it will miss before a token make up the right line of it;
* `token_line_iff`: a token has its right line exactly if no comment before it
  holds a line break.
-/

namespace StackLang

open List

/-! ### Comments of a text -/

/-- The comments of a text, each with its offset, of which the last lexeme still covers the first
    `covered` characters. -/
def commentsFrom (covered : Nat) (before : Option Char) (offset : Nat) :
    List Char → List (Nat × List Char)
  | [] => []
  | c :: r =>
    match covered with
    | k + 1 => commentsFrom k (some c) (offset + 1) r
    | 0 =>
      if c == ' ' || c == '\t' then commentsFrom 0 (some c) (offset + 1) r
      else
        match findFirst before (c :: r) with
        | some (.comment n) =>
          (offset, (c :: r).take n) :: commentsFrom (n - 1) (some c) (offset + 1) r
        | some (.breaks n) => commentsFrom (n - 1) (some c) (offset + 1) r
        | some (.token _ _ n) => commentsFrom (n - 1) (some c) (offset + 1) r
        | _ => []

/-- The comments that a scan of a source text passes over, each with its offset. -/
def comments (source : String) : List (Nat × List Char) := commentsFrom 0 none 0 source.toList

/-- The number of line breaks inside the comments before an offset. -/
def hiddenBreaks (comments : List (Nat × List Char)) (offset : Nat) : Nat :=
  ((comments.filter (·.1 < offset)).map (·.2.count '\n')).sum

theorem hiddenBreaks_cons (p : Nat × List Char) (ps : List (Nat × List Char)) (offset : Nat) :
    hiddenBreaks (p :: ps) offset =
      (if p.1 < offset then p.2.count '\n' else 0) + hiddenBreaks ps offset := by
  by_cases h : p.1 < offset <;> simp [hiddenBreaks, h]

theorem hiddenBreaks_eq_zero {ps : List (Nat × List Char)} {offset : Nat} :
    hiddenBreaks ps offset = 0 ↔ ∀ p ∈ ps, p.1 < offset → '\n' ∉ p.2 := by
  induction ps with
  | nil => simp [hiddenBreaks]
  | cons p ps ih =>
    rw [hiddenBreaks_cons, Nat.add_eq_zero_iff, ih, forall_mem_cons]
    by_cases h : p.1 < offset <;> simp [h, count_eq_zero]

/-- Comments begin behind what is covered. -/
theorem offset_le_of_commentsFrom {covered offset : Nat} {before : Option Char} {cs : List Char} :
    ∀ p ∈ commentsFrom covered before offset cs, offset ≤ p.1 := by
  fun_induction commentsFrom covered before offset cs with
  | case1 | case7 => exact forall_mem_nil _
  | case2 _ _ _ _ _ ih | case3 _ _ _ _ _ ih => exact fun p hp => Nat.le_of_succ_le (ih p hp)
  | case4 _ _ _ _ _ _ _ ih =>
    exact forall_mem_cons.2 ⟨Nat.le_refl _, fun p hp => Nat.le_of_succ_le (ih p hp)⟩
  | case5 _ _ _ _ _ _ _ ih | case6 _ _ _ _ _ _ _ _ _ ih =>
    exact fun p hp => Nat.le_of_succ_le (ih p hp)

/-! ### Line breaks of lexemes -/

theorem break_notMem_of_quotable {body : List Char} (h : Quotable body) : '\n' ∉ body := by
  induction h with
  | nil => exact not_mem_nil
  | plain _ _ hc _ ih | escaped hc _ ih => simp [hc.symm, ih]

/-- A lexeme stays on its line. -/
theorem break_notMem_of_spelled {x : List Char} {kind : Kind} {value : Atom}
    (h : Spells x kind value ∨ Stray x kind value) : '\n' ∉ x := by
  have hsign : ∀ neg, '\n' ∉ minusSign neg := by decide
  have hdigits : ∀ {ds : List Char}, (∀ d ∈ ds, isDecimalDigit d) → '\n' ∉ ds :=
    fun hds hn => absurd (hds _ hn) (by decide)
  rcases h with h | ⟨c, hc, rfl, -, -⟩
  · cases h with
    | integer neg _ hds _ => simp [hsign, hdigits hds]
    | decimal neg _ hwhole _ hplaces => simp [hsign, hdigits hwhole, hdigits hplaces]
    | quoted hbody => simp [break_notMem_of_quotable hbody]
    | truth b => cases b <;> decide
    | word hc hcs =>
      rintro (_ | ⟨_, hn⟩)
      · exact absurd hc (by decide)
      · exact absurd (hcs _ hn) (by decide)
    | operator hmem =>
      have hall : ∀ p ∈ operatorSigns, '\n' ∉ p.1 := by decide
      exact hall _ hmem
  · simp [hc.symm]

/-! ### The line of a token -/

/-- The line breaks up to a place behind the first `n` characters are those of the first characters
    and those behind them. -/
theorem count_take_front {c : Char} {r : List Char} {n start stop : Nat} (hn : 0 < n)
    (h : start + 1 + (n - 1) ≤ stop) :
    ((c :: r).take (stop - start)).count '\n' = ((c :: r).take n).count '\n' +
      ((r.take (stop - (start + 1))).drop (n - 1)).count '\n' := by
  obtain ⟨k, rfl⟩ := Nat.exists_eq_succ_of_ne_zero (Nat.ne_of_gt hn)
  obtain ⟨m, rfl⟩ : ∃ m, stop = start + 1 + m := ⟨stop - (start + 1), by omega⟩
  rw [Nat.succ_sub_one] at h ⊢
  have hfront : (r.take m).take k = r.take k := by
    rw [take_take, Nat.min_eq_left (by omega)]
  rw [Nat.add_sub_cancel_left, Nat.add_assoc, Nat.add_sub_cancel_left, Nat.add_comm 1 m,
    take_succ_cons, take_succ_cons, ← hfront, ← count_append, cons_append,
    take_append_drop]

/-- The line of a token and the breaks in the comments before it are the line that the scan has counted
    and all the breaks from there on. -/
theorem line_add_hiddenBreaks {covered offset line : Nat} {before : Option Char} {cs : List Char}
    {t : Token} (h : t ∈ (scanFrom covered before offset line cs).tokens) :
    offset + covered ≤ t.offset ∧
      t.line + hiddenBreaks (commentsFrom covered before offset cs) t.offset =
        line + ((cs.take (t.offset - offset)).drop covered).count '\n' := by
  fun_induction scanFrom covered before offset line cs with
  | case1 => cases h
  | case2 before offset line c r k ih =>
    -- the last lexeme still covers the character
    obtain ⟨hle, heq⟩ := ih h
    obtain ⟨m, hm⟩ : ∃ m, t.offset = offset + 1 + m := ⟨t.offset - (offset + 1), by omega⟩
    rw [commentsFrom, heq, hm, Nat.add_sub_cancel_left, Nat.add_assoc, Nat.add_sub_cancel_left,
      Nat.add_comm 1 m, take_succ_cons, drop_succ_cons]
    exact ⟨by omega, rfl⟩
  | case3 before offset line c r hc ih =>
    -- a blank between lexemes
    obtain ⟨hle, heq⟩ := ih h
    have hblank : ((c :: r).take 1).count '\n' = 0 := by
      rcases Bool.or_eq_true_iff.1 hc with hc | hc <;> simp [beq_iff_eq.1 hc]
    rw [commentsFrom, if_pos hc, heq]
    nth_rewrite 2 [drop_zero]
    rw [count_take_front Nat.one_pos hle, hblank, Nat.zero_add]
    exact ⟨by omega, rfl⟩
  | case4 before offset line c r hc hf ih =>
    obtain ⟨f, hf'⟩ := exists_findFirst before c r
    rw [hf] at hf'
    cases hf'
  | case5 => cases h
  | case6 before offset line c r hc n hf ih =>
    -- the breaks of a comment are hidden from here on
    obtain ⟨hle, heq⟩ := ih h
    obtain ⟨x, rest, -, hx, hcomment⟩ := fits_of_findFirst hf
    have hn : 0 < n := hx ▸ length_pos_iff.2 hcomment.ne_nil
    rw [commentsFrom, if_neg hc, hf]
    dsimp only
    rw [hiddenBreaks_cons, if_pos (by omega), Nat.add_left_comm, heq, drop_zero,
      count_take_front hn hle]
    exact ⟨by omega, Nat.add_left_comm _ _ _⟩
  | case7 before offset line c r hc n hf ih =>
    -- breaks on their own are counted
    obtain ⟨hle, heq⟩ := ih h
    obtain ⟨rest, hn, htext⟩ := fits_of_findFirst hf
    have hbreaks : ((c :: r).take n).count '\n' = n := by simp [htext]
    rw [commentsFrom, if_neg hc, hf]
    dsimp only
    rw [heq, drop_zero, count_take_front hn hle, hbreaks]
    exact ⟨by omega, by omega⟩
  | case8 before offset line c r hc kind value n hf rest ih =>
    -- a lexeme holds no break, and its token comes before all that follow
    obtain ⟨x, rest, htext, rfl, hne, hx⟩ := fits_of_findFirst hf
    have hfree : ((c :: r).take x.length).count '\n' = 0 := by
      rw [htext, take_left]
      exact count_eq_zero.2 (break_notMem_of_spelled hx)
    rw [commentsFrom, if_neg hc, hf]
    dsimp only
    rcases mem_cons.1 h with rfl | h
    · -- the comments that follow begin behind the token
      have hnone : hiddenBreaks (commentsFrom (x.length - 1) (some c) (offset + 1) r) offset = 0 :=
        hiddenBreaks_eq_zero.2 fun p hp hlt => by
          have := offset_le_of_commentsFrom p hp
          omega
      simp [hnone]
    · obtain ⟨hle, heq⟩ := ih h
      rw [heq, drop_zero, count_take_front (length_pos_iff.2 hne) hle, hfree, Nat.zero_add]
      exact ⟨by omega, rfl⟩

/-- With the line breaks inside the comments before it, a token lies on the line that all the line breaks
    before it lead to; so it has that line exactly if no comment before it holds a line break. -/
theorem token_line_iff (source : String) : ∀ t ∈ (scan source).tokens,
    t.line + hiddenBreaks (comments source) t.offset = 1 + (source.toList.take t.offset).count '\n' ∧
      (t.line = 1 + (source.toList.take t.offset).count '\n' ↔
        ∀ p ∈ comments source, p.1 < t.offset → '\n' ∉ p.2) := by
  intro t ht
  obtain ⟨-, hline⟩ := line_add_hiddenBreaks ht
  rw [Nat.sub_zero, List.drop_zero] at hline
  refine ⟨hline, ?_⟩
  rw [← hiddenBreaks_eq_zero, comments, ← hline]
  omega

/-- A string, a comment up to the end of its line, and one that ends on the line on which it begins. -/
theorem token_line_iff_comments :
    let source := "\"/*\"// one /*\n\n/* two */ x"
    ⟨.identifier, .text "x", 3, 25⟩ ∈ (scan source).tokens ∧
      3 = 1 + (source.toList.take 25).count '\n' := by
  intro source
  have ht : ⟨.identifier, .text "x", 3, 25⟩ ∈ (scan source).tokens := by decide +kernel
  exact ⟨ht, (token_line_iff source _ ht).2.2 (by decide +kernel)⟩

/-- Behind a comment over two lines a name is counted on the first line. -/
theorem token_line_missed :
    (scan "/*\n*/x").tokens = [⟨.identifier, .text "x", 1, 5⟩] ∧
      1 + ("/*\n*/x".toList.take 5).count '\n' = 2 := by
  decide +kernel

end StackLang
