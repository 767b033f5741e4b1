import StackLang.Scope

/-!
# Names with points

A context is a text of segments with points between them, the first one the name of a function or
`MAIN`, the others the numbers of blocks. To look a name up further out, the segments are taken
away again, from the last to the first, each at the place where it is found first in the text. That
place can be the end of another segment: the number of a block may end the name of the function.

* `cutAt_dotted`: cutting a text at its points gives its segments;
* `removeFirst_segment` and `removeFirst_ending`: what taking a segment away does, if it is found
  as a segment or as the end of the first one;
* `searchOutwards_ending` and `searchOutwards_wandering`: once a number was found at the wrong
  place, the search comes by no context until all numbers are gone, and then the first segment is
  what it was.
-/

namespace StackLang

open List

/-! ### Texts with points -/

/-- The segments with points between them. -/
def dotted : List (List Char) → List Char
  | [] => []
  | [x] => x
  | x :: y :: r => x ++ '.' :: dotted (y :: r)

/-- There is no point in the segments. -/
def Undotted (segments : List (List Char)) : Prop := ∀ x ∈ segments, '.' ∉ x

variable {x y k v w p q : List Char} {r segments : List (List Char)}

theorem undotted_nil : Undotted [] := forall_mem_nil _

theorem undotted_singleton : Undotted [x] ↔ '.' ∉ x := forall_mem_singleton

theorem undotted_cons : Undotted (x :: r) ↔ '.' ∉ x ∧ Undotted r := forall_mem_cons

theorem undotted_append {s : List (List Char)} : Undotted (r ++ s) ↔ Undotted r ∧ Undotted s :=
  forall_mem_append

theorem dotted_cons (h : r ≠ []) : dotted (x :: r) = x ++ '.' :: dotted r := by
  obtain ⟨y, r, rfl⟩ := exists_cons_of_ne_nil h
  rfl

theorem dotted_concat (h : r ≠ []) : dotted (r ++ [v]) = dotted r ++ '.' :: v := by
  induction r with
  | nil => exact absurd rfl h
  | cons x r ih =>
    cases r with
    | nil => rfl
    | cons y r =>
      rw [cons_append, dotted_cons (by simp), ih (by simp),
        dotted_cons (cons_ne_nil y r), append_assoc, cons_append]

theorem cutAt_of_notMem (h : '.' ∉ x) : cutAt '.' x = [x] := by
  induction x with
  | nil => rfl
  | cons c x ih =>
    obtain ⟨hc, hx⟩ := not_or.1 (mt mem_cons.2 h)
    rw [cutAt, if_neg (Ne.symm hc), ih hx]

theorem cutAt_append (h : '.' ∉ x) (cs : List Char) :
    cutAt '.' (x ++ '.' :: cs) = x :: cutAt '.' cs := by
  induction x with
  | nil => simp [cutAt]
  | cons c x ih =>
    obtain ⟨hc, hx⟩ := not_or.1 (mt mem_cons.2 h)
    rw [cons_append, cutAt, if_neg (Ne.symm hc), ih hx]

/-- Cutting a text at its points gives its segments. -/
theorem cutAt_dotted (hr : r ≠ []) (h : Undotted r) : cutAt '.' (dotted r) = r := by
  induction r with
  | nil => exact absurd rfl hr
  | cons x r ih =>
    obtain ⟨hx, hr⟩ := undotted_cons.1 h
    cases r with
    | nil => exact cutAt_of_notMem hx
    | cons y r => rw [dotted_cons (by simp), cutAt_append hx, ih (by simp) hr]

/-! ### Taking segments away -/

theorem afterFront?_eq_some_iff {cs rest : List Char} :
    afterFront? x cs = some rest ↔ cs = x ++ rest := by
  induction x generalizing cs with
  | nil => simp [afterFront?]
  | cons c x ih =>
    cases cs with
    | nil => simp [afterFront?]
    | cons d cs =>
      by_cases h : c = d
      · simp [afterFront?, h, ih]
      · simp [afterFront?, h, Ne.symm h]

theorem removeFirst_of_eq {cs rest : List Char} (h : cs = x ++ rest) (hx : x ≠ []) :
    removeFirst x cs = rest := by
  have hfront := afterFront?_eq_some_iff.2 h
  cases cs with
  | nil =>
    obtain ⟨rfl, -⟩ := append_eq_nil_iff.1 h.symm
    exact absurd rfl hx
  | cons c cs => rw [removeFirst, hfront]

theorem removeFirst_cons {c : Char} {cs : List Char} (h : ∀ rest, c :: cs ≠ x ++ rest) :
    removeFirst x (c :: cs) = c :: removeFirst x cs := by
  cases hfront : afterFront? x (c :: cs) with
  | none => rw [removeFirst, hfront]
  | some rest => exact absurd (afterFront?_eq_some_iff.1 hfront) (h rest)

/-- A text without points goes before a point in one way. -/
theorem eq_of_append_point {cs ds : List Char} (hx : '.' ∉ x) (hk : '.' ∉ k)
    (h : x ++ '.' :: cs = k ++ '.' :: ds) : x = k := by
  have hcut := congrArg (cutAt '.') h
  rw [cutAt_append hx, cutAt_append hk] at hcut
  exact (List.cons.inj hcut).1

/-- The first occurrence is at the end of the first segment, if that has such an end. -/
theorem removeFirst_suffix (hx : '.' ∉ x) (hk : '.' ∉ k) (cs : List Char) :
    removeFirst (k ++ ['.']) (x ++ k ++ '.' :: cs) = x ++ cs := by
  induction x with
  | nil => exact removeFirst_of_eq (by simp) (by simp)
  | cons c x ih =>
    obtain ⟨hc, hx⟩ := not_or.1 (mt mem_cons.2 hx)
    rw [cons_append, cons_append, removeFirst_cons, ih hx, cons_append]
    -- at the front, the occurrence would be the whole segment, which is longer
    intro rest h
    rw [append_assoc k, singleton_append] at h
    have hlen := congrArg List.length
      (eq_of_append_point (x := c :: (x ++ k)) (by simp [hc, hx, hk]) hk h)
    simp at hlen
    omega

/-- Otherwise it lies behind the first segment. -/
theorem removeFirst_append (hx : '.' ∉ x) (hk : '.' ∉ k) (h : ¬k <:+ x) (cs : List Char) :
    removeFirst (k ++ ['.']) (x ++ '.' :: cs) = x ++ '.' :: removeFirst (k ++ ['.']) cs := by
  induction x with
  | nil =>
    rw [nil_append, removeFirst_cons, nil_append]
    intro rest heq
    rw [append_assoc, singleton_append] at heq
    have : [] = k := eq_of_append_point (by simp) hk heq
    exact h (this ▸ suffix_refl [])
  | cons c x ih =>
    obtain ⟨hne, hsuffix⟩ := not_or.1 (mt suffix_cons_iff.2 h)
    rw [cons_append, removeFirst_cons, ih (fun hx' => hx (mem_cons_of_mem _ hx')) hsuffix,
      cons_append]
    intro rest heq
    rw [append_assoc, singleton_append] at heq
    exact hne (eq_of_append_point hx hk heq).symm

/-- A segment that is not the end of one before it is taken away as a segment. -/
theorem removeFirst_segment (hr : Undotted r) (hk : '.' ∉ k) (h : ∀ x ∈ r, ¬k <:+ x)
    (hs : segments ≠ []) :
    removeFirst (k ++ ['.']) (dotted (r ++ k :: segments)) = dotted (r ++ segments) := by
  induction r with
  | nil =>
    rw [nil_append, dotted_cons hs]
    exact removeFirst_of_eq (by simp) (by simp)
  | cons x r ih =>
    obtain ⟨hx, hr⟩ := undotted_cons.1 hr
    obtain ⟨hsuffix, h⟩ := forall_mem_cons.1 h
    rw [cons_append, dotted_cons (by simp), removeFirst_append hx hk hsuffix, ih hr h,
      cons_append, dotted_cons (by simp [hs])]

/-- A segment that is the end of the first one is taken away there, and the first two segments
    become one. -/
theorem removeFirst_ending (hx : '.' ∉ x) (hk : '.' ∉ k) :
    removeFirst (k ++ ['.']) (dotted ((x ++ k) :: y :: r)) = dotted ((x ++ y) :: r) := by
  rw [dotted_cons (by simp), removeFirst_suffix hx hk]
  cases r with
  | nil => rfl
  | cons z r =>
    rw [dotted_cons (cons_ne_nil z r), dotted_cons (cons_ne_nil z r), append_assoc]

/-! ### Numbers -/

/-- The digits of a number. -/
abbrev digitsOf (n : Nat) : List Char := Nat.toDigits 10 n

theorem isDigit_of_mem_digitsOf {n : Nat} {c : Char} (h : c ∈ digitsOf n) : c.isDigit :=
  Nat.isDigit_of_mem_toDigits (by decide) (by decide) h

theorem point_notMem_digitsOf (n : Nat) : '.' ∉ digitsOf n := fun h => by
  have := isDigit_of_mem_digitsOf h
  revert this
  decide

theorem undotted_digits (ns : List Nat) : Undotted (ns.map digitsOf) := by
  intro x hx
  obtain ⟨n, -, rfl⟩ := mem_map.1 hx
  exact point_notMem_digitsOf n

theorem Undotted.number (h : Undotted r) (n : Nat) : Undotted (r ++ [digitsOf n]) :=
  undotted_append.2 ⟨h, undotted_singleton.2 (point_notMem_digitsOf n)⟩

theorem digitsOf_inj {m n : Nat} (h : digitsOf m = digitsOf n) : m = n := by
  have := congrArg (Nat.ofDigitChars 10 · 0) h
  simpa only [Nat.ofDigitChars_ten_toDigits] using this

/-- A number does not end in the digits of a greater one. -/
theorem not_suffix_of_lt {m n : Nat} (h : m < n) : ¬digitsOf n <:+ digitsOf m := by
  intro hs
  have hle : (digitsOf m).length ≤ (digitsOf n).length := by
    rw [Nat.length_toDigits_le_iff (by decide) Nat.length_toDigits_pos]
    exact Nat.lt_trans h
      ((Nat.length_toDigits_le_iff (by decide) Nat.length_toDigits_pos).1 (Nat.le_refl _))
  have := digitsOf_inj (hs.eq_of_length_le hle)
  omega

/-! ### The search -/

/-- The type that the table has for the name with the given segments. -/
def Table.typeAt? (table : Table String) (segments : List (List Char)) : Option String :=
  table.get? (.text (String.ofList (dotted segments)))

namespace Scope

variable (table : Table String)

/-- The search goes on with what is left of the name. -/
theorem searchOutwards_cons {table : Table String} {name : List Char} {parts : List (List Char)}
    (h : removeFirst (k ++ ['.']) name = dotted segments) :
    searchOutwards table (k :: parts) name =
      (table.typeAt? segments).or (searchOutwards table parts (dotted segments)) := by
  rw [searchOutwards, h, Table.typeAt?]
  cases table.get? (.text (String.ofList (dotted segments))) <;> rfl

mutual

/-- A number that ends the first segment is found there. Then the search wanders through names with
    other first segments, until all numbers are gone. -/
theorem searchOutwards_ending (ns : List Nat) (n : Nat) (rest parts : List (List Char))
    {front : List Char} (hns : (ns ++ [n]).Pairwise (· < ·)) (hf : '.' ∉ front)
    (hr : Undotted rest)
    (hnone : ∀ first inner, Undotted (first :: inner) → inner.length < ns.length →
      table.typeAt? (first :: (inner ++ digitsOf n :: rest)) = none) :
    searchOutwards table (digitsOf n :: (ns.reverse.map digitsOf ++ parts))
        (dotted ((front ++ digitsOf n) :: (ns.map digitsOf ++ digitsOf n :: rest))) =
      (table.typeAt? ((front ++ digitsOf n) :: rest)).or
        (searchOutwards table parts (dotted ((front ++ digitsOf n) :: rest))) := by
  cases ns with
  | nil => exact searchOutwards_cons (removeFirst_ending hf (point_notMem_digitsOf n))
  | cons m ns =>
    have hfirst : '.' ∉ front ++ digitsOf m := by simp [hf, point_notMem_digitsOf]
    have hnext := hnone (front ++ digitsOf m) (ns.map digitsOf)
      (undotted_cons.2 ⟨hfirst, undotted_digits ns⟩) (by simp)
    have hlast : searchOutwards table (digitsOf m :: parts)
        (dotted ((front ++ digitsOf m) :: digitsOf n :: rest)) =
          (table.typeAt? ((front ++ digitsOf n) :: rest)).or
            (searchOutwards table parts (dotted ((front ++ digitsOf n) :: rest))) :=
      searchOutwards_cons (removeFirst_ending hf (point_notMem_digitsOf m))
    have hwander := searchOutwards_wandering ns (digitsOf n :: rest) (digitsOf m :: parts)
      (pairwise_append.1 (pairwise_cons.1 hns).2).1 hfirst (by simp)
      (undotted_cons.2 ⟨point_notMem_digitsOf n, hr⟩)
      fun first inner hu hlen => hnone first inner hu (Nat.lt_succ_of_lt hlen)
    rw [map_cons, cons_append,
      searchOutwards_cons (removeFirst_ending hf (point_notMem_digitsOf n)), hnext, Option.none_or,
      reverse_cons, map_append, append_assoc]
    exact hwander.trans hlast
termination_by ns.length

/-- If none of the names on the way is in the table, the search finds nothing until the numbers are
    gone, and then the other segments are what they were. -/
theorem searchOutwards_wandering (ns : List Nat) (rest parts : List (List Char))
    {first : List Char} (hns : ns.Pairwise (· < ·)) (hf : '.' ∉ first)
    (hne : rest ≠ []) (hr : Undotted rest)
    (hnone : ∀ first inner, Undotted (first :: inner) → inner.length < ns.length →
      table.typeAt? (first :: (inner ++ rest)) = none) :
    searchOutwards table (ns.reverse.map digitsOf ++ parts)
        (dotted (first :: (ns.map digitsOf ++ rest))) =
      searchOutwards table parts (dotted (first :: rest)) := by
  rcases eq_nil_or_concat ns with rfl | ⟨ms, n, hconcat⟩
  · rfl
  · have hshorter : ms.length < ns.length := by rw [hconcat, length_concat]; omega
    rw [hconcat, concat_eq_append] at hns hnone ⊢
    obtain ⟨hms, -, hlt⟩ := pairwise_append.1 hns
    rw [reverse_append, reverse_singleton, singleton_append, map_cons,
      cons_append, map_append, append_assoc]
    by_cases hs : digitsOf n <:+ first
    · obtain ⟨front, rfl⟩ := hs
      have hending := searchOutwards_ending ms n rest parts hns
        (fun h => hf (mem_append_left _ h)) hr
        fun first inner hu hlen => by
          have hu := undotted_append.2 ⟨hu, undotted_digits [n]⟩
          simpa using hnone first (inner ++ [digitsOf n]) hu (by simpa using hlen)
      have hgone := hnone (front ++ digitsOf n) [] (undotted_cons.2 ⟨hf, by simp [Undotted]⟩)
        (by simp)
      refine hending.trans ?_
      rw [nil_append] at hgone
      rw [hgone, Option.none_or]
    · -- the number is taken away as a segment
      have hsegment : removeFirst (digitsOf n ++ ['.'])
          (dotted ((first :: ms.map digitsOf) ++ digitsOf n :: rest)) =
            dotted ((first :: ms.map digitsOf) ++ rest) := by
        refine removeFirst_segment (undotted_cons.2 ⟨hf, undotted_digits ms⟩)
          (point_notMem_digitsOf n) (forall_mem_cons.2 ⟨hs, fun x hx => ?_⟩) hne
        obtain ⟨m, hm, rfl⟩ := mem_map.1 hx
        exact not_suffix_of_lt (hlt m hm n (by simp))
      have hnext := hnone first (ms.map digitsOf) (undotted_cons.2 ⟨hf, undotted_digits ms⟩)
        (by simp)
      have hwander := searchOutwards_wandering ms rest parts hms hf hne hr
        fun first inner hu hlen => hnone first inner hu (by simp; omega)
      refine (searchOutwards_cons hsegment).trans ?_
      rw [cons_append, hnext, Option.none_or]
      exact hwander
termination_by ns.length
decreasing_by all_goals exact hshorter

end

end Scope

end StackLang
