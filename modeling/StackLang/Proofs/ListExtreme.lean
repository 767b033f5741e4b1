import StackLang.Proofs.ListAppend

/-!
# The least and the greatest element of a list

Two functions go through a list and push the element that no other one is better than. The
comparison instructions read words as signed integers. But these functions compare integers as words
without a sign, so that a negative integer is greater than all others.

* `Machine.execute_extreme`: what is pushed, for lists of any tag;
* `Extreme.rank_chosen_le`: in the order without a sign it is the right element;
* `extreme_found_iff`: when it is the right one in the order of the comparison instructions.
-/

namespace StackLang

open List Item

/-- The functions that look for an element of a list. -/
inductive Extreme where
  | least
  | greatest
  deriving DecidableEq, Repr

namespace Extreme

variable {e : Extreme}

/-- The number of the function. -/
def number : Extreme → UInt32
  | least => 15
  | greatest => 16

/-- Whether the function takes a word for better than another one. -/
def better : Extreme → Tag → UInt32 → UInt32 → Bool
  | least => Act.before
  | greatest => fun t x y => Act.before t y x

/-- The instruction that says of two numbers whether the first one is at most, or at least, the
    second one. -/
def comparison : Extreme → UInt8
  | least => 0x0D
  | greatest => 0x0E

/-- The instruction that says the contrary. -/
def contrary : Extreme → UInt8
  | least => 0x0C
  | greatest => 0x0B

/-- The first integer comes before the second one, or is the same. -/
def Leads : Extreme → Int → Int → Prop
  | least => fun v w => v ≤ w
  | greatest => fun v w => w ≤ v

instance : (e : Extreme) → (v w : Int) → Decidable (e.Leads v w)
  | least, v, w => inferInstanceAs (Decidable (v ≤ w))
  | greatest, v, w => inferInstanceAs (Decidable (w ≤ v))

theorem Leads.trans {u v w : Int} (h : e.Leads u v) (h' : e.Leads v w) : e.Leads u w := by
  cases e with
  | least => exact Int.le_trans h h'
  | greatest => exact Int.le_trans h' h

theorem builtin_number (e : Extreme) : Act.builtin e.number = Act.best e.better := by
  cases e with
  | least | greatest => rfl

/-! ### The order of the functions -/

/-- The place of a word in the order that the functions have for integers. -/
def rank : Extreme → UInt32 → Int
  | least => fun w => w.toNat
  | greatest => fun w => -w.toNat

theorem better_int_iff (e : Extreme) (v w : UInt32) :
    e.better .int v w = true ↔ e.rank v < e.rank w := by
  cases e with
  | least | greatest => simp [better, rank, Act.before, UInt32.lt_iff_toNat_lt]

/-- The word that is left when each of some words takes the place of the one before it if it is
    better. -/
def chosen (e : Extreme) (t : Tag) (w : UInt32) (ws : List UInt32) : UInt32 :=
  ws.foldl (fun found v => if e.better t v found then v else found) w

theorem chosen_append (e : Extreme) (t : Tag) (w : UInt32) (vs ws : List UInt32) :
    e.chosen t w (vs ++ ws) = e.chosen t (e.chosen t w vs) ws := foldl_append

theorem chosen_mem (e : Extreme) (t : Tag) (w : UInt32) (ws : List UInt32) :
    e.chosen t w ws ∈ w :: ws := by
  induction ws generalizing w with
  | nil => exact mem_singleton_self w
  | cons v ws ih =>
    rcases mem_cons.1 (ih (if e.better t v w then v else w)) with h | h
    · -- none of the later words was better
      rw [chosen, foldl_cons, ← chosen, h]
      split
      · exact mem_cons_of_mem _ mem_cons_self
      · exact mem_cons_self
    · exact mem_cons_of_mem _ (mem_cons_of_mem _ h)

/-- No integer has a place before the one that is left. -/
theorem rank_chosen_le (e : Extreme) (w : UInt32) (ws : List UInt32) :
    ∀ v ∈ w :: ws, e.rank (e.chosen .int w ws) ≤ e.rank v := by
  induction ws generalizing w with
  | nil =>
    intro v hv
    rw [mem_singleton.1 hv]
    exact Int.le_refl _
  | cons u ws ih =>
    -- the better one of the first two words is at most both of them
    have hle := ih (if e.better .int u w then u else w)
    have hbetter : e.rank (if e.better .int u w then u else w) ≤ e.rank w ∧
        e.rank (if e.better .int u w then u else w) ≤ e.rank u := by
      by_cases h : e.better .int u w = true
      · rw [if_pos h]
        exact ⟨Int.le_of_lt ((e.better_int_iff u w).1 h), Int.le_refl _⟩
      · rw [if_neg h]
        exact ⟨Int.le_refl _, Int.not_lt.1 (mt (e.better_int_iff u w).2 h)⟩
    have hfirst := hle _ mem_cons_self
    intro v hv
    rcases mem_cons.1 hv with rfl | hv
    · exact Int.le_trans hfirst hbetter.1
    · rcases mem_cons.1 hv with rfl | hv
      · exact Int.le_trans hfirst hbetter.2
      · exact hle v (mem_cons_of_mem _ hv)

/-- Among integers of one sign the order is the signed one. -/
theorem leads_of_rank_le {v w : UInt32} (hle : e.rank v ≤ e.rank w)
    (hsign : wordInt v < 0 ↔ wordInt w < 0) : e.Leads (wordInt v) (wordInt w) := by
  have hv := v.toNat_lt
  have hw := w.toNat_lt
  rw [wordInt_eq_ite, wordInt_eq_ite] at hsign ⊢
  cases e with
  | least | greatest =>
    simp only [rank, Leads] at hle ⊢
    split at hsign <;> split at hsign <;> omega

/-- Two integers have the same sign if one that has a place before both leads both of them. -/
theorem sign_of_leads {u v w : UInt32} (hv : e.rank u ≤ e.rank v) (hw : e.rank u ≤ e.rank w)
    (hv' : e.Leads (wordInt u) (wordInt v)) (hw' : e.Leads (wordInt u) (wordInt w)) :
    wordInt v < 0 ↔ wordInt w < 0 := by
  have hult := u.toNat_lt
  have hvlt := v.toNat_lt
  have hwlt := w.toNat_lt
  rw [wordInt_eq_ite, wordInt_eq_ite] at hv' hw' ⊢
  cases e with
  | least | greatest =>
    simp only [rank, Leads] at hv hw hv' hw'
    split at hv' <;> split at hv' <;> split at hw' <;> split <;> omega

end Extreme

/-! ### The loop through a list -/

namespace Act

variable {m : Machine} {b : Block} {list x : Item} {rest xs : List Item}

/-- The word that is found so far is compared with an element. -/
theorem run_compareRound (e : Extreme) {i : Nat} {found : UInt32}
    (hb : m.heap.blocks[list.block]? = some b) (hx : b.itemsRead[i]? = some x) :
    (do
      let w ← readBlock list.block (i * b.tag.width) b.tag.width
      if e.better b.tag w found then pure (.yield w) else pure (.yield found) :
        Act (ForInStep UInt32)) m = (.ok (.yield (e.chosen b.tag found [x.word])), m) := by
  rw [run_bind_ok (run_readBlock (Heap.read_itemsRead hb hx).2), Extreme.chosen, foldl_cons,
    foldl_nil]
  split <;> rfl

/-- All elements but the first one are compared one by one. -/
theorem run_compareAll (e : Extreme) (hb : m.heap.blocks[list.block]? = some b)
    (hread : b.itemsRead = x :: xs) (found : UInt32) :
    (forIn ((List.range b.count).drop 1) found fun i found => do
      let w ← readBlock list.block (i * b.tag.width) b.tag.width
      if e.better b.tag w found then pure (.yield w) else pure (.yield found) : Act UInt32) m =
      (.ok (e.chosen b.tag found (xs.map word)), m) := by
  have hcount : b.count = xs.length + 1 := by
    rw [← b.length_itemsRead, hread, length_cons]
  have hindices : (List.range b.count).drop 1 = (List.range xs.length).map (· + 1) := by
    rw [hcount, range_succ_eq_map]
    rfl
  -- before round `i` the first `i` of the elements have been looked at
  have hloop := run_forIn ((List.range b.count).drop 1)
    (f := fun i found => do
      let w ← readBlock list.block (i * b.tag.width) b.tag.width
      if e.better b.tag w found then pure (.yield w) else pure (.yield found))
    (fun i => e.chosen b.tag found ((xs.map word).take i)) (fun _ => m) (by
      intro i j hj
      rw [hindices, getElem?_map, Option.map_eq_some_iff] at hj
      obtain ⟨k, hk, rfl⟩ := hj
      obtain ⟨hi, rfl⟩ := List.getElem?_eq_some_iff.1 hk
      rw [length_range] at hi
      have hxs := getElem?_eq_getElem hi
      have hcell : b.itemsRead[i + 1]? = some xs[i] := by rw [hread, getElem?_cons_succ, hxs]
      have hword : (xs.map word)[i]? = some xs[i].word := by
        rw [getElem?_map, hxs, Option.map_some]
      rw [getElem_range, run_compareRound e hb hcell, take_add_one, hword,
        Option.toList_some, Extreme.chosen_append])
  have hlength : ((List.range b.count).drop 1).length = (xs.map word).length := by
    rw [hindices, length_map, length_range, length_map]
  rwa [hlength, take_length] at hloop

/-- The first element is compared with the others, and what is left is pushed. -/
theorem run_best (e : Extreme) (hs : m.stack = list :: rest) (hlen : m.stack.length ≤ stackLimit)
    (hb : m.heap.blocks[list.block]? = some b) (hread : b.itemsRead = x :: xs) :
    best e.better m = (.ok (),
      { m with stack := ⟨b.tag, e.chosen b.tag x.word (xs.map word)⟩ :: rest }) := by
  have hfirst : b.itemsRead[0]? = some x := by rw [hread, getElem?_cons_zero]
  have hword := (Heap.read_itemsRead hb hfirst).2
  rw [Nat.zero_mul] at hword
  unfold best
  rw [run_bind_ok (run_pop hs), run_bind_ok (run_block _ _)]
  dsimp only
  rw [Heap.block_eq hb, run_bind_ok (run_readBlock (m := { m with stack := rest }) hword)]
  refine (run_bind_ok (run_compareAll (m := { m with stack := rest }) e hb hread x.word)).trans
    (run_push ?_)
  rw [hs] at hlen
  exact hlen

end Act

namespace Machine

variable {m : Machine} {b : Block} {list x : Item} {rest xs : List Item}

theorem execute_extreme (e : Extreme) (hs : m.stack = list :: rest)
    (hlen : m.stack.length ≤ stackLimit) (hb : m.heap.blocks[list.block]? = some b)
    (hread : b.itemsRead = x :: xs) : m.execute ⟨0xFF, e.number⟩ = .next
      { m with
        pc := m.pc + 1
        stack := ⟨b.tag, e.chosen b.tag x.word (xs.map word)⟩ :: rest } := by
  refine execute_of_perform rfl ?_
  change Act.builtin e.number _ = _
  rw [e.builtin_number]
  exact Act.run_best (m := m.onward) e hs hlen hb hread

end Machine

/-! ### The order of the instructions -/

/-- The instruction compares two items: wherever they lie on top of a stack, `y` above `x`, it takes
    them and pushes this truth value. -/
def Item.Compares (code : UInt8) (x y : Item) (v : Bool) : Prop :=
  ∀ (m : Machine) (rest : List Item) (arg : UInt32), m.stack = y :: x :: rest →
    m.stack.length ≤ stackLimit → m.execute ⟨code, arg⟩ =
      .next { m with pc := m.pc + 1, stack := ⟨.int, if v then 1 else 0⟩ :: rest }

/-- Integers are compared by what the operator of the instruction says of their words. -/
theorem Item.compares_iff {code : UInt8} (op : Operator) {x y : Item} {v : Bool}
    (hop : Operation.ofCode? code.toNat = some (.compute op)) (hlogical : op.isLogical = false)
    (hfractional : op.isFractional = false) (hx : x.tag = .int) (hy : y.tag = .int) :
    x.Compares code y v ↔ op.onWords x.word y.word = if v then 1 else 0 := by
  have hjoin : x.isJoin y = false := by simp [isJoin, hx, hy]
  have hitems : op.onItems x y = ⟨.int, op.onWords x.word y.word⟩ := by
    rw [Operator.onItems, if_neg (by simp [hfractional, hx, hy])]
  have hexec (m : Machine) (rest : List Item) (arg : UInt32) (hs : m.stack = y :: x :: rest)
      (hlen : m.stack.length ≤ stackLimit) : m.execute ⟨code, arg⟩ = .next
        { m with pc := m.pc + 1, stack := ⟨.int, op.onWords x.word y.word⟩ :: rest } := by
    have hroom : rest.length < stackLimit := by
      rw [hs, length_cons, length_cons] at hlen
      omega
    refine Machine.execute_of_perform hop ?_
    rw [Act.perform, Act.run_bind_ok
      (Act.run_compute_items (m := m.onward) hlogical hjoin hs hroom), hitems]
    rfl
  constructor
  · -- two items alone on a stack are enough to tell
    intro h
    have hlen : [y, x].length ≤ stackLimit := show 2 ≤ stackLimit by decide
    have hsame := h { stack := [y, x] } [] 0 rfl hlen
    rw [hexec _ _ 0 rfl hlen, Transition.next.injEq, Machine.mk.injEq, List.cons.injEq,
      mk.injEq] at hsame
    exact hsame.2.2.1.1.2
  · intro h m rest arg hs hlen
    rw [hexec m rest arg hs hlen, h]

/-- Of two integers, the first one leads if the instruction says so, and if the contrary one does
    not. -/
theorem Extreme.compares_iff (e : Extreme) {x y : Item} (hx : x.tag = .int) (hy : y.tag = .int) :
    (x.Compares e.comparison y true ∧ x.Compares e.contrary y false) ↔
      e.Leads (wordInt x.word) (wordInt y.word) := by
  cases e with
  | least =>
    rw [Item.compares_iff .le rfl rfl rfl hx hy, Item.compares_iff .gt rfl rfl rfl hx hy]
    simp [Operator.onWords, Leads]
  | greatest =>
    rw [Item.compares_iff .ge rfl rfl rfl hx hy, Item.compares_iff .lt rfl rfl rfl hx hy]
    simp [Operator.onWords, Leads]

/-- The function that the machine is about to execute finds the least, or the greatest, element of a
    list of integers: it takes the list and pushes an integer that is in it, and that the comparison
    instructions say to be at most, or at least, every element. Nothing else changes. -/
def Machine.FindsExtreme (m : Machine) (e : Extreme) (b : Block) (rest : List Item) : Prop :=
  ∃ x, m.execute ⟨0xFF, e.number⟩ = .next { m with pc := m.pc + 1, stack := x :: rest } ∧
    x.tag = .int ∧ x ∈ b.items ∧
    ∀ y ∈ b.items, x.Compares e.comparison y true ∧ x.Compares e.contrary y false

namespace Machine

variable {m : Machine} {b : Block} {list found : Item} {rest : List Item}

/-- The integer that is pushed is one within reach, and has the first place among those. -/
theorem exists_extreme (e : Extreme) (hs : m.stack = list :: rest)
    (hlen : m.stack.length ≤ stackLimit) (hb : m.heap.blocks[list.block]? = some b)
    (htag : b.tag = .int) (hne : b.items ≠ []) : ∃ found ∈ b.items.take (2 ^ 30),
      m.execute ⟨0xFF, e.number⟩ = .next { m with pc := m.pc + 1, stack := found :: rest } ∧
      ∀ y ∈ b.items.take (2 ^ 30), e.rank found.word ≤ e.rank y.word := by
  have hreach : b.tag.reach = 2 ^ 30 := Tag.reach_of_width_four (by rw [htag]; rfl)
  have hmem {x : Item} : x ∈ b.itemsRead ↔ x ∈ b.items.take (2 ^ 30) := by
    rw [Block.mem_itemsRead_iff, hreach]
  obtain ⟨x, xs, hread⟩ : ∃ x xs, b.itemsRead = x :: xs := by
    refine exists_cons_of_ne_nil (ne_nil_of_length_pos ?_)
    rw [Block.length_itemsRead, ← Block.length_items]
    exact length_pos_iff.2 hne
  obtain ⟨found, hfound, hword⟩ : ∃ z ∈ b.itemsRead,
      z.word = e.chosen b.tag x.word (xs.map word) := by
    rw [hread]
    exact mem_map.1 (e.chosen_mem b.tag x.word (xs.map word))
  have hpushed : (⟨b.tag, e.chosen b.tag x.word (xs.map word)⟩ : Item) = found := by
    rw [← hword, ← Block.tag_of_mem_items (mem_of_mem_take (hmem.1 hfound))]
  refine ⟨found, hmem.1 hfound, ?_, fun y hy => ?_⟩
  · rw [execute_extreme e hs hlen hb hread, hpushed]
  · rw [← hmem, hread] at hy
    rw [hword, htag]
    exact e.rank_chosen_le x.word (xs.map word) y.word (mem_map_of_mem (f := word) hy)

/-- What counts is whether the integer that is pushed leads all elements. -/
theorem findsExtreme_iff {e : Extreme}
    (hexec : m.execute ⟨0xFF, e.number⟩ = .next { m with pc := m.pc + 1, stack := found :: rest })
    (htag : b.tag = .int) (hfound : found ∈ b.items) : m.FindsExtreme e b rest ↔
      ∀ y ∈ b.items, e.Leads (wordInt found.word) (wordInt y.word) := by
  have hint {x : Item} (hx : x ∈ b.items) : x.tag = .int := (Block.tag_of_mem_items hx).trans htag
  constructor
  · rintro ⟨z, hexec', -, -, hcompares⟩ y hy
    rw [hexec, Transition.next.injEq, Machine.mk.injEq, List.cons.injEq] at hexec'
    obtain rfl := hexec'.2.2.1.1
    exact (e.compares_iff (hint hfound) (hint hy)).1 (hcompares y hy)
  · intro h
    exact ⟨found, hexec, hint hfound, hfound, fun y hy =>
      (e.compares_iff (hint hfound) (hint hy)).2 (h y hy)⟩

end Machine

/-- The least, or the greatest, of some integers is found if and only if all that can be reached have
    the same sign, and each of the others, of which there are none but in a list of more than `2 ^ 30`
    elements, is led by one of those. -/
theorem extreme_found_iff {m : Machine} {b : Block} {list : Item} {rest : List Item} (e : Extreme)
    (hs : m.stack = list :: rest) (hlen : m.stack.length ≤ stackLimit)
    (hb : m.heap.blocks[list.block]? = some b) (htag : b.tag = .int) (hne : b.items ≠ []) :
    m.FindsExtreme e b rest ↔
      ((∀ x ∈ b.items.take (2 ^ 30), 0 ≤ wordInt x.word) ∨
        ∀ x ∈ b.items.take (2 ^ 30), wordInt x.word < 0) ∧
      ∀ y ∈ b.items.drop (2 ^ 30), ∃ x ∈ b.items.take (2 ^ 30),
        e.Leads (wordInt x.word) (wordInt y.word) := by
  obtain ⟨found, hfound, hexec, hrank⟩ := Machine.exists_extreme e hs hlen hb htag hne
  have hitem : found ∈ b.items := List.mem_of_mem_take hfound
  rw [Machine.findsExtreme_iff hexec htag hitem]
  constructor
  · intro h
    refine ⟨?_, fun y hy => ⟨found, hfound, h y (List.mem_of_mem_drop hy)⟩⟩
    have hsign {y : Item} (hy : y ∈ b.items.take (2 ^ 30)) :
        wordInt found.word < 0 ↔ wordInt y.word < 0 :=
      Extreme.sign_of_leads (hrank found hfound) (hrank y hy) (h found hitem)
        (h y (List.mem_of_mem_take hy))
    by_cases hneg : wordInt found.word < 0
    · exact .inr fun y hy => (hsign hy).1 hneg
    · exact .inl fun y hy => Int.not_lt.1 (mt (hsign hy).2 hneg)
  · rintro ⟨hsame, hbeyond⟩ y hy
    have hwithin {y : Item} (hy : y ∈ b.items.take (2 ^ 30)) :
        e.Leads (wordInt found.word) (wordInt y.word) := by
      refine Extreme.leads_of_rank_le (hrank y hy) ?_
      rcases hsame with hnonneg | hneg
      · exact iff_of_false (Int.not_lt.2 (hnonneg found hfound)) (Int.not_lt.2 (hnonneg y hy))
      · exact iff_of_true (hneg found hfound) (hneg y hy)
    -- an element out of reach is led through one within it
    rw [← List.take_append_drop (2 ^ 30) b.items] at hy
    rcases List.mem_append.1 hy with hy | hy
    · exact hwithin hy
    · obtain ⟨z, hz, hlead⟩ := hbeyond y hy
      exact (hwithin hz).trans hlead

/-- A machine with the list of minus three, minus one and minus two on its stack. -/
def negativeIntegers : Machine :=
  { stack := [.ofBlock 0]
    heap := ⟨#[⟨.int, ⟨12, #[253, 255, 255, 255, 255, 255, 255, 255, 254, 255, 255, 255]⟩⟩]⟩ }

/-- Of integers that are all negative both are found. -/
theorem extreme_found_negativeIntegers :
    negativeIntegers.FindsExtreme .least (negativeIntegers.heap.block 0) [] ∧
      negativeIntegers.FindsExtreme .greatest (negativeIntegers.heap.block 0) [] :=
  ⟨(extreme_found_iff .least rfl (by decide) rfl rfl (by decide)).2 ⟨.inr (by decide), by decide⟩,
    (extreme_found_iff .greatest rfl (by decide) rfl rfl (by decide)).2
      ⟨.inr (by decide), by decide⟩⟩

/-- Of minus one and one, one is taken for the least. -/
theorem extreme_missed_signs :
    let m : Machine :=
      { stack := [.ofBlock 0], heap := ⟨#[⟨.int, ⟨8, #[255, 255, 255, 255, 1, 0, 0, 0]⟩⟩]⟩ }
    (m.heap.block 0).items = [⟨.int, 0xffffffff⟩, ⟨.int, 1⟩] ∧ wordInt 0xffffffff = -1 ∧
      m.execute ⟨0xFF, 15⟩ = .next { m with pc := 1, stack := [⟨.int, 1⟩] } ∧
      ¬m.FindsExtreme .least (m.heap.block 0) [] := by
  refine ⟨by decide, by decide, rfl, fun h => ?_⟩
  rcases ((extreme_found_iff .least rfl (by decide) rfl rfl (by decide)).1 h).1 with h | h
  · exact absurd (h ⟨.int, 0xffffffff⟩ (by decide)) (by decide)
  · exact absurd (h ⟨.int, 1⟩ (by decide)) (by decide)

end StackLang
