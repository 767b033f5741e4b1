import Mathlib.Data.Finset.Card
import StackLang.Proofs.LetterCase
import StackLang.Proofs.ListSlice

/-!
# What is shown of an item

One function shows an item, and another one makes a text of it, which can be shown in turn. Both go
through the elements of a list one by one, to any depth, but the first one writes to the output and the
second one to the end of a new block.

* `Heap.Showable`: the items of which both make the same: numbers, truth values and lists of such;
* `Heap.Showable.printed_size`: lists in each other are no deeper than there are blocks;
* `Act.run_spell`: the text that is written to a block is the one that is shown;
* `text_shown_alike`: showing an item and showing its text give the same.
-/

namespace StackLang

open List Heap Option

variable {x : Item}

/-! ### Items that can be shown -/

namespace Heap

variable {h : Heap} {x : Item} {b : Block} {text : List UInt8} {d d' : Nat}

/-- Numbers, truth values and lists of them, or of such lists in turn. A list that holds itself, at any
    depth, is none. -/
inductive Showable (h : Heap) : Item → Prop
  | int (w : UInt32) : Showable h ⟨.int, w⟩
  | real (w : UInt32) : Showable h ⟨.real, w⟩
  | truth (v : Bool) : Showable h (.ofBool v)
  | list {x : Item} {b : Block} (hx : x.tag = .pointer) (hb : h.blocks[x.block]? = some b)
      (hb' : b.tag ≠ .char) (hitems : ∀ y ∈ b.items, Showable h y) : Showable h x

/-- A list with commas between its elements and brackets around them. -/
def bracketed (parts : List (List UInt8)) : List UInt8 :=
  textBytes "[" ++ commaSeparated parts ++ textBytes "]"

theorem printed_scalar (hx : x.tag ≠ .pointer) : h.printed d x = some x.printed := by
  cases d <;> exact if_pos hx

theorem printed_pointer (hx : x.tag = .pointer) : h.printed (d + 1) x =
    if (h.block x.block).tag = .char then some (h.block x.block).cells.toList
    else ((h.block x.block).itemsRead.mapM (h.printed d)).map bracketed := by
  rw [printed, if_neg (not_not_intro hx)]
  rfl

theorem printed_list (hx : x.tag = .pointer) (hb : h.blocks[x.block]? = some b)
    (hb' : b.tag ≠ .char) :
    h.printed (d + 1) x = (b.itemsRead.mapM (h.printed d)).map bracketed := by
  rw [printed_pointer hx, block_eq hb, if_neg hb']

theorem printed_text (hx : x.tag = .pointer) (hb : h.blocks[x.block]? = some b)
    (hb' : b.tag = .char) : h.printed (d + 1) x = some b.cells.toList := by
  rw [printed_pointer hx, block_eq hb, if_pos hb']

/-- Going one step deeper changes nothing once all has been shown. -/
theorem printed_succ (ht : h.printed d x = some text) : h.printed (d + 1) x = some text := by
  induction d generalizing x text with
  | zero =>
    by_cases hx : x.tag = .pointer
    · rw [printed, if_neg (not_not_intro hx)] at ht
      cases ht
    · rwa [printed_scalar hx] at ht ⊢
  | succ d ih =>
    by_cases hx : x.tag = .pointer
    · rw [printed_pointer hx] at ht ⊢
      split at ht
      · rename_i hchar
        rwa [if_pos hchar]
      · rename_i hchar
        rw [if_neg hchar]
        obtain ⟨parts, hparts, rfl⟩ := map_eq_some_iff.1 ht
        rw [mapM_eq_some_iff] at hparts
        refine map_eq_some_iff.2 ⟨parts, mapM_eq_some_iff.2 (Eq.trans ?_ hparts), rfl⟩
        refine map_congr_left fun y hy => ?_
        obtain ⟨part, -, hpart⟩ := mem_map.1 (hparts ▸ mem_map_of_mem hy)
        rw [← hpart]
        exact ih hpart.symm
    · rwa [printed_scalar hx] at ht ⊢

theorem printed_of_le (hle : d ≤ d') (ht : h.printed d x = some text) :
    h.printed d' x = some text := by
  induction hle with
  | refl => exact ht
  | step _ ih => exact printed_succ ih

theorem isSome_printed_of_le (hle : d ≤ d') (ht : (h.printed d x).isSome) :
    (h.printed d' x).isSome := by
  obtain ⟨text, ht⟩ := isSome_iff_exists.1 ht
  exact isSome_iff_exists.2 ⟨text, printed_of_le hle ht⟩

theorem isSome_printed_list (hx : x.tag = .pointer) (hb : h.blocks[x.block]? = some b)
    (hb' : b.tag ≠ .char) :
    (h.printed (d + 1) x).isSome ↔ ∀ y ∈ b.itemsRead, (h.printed d y).isSome := by
  rw [printed_list hx hb hb', isSome_map, isSome_iff_ne_none, ne_eq, mapM_eq_none_iff]
  simp only [not_exists, not_and, isSome_iff_ne_none, ne_eq]

/-- Some depth is enough for all elements of a list. -/
theorem exists_depth (xs : List Item) (hxs : ∀ y ∈ xs, ∃ d, (h.printed d y).isSome) :
    ∃ d, ∀ y ∈ xs, (h.printed d y).isSome := by
  induction xs with
  | nil => exact ⟨0, fun y hy => absurd hy not_mem_nil⟩
  | cons x xs ih =>
    obtain ⟨d₁, h₁⟩ := hxs x mem_cons_self
    obtain ⟨d₂, h₂⟩ := ih fun y hy => hxs y (mem_cons_of_mem x hy)
    refine ⟨max d₁ d₂, fun y hy => ?_⟩
    rcases mem_cons.1 hy with rfl | hy
    · exact isSome_printed_of_le (Nat.le_max_left _ _) h₁
    · exact isSome_printed_of_le (Nat.le_max_right _ _) (h₂ y hy)

end Heap

theorem Block.mem_items_of_mem_itemsRead {b : Block} (hx : x ∈ b.itemsRead) : x ∈ b.items :=
  mem_of_mem_take (Block.mem_itemsRead_iff.1 hx)

theorem Item.ofBlock_block (hx : x.tag = .pointer) : .ofBlock x.block = x := by
  obtain ⟨t, w⟩ := x
  obtain rfl : t = .pointer := hx
  rw [ofBlock, block, Nat.toUInt32_eq, UInt32.ofNat_toNat]

namespace Heap

variable {h : Heap} {x : Item} {d d' : Nat}

/-- The blocks of lists that can be shown when lists are followed to the given depth. -/
noncomputable def shownTo (h : Heap) (d : Nat) : Finset Nat :=
  open Classical in
  (Finset.range h.size).filter fun n => h.Showable (.ofBlock n) ∧ (h.printed d (.ofBlock n)).isSome

theorem mem_shownTo {n : Nat} : n ∈ h.shownTo d ↔
    n < h.size ∧ h.Showable (.ofBlock n) ∧ (h.printed d (.ofBlock n)).isSome := by
  classical
  rw [shownTo, Finset.mem_filter, Finset.mem_range]

theorem card_shownTo_le (h : Heap) (d : Nat) : (h.shownTo d).card ≤ h.size := by
  classical
  exact (Finset.card_filter_le _ _).trans_eq (Finset.card_range h.size)

theorem shownTo_subset (hle : d ≤ d') : h.shownTo d ⊆ h.shownTo d' := by
  intro n hn
  obtain ⟨hlt, hn, hsome⟩ := mem_shownTo.1 hn
  exact mem_shownTo.2 ⟨hlt, hn, isSome_printed_of_le hle hsome⟩

theorem eq_shownTo_of_card (hle : d ≤ d') (hcard : (h.shownTo d).card = (h.shownTo d').card) :
    h.shownTo d = h.shownTo d' :=
  Finset.eq_of_subset_of_card_le (shownTo_subset hle) (Nat.le_of_eq hcard.symm)

namespace Showable

theorem pointer (hx : h.Showable x) (hp : x.tag = .pointer) : ∃ b, h.blocks[x.block]? = some b ∧
    b.tag ≠ .char ∧ ∀ y ∈ b.itemsRead, h.Showable y := by
  cases hx with
  | int w | real w | truth v => cases hp
  | list _ hb hb' hitems =>
    exact ⟨_, hb, hb', fun y hy => hitems y (Block.mem_items_of_mem_itemsRead hy)⟩

/-- The spelling of a number or a truth value is what is shown of it. -/
theorem spelled_eq (hx : h.Showable x) (hp : x.tag ≠ .pointer) : x.spelled = x.printed := by
  cases hx with
  | int w | real w => rfl
  | truth v => cases v <;> rfl
  | list hx _ _ _ => exact absurd hx hp

theorem exists_printed (hx : h.Showable x) : ∃ d, (h.printed d x).isSome := by
  have scalar {x : Item} (hp : x.tag ≠ .pointer) : ∃ d, (h.printed d x).isSome :=
    ⟨0, by rw [printed_scalar hp]; rfl⟩
  induction hx with
  | int w | real w | truth v => exact scalar Tag.noConfusion
  | @list x b hx hb hb' _ ih =>
    obtain ⟨d, hd⟩ := exists_depth b.items ih
    exact ⟨d + 1, (isSome_printed_list hx hb hb').2 fun y hy =>
      hd y (Block.mem_items_of_mem_itemsRead hy)⟩

/-- A list that can be shown belongs to the blocks of such lists. -/
theorem mem_shownTo_iff (hx : h.Showable x) (hp : x.tag = .pointer) {d : Nat} :
    x.block ∈ h.shownTo d ↔ (h.printed d x).isSome := by
  obtain ⟨b, hb, -⟩ := hx.pointer hp
  rw [mem_shownTo, Item.ofBlock_block hp]
  exact ⟨fun hmem => hmem.2.2, fun hsome => ⟨(Array.getElem?_eq_some_iff.1 hb).1, hx, hsome⟩⟩

end Showable

/-- If one more step shows no more lists, then none beyond it do. -/
theorem shownTo_stable (heq : h.shownTo d = h.shownTo (d + 1)) :
    h.shownTo (d + 1) = h.shownTo (d + 2) := by
  refine Finset.Subset.antisymm (shownTo_subset (Nat.le_succ _)) fun n hn => ?_
  obtain ⟨hlt, hshow, hsome⟩ := mem_shownTo.1 hn
  obtain ⟨b, hb, hb', hitems⟩ := hshow.pointer rfl
  refine mem_shownTo.2 ⟨hlt, hshow, (isSome_printed_list rfl hb hb').2 fun y hy => ?_⟩
  have hy' := (isSome_printed_list rfl hb hb').1 hsome y hy
  by_cases hp : y.tag = .pointer
  · rwa [← (hitems y hy).mem_shownTo_iff hp, ← heq, (hitems y hy).mem_shownTo_iff hp] at hy'
  · rw [printed_scalar hp]
    rfl

/-- Lists that can be shown lie in each other at most as deep as there are blocks. -/
theorem Showable.printed_size (hx : h.Showable x) : ∃ text, h.printed (h.size + 1) x = some text := by
  refine isSome_iff_exists.1 ?_
  by_cases hp : x.tag = .pointer
  · obtain ⟨d, hd⟩ := hx.exists_printed
    -- there are no more than `h.size` of them, so their number has to stop growing by then
    have hcard : (h.shownTo (max h.size d)).card = (h.shownTo h.size).card :=
      Nat.stabilises_of_monotone (f := fun d => (h.shownTo d).card)
        (fun _ _ hle => Finset.card_le_card (shownTo_subset hle))
        h.card_shownTo_le
        (fun d heq => congrArg Finset.card (shownTo_stable (eq_shownTo_of_card (Nat.le_succ d) heq)))
        (Nat.le_max_left _ _)
    have hmem := (hx.mem_shownTo_iff hp).2 (isSome_printed_of_le (Nat.le_max_right h.size d) hd)
    rw [← eq_shownTo_of_card (Nat.le_max_left _ _) hcard.symm] at hmem
    exact isSome_printed_of_le (Nat.le_succ _) ((hx.mem_shownTo_iff hp).1 hmem)
  · rw [printed_scalar hp]
    rfl

end Heap

/-! ### Texts that are written to the end of a block -/

namespace Block

variable {b : Block} {text : List UInt8}

/-- The block with bytes behind its end. -/
def withText (b : Block) (text : List UInt8) : Block :=
  text.foldl (fun b w => b.extended w.toUInt32 1) b

theorem withText_append (b : Block) (s t : List UInt8) :
    b.withText (s ++ t) = (b.withText s).withText t := foldl_append

@[simp] theorem tag_withText (b : Block) (text : List UInt8) : (b.withText text).tag = b.tag := by
  induction text generalizing b with
  | nil => rfl
  | cons w text ih => rw [withText, foldl_cons, ← withText, ih, tag_extended]

theorem toList_extended (w : UInt8) (h : b.size + 1 < 2 ^ 32) :
    (b.extended w.toUInt32 1).cells.toList = b.cells.toList ++ [w] := by
  have hsize : (b.written w.toUInt32 b.size 1).cells.size = b.size + 1 :=
    (size_written h).trans (Nat.max_eq_right (Nat.le_succ _))
  rw [← written_size, Segment.toList, hsize, range_succ, map_append, map_singleton,
    byte_written h, if_pos rfl, UInt8.toUInt8_toUInt32]
  refine congrArg (· ++ [w]) (map_congr_left fun i hi => ?_)
  rw [byte_written h, if_neg (Nat.ne_of_lt (mem_range.1 hi))]

theorem toList_withText (h : b.size + text.length < 2 ^ 32) :
    (b.withText text).cells.toList = b.cells.toList ++ text := by
  induction text generalizing b with
  | nil => exact (append_nil _).symm
  | cons w text ih =>
    rw [length_cons] at h
    have hlist := toList_extended w (b := b) (by omega)
    have hsize : (b.extended w.toUInt32 1).size = b.size + 1 := by
      rw [size, ← Segment.length_toList, hlist, length_append, Segment.length_toList]
      rfl
    rw [withText, foldl_cons, ← withText, ih (by omega), hlist, append_assoc]
    rfl

end Block

/-- What round `i` of a loop over a list with these parts writes: there is a comma behind all parts but
    the last one. -/
def roundText (parts : List (List UInt8)) (i : Nat) : List UInt8 :=
  parts.getD i [] ++ if i + 1 ≠ parts.length then textBytes ", " else []

/-- Rounds one after the other write all the parts. -/
theorem commaSeparated_eq (parts : List (List UInt8)) :
    commaSeparated parts = (List.range parts.length).flatMap (roundText parts) := by
  induction parts with
  | nil => rfl
  | cons part parts ih =>
    have hround (i : Nat) : roundText (part :: parts) (i + 1) = roundText parts i := by
      simp [roundText]
    rw [length_cons, range_succ_eq_map, flatMap_cons, flatMap_map]
    simp only [hround]
    rw [← ih]
    cases parts with
    | nil | cons p ps => simp [commaSeparated, roundText]

namespace Act

variable {m : Machine} {bs : Array Block} {c : Block} {x : Item} {text : List UInt8} {d : Nat}
  {rest : List Item}

theorem run_appendByte (m : Machine) (bs : Array Block) (c : Block) (w : UInt8) :
    appendByte bs.size w { m with heap := ⟨bs.push c⟩ } =
      (.ok (), { m with heap := ⟨bs.push (c.extended w.toUInt32 1)⟩ }) := by
  have hnew : (mk (bs.push c)).blocks[bs.size]? = some c := Array.getElem?_push_size
  unfold appendByte
  rw [run_bind_ok (run_block _ _)]
  dsimp only
  rw [block_eq hnew, run_writeBlock (write_end hnew Nat.one_pos (by decide)),
    set_newest]

theorem run_appendBytes (m : Machine) (bs : Array Block) (c : Block) (text : List UInt8) :
    appendBytes bs.size text { m with heap := ⟨bs.push c⟩ } =
      (.ok (), { m with heap := ⟨bs.push (c.withText text)⟩ }) := by
  induction text generalizing c with
  | nil => rfl
  | cons w text ih =>
    rw [appendBytes, run_bind_ok (run_appendByte m bs c w)]
    exact ih _

/-- The text of a list is written if the texts of its elements are. -/
theorem run_spell_list {b : Block} {parts : List (List UInt8)} (hx : x.tag = .pointer)
    (hb : bs[x.block]? = some b) (hparts : b.itemsRead.length = parts.length)
    (hitems : ∀ i y, b.itemsRead[i]? = some y → ∀ c, spell bs.size d y { m with heap := ⟨bs.push c⟩ } =
      (.ok (), { m with heap := ⟨bs.push (c.withText (parts.getD i []))⟩ })) :
    spell bs.size (d + 1) x { m with heap := ⟨bs.push c⟩ } =
      (.ok (), { m with heap := ⟨bs.push (c.withText (bracketed parts))⟩ }) := by
  have hcount : b.count = parts.length := b.length_itemsRead.symm.trans hparts
  have hlist (c : Block) : (mk (bs.push c)).blocks[x.block]? = some b :=
    getElem?_older hb c
  unfold spell
  rw [if_neg (not_not_intro hx)]
  dsimp only
  rw [run_bind_ok (run_block _ _)]
  dsimp only
  rw [block_eq (hlist c), run_bind_ok (run_appendBytes m bs c _)]
  -- before round `i` the texts of the first `i` elements are behind the bracket
  refine (run_bind_ok (run_forIn_range (fun _ => PUnit.unit)
    (fun i => { m with heap := ⟨bs.push ((c.withText (textBytes "[")).withText
      ((List.range i).flatMap (roundText parts)))⟩ }) fun i hi => ?_)).trans ?_
  · obtain ⟨y, hy⟩ : ∃ y, b.itemsRead[i]? = some y :=
      ⟨_, getElem?_eq_getElem (by rwa [b.length_itemsRead])⟩
    obtain ⟨htag, hread⟩ := read_itemsRead (hlist _) hy
    have hitem : (⟨b.tag, y.word⟩ : Item) = y := by rw [← htag]
    rw [run_bind_ok (run_readBlock hread), hitem, run_bind_ok (hitems i y hy _), range_succ,
      flatMap_append, flatMap_singleton, roundText, Block.withText_append,
      Block.withText_append, ← hcount]
    by_cases hlast : i + 1 ≠ b.count
    · rw [if_pos hlast, if_pos hlast, run_bind_ok (run_appendBytes m bs _ _)]
      rfl
    · rw [if_neg hlast, if_neg hlast]
      rfl
  · rw [run_appendBytes, hcount, ← commaSeparated_eq, ← Block.withText_append, ← Block.withText_append]
    rfl

theorem run_spell_scalar (hx : Heap.Showable ⟨bs⟩ x) (hp : x.tag ≠ .pointer)
    (ht : printed ⟨bs⟩ d x = some text) (c : Block) :
    spell bs.size d x { m with heap := ⟨bs.push c⟩ } =
      (.ok (), { m with heap := ⟨bs.push (c.withText text)⟩ }) := by
  rw [printed_scalar hp, some.injEq] at ht
  unfold spell
  rw [if_pos hp, hx.spelled_eq hp, ht]
  exact run_appendBytes m bs c text

/-- The text that is written of an item that can be shown is the one that is shown. -/
theorem run_spell (hx : Heap.Showable ⟨bs⟩ x) (ht : printed ⟨bs⟩ d x = some text) (c : Block) :
    spell bs.size d x { m with heap := ⟨bs.push c⟩ } =
      (.ok (), { m with heap := ⟨bs.push (c.withText text)⟩ }) := by
  induction d generalizing x text c with
  | zero =>
    by_cases hp : x.tag = .pointer
    · rw [printed, if_neg (not_not_intro hp)] at ht
      cases ht
    · exact run_spell_scalar hx hp ht c
  | succ d ih =>
    by_cases hp : x.tag = .pointer
    · obtain ⟨b, hb, hb', hitems⟩ := hx.pointer hp
      rw [printed_list hp hb hb'] at ht
      obtain ⟨parts, hparts, rfl⟩ := map_eq_some_iff.1 ht
      rw [mapM_eq_some_iff] at hparts
      have hlength : b.itemsRead.length = parts.length := by
        have := congrArg List.length hparts
        rwa [length_map, length_map] at this
      refine run_spell_list hp hb hlength fun i y hy c => ?_
      have hpart : some (printed ⟨bs⟩ d y) = parts[i]?.map some := by
        rw [← getElem?_map, ← hparts, getElem?_map, hy, map_some]
      obtain ⟨part, hi, hpart⟩ := map_eq_some_iff.1 hpart.symm
      rw [getD_eq_getElem?_getD, hi, getD_some]
      exact ih (hitems y (mem_of_getElem? hy)) hpart.symm c
    · exact run_spell_scalar hx hp ht c

/-- The text of an item is written to a new block, and a pointer to it is pushed. -/
theorem run_toText (hs : m.stack = x :: rest) (hlen : m.stack.length ≤ stackLimit)
    (hx : m.heap.Showable x) (ht : m.heap.printed (m.heap.size + 1) x = some text) :
    toText m = (.ok (),
      { m with
        stack := .ofBlock m.heap.size :: rest
        heap := ⟨m.heap.blocks.push (.withText { tag := .char } text)⟩ }) := by
  have hspell := run_spell (m := { m with stack := rest }) hx
    (printed_of_le (Nat.le_succ _) ht) { tag := .char }
  have hsize : (m.heap.add .char).size = m.heap.size + 1 := Array.size_push _
  unfold toText
  rw [run_bind_ok (run_pop hs), run_bind_ok (run_addBlock _ _), run_get_bind]
  dsimp only
  rw [hsize]
  refine (run_bind_ok hspell).trans (run_push ?_)
  rw [hs] at hlen
  exact hlen

theorem run_print (hs : m.stack = x :: rest) (ht : m.heap.printed (m.heap.size + 1) x = some text) :
    print m = (.ok (), { m with stack := rest, output := m.output ++ text }) := by
  unfold print
  rw [run_bind_ok (run_pop hs), run_get_bind]
  dsimp only
  rw [ht]
  rfl

end Act

/-- Of an item in a heap a text is shown: wherever it is on top of a stack, it is taken, and the text is
    written to the output. Nothing else changes. -/
def Heap.Shows (h : Heap) (x : Item) (text : List UInt8) : Prop :=
  ∀ (m : Machine) (rest : List Item), m.heap = h → m.stack = x :: rest →
    m.execute ⟨0xFF, 1⟩ =
      .next { m with pc := m.pc + 1, stack := rest, output := m.output ++ text }

theorem Heap.shows_of_printed {h : Heap} {text : List UInt8}
    (ht : h.printed (h.size + 1) x = some text) : h.Shows x text := by
  rintro m rest rfl hs
  refine Machine.execute_of_perform rfl ?_
  exact Act.run_print (m := m.onward) hs ht

/-- Only one text is shown of an item. -/
theorem Heap.Shows.unique {h : Heap} {s t : List UInt8} (hs : h.Shows x s) (ht : h.Shows x t) :
    s = t := by
  have hsame := (hs { stack := [x], heap := h } [] rfl rfl).symm.trans (ht _ [] rfl rfl)
  rw [Transition.next.injEq, Machine.mk.injEq] at hsame
  have hlists := congrArg Array.toList hsame.2.2.2.2.2.2.1
  rwa [Array.toList_appendList, Array.toList_appendList, append_right_inj] at hlists

/-- What is shown of a number, a truth value or a list of such is what is shown of the text that is made
    of it, if words can address that text. Making it adds one block and changes no other one. -/
theorem text_shown_alike {m : Machine} {x : Item} {rest : List Item} (hs : m.stack = x :: rest)
    (hlen : m.stack.length ≤ stackLimit) (hheap : m.heap.size < 2 ^ 32) (hx : m.heap.Showable x) :
    ∃ text c, m.heap.Shows x text ∧
      m.execute ⟨0xFF, 19⟩ = .next
        { m with
          pc := m.pc + 1
          stack := .ofBlock m.heap.size :: rest
          heap := ⟨m.heap.blocks.push c⟩ } ∧
      c.tag = .char ∧
      (text.length < 2 ^ 32 → Heap.Shows ⟨m.heap.blocks.push c⟩ (.ofBlock m.heap.size) text) := by
  obtain ⟨text, ht⟩ := hx.printed_size
  refine ⟨text, .withText { tag := .char } text, Heap.shows_of_printed ht,
    Machine.execute_of_perform rfl ?_, Block.tag_withText _ _, fun htext => ?_⟩
  · exact Act.run_toText (m := { m with pc := m.pc + 1 }) hs hlen hx ht
  · have hblock : (Item.ofBlock m.heap.size).block = m.heap.size := toNat_toUInt32 hheap
    have hlist : (Block.withText { tag := .char } text).cells.toList = text :=
      Block.toList_withText (b := { tag := .char }) (by rwa [Nat.zero_add])
    refine Heap.shows_of_printed ?_
    rw [Heap.printed_text rfl (by rw [hblock]; exact Array.getElem?_push_size)
      (Block.tag_withText _ _), hlist]

/-- A machine with a list of a list of two integers, an empty list and the list of integers again. -/
def nestedLists : Machine :=
  { stack := [.ofBlock 1]
    heap := ⟨#[⟨.int, ⟨8, #[1, 0, 0, 0, 254, 255, 255, 255]⟩⟩,
      ⟨.pointer, ⟨12, #[0, 0, 0, 0, 2, 0, 0, 0, 0, 0, 0, 0]⟩⟩, {}]⟩ }

theorem showable_nestedLists : nestedLists.heap.Showable (.ofBlock 1) := by
  have hintegers : nestedLists.heap.Showable (.ofBlock 0) := by
    refine .list rfl rfl Tag.noConfusion fun y hy => ?_
    obtain ⟨t, w⟩ := y
    obtain rfl : t = .int := Block.tag_of_mem_items hy
    exact .int w
  have hempty : nestedLists.heap.Showable (.ofBlock 2) :=
    .list rfl rfl Tag.noConfusion fun y hy => absurd hy not_mem_nil
  refine .list rfl rfl Tag.noConfusion fun y hy => ?_
  change y ∈ [Item.ofBlock 0, .ofBlock 2, .ofBlock 0] at hy
  simp only [mem_cons, not_mem_nil, or_false] at hy
  rcases hy with rfl | rfl | rfl
  · exact hintegers
  · exact hempty
  · exact hintegers

theorem text_shown_alike_nested : ∃ c,
    nestedLists.heap.Shows (.ofBlock 1) (textBytes "[[1, -2], [], [1, -2]]") ∧
      nestedLists.execute ⟨0xFF, 19⟩ = .next
        { nestedLists with
          pc := 1
          stack := [.ofBlock 3]
          heap := ⟨nestedLists.heap.blocks.push c⟩ } ∧
      Heap.Shows ⟨nestedLists.heap.blocks.push c⟩ (.ofBlock 3)
        (textBytes "[[1, -2], [], [1, -2]]") := by
  obtain ⟨text, c, hshows, hexec, -, hagain⟩ :=
    text_shown_alike (m := nestedLists) rfl (by decide) (by decide) showable_nestedLists
  obtain rfl : text = textBytes "[[1, -2], [], [1, -2]]" := hshows.unique (Heap.shows_of_printed rfl)
  exact ⟨c, hshows, hexec, hagain (by decide)⟩

end StackLang
