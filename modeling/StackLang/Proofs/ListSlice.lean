import Mathlib.Data.List.Induction
import StackLang.Proofs.BlockView

/-!
# Slices of lists

A slice is a new list of the elements between two places of a list, both included, taken upwards or
downwards. Places are words, and a step down is a step up by the greatest word. A negative place is
counted from the size of the block, which is its number of bytes and not the one of its elements.

* `Block.taken?`: the elements between two places, if there is one at each of them;
* `Machine.execute_slice` and `Machine.execute_slice_outside`: what a slice does with any places;
* `slice_elements`: between two places of a list that is not too long, a slice has all elements in
  the order of its direction;
* `slice_from_end_iff`: when a negative place is as good as one that is counted from the end of the
  list.
-/

namespace StackLang

open List

/-! ### Places -/

/-- So many places, one step apart each. -/
def placesFrom (step place : UInt32) : (count : Nat) → List UInt32
  | 0 => []
  | count + 1 => place :: placesFrom step (place + step) count

/-- The places from the first to the last one, upwards or downwards. -/
def placesBetween (first last : UInt32) : List UInt32 :=
  if first < last then placesFrom 1 first (last + 1 - first).toNat
  else placesFrom 0xffffffff first (first - (last - 1)).toNat

theorem getElem?_placesFrom (step place : UInt32) (count j : Nat) :
    (placesFrom step place count)[j]? =
      if j < count then some (place + j.toUInt32 * step) else none := by
  induction count generalizing place j with
  | zero => rfl
  | succ count ih =>
    cases j with
    | zero => simp [placesFrom]
    | succ j =>
      have hplace : place + step + j.toUInt32 * step = place + (j + 1).toUInt32 * step := by
        simp only [Nat.toUInt32_eq, UInt32.ofNat_add]
        grind
      rw [placesFrom, getElem?_cons_succ, ih, hplace]
      simp only [Nat.add_lt_add_iff_right]

@[simp] theorem length_placesFrom (step place : UInt32) (count : Nat) :
    (placesFrom step place count).length = count := by
  induction count generalizing place with
  | zero => rfl
  | succ count ih => rw [placesFrom, length_cons, ih]

/-- Whatever the direction is, there are fewer places than words. -/
theorem exists_placesBetween (first last : UInt32) : ∃ step count : UInt32,
    placesBetween first last = placesFrom step first count.toNat := by
  unfold placesBetween
  split <;> exact ⟨_, _, rfl⟩

section

variable {first last : UInt32} (hfirst : first.toNat < 2 ^ 31) (hlast : last.toNat < 2 ^ 31)

include hfirst hlast

theorem length_placesBetween :
    (placesBetween first last).length = ((last.toNat : Int) - first.toNat).natAbs + 1 := by
  unfold placesBetween
  by_cases hlt : first < last
  · rw [if_pos hlt, length_placesFrom, UInt32.toNat_sub, UInt32.toNat_add, UInt32.toNat_one]
    rw [UInt32.lt_iff_toNat_lt] at hlt
    omega
  · rw [if_neg hlt, length_placesFrom, UInt32.toNat_sub, UInt32.toNat_sub, UInt32.toNat_one]
    rw [UInt32.lt_iff_toNat_lt] at hlt
    omega

/-- Between two places that a signed integer can count, each place is one further up or down than
    the one before. -/
theorem getElem?_placesBetween {j : Nat} {p : UInt32} (hp : (placesBetween first last)[j]? = some p) :
    p.toNat = if first.toNat ≤ last.toNat then first.toNat + j else first.toNat - j := by
  have hj := (List.getElem?_eq_some_iff.1 hp).1
  rw [length_placesBetween hfirst hlast] at hj
  have hnat : j.toUInt32.toNat = j := toNat_toUInt32 (by omega)
  unfold placesBetween at hp
  by_cases hlt : first < last
  · rw [if_pos hlt, getElem?_placesFrom] at hp
    rw [UInt32.lt_iff_toNat_lt] at hlt
    split at hp
    · obtain rfl := Option.some.inj hp
      rw [if_pos (by omega), UInt32.mul_one, UInt32.toNat_add, hnat]
      omega
    · cases hp
  · rw [if_neg hlt, getElem?_placesFrom] at hp
    rw [UInt32.lt_iff_toNat_lt] at hlt
    split at hp
    · obtain rfl := Option.some.inj hp
      have hstep : (0xffffffff : UInt32).toNat = 2 ^ 32 - 1 := rfl
      rw [UInt32.toNat_add, UInt32.toNat_mul, hnat, hstep]
      -- with a single place there is no step, so its direction does not matter
      split <;> omega
    · cases hp

/-- Both ends are among the places. -/
theorem ends_mem_placesBetween : first ∈ placesBetween first last ∧ last ∈ placesBetween first last := by
  have hmem (p : UInt32) (j : Nat) (hj : j < (placesBetween first last).length)
      (hp : p.toNat = if first.toNat ≤ last.toNat then first.toNat + j else first.toNat - j) :
      p ∈ placesBetween first last := by
    have hget := getElem?_eq_getElem hj
    obtain rfl := UInt32.toNat_inj.1 (hp.trans (getElem?_placesBetween hfirst hlast hget).symm)
    exact mem_of_getElem? hget
  have hlength := length_placesBetween hfirst hlast
  refine ⟨hmem first 0 (by omega) ?_, hmem last ((last.toNat : Int) - first.toNat).natAbs (by omega) ?_⟩
  · split
    · omega
    · omega
  · split
    · omega
    · omega

end

/-! ### What is taken -/

theorem mapM_eq_none_iff {α β : Type} {f : α → Option β} {xs : List α} :
    xs.mapM f = none ↔ ∃ x ∈ xs, f x = none := by
  induction xs with
  | nil => simp
  | cons x xs ih =>
    cases hx : f x with
    | none => simp [hx]
    | some y => cases hxs : xs.mapM f <;> simp_all

namespace Block

variable {b : Block} {p : UInt32} {first last : UInt32} {xs : List Item} {j n : Nat}

/-- A list can hold its own elements. -/
theorem kept_of_mem_items {x : Item} (h : x ∈ b.items) : x.tag = b.tag ∧ x.kept = x := by
  refine ⟨tag_of_mem_items h, ?_⟩
  obtain ⟨i, -, rfl⟩ := mem_map.1 h
  rcases b.tag.width_eq_one_or with hw | hw
  · have hbyte (c : UInt8) : c.toUInt32 % 256 = c.toUInt32 := by
      refine UInt32.toNat_inj.1 ?_
      rw [UInt32.toNat_mod]
      exact Nat.mod_eq_of_lt c.toNat_lt
    rw [Item.kept, if_pos hw, hw]
    simp [Segment.word, hbyte]
  · rw [Item.kept, if_neg (by rw [hw]; decide)]

/-- The element that is read at a place: the one within reach. -/
def elementAt? (b : Block) (p : UInt32) : Option Item := b.items[p.toNat % b.tag.reach]?

/-- The elements between two places, both included; none if one of the places has no element. -/
def taken? (b : Block) (first last : UInt32) : Option (List Item) :=
  (placesBetween first last).mapM b.elementAt?

/-- A place that a list has is within reach if the list is not too long. -/
theorem elementAt?_of_lt (hsize : b.count * b.tag.width < 2 ^ 32) (hp : p.toNat < b.count) :
    b.elementAt? p = b.items[p.toNat]? := by
  have := Nat.mul_le_mul_right b.tag.width (Nat.le_of_lt hp)
  rw [elementAt?, Tag.mod_reach (by omega)]

theorem elementAt?_eq_none (hp : b.count ≤ p.toNat % b.tag.reach) : b.elementAt? p = none :=
  getElem?_eq_none (by rwa [length_items])

/-- Steps to places beyond reach come to elements that have been read before. -/
theorem elementAt?_mod_reach (b : Block) (p step : UInt32) (j : Nat) :
    b.elementAt? (p + (j % b.tag.reach).toUInt32 * step) = b.elementAt? (p + j.toUInt32 * step) := by
  -- the reach divides the number of words, so what is cut to a word makes no difference
  have hdvd : b.tag.reach ∣ 2 ^ 32 := ⟨_, b.tag.reach_mul_width.symm⟩
  have hmod (k : Nat) : (p + k.toUInt32 * step).toNat % b.tag.reach =
      (p.toNat + k * step.toNat) % b.tag.reach := by
    rw [UInt32.toNat_add, UInt32.toNat_mul, toNat_toUInt32_eq_mod, Nat.mod_mod_of_dvd _ hdvd,
      Nat.add_mod, Nat.mod_mod_of_dvd _ hdvd, Nat.mul_mod, Nat.mod_mod_of_dvd _ hdvd, ← Nat.mul_mod,
      ← Nat.add_mod]
  rw [elementAt?, elementAt?, hmod, hmod, Nat.add_mod, Nat.mul_mod, Nat.mod_mod, ← Nat.mul_mod,
    ← Nat.add_mod]

section

variable (h : b.taken? first last = some xs)

include h

theorem length_taken : xs.length = (placesBetween first last).length := by
  have hmap := congrArg List.length (mapM_eq_some_iff.1 h)
  rw [length_map, length_map] at hmap
  exact hmap.symm

theorem getElem?_taken (j : Nat) : xs[j]? = (placesBetween first last)[j]?.bind b.elementAt? := by
  have hmap := congrArg (·[j]?) (mapM_eq_some_iff.1 h)
  simp only [getElem?_map] at hmap
  cases hp : (placesBetween first last)[j]? with
  | none =>
    rw [hp] at hmap
    simpa using hmap.symm
  | some p =>
    rw [hp] at hmap
    cases hx : xs[j]? with
    | none =>
      rw [hx] at hmap
      cases hmap
    | some x =>
      rw [hx] at hmap
      simpa using hmap.symm

theorem length_taken_lt : xs.length < 2 ^ 32 := by
  obtain ⟨step, count, hplaces⟩ := exists_placesBetween first last
  rw [length_taken h, hplaces, length_placesFrom]
  exact count.toNat_lt

/-- What is taken are elements, which a list of the same tag can hold. -/
theorem kept_of_taken : ∀ x ∈ xs, x.tag = b.tag ∧ x.kept = x := by
  intro x hx
  obtain ⟨j, hj⟩ := mem_iff_getElem?.1 hx
  rw [getElem?_taken h, Option.bind_eq_some_iff] at hj
  obtain ⟨p, -, hp⟩ := hj
  exact kept_of_mem_items (mem_of_getElem? hp)

/-- As far as a word can tell places apart, all elements that are taken are among the first ones. -/
theorem getElem?_taken_mod (hj : j < xs.length) : xs[j % b.tag.reach]? = xs[j]? := by
  have hle := Nat.mod_le j b.tag.reach
  obtain ⟨step, count, hplaces⟩ := exists_placesBetween first last
  rw [length_taken h, hplaces, length_placesFrom] at hj
  rw [getElem?_taken h, getElem?_taken h, hplaces, getElem?_placesFrom, getElem?_placesFrom,
    if_pos hj, if_pos (by omega)]
  exact b.elementAt?_mod_reach first step j

end

/-! ### The new list -/

/-- The block with items written at its end, one after the other. -/
def filled (b : Block) (xs : List Item) : Block :=
  xs.foldl (fun b x => b.extended x.word b.tag.width) b

theorem filled_concat (b : Block) (xs : List Item) (x : Item) :
    b.filled (xs ++ [x]) = (b.filled xs).extended x.word (b.filled xs).tag.width :=
  foldl_append

@[simp] theorem tag_filled (b : Block) (xs : List Item) : (b.filled xs).tag = b.tag := by
  induction xs generalizing b with
  | nil => rfl
  | cons x xs ih => exact (ih _).trans (tag_extended ..)

variable {t : Tag}

/-- A new block has room for the items that it was filled with, and no more. -/
theorem size_filled (hlen : xs.length < 2 ^ 32) :
    (({ tag := t } : Block).filled xs).size = xs.length * t.width := by
  induction xs using List.reverseRecOn with
  | nil => exact (Nat.zero_mul _).symm
  | append_singleton xs x ih =>
    rw [length_append, length_singleton] at hlen ⊢
    have hsize : (({ tag := t } : Block).filled xs).size =
        xs.length * (({ tag := t } : Block).filled xs).tag.width := by
      rw [tag_filled, ih (by omega)]
    rw [filled_concat, size_extended (toUInt32_size_ne hsize hlen), hsize, tag_filled, Nat.succ_mul]

/-- Its elements are these items. Beyond reach an item is written to the place of an earlier one, so
    this asks for the same item there. -/
theorem getElem?_items_filled (hlen : xs.length < 2 ^ 32) (hxs : ∀ x ∈ xs, x.tag = t ∧ x.kept = x)
    (hmod : ∀ j < xs.length, xs[j % t.reach]? = xs[j]?) (hj : j < xs.length) (hreach : j < t.reach) :
    (({ tag := t } : Block).filled xs).items[j]? = xs[j]? := by
  -- from the end, since the last item may cover an earlier one
  induction xs using List.reverseRecOn generalizing j with
  | nil => cases hj
  | append_singleton xs x ih =>
    rw [length_append, length_singleton] at hlen hj hmod
    obtain ⟨htag, hkept⟩ := hxs x mem_concat_self
    have hsize : (({ tag := t } : Block).filled xs).size =
        xs.length * (({ tag := t } : Block).filled xs).tag.width := by
      rw [tag_filled, size_filled (by omega)]
    have hlast : (xs ++ [x])[xs.length % t.reach]? = some x := by
      rw [hmod _ (Nat.lt_succ_self _), getElem?_concat_length]
    rw [filled_concat, getElem?_items_extended hsize hlen, if_pos (Nat.le_of_lt_succ hj), tag_filled]
    by_cases hjmod : j = xs.length % t.reach
    · rw [if_pos hjmod, hjmod, hlast, ← htag, hkept]
    · have hjlt : j < xs.length := by
        have := Nat.mod_eq_of_lt hreach
        rcases Nat.lt_or_eq_of_le (Nat.le_of_lt_succ hj) with hlt | rfl
        · exact hlt
        · exact absurd this.symm hjmod
      have hold := ih (by omega) (fun y hy => hxs y (mem_append_left _ hy)) (fun k hk => by
        have hle := Nat.mod_le k t.reach
        have h := hmod k (by omega)
        rwa [getElem?_append_left hk, getElem?_append_left (by omega)] at h) hjlt hreach
      rw [getElem?_items, count_of_size hsize, if_pos hjlt, tag_filled] at hold
      rw [if_neg hjmod, hold, getElem?_append_left hjlt]

/-- If all items are within reach, they are the list that the block holds. -/
theorem holds_filled (hlen : xs.length ≤ t.reach) (hlt : xs.length < 2 ^ 32)
    (hxs : ∀ x ∈ xs, x.tag = t ∧ x.kept = x) : (({ tag := t } : Block).filled xs).Holds t xs where
  tag := tag_filled ..
  size := size_filled hlt
  items := by
    refine ext_getElem? fun j => ?_
    have hcount : (({ tag := t } : Block).filled xs).count = xs.length :=
      count_of_size (by rw [tag_filled, size_filled hlt])
    by_cases hj : j < xs.length
    · exact getElem?_items_filled hlt hxs
        (fun k hk => by rw [Nat.mod_eq_of_lt (by omega)]) hj (by omega)
    · rw [getElem?_eq_none (Nat.le_of_not_lt hj),
        getElem?_eq_none (by rw [length_items, hcount]; exact Nat.le_of_not_lt hj)]

theorem getElem?_items_filled_taken (h : b.taken? first last = some xs) (hj : j < xs.length) :
    (({ tag := b.tag } : Block).filled xs).items[j % b.tag.reach]? = xs[j]? := by
  have hle := Nat.mod_le j b.tag.reach
  rw [getElem?_items_filled (length_taken_lt h) (kept_of_taken h) (fun _ hk => getElem?_taken_mod h hk)
    (by omega) (Nat.mod_lt _ b.tag.reach_pos), getElem?_taken_mod h hj]

/-- Slices of different elements look different. -/
theorem eq_of_alike_filled {first' last' : UInt32} {ys : List Item}
    (hxs : b.taken? first last = some xs) (hys : b.taken? first' last' = some ys)
    (h : Alike (({ tag := b.tag } : Block).filled xs) (({ tag := b.tag } : Block).filled ys)) :
    xs = ys := by
  have hlen : ys.length = xs.length := by
    have hsize := h.size
    rw [size_filled (length_taken_lt hys), size_filled (length_taken_lt hxs)] at hsize
    exact Nat.eq_of_mul_eq_mul_right b.tag.width_pos hsize
  refine ext_getElem? fun j => ?_
  by_cases hj : j < xs.length
  · rw [← getElem?_items_filled_taken hxs hj, ← getElem?_items_filled_taken hys (by omega), h.items]
  · rw [getElem?_eq_none (by omega), getElem?_eq_none (by omega)]

/-- The place that a word stands for: a negative one is counted from the number of bytes. -/
def place (b : Block) (w : UInt32) : UInt32 := if wordInt w < 0 then b.size.toUInt32 + w else w

end Block

/-! ### Instructions -/

/-- Reading at a place, of which the offset is a word. -/
theorem Heap.read_place {h : Heap} {b : Block} {n : Nat} (hb : h.blocks[n]? = some b) (p : UInt32) :
    h.read n (p * b.tag.width.toUInt32).toNat b.tag.width =
      h.read n (p.toNat * b.tag.width) b.tag.width := by
  have hoffset : (p * b.tag.width.toUInt32).toNat.toUInt32 = (p.toNat * b.tag.width).toUInt32 := by
    simp only [Nat.toUInt32_eq, UInt32.ofNat_toNat, UInt32.ofNat_mul]
  unfold read
  rw [hb, hoffset]

/-- The machine copies elements of a block to its newest one, which has `j` of them. -/
structure Machine.Slicing (m : Machine) (source : Nat) (b : Block) (bs : Array Block) (c : Block)
    (j : Nat) : Prop where
  heap : m.heap = ⟨bs.push c⟩
  source : bs[source]? = some b
  tag : c.tag = b.tag
  size : c.size = j * b.tag.width

namespace Act

variable {m : Machine} {b c : Block} {bs : Array Block} {list start stop x : Item}
  {rest xs : List Item} {source j count : Nat} {step place : UInt32}

theorem getElem?_of_slicing (h : m.Slicing source b bs c j) : m.heap.blocks[source]? = some b := by
  have hlt : source < bs.size := (Array.getElem?_eq_some_iff.1 h.source).1
  rw [h.heap, Array.getElem?_push, if_neg (Nat.ne_of_lt hlt), h.source]

/-- One element is copied. -/
theorem run_sliceFrom_succ (step : UInt32) (count : Nat) (h : m.Slicing source b bs c j)
    (hj : j + 1 < 2 ^ 32) (hx : b.elementAt? place = some x) :
    ∃ m', m' = { m with heap := ⟨bs.push (c.extended x.word c.tag.width)⟩ } ∧
      m'.Slicing source b bs (c.extended x.word c.tag.width) (j + 1) ∧
      sliceFrom source bs.size b.tag.width step place j (count + 1) m =
        sliceFrom source bs.size b.tag.width step (place + step) (j + 1) count m' := by
  have hsource := getElem?_of_slicing h
  have hnewest : m.heap.blocks[bs.size]? = some c := by rw [h.heap, Array.getElem?_push_size]
  have hread := (Heap.read_place hsource place).trans (Heap.read_cell hsource hx).2
  have hwrite := Heap.write_end (w := x.word) hnewest c.tag.width_pos c.tag.width_le
  have hne : c.size.toUInt32 ≠ endAddress := Block.toUInt32_size_ne (by rw [h.tag, h.size]) hj
  refine ⟨_, rfl, ⟨rfl, h.source, (Block.tag_extended ..).trans h.tag, ?_⟩, ?_⟩
  · rw [Block.size_extended hne, h.size, h.tag, Nat.succ_mul]
  · rw [h.size, h.tag] at hwrite
    rw [sliceFrom, run_bind_ok (run_readBlock hread), run_bind_ok (run_writeBlock hwrite), h.heap,
      h.tag]
    congr 3
    grind

/-- The elements at places that all have one are copied. -/
theorem run_sliceFrom (h : m.Slicing source b bs c j) (hcount : j + count < 2 ^ 32)
    (hxs : (placesFrom step place count).mapM b.elementAt? = some xs) :
    sliceFrom source bs.size b.tag.width step place j count m =
      (.ok (), { m with heap := ⟨bs.push (c.filled xs)⟩ }) := by
  induction count generalizing m c place j xs with
  | zero =>
    obtain rfl : [] = xs := Option.some.inj hxs
    rw [Block.filled, foldl_nil, ← h.heap]
    rfl
  | succ count ih =>
    rw [placesFrom, mapM_cons] at hxs
    obtain ⟨x, hx, hxs⟩ := Option.bind_eq_some_iff.1 hxs
    obtain ⟨ys, hys, hxs⟩ := Option.bind_eq_some_iff.1 hxs
    obtain rfl := Option.some.inj hxs
    obtain ⟨m', rfl, hnext, hrun⟩ := run_sliceFrom_succ step count h (by omega) hx
    rw [hrun, ih hnext (by omega) hys]
    rfl

/-- Where there is none, the machine stops. -/
theorem run_sliceFrom_outside (h : m.Slicing source b bs c j) (hcount : j + count < 2 ^ 32)
    (hxs : (placesFrom step place count).mapM b.elementAt? = none) :
    ∃ stop m', sliceFrom source bs.size b.tag.width step place j count m =
      (.error (.failed (.readOutside b.tag.width stop b.size)), m') := by
  induction count generalizing m c place j with
  | zero => cases hxs
  | succ count ih =>
    rw [placesFrom, mapM_cons] at hxs
    cases hx : b.elementAt? place with
    | none =>
      have hsource := getElem?_of_slicing h
      have hread := (Heap.read_place hsource place).trans (Heap.read_cell_outside hsource hx)
      rw [sliceFrom, run_bind_error (run_readBlock_error hread)]
      exact ⟨_, _, rfl⟩
    | some x =>
      have hys : (placesFrom step (place + step) count).mapM b.elementAt? = none := by
        rw [hx] at hxs
        cases hys : (placesFrom step (place + step) count).mapM b.elementAt? with
        | none => rfl
        | some ys =>
          rw [hys] at hxs
          cases hxs
      obtain ⟨m', -, hnext, hrun⟩ := run_sliceFrom_succ step count h (by omega) hx
      rw [hrun]
      exact ih hnext (by omega) hys

/-- What a slice does once its places are known. -/
def sliceBetween (n : Nat) (b : Block) (first last : UInt32) : Act Unit := do
  let new ← addBlock b.tag
  if first < last then sliceFrom n new b.tag.width 1 first 0 (last + 1 - first).toNat
  else sliceFrom n new b.tag.width 0xffffffff first 0 (first - (last - 1)).toNat
  push (.ofBlock new)

theorem run_slice_eq (hs : m.stack = list :: start :: stop :: rest)
    (hb : m.heap.blocks[list.block]? = some b) :
    slice m = sliceBetween list.block b (b.place start.word) (b.place stop.word)
      { m with stack := rest } := by
  unfold slice
  rw [run_bind_ok (run_pop hs), run_bind_ok (run_pop rfl), run_bind_ok (run_pop rfl),
    run_bind_ok (run_block _ _)]
  dsimp only
  rw [Heap.block_eq hb]
  rfl

/-- The direction does not matter but for the step. -/
theorem exists_sliceBetween (n : Nat) (b : Block) (first last : UInt32) :
    ∃ (step : UInt32) (count : Nat), 0 + count < 2 ^ 32 ∧
      b.taken? first last = (placesFrom step first count).mapM b.elementAt? ∧
      sliceBetween n b first last = (do
        let new ← addBlock b.tag
        sliceFrom n new b.tag.width step first 0 count
        push (.ofBlock new)) := by
  have hcount (w : UInt32) : 0 + w.toNat < 2 ^ 32 := (Nat.zero_add _).symm ▸ w.toNat_lt
  unfold Block.taken? placesBetween sliceBetween
  by_cases hlt : first < last
  · simp only [if_pos hlt]
    exact ⟨_, _, hcount _, rfl, rfl⟩
  · simp only [if_neg hlt]
    exact ⟨_, _, hcount _, rfl, rfl⟩

theorem slicing_addBlock (hb : m.heap.blocks[source]? = some b) :
    { m with heap := m.heap.add b.tag }.Slicing source b m.heap.blocks { tag := b.tag } 0 :=
  ⟨rfl, hb, rfl, (Nat.zero_mul _).symm⟩

/-- A slice of elements that are there is the newest block. -/
theorem run_sliceBetween {first last : UInt32} (hb : m.heap.blocks[source]? = some b)
    (hlen : m.stack.length < stackLimit) (hxs : b.taken? first last = some xs) :
    sliceBetween source b first last m = (.ok (),
      { m with
        stack := .ofBlock m.heap.size :: m.stack
        heap := ⟨m.heap.blocks.push (({ tag := b.tag } : Block).filled xs)⟩ }) := by
  obtain ⟨step, count, hcount, htaken, hslice⟩ := exists_sliceBetween source b first last
  rw [htaken] at hxs
  rw [hslice, run_bind_ok (run_addBlock _ _),
    run_bind_ok (run_sliceFrom (slicing_addBlock hb) hcount hxs)]
  exact run_push hlen

theorem run_sliceBetween_outside {first last : UInt32} (hb : m.heap.blocks[source]? = some b)
    (hxs : b.taken? first last = none) : ∃ stop m', sliceBetween source b first last m =
      (.error (.failed (.readOutside b.tag.width stop b.size)), m') := by
  obtain ⟨step, count, hcount, htaken, hslice⟩ := exists_sliceBetween source b first last
  rw [htaken] at hxs
  obtain ⟨stop, m', hrun⟩ := run_sliceFrom_outside (slicing_addBlock hb) hcount hxs
  rw [hslice, run_bind_ok (run_addBlock _ _)]
  exact ⟨stop, m', run_bind_error hrun⟩

end Act

namespace Machine

variable {m : Machine} {b : Block} {list start stop : Item} {rest xs : List Item}

theorem execute_slice (hs : m.stack = list :: start :: stop :: rest)
    (hlen : m.stack.length ≤ stackLimit) (hb : m.heap.blocks[list.block]? = some b)
    (hxs : b.taken? (b.place start.word) (b.place stop.word) = some xs) :
    m.execute ⟨0xFF, 12⟩ = .next
      { m with
        pc := m.pc + 1
        stack := .ofBlock m.heap.size :: rest
        heap := ⟨m.heap.blocks.push (({ tag := b.tag } : Block).filled xs)⟩ } := by
  have hroom : rest.length < stackLimit := by
    rw [hs, length_cons, length_cons, length_cons] at hlen
    omega
  exact execute_of_perform rfl ((Act.run_slice_eq (m := m.onward) hs hb).trans
    (Act.run_sliceBetween hb hroom hxs))

theorem execute_slice_outside (hs : m.stack = list :: start :: stop :: rest)
    (hb : m.heap.blocks[list.block]? = some b)
    (hxs : b.taken? (b.place start.word) (b.place stop.word) = none) :
    ∃ t m', m.execute ⟨0xFF, 12⟩ = .halted (.failed t) m' := by
  obtain ⟨stop, m', hrun⟩ :=
    Act.run_sliceBetween_outside (m := { m with pc := m.pc + 1, stack := rest }) hb hxs
  exact ⟨_, _, execute_of_failed rfl
    ((Act.run_slice_eq (m := m.onward) hs hb).trans hrun)⟩

end Machine

/-! ### Places of the list -/

namespace Block

variable {b : Block} {first last : UInt32}

/-- Between two places of a list every place has an element. -/
theorem exists_taken (hfirst : first.toNat < 2 ^ 31) (hlast : last.toNat < 2 ^ 31)
    (hfirst' : first.toNat < b.count) (hlast' : last.toNat < b.count) :
    ∃ xs, b.taken? first last = some xs := by
  cases hxs : b.taken? first last with
  | some xs => exact ⟨xs, rfl⟩
  | none =>
    obtain ⟨p, hmem, hp⟩ := mapM_eq_none_iff.1 hxs
    obtain ⟨j, hj⟩ := mem_iff_getElem?.1 hmem
    have hlt : p.toNat < b.count := by
      have hlen := (List.getElem?_eq_some_iff.1 hj).1
      have hnat := getElem?_placesBetween hfirst hlast hj
      rw [length_placesBetween hfirst hlast] at hlen
      split at hnat <;> omega
    have hle := Nat.mod_le p.toNat b.tag.reach
    rw [elementAt?, List.getElem?_eq_none_iff, length_items] at hp
    omega

/-- The place of a word that is not negative is the word itself. -/
theorem place_of_nonneg {w : UInt32} (h : 0 ≤ wordInt w) : b.place w = w :=
  if_neg (Int.not_lt.2 h)

end Block

/-- In a list of less than `2 ^ 31` bytes, a slice between two of its places is a new list, which
    has the elements from the one place to the other, both included, in this order. Nothing else
    changes but that the operands are taken. -/
theorem slice_elements {m : Machine} {b : Block} {list start stop : Item} {rest : List Item}
    (hs : m.stack = list :: start :: stop :: rest) (hlen : m.stack.length ≤ stackLimit)
    (hb : m.heap.blocks[list.block]? = some b) (hsize : b.count * b.tag.width < 2 ^ 31)
    (hstart : start.word.toNat < b.count) (hstop : stop.word.toNat < b.count) :
    ∃ c xs, m.execute ⟨0xFF, 12⟩ = .next
        { m with
          pc := m.pc + 1
          stack := .ofBlock m.heap.size :: rest
          heap := ⟨m.heap.blocks.push c⟩ } ∧
      c.Holds b.tag xs ∧
      xs.length = ((stop.word.toNat : Int) - start.word.toNat).natAbs + 1 ∧
      ∀ j < xs.length, xs[j]? = b.items[if start.word.toNat ≤ stop.word.toNat
        then start.word.toNat + j else start.word.toNat - j]? := by
  have hcount : b.count < 2 ^ 31 := by
    have := Nat.le_mul_of_pos_right b.count b.tag.width_pos
    omega
  have hfirst : start.word.toNat < 2 ^ 31 := Nat.lt_trans hstart hcount
  have hlast : stop.word.toNat < 2 ^ 31 := Nat.lt_trans hstop hcount
  have hplace {w : UInt32} (hw : w.toNat < 2 ^ 31) : b.place w = w :=
    Block.place_of_nonneg (by rw [wordInt_eq_ite, if_pos (by omega)]; omega)
  obtain ⟨xs, hxs⟩ := Block.exists_taken hfirst hlast hstart hstop
  have hlength := (Block.length_taken hxs).trans (length_placesBetween hfirst hlast)
  have hreach : xs.length ≤ b.tag.reach := by
    have hle : xs.length ≤ b.count := by omega
    have := Nat.mul_le_mul_right b.tag.width hle
    refine Nat.le_of_mul_le_mul_right ?_ b.tag.width_pos
    rw [b.tag.reach_mul_width]
    omega
  refine ⟨_, xs, Machine.execute_slice hs hlen hb (by rw [hplace hfirst, hplace hlast, hxs]),
    Block.holds_filled hreach (Block.length_taken_lt hxs) (Block.kept_of_taken hxs), hlength, ?_⟩
  intro j hj
  rw [Block.length_taken hxs] at hj
  have hp := List.getElem?_eq_getElem hj
  have hnat := getElem?_placesBetween hfirst hlast hp
  rw [length_placesBetween hfirst hlast] at hj
  rw [Block.getElem?_taken hxs, hp, Option.bind_some, Block.elementAt?_of_lt (by omega), hnat]
  rw [hnat]
  split
  · omega
  · omega

/-- Three integers are taken from the last to the first. -/
theorem slice_elements_threeIntegers : ∃ c : Block,
    { threeIntegers with stack := [.ofBlock 0, ⟨.int, 2⟩, ⟨.int, 0⟩] }.execute ⟨0xFF, 12⟩ = .next
      { threeIntegers with
        pc := 1
        stack := [.ofBlock 1]
        heap := ⟨threeIntegers.heap.blocks.push c⟩ } ∧
    c.Holds .int [⟨.int, 9⟩, ⟨.int, 8⟩, ⟨.int, 7⟩] := by
  obtain ⟨c, xs, hslice, hholds, hlength, helements⟩ := slice_elements
    (m := { threeIntegers with stack := [.ofBlock 0, ⟨.int, 2⟩, ⟨.int, 0⟩] }) rfl (by decide) rfl
    (by decide) (by decide) (by decide)
  have hxs : xs = [⟨.int, 9⟩, ⟨.int, 8⟩, ⟨.int, 7⟩] := by
    obtain ⟨x, y, z, rfl⟩ := List.length_eq_three.1 hlength
    have hx : some x = some ⟨.int, 9⟩ := helements 0 (by simp)
    have hy : some y = some ⟨.int, 8⟩ := helements 1 (by simp)
    have hz : some z = some ⟨.int, 7⟩ := helements 2 (by simp)
    rw [Option.some.inj hx, Option.some.inj hy, Option.some.inj hz]
  exact ⟨c, hslice, hxs ▸ hholds⟩

/-! ### Negative places -/

/-- Slices of a list from two pairs of places are alike: both are there, and they show the same. -/
def Machine.SlicesAlike (m : Machine) (list start stop start' stop' : Item) (rest : List Item) :
    Prop :=
  ∃ c c' : Block, { m with stack := list :: start :: stop :: rest }.execute ⟨0xFF, 12⟩ = .next
      { m with
        pc := m.pc + 1
        stack := .ofBlock m.heap.size :: rest
        heap := ⟨m.heap.blocks.push c⟩ } ∧
    { m with stack := list :: start' :: stop' :: rest }.execute ⟨0xFF, 12⟩ = .next
      { m with
        pc := m.pc + 1
        stack := .ofBlock m.heap.size :: rest
        heap := ⟨m.heap.blocks.push c'⟩ } ∧
    c.Alike c'

/-- What counts are the elements that are taken. -/
theorem Machine.slicesAlike_iff {m : Machine} {b : Block} {list start stop start' stop' : Item}
    {rest ys : List Item} (hlen : rest.length + 3 ≤ stackLimit)
    (hb : m.heap.blocks[list.block]? = some b)
    (hys : b.taken? (b.place start'.word) (b.place stop'.word) = some ys) :
    m.SlicesAlike list start stop start' stop' rest ↔
      b.taken? (b.place start.word) (b.place stop.word) =
        b.taken? (b.place start'.word) (b.place stop'.word) := by
  have hexec' := execute_slice (m := { m with stack := list :: start' :: stop' :: rest }) rfl hlen hb
    hys
  rw [hys]
  constructor
  · rintro ⟨c, c', hexec, hsame, halike⟩
    rw [hexec', Transition.next.injEq, Machine.mk.injEq, Heap.mk.injEq, Array.push_eq_push] at hsame
    obtain rfl := hsame.2.2.2.2.1.1
    cases hxs : b.taken? (b.place start.word) (b.place stop.word) with
    | none =>
      obtain ⟨t, m', houtside⟩ :=
        execute_slice_outside (m := { m with stack := list :: start :: stop :: rest }) rfl hb hxs
      rw [houtside] at hexec
      cases hexec
    | some xs =>
      rw [execute_slice (m := { m with stack := list :: start :: stop :: rest }) rfl hlen hb hxs,
        Transition.next.injEq, Machine.mk.injEq, Heap.mk.injEq, Array.push_eq_push] at hexec
      obtain rfl := hexec.2.2.2.2.1.1
      rw [Block.eq_of_alike_filled hxs hys halike]
  · intro hxs
    exact ⟨_, _, execute_slice (m := { m with stack := list :: start :: stop :: rest }) rfl hlen hb
      hxs, hexec', .refl _⟩

namespace Block

variable {b : Block} {first last w w' : UInt32}

/-- If the elements are bytes, a negative place is counted from the end of the list. -/
theorem place_eq (hbytes : wordInt w < 0 → b.tag.width = 1)
    (hw : wordInt w' = if wordInt w < 0 then b.count + wordInt w else wordInt w) :
    b.place w = w' := by
  have hlt := w.toNat_lt
  have hlt' := w'.toNat_lt
  refine UInt32.toNat_inj.1 ?_
  by_cases hneg : wordInt w < 0
  · rw [if_pos hneg, count, hbytes hneg, Nat.div_one, wordInt_eq_ite, wordInt_eq_ite] at hw
    rw [place, if_pos hneg, UInt32.toNat_add, toNat_toUInt32_eq_mod]
    split at hw
    · split at hw
      · omega
      · omega
    · split at hw
      · omega
      · omega
  · rw [if_neg hneg, wordInt_eq_ite, wordInt_eq_ite] at hw
    rw [place, if_neg hneg]
    split at hw
    · split at hw
      · omega
      · omega
    · split at hw
      · omega
      · omega

/-- If they have four bytes, it is one behind the end. -/
theorem count_le_place (hwidth : b.tag.width = 4) (hcount : b.count < 2 ^ 28)
    (hneg : wordInt w < 0) (hlow : -(b.count : Int) ≤ wordInt w) :
    b.count ≤ (b.place w).toNat ∧ (b.place w).toNat < 2 ^ 30 := by
  have hlt := w.toNat_lt
  rw [count, hwidth] at hcount hlow ⊢
  rw [place, if_pos hneg, UInt32.toNat_add, toNat_toUInt32_eq_mod]
  rw [wordInt_eq_ite] at hneg hlow
  split at hneg
  · omega
  · rename_i hhigh
    rw [if_neg hhigh] at hlow
    omega

/-- So a slice comes to a place without an element. -/
theorem taken_eq_none {w' : UInt32} (hwidth : b.tag.width = 4) (hcount : b.count < 2 ^ 28)
    (hw : -(b.count : Int) ≤ wordInt w ∧ wordInt w < b.count)
    (hw' : -(b.count : Int) ≤ wordInt w' ∧ wordInt w' < b.count) (hneg : wordInt w < 0 ∨ wordInt w' < 0) :
    b.taken? (b.place w) (b.place w') = none := by
  have hnone {v : UInt32} (hv : -(b.count : Int) ≤ wordInt v) (hneg : wordInt v < 0) :
      b.elementAt? (b.place v) = none := by
    obtain ⟨hle, hlt⟩ := count_le_place hwidth hcount hneg hv
    refine elementAt?_eq_none ?_
    rwa [Tag.reach_of_width_four hwidth, Nat.mod_eq_of_lt hlt]
  have hlt {v : UInt32} (hv : -(b.count : Int) ≤ wordInt v ∧ wordInt v < b.count) :
      (b.place v).toNat < 2 ^ 31 := by
    by_cases hneg : wordInt v < 0
    · have := (count_le_place hwidth hcount hneg hv.1).2
      omega
    · rw [place_of_nonneg (Int.not_lt.1 hneg)]
      rw [wordInt_eq_ite] at hneg
      split at hneg
      · omega
      · have := v.toNat_lt
        omega
  -- both ends are among the places, whatever the direction is
  obtain ⟨hfirst, hlast⟩ := ends_mem_placesBetween (hlt hw) (hlt hw')
  rcases hneg with hneg | hneg
  · exact mapM_eq_none_iff.2 ⟨_, hfirst, hnone hw.1 hneg⟩
  · exact mapM_eq_none_iff.2 ⟨_, hlast, hnone hw'.1 hneg⟩

/-- A place that is counted from the end of the list is a place of the list. -/
theorem lt_count_of_fromEnd (hw : -(b.count : Int) ≤ wordInt w ∧ wordInt w < b.count)
    (hw' : wordInt w' = if wordInt w < 0 then b.count + wordInt w else wordInt w) :
    w'.toNat < 2 ^ 31 ∧ w'.toNat < b.count ∧ b.place w' = w' := by
  have hlt := w'.toNat_lt
  have hnonneg : 0 ≤ wordInt w' ∧ wordInt w' < b.count := by
    split at hw' <;> omega
  refine ⟨?_, ?_, place_of_nonneg hnonneg.1⟩
  all_goals
    rw [wordInt_eq_ite] at hnonneg
    split at hnonneg <;> omega

end Block

/-- A slice with negative places is the one with places that are counted from the end of the list,
    if and only if the elements are bytes, or no place is negative; or else, in a list of `2 ^ 28`
    elements at least, if the elements at the places that are taken instead happen to be the same. -/
theorem slice_from_end_iff {m : Machine} {b : Block} {list start stop start' stop' : Item}
    {rest : List Item} (hlen : rest.length + 3 ≤ stackLimit)
    (hb : m.heap.blocks[list.block]? = some b)
    (hstart : -(b.count : Int) ≤ wordInt start.word ∧ wordInt start.word < b.count)
    (hstop : -(b.count : Int) ≤ wordInt stop.word ∧ wordInt stop.word < b.count)
    (hstart' : wordInt start'.word =
      if wordInt start.word < 0 then b.count + wordInt start.word else wordInt start.word)
    (hstop' : wordInt stop'.word =
      if wordInt stop.word < 0 then b.count + wordInt stop.word else wordInt stop.word) :
    m.SlicesAlike list start stop start' stop' rest ↔
      b.tag.width = 1 ∨ (0 ≤ wordInt start.word ∧ 0 ≤ wordInt stop.word) ∨
        2 ^ 28 ≤ b.count ∧ b.taken? (b.place start.word) (b.place stop.word) =
          b.taken? start'.word stop'.word := by
  obtain ⟨hfirst, hfirst', hplace⟩ := Block.lt_count_of_fromEnd hstart hstart'
  obtain ⟨hlast, hlast', hplace'⟩ := Block.lt_count_of_fromEnd hstop hstop'
  obtain ⟨ys, hys⟩ := Block.exists_taken hfirst hlast hfirst' hlast'
  rw [Machine.slicesAlike_iff hlen hb (by rw [hplace, hplace', hys]), hplace, hplace']
  constructor
  · intro hsame
    rcases b.tag.width_eq_one_or with hwidth | hwidth
    · exact .inl hwidth
    · by_cases hnonneg : 0 ≤ wordInt start.word ∧ 0 ≤ wordInt stop.word
      · exact .inr (.inl hnonneg)
      · refine .inr (.inr ⟨Nat.le_of_not_lt fun hcount => ?_, hsame⟩)
        -- in a short list a negative place is behind the end, so nothing is taken
        rw [hys, Block.taken_eq_none hwidth hcount hstart hstop (by omega)] at hsame
        cases hsame
  · rintro (hbytes | ⟨hnonneg, hnonneg'⟩ | ⟨-, hsame⟩)
    · rw [Block.place_eq (fun _ => hbytes) hstart', Block.place_eq (fun _ => hbytes) hstop']
    · rw [Block.place_eq (fun h => absurd hnonneg (Int.not_le.2 h)) hstart',
        Block.place_eq (fun h => absurd hnonneg' (Int.not_le.2 h)) hstop']
    · exact hsame

/-- The last three characters of a text of five are taken. -/
theorem slice_from_end_text : Machine.SlicesAlike
    { heap := ⟨#[⟨.char, ⟨5, #[104, 101, 108, 108, 111]⟩⟩]⟩ } (.ofBlock 0)
    ⟨.int, 0xfffffffd⟩ ⟨.int, 0xffffffff⟩ ⟨.int, 2⟩ ⟨.int, 4⟩ [] :=
  (slice_from_end_iff (by decide) rfl (by decide) (by decide) (by decide) (by decide)).2 (.inl rfl)

/-- The last place of three integers, counted from the end, is behind the end: it is counted from
    the twelve bytes. -/
theorem slice_from_end_threeIntegers :
    (∃ m, { threeIntegers with stack := [.ofBlock 0, ⟨.int, 0⟩, ⟨.int, 0xffffffff⟩] }.execute
      ⟨0xFF, 12⟩ = .halted (.failed (.readOutside 4 16 12)) m) ∧
    ¬threeIntegers.SlicesAlike (.ofBlock 0) ⟨.int, 0⟩ ⟨.int, 0xffffffff⟩ ⟨.int, 0⟩ ⟨.int, 2⟩ [] := by
  have hexec : ∃ m, { threeIntegers with
      stack := [.ofBlock 0, ⟨.int, 0⟩, ⟨.int, 0xffffffff⟩] }.execute ⟨0xFF, 12⟩ =
        .halted (.failed (.readOutside 4 16 12)) m := ⟨_, rfl⟩
  refine ⟨hexec, ?_⟩
  rintro ⟨c, c', hslice, -⟩
  obtain ⟨m, hexec⟩ := hexec
  rw [hexec] at hslice
  cases hslice

end StackLang
