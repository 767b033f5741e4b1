import StackLang.Proofs.IndexForm

/-!
# Elements of nested lists

An element of a nested list is named by the path of its indices, from the outermost one to the
innermost. An access goes through the lists in this order. An assignment goes to the list that has
the element by the same indices in the reverse order, and takes the last index there.

* `Heap.at?_eq_of_distinct`: as long as the lists are different blocks, a write into one of them
  is seen only on the paths that lead through the element;
* `ElementSite.runs_accesses` and `ElementSite.traps_accesses`: the accesses along a path come to
  what lies there, and trap if nothing does;
* `element_assigned_iff`: when an assignment to an element of a nested list changes this element
  and no other.
-/

namespace StackLang

open List Option

/-! ### Paths -/

namespace Heap

variable {h h' : Heap} {x y z : Item} {p q r : List Nat} {n i d : Nat} {b : Block}

/-- An element of a block. -/
def element? (h : Heap) (n i : Nat) : Option Item := h.blocks[n]?.bind (·.items[i]?)

/-- What lies at a path below an item. -/
def at? (h : Heap) : Item → List Nat → Option Item
  | x, [] => some x
  | x, i :: p => if x.tag = .pointer then (h.element? x.block i).bind (h.at? · p) else none

theorem at?_cons (hx : x.tag = .pointer) (i : Nat) (p : List Nat) :
    h.at? x (i :: p) = (h.element? x.block i).bind (h.at? · p) := if_pos hx

theorem at?_append (x : Item) (p q : List Nat) :
    h.at? x (p ++ q) = (h.at? x p).bind (h.at? · q) := by
  induction p generalizing x with
  | nil => rfl
  | cons i p ih =>
    by_cases hx : x.tag = .pointer
    · rw [cons_append, at?_cons hx, at?_cons hx, bind_assoc]
      exact bind_congr fun y _ => ih y
    · rw [cons_append, at?, at?, if_neg hx, if_neg hx]
      rfl

/-- The last step of a path. -/
theorem at?_concat (hy : h.at? x p = some y) (htag : y.tag = .pointer) (i : Nat) :
    h.at? x (p ++ [i]) = h.element? y.block i := by
  rw [at?_append, hy, bind_some, at?_cons htag]
  exact bind_fun_some _

theorem at?_concat_eq_some_iff : h.at? x (p ++ [i]) = some y ↔
    ∃ z, h.at? x p = some z ∧ z.tag = .pointer ∧ h.element? z.block i = some y := by
  rw [at?_append, bind_eq_some_iff]
  refine exists_congr fun z => and_congr_right fun _ => ?_
  by_cases htag : z.tag = .pointer
  · rw [at?_cons htag, and_iff_right htag]
    exact iff_of_eq (congrArg (· = some y) (bind_fun_some _))
  · rw [at?, if_neg htag]
    simp [htag]

/-- What lies at a path is decided by the elements on it. -/
theorem at?_congr (hsame : ∀ p j q y, r = p ++ j :: q → h.at? x p = some y → y.tag = .pointer →
    h'.element? y.block j = h.element? y.block j) : h'.at? x r = h.at? x r := by
  induction r generalizing x with
  | nil => rfl
  | cons i r ih =>
    by_cases hx : x.tag = .pointer
    · rw [at?_cons hx, at?_cons hx, hsame [] i r x rfl rfl hx]
      refine bind_congr fun y hy => ih fun p j q z hr hz => ?_
      refine hsame (i :: p) j q z (by rw [hr, cons_append]) ?_
      rw [at?_cons hx, hy, bind_some, hz]
    · rw [at?, at?, if_neg hx, if_neg hx]

/-- A nested list: up to a depth its elements are lists, and all lists in it are different
    blocks. -/
structure Nested (h : Heap) (x : Item) (d : Nat) : Prop where
  deep : ∀ p y, p.length < d → h.at? x p = some y → y.tag = .pointer
  distinct : ∀ p q y z, h.at? x p = some y → h.at? x q = some z → y.tag = .pointer →
    z.tag = .pointer → y.block = z.block → p = q

/-- The lists of a heap are different blocks if each block can be located. -/
theorem Nested.of_locate (locate : Nat → List Nat) (hx : x.tag = .pointer)
    (hroot : locate x.block = [])
    (hstep : ∀ n j y, h.element? n j = some y →
      (y.tag = .pointer → locate y.block = locate n ++ [j]) ∧
      ((locate n).length + 1 < d → y.tag = .pointer)) : h.Nested x d := by
  have hpath : ∀ p y, h.at? x p = some y → (p.length < d → y.tag = .pointer) ∧
      (y.tag = .pointer → locate y.block = p) := by
    intro p
    induction p using List.reverseRecOn with
    | nil =>
      rintro y ⟨⟩
      exact ⟨fun _ => hx, fun _ => hroot⟩
    | append_singleton p j ih =>
      intro y hy
      obtain ⟨z, hz, htag, hy⟩ := at?_concat_eq_some_iff.1 hy
      obtain ⟨hlocate, hdeep⟩ := hstep _ _ _ hy
      rw [(ih z hz).2 htag] at hlocate hdeep
      rw [length_append]
      exact ⟨hdeep, hlocate⟩
  refine ⟨fun p y hp hy => (hpath p y hy).1 hp, fun p q y z hy hz hytag hztag hblock => ?_⟩
  rw [← (hpath p y hy).2 hytag, ← (hpath q z hz).2 hztag, hblock]

/-- Every block can be addressed. -/
def Bounded (h : Heap) : Prop := ∀ (n : Nat) (b : Block), h.blocks[n]? = some b → b.size < 2 ^ 32

/-- What changes in one list only is seen only on the paths through the changed elements. -/
theorem at?_eq_of_distinct (hx : h.Nested x d) (hz : h.at? x p = some z) (htag : z.tag = .pointer)
    (hother : ∀ n j, n ≠ z.block → h'.element? n j = h.element? n j)
    (hthrough : ∀ j r, q = p ++ j :: r → h'.element? z.block j = h.element? z.block j) :
    h'.at? x q = h.at? x q := by
  refine at?_congr fun p' j r y hq hy hpointer => ?_
  by_cases hblock : y.block = z.block
  · obtain rfl := hx.distinct p' p y z hy hz hpointer htag hblock
    rw [hblock]
    exact hthrough j r hq
  · exact hother _ j hblock

/-! ### Reading and writing elements -/

theorem element?_eq_some_iff :
    h.element? n i = some y ↔ ∃ b, h.blocks[n]? = some b ∧ b.items[i]? = some y :=
  bind_eq_some_iff

/-- An element has the tag of its block. -/
theorem tag_of_element? (hb : h.blocks[n]? = some b) (hy : h.element? n i = some y) :
    b.tag = y.tag := by
  obtain ⟨_, hb', hi⟩ := element?_eq_some_iff.1 hy
  obtain rfl := some.inj (hb.symm.trans hb')
  exact (Block.tag_of_mem_items (mem_of_getElem? hi)).symm

theorem lt_count_of_element? (hb : h.blocks[n]? = some b) (hy : h.element? n i = some y) :
    i < b.count := by
  obtain ⟨_, hb', hi⟩ := element?_eq_some_iff.1 hy
  obtain rfl := some.inj (hb.symm.trans hb')
  rw [← Block.length_items]
  exact (List.getElem?_eq_some_iff.1 hi).1

theorem element?_eq_none (hb : h.blocks[n]? = some b) : h.element? n i = none ↔ b.count ≤ i := by
  rw [element?, hb, bind_some, getElem?_eq_none_iff, Block.length_items]

/-- There is nothing to read where there is no element. -/
theorem read_error (hi : i * 4 < 2 ^ 32) (hnone : h.element? n i = none) :
    ∃ t, h.read n (i * (h.block n).tag.width) (h.block n).tag.width = .error t := by
  cases hb : h.blocks[n]? with
  | none =>
    unfold read
    rw [hb]
    exact ⟨_, rfl⟩
  | some b =>
    have hle := Nat.mul_le_mul_left i b.tag.width_le
    have hout := Nat.not_lt.2 ((element?_eq_none hb).1 hnone)
    rw [block_eq hb, read_eq hb, Tag.mod_reach (by omega), if_neg hout]
    exact ⟨_, rfl⟩

/-- The elements of a heap are those of its blocks. -/
theorem forall_element? {Q : Nat → Nat → Item → Prop}
    (hQ : ∀ n ∈ List.range h.size, ∀ y ∈ (h.block n).items.zipIdx, Q n y.2 y.1) :
    ∀ n j y, h.element? n j = some y → Q n j y := by
  intro n j y hy
  obtain ⟨b, hb, hj⟩ := element?_eq_some_iff.1 hy
  have hn : n < h.blocks.size := (Array.getElem?_eq_some_iff.1 hb).1
  refine hQ n (mem_range.2 hn) (y, j) ?_
  rw [block_eq hb, mem_zipIdx_iff_getElem?]
  exact hj

/-- A word that is written into a list changes one element of it. -/
theorem element?_put {w : UInt32} (hb : h.blocks[n]? = some b) (hi : i < b.count) (k j : Nat) :
    element? ⟨h.blocks.setIfInBounds n (b.put i w)⟩ k j =
      if k = n ∧ j = i then some (Item.mk b.tag w).kept else h.element? k j := by
  have hn : n < h.blocks.size := (Array.getElem?_eq_some_iff.1 hb).1
  by_cases hk : k = n
  · subst hk
    rw [element?, Array.getElem?_setIfInBounds_self_of_lt hn, bind_some,
      Block.items_put_of_lt hi, getElem?_set, Block.length_items, if_pos hi, element?, hb,
      bind_some]
    by_cases hj : j = i
    · rw [if_pos hj.symm, if_pos ⟨rfl, hj⟩]
    · rw [if_neg (Ne.symm hj), if_neg fun hkj => hj hkj.2]
  · rw [if_neg fun hkj => hk hkj.1, element?, Array.getElem?_setIfInBounds_ne (Ne.symm hk), element?]

theorem bounded_put {w : UInt32} (hbounded : h.Bounded) (hb : h.blocks[n]? = some b)
    (hi : i < b.count) : Bounded ⟨h.blocks.setIfInBounds n (b.put i w)⟩ := by
  intro k c hc
  by_cases hk : k = n
  · subst hk
    rw [Array.getElem?_setIfInBounds_self_of_lt (Array.getElem?_eq_some_iff.1 hb).1] at hc
    cases hc
    rw [Block.size_put, Nat.max_eq_left (Block.lt_count_iff.1 hi)]
    exact hbounded k b hb
  · rw [Array.getElem?_setIfInBounds_ne (Ne.symm hk)] at hc
    exact hbounded k c hc

/-- A word that is written somewhere else into a block makes a new element. -/
theorem element?_of_write {w : UInt32} (hb : h.blocks[n]? = some b)
    (hw : h.write n w (i * b.tag.width) b.tag.width = .ok h') :
    (∃ y, h'.element? n i = some y) ∧ ∀ k j, k ≠ n → h'.element? k j = h.element? k j := by
  have hn : n < h.blocks.size := (Array.getElem?_eq_some_iff.1 hb).1
  unfold write at hw
  rw [hb] at hw
  dsimp only at hw
  cases hcells : (b.cells.grow (i * b.tag.width + b.tag.width)).write
      (i * b.tag.width).toUInt32 w b.tag.width with
  | error t =>
    rw [hcells] at hw
    cases hw
  | ok c =>
    rw [hcells] at hw
    cases hw
    have hsize : i * b.tag.width + b.tag.width ≤ c.1.size := by
      rw [(Segment.write_eq_ok hcells).2.2.1]
      exact Nat.le_add_right_of_le (Nat.le_max_right _ _)
    constructor
    · have hi : i < (Block.mk b.tag c.1).count := Block.lt_count_iff.2 hsize
      rw [element?, Array.getElem?_setIfInBounds_self_of_lt hn, bind_some,
        Block.getElem?_items, if_pos hi]
      exact ⟨_, rfl⟩
    · intro k j hk
      rw [element?, Array.getElem?_setIfInBounds_ne (Ne.symm hk), element?]

/-! ### Writing along a path -/

/-- If one element of a nested list changes, this is seen at the paths through it only. -/
theorem at?_of_change (hx : h.Nested x d) (hz : h.at? x p = some z) (htag : z.tag = .pointer)
    (hchange : ∀ k j, h'.element? k j = if k = z.block ∧ j = i then some y else h.element? k j) :
    h'.at? x (p ++ [i]) = some y ∧ ∀ q, ¬p ++ [i] <+: q → h'.at? x q = h.at? x q := by
  have hother : ∀ q, ¬p ++ [i] <+: q → h'.at? x q = h.at? x q := by
    intro q hq
    refine at?_eq_of_distinct hx hz htag (fun n j hn => ?_) fun j r hr => ?_
    · rw [hchange, if_neg fun hj => hn hj.1]
    · rw [hchange, if_neg]
      rintro ⟨-, rfl⟩
      exact hq ⟨r, by rw [hr, append_assoc]; rfl⟩
  refine ⟨?_, hother⟩
  have hlist : h'.at? x p = some z := by
    rw [hother p fun hpre => absurd hpre.length_le (by simp), hz]
  rw [at?_concat hlist htag, hchange, if_pos ⟨rfl, rfl⟩]

/-- Where an element of a nested list can be read it can be written, and nothing else changes. -/
theorem exists_write (hx : h.Nested x d) (hbounded : h.Bounded) (hp : p.length < d)
    (hy : h.at? x (p ++ [i]) = some y) (w : UInt32) :
    ∃ z h', h.at? x p = some z ∧
      h.write z.block w (i * (h.block z.block).tag.width) (h.block z.block).tag.width = .ok h' ∧
      h'.Bounded ∧ h'.at? x (p ++ [i]) = some (Item.mk y.tag w).kept ∧
      (∀ q, ¬p ++ [i] <+: q → h'.at? x q = h.at? x q) ∧
      ((Item.mk y.tag w).kept = y → ∀ q, h'.at? x q = h.at? x q) := by
  cases hz : h.at? x p with
  | none =>
    rw [at?_append, hz] at hy
    cases hy
  | some z =>
    have htag := hx.deep p z hp hz
    rw [at?_concat hz htag] at hy
    obtain ⟨b, hb, -⟩ := element?_eq_some_iff.1 hy
    have hi := lt_count_of_element? hb hy
    have hin : i * b.tag.width + b.tag.width ≤ b.size := Block.lt_count_iff.1 hi
    have hone : i * b.tag.width + 1 < 2 ^ 32 := by
      have hsize := hbounded _ b hb
      have hpos := b.tag.width_pos
      omega
    have hput := element?_put (w := w) hb hi
    rw [tag_of_element? hb hy] at hput
    obtain ⟨hnew, hother⟩ := at?_of_change hx hz htag hput
    refine ⟨z, _, rfl, ?_, bounded_put hbounded hb hi, hnew, hother, fun hkept q => ?_⟩
    · rw [block_eq hb]
      exact write_element hb hone
    · refine at?_congr fun _ j _ u _ _ _ => ?_
      rw [hput, hkept]
      by_cases hj : u.block = z.block ∧ j = i
      · rw [if_pos hj, hj.1, hj.2, hy]
      · rw [if_neg hj]

/-- Where there is no element to read, a write makes one. -/
theorem exists_at?_of_write (hx : h.Nested x d) (hz : h.at? x p = some z)
    (htag : z.tag = .pointer) {w : UInt32} (hw : h.write z.block w
      (i * (h.block z.block).tag.width) (h.block z.block).tag.width = .ok h') :
    ∃ y, h'.at? x (p ++ [i]) = some y := by
  cases hb : h.blocks[z.block]? with
  | none =>
    rw [write, hb] at hw
    cases hw
  | some b =>
    rw [block_eq hb] at hw
    obtain ⟨⟨y, hy⟩, hother⟩ := element?_of_write hb hw
    have hsame : h'.at? x p = h.at? x p := by
      refine at?_eq_of_distinct hx hz htag hother fun j r hp => ?_
      have := congrArg List.length hp
      simp at this
    exact ⟨y, by rw [at?_concat (hsame.trans hz) htag, hy]⟩

/-- The indices of a path through lists of lists are small. -/
theorem small_of_at? (hdeep : ∀ q y, q.length < p.length + 1 → h.at? x q = some y → y.tag = .pointer)
    (hbounded : h.Bounded) (hy : h.at? x p = some y) : ∀ i ∈ p, i * 4 < 2 ^ 32 := by
  induction p generalizing x with
  | nil => exact forall_mem_nil _
  | cons i p ih =>
    have htag := hdeep [] x (Nat.succ_pos _) rfl
    rw [at?_cons htag] at hy
    obtain ⟨z, hz, hy⟩ := bind_eq_some_iff.1 hy
    have hpath : ∀ q, h.at? x (i :: q) = h.at? z q := by
      intro q
      rw [at?_cons htag, hz, bind_some]
    refine forall_mem_cons.2 ⟨?_, ih (fun q y hq hy => ?_) hy⟩
    · obtain ⟨b, hb, -⟩ := element?_eq_some_iff.1 hz
      have hpointer := hdeep [i] z (by simp) (hpath [])
      have hin : i * b.tag.width + b.tag.width ≤ b.size :=
        Block.lt_count_iff.1 (lt_count_of_element? hb hz)
      have hsize := hbounded _ b hb
      rw [tag_of_element? hb hz, hpointer] at hin
      change i * 4 + 4 ≤ _ at hin
      omega
    · exact hdeep (i :: q) y (Nat.succ_lt_succ hq) ((hpath q).trans hy)

end Heap

/-! ### Traps -/

namespace Machine

variable {P : Program} {m m₁ m' : Machine} {a b : Nat}

/-- A trap stops the code from the place of the machine up to `b`. -/
def Traps (P : Program) (m : Machine) (b : Nat) : Prop := ∃ r, r.trap ≠ none ∧ m.HasEffect P b r

theorem Traps.not_runs (h : m.Traps P b) : ¬m.Runs P b m' := by
  obtain ⟨r, hr, heffect⟩ := h
  intro hrun
  rw [heffect.unique (.done hrun)] at hr
  exact hr rfl

theorem Traps.mono (h : m.Traps P a) (hab : a ≤ b) : m.Traps P b := by
  obtain ⟨r, hr, heffect⟩ := h
  cases heffect with
  | done _ => exact absurd rfl hr
  | trapped hs hin hi hop hact =>
    refine ⟨_, hr, .trapped hs (fun k hk s hks hsf => ?_) hi hop hact⟩
    obtain ⟨hle, hlt⟩ := hin k hk s hks hsf
    exact ⟨hle, Nat.lt_of_lt_of_le hlt hab⟩

theorem Traps.of_runs (hrun : m.Runs P a m₁) (h : m₁.Traps P b) (ha : m.pc ≤ a) (hb : a ≤ b) :
    m.Traps P b := by
  obtain ⟨r, hr, heffect⟩ := h
  exact ⟨r, hr, .of_runs hrun ha hb heffect⟩

end Machine

/-! ### Code along a path -/

/-- The accesses to the elements of some indices, one in the other. -/
def Generator.accesses (g : Generator) (p : List Nat) : Generator :=
  p.foldl (fun g (i : Nat) => g.push (.instruction Op.listAccess (.int i))) g

namespace Generator

variable {g : Generator}

@[simp] theorem accesses_nil (g : Generator) : g.accesses [] = g := rfl

theorem accesses_cons (g : Generator) (i : Nat) (p : List Nat) :
    g.accesses (i :: p) = (g.push (.instruction Op.listAccess (.int i))).accesses p := rfl

theorem accesses_append (g : Generator) (p q : List Nat) :
    g.accesses (p ++ q) = (g.accesses p).accesses q := by
  rw [accesses, foldl_append]
  rfl

theorem accesses_concat (g : Generator) (p : List Nat) (i : Nat) :
    g.accesses (p ++ [i]) = (g.accesses p).push (.instruction Op.listAccess (.int i)) :=
  accesses_append g p [i]

@[simp] theorem identifiers_accesses (g : Generator) (p : List Nat) :
    (g.accesses p).identifiers = g.identifiers := by
  induction p generalizing g with
  | nil => rfl
  | cons i p ih => rw [accesses_cons, ih, push_identifiers]

theorem Sound.accesses (hg : g.Sound) (p : List Nat) : (g.accesses p).Sound := by
  induction p generalizing g with
  | nil => exact hg
  | cons i p ih => exact ih (hg.push _)

theorem Sound.keeps_accesses (hg : g.Sound) (p : List Nat) :
    Keeps 0 g.length g (g.accesses p) := by
  induction p generalizing g with
  | nil => exact .refl ..
  | cons i p ih =>
    have hpush : Keeps 0 g.length g (g.push (.instruction Op.listAccess (.int i))) :=
      .push hg _ (Nat.le_refl _)
    exact hpush.trans ((ih (hg.push _)).mono (Nat.le_refl _) (Nat.le_succ _)) (Nat.le_refl _)

end Generator

/-- The operand that an element of an operand is, along a path. -/
def Operand.element (o : Operand) (p : List Nat) : Operand :=
  p.foldl (fun o (i : Nat) => .node (.member o (.node (.int i)) true)) o

namespace Gen

variable {g g' : Generator} {a : Atom} {n : Nat}

theorem element_concat (o : Operand) (p : List Nat) (i : Nat) :
    o.element (p ++ [i]) = .node (.member (o.element p) (.node (.int i)) true) := by
  rw [Operand.element, foldl_append]
  rfl

theorem indexedBase_element (a : Atom) (p : List Nat) :
    indexedBase ((Operand.atom a).element p) = .atom a := by
  induction p using List.reverseRecOn with
  | nil => rfl
  | append_singleton p i ih => rw [element_concat, indexedBase, ih]

/-- The lists that an assigned element lies in are accessed from the innermost index to the
    outermost. -/
theorem ends_setters_element (p : List Nat) :
    Ends (generateSetters ((Operand.atom a).element p)) g () g' ↔ g' = g.accesses p.reverse := by
  induction p using List.reverseRecOn generalizing g with
  | nil =>
    rw [show (Operand.atom a).element [] = .atom a from rfl, generateSetters, ends_pure]
    · simp
    · simp
  | append_singleton p i ih =>
    rw [element_concat, generateSetters_member, reverse_concat, Generator.accesses_cons]
    simp only [ends_bind, ends_indexCode_int (show isConstant (.int i) = true from rfl), ih]
    simp

/-- Those of an element that is read are accessed from the outermost index to the innermost. -/
theorem ends_access_element (ha : g.identifiers.get? a = some n) (p : List Nat) (i : Nat) :
    Ends (generate (.member ((Operand.atom a).element p) (.node (.int i)) true)) g () g' ↔
      g' = (g.push (.instruction Op.load (.int n))).accesses (p ++ [i]) := by
  have hunary : ∀ i : Nat, Node.isUnary (.int i) = true := fun _ => rfl
  induction p using List.reverseRecOn generalizing g' i with
  | nil =>
    rw [show (Operand.atom a).element [] = .atom a from rfl, generate_member_plain (by simp),
      if_pos rfl]
    simp only [addressOf, ends_bind, ends_address, ends_emitInt, ends_indexCode_int (hunary i)]
    constructor
    · rintro ⟨n', _, ⟨hn, rfl⟩, _, _, rfl, rfl⟩
      rw [ha, some_inj] at hn
      subst hn
      rfl
    · rintro rfl
      exact ⟨n, g, ⟨ha, rfl⟩, (), _, rfl, rfl⟩
  | append_singleton p j ih =>
    rw [element_concat, generate_member_nested, if_pos rfl, Generator.accesses_concat]
    simp only [ends_bind, ih, ends_indexCode_int (hunary i)]
    simp

end Gen

/-! ### Running along a path -/

namespace Machine

open Gen

variable {P : Program} {u : ElementUse} {g : Generator} {m m' : Machine} {x y : Item}
  {rest : List Item} {p : List Nat} {i b : Nat} {k : Nat}

section

variable (hg : g.Sound) (hP : P.Carries (g.push (.instruction u.code (.int (i : Nat)))) k)
  (hk : k ≤ g.length) (hpc : m.pc = g.length)

include hg hP hk hpc

/-- The argument of an instruction that was written with an index. -/
theorem exists_index_word : ∃ w, m.fetch P = some ⟨u.code.toUInt8, w⟩ ∧
      ∀ m₁, Act.index w m₁ = (.ok i, m₁) := by
  obtain ⟨w, hw, hi⟩ := hP.last hg hk
  have hword : (i : Int) = w.toNat := eq_toNat_of_word (Int.natCast_nonneg i) hw
  have hne : w ≠ endAddress := by
    intro hend
    have := (eq_neg_one_of_word (by omega) hw).1 hend
    omega
  refine ⟨w, by rw [fetch, hpc]; exact hi, fun m₁ => ?_⟩
  rw [Act.run_index hne, show w.toNat = i by omega]

/-- An instruction with a written index does what its act does. -/
theorem runs_written (hact : u.act i m = (.ok (), m')) :
    m.Runs P (g.length + 1) { m' with pc := g.length + 1 } := by
  obtain ⟨w, hi, hindex⟩ := exists_index_word hg hP hk hpc
  obtain ⟨op, hop, hperform⟩ := u.perform w
  have hframes := ((u.placeless i).keeps m).2
  have hmoved : u.act i m.onward = _ := u.placeless i m (m.pc + 1) m.frames
  rw [hact] at hmoved hframes
  dsimp only at hmoved hframes
  rw [← hpc]
  refine .single (step_of_perform hi hop ?_) rfl hframes
  rw [hperform, Act.run_bind_ok (hindex _), hmoved, ← hframes]

theorem traps_written {t : Trap} (hact : u.act i m = (.error (.failed t), m')) :
    m.Traps P (g.length + 1) := by
  obtain ⟨w, hi, hindex⟩ := exists_index_word hg hP hk hpc
  have heffect : (u.act i).effect m.onward = some ⟨some t, m'.unplaced⟩ := by
    rw [(u.placeless i).effect_eq, Act.effect, hact]
  rw [← hpc]
  exact ⟨_, by simp, ElementSite.hasEffect_instruction hi (hindex _) rfl rfl heffect⟩

end

section

variable (hg : g.Sound) (hP : P.Carries (g.accesses p) g.length) (hpc : m.pc = g.length)
  (hs : m.stack = x :: rest) (hlen : rest.length < stackLimit) (hbounded : m.heap.Bounded)

include hg hP hpc hs hlen hbounded

/-- The accesses along a path come to what lies there. -/
theorem runs_accesses (hy : m.heap.at? x p = some y) : m.Runs P (g.accesses p).length
      { m with pc := (g.accesses p).length, stack := y :: rest } := by
  induction p generalizing g m x with
  | nil =>
    cases hy
    have hm : { m with pc := g.length, stack := y :: rest } = m := by rw [← hpc, ← hs]
    rw [Generator.accesses_nil, hm, ← hpc]
    exact .refl P m
  | cons i p ih =>
    have hx : x.tag = .pointer := by
      by_contra hx
      rw [Heap.at?, if_neg hx] at hy
      cases hy
    rw [Heap.at?_cons hx] at hy
    obtain ⟨z, hz, hy⟩ := bind_eq_some_iff.1 hy
    obtain ⟨b, hb, hi⟩ := Heap.element?_eq_some_iff.1 hz
    have hfirst := hP.of_keeps (hg.push _) ((hg.push _).keeps_accesses p)
    have hrun := runs_written (u := .access) hg hfirst (Nat.le_refl _) hpc
      (Act.run_elementAt hs hb (hbounded _ b hb) hi hlen)
    have hkeeps := (hg.push (.instruction Op.listAccess (.int i))).keeps_accesses p
    refine hrun.trans (ih (hg.push _) (hP.mono (Nat.le_succ _)) rfl rfl hbounded hy)
      (hpc ▸ Nat.le_succ _) hkeeps.length_le

/-- They trap if nothing lies there, provided that only lists are accessed. -/
theorem traps_accesses (hnone : m.heap.at? x p = none)
    (hdeep : ∀ q y, q.length < p.length → m.heap.at? x q = some y → y.tag = .pointer)
    (hsmall : ∀ i ∈ p, i * 4 < 2 ^ 32) : m.Traps P (g.accesses p).length := by
  induction p generalizing g m x with
  | nil => cases hnone
  | cons i p ih =>
    have hx : x.tag = .pointer := hdeep [] x (Nat.succ_pos _) rfl
    have hfirst := hP.of_keeps (hg.push _) ((hg.push _).keeps_accesses p)
    have hkeeps := (hg.push (.instruction Op.listAccess (.int i))).keeps_accesses p
    obtain ⟨hi, hsmall⟩ := forall_mem_cons.1 hsmall
    rw [Heap.at?_cons hx] at hnone
    cases hz : m.heap.element? x.block i with
    | none =>
      obtain ⟨t, ht⟩ := Heap.read_error hi hz
      have htrap := traps_written (u := .access) hg hfirst (Nat.le_refl _) hpc
        (Act.run_elementAt_error hs ht)
      exact htrap.mono hkeeps.length_le
    | some z =>
      obtain ⟨b, hb, hitem⟩ := Heap.element?_eq_some_iff.1 hz
      have hrun := runs_written (u := .access) hg hfirst (Nat.le_refl _) hpc
        (Act.run_elementAt hs hb (hbounded _ b hb) hitem hlen)
      rw [hz, bind_some] at hnone
      refine .of_runs hrun (ih (hg.push _) (hP.mono (Nat.le_succ _)) rfl rfl hbounded hnone
        (fun q y hq hy => ?_) hsmall) (hpc ▸ Nat.le_succ _) hkeeps.length_le
      refine hdeep (i :: q) y (Nat.succ_lt_succ hq) ?_
      rw [Heap.at?_cons hx, hz, bind_some]
      exact hy

end

end Machine

/-! ### Assigned elements -/

namespace ElementSite

open Gen Machine

variable {s : ElementSite} {P : Program} {value : Node} {v x y z : Item} {g g' : Generator}
  {m m' : Machine} {p q : List Nat} {i : Nat} {h : Heap}

/-- The access to an element of a nested list. -/
def nested (s : ElementSite) (p : List Nat) (i : Nat) : Node :=
  .member ((Operand.atom s.list).element p) (.node (.int i)) true

/-- The generator behind an assignment to it. -/
def assigned (s : ElementSite) (p : List Nat) (i : Nat) : Generator :=
  (s.base.accesses p.reverse).push (.instruction Op.listSet (.int i))

theorem ends_nested (ha : g.identifiers.get? s.list = some s.address) :
    Ends (generate (s.nested p i)) g () g' ↔
      g' = (g.push (.instruction Op.load (.int s.address))).accesses (p ++ [i]) :=
  ends_access_element ha p i

theorem ends_assigned (hv : Ends (generate value) g () s.code) :
    Ends (generate (.assign (.node (s.nested p i)) value)) g () g' ↔ g' = s.assigned p i := by
  rw [nested, generate_assign_element]
  simp only [indexedBase_element, addressOf, ends_bind, ends_address, ends_emitInt,
    ends_indexCode_int (show isConstant (.int i) = true from rfl)]
  constructor
  · rintro ⟨_, g₁, hv', a, _, ⟨ha, rfl⟩, _, _, rfl, _, g₂, hsetters, rfl⟩
    obtain rfl := (ends_setters_element p).1 hsetters
    rw [show _ = s.code from hv'.after_eq.symm.trans hv.after_eq] at ha ⊢
    rw [s.filed, some_inj] at ha
    subst ha
    rfl
  · rintro rfl
    exact ⟨(), _, hv, _, _, ⟨s.filed, rfl⟩, (), _, rfl, (), _, (ends_setters_element p).2 rfl, rfl⟩

/-- The place behind an assignment that has left a heap. -/
def assignedSite (s : ElementSite) (p : List Nat) (i : Nat) (h : Heap) : ElementSite where
  list := s.list
  address := s.address
  reference := s.reference
  code := s.assigned p i
  machine :=
    { s.machine with
      pc := (s.assigned p i).length
      stack := s.machine.stack.tail
      heap := h }
  sound := ((s.sound.push _).accesses _).push _
  here := rfl
  filed := (congrArg (·.get? s.list) (Generator.identifiers_accesses s.base _)).trans s.filed
  held := s.held
  room := Nat.lt_of_le_of_lt (by simp) s.room

theorem runs_nested (hP : P.Carries (s.base.accesses q) s.code.length)
    (hbounded : s.machine.heap.Bounded) (hy : s.machine.heap.at? s.reference q = some y) :
    s.machine.Runs P (s.base.accesses q).length
      { s.machine with pc := (s.base.accesses q).length, stack := y :: s.machine.stack } := by
  have hbase : s.base.Sound := s.sound.push _
  have hkeeps := hbase.keeps_accesses q
  have hrest := runs_accesses (m := s.loaded) hbase (hP.mono (Nat.le_succ _)) rfl rfl s.room
    hbounded hy
  exact (runs_load hP hkeeps).trans hrest (s.here ▸ Nat.le_succ _) hkeeps.length_le

section

variable {rest : List Item} (hP : P.Carries (s.assigned p i) s.code.length)
  (hstack : s.machine.stack = v :: rest) (hbounded : s.machine.heap.Bounded)

include hP hstack hbounded

/-- An assignment that finds its list writes there. -/
theorem runs_assigned (hz : s.machine.heap.at? s.reference p.reverse = some z)
    (hw : s.machine.heap.write z.block v.word (i * (s.machine.heap.block z.block).tag.width)
      (s.machine.heap.block z.block).tag.width = .ok h) :
    s.machine.Runs P (s.assigned p i).length (s.assignedSite p i h).machine := by
  have hsound : (s.base.accesses p.reverse).Sound := Generator.Sound.accesses (s.sound.push _) _
  have hkeeps := (s.sound.push (.instruction Op.load (.int s.address))).keeps_accesses p.reverse
  have hle : s.code.length ≤ (s.base.accesses p.reverse).length :=
    Nat.le_trans (Nat.le_succ _) hkeeps.length_le
  have hpath := runs_nested (hP.of_keeps hsound (.push hsound _ (Nat.le_refl _))) hbounded hz
  have hact := Act.run_setElementAt (m := { s.machine with
    pc := (s.base.accesses p.reverse).length, stack := z :: s.machine.stack })
    (i := i) (congrArg (z :: ·) hstack) hw
  have hset := runs_written (u := .assignment) hsound (hP.mono hle) (Nat.le_refl _) rfl hact
  have hall := hpath.trans hset (s.here ▸ hle) (Nat.le_succ _)
  have hrest : rest = s.machine.stack.tail := by rw [hstack]; rfl
  rw [hrest] at hall
  exact hall

/-- An assignment that does not find its list, or cannot write there, traps. -/
theorem traps_assigned (hx : s.machine.heap.Nested s.reference (p.length + 1))
    (hp : s.machine.heap.at? s.reference p = some y)
    (h : s.machine.heap.at? s.reference p.reverse = none ∨
      ∃ z t, s.machine.heap.at? s.reference p.reverse = some z ∧
        s.machine.heap.write z.block v.word (i * (s.machine.heap.block z.block).tag.width)
          (s.machine.heap.block z.block).tag.width = .error t) :
    s.machine.Traps P (s.assigned p i).length := by
  have hbase : s.base.Sound := s.sound.push _
  have hsound : (s.base.accesses p.reverse).Sound := hbase.accesses _
  have hkeeps := hbase.keeps_accesses p.reverse
  have hle : s.code.length ≤ (s.base.accesses p.reverse).length :=
    Nat.le_trans (Nat.le_succ _) hkeeps.length_le
  have hpart := hP.of_keeps hsound (.push hsound _ (Nat.le_refl _))
  rcases h with hnone | ⟨z, t, hz, hw⟩
  · have hload := runs_load hpart hkeeps
    have hsmall := Heap.small_of_at? hx.deep hbounded hp
    have htrap : s.loaded.Traps P (s.base.accesses p.reverse).length := by
      refine traps_accesses hbase (hpart.mono (Nat.le_succ _)) rfl rfl s.room hbounded hnone
        (fun q y hq => hx.deep q y ?_) fun j hj => hsmall j (mem_reverse.1 hj)
      rw [length_reverse] at hq
      exact Nat.lt_succ_of_lt hq
    exact (Traps.of_runs hload htrap (s.here ▸ Nat.le_succ _) hkeeps.length_le).mono (Nat.le_succ _)
  · have hpath := runs_nested hpart hbounded hz
    have hact := Act.run_setElementAt_error (m := { s.machine with
      pc := (s.base.accesses p.reverse).length, stack := z :: s.machine.stack })
      (i := i) (congrArg (z :: ·) hstack) hw
    have hset := traps_written (u := .assignment) hsound (hP.mono hle) (Nat.le_refl _) rfl hact
    exact .of_runs hpath hset (s.here ▸ hle) (Nat.le_succ _)

end

/-- The machine has come to the place by the code of a value, which is on top of the stack. -/
structure Behind (s : ElementSite) (P : Program) (value : Node) (v : Item) (g : Generator)
    (m : Machine) : Prop where
  sound : g.Sound
  place : m.pc = g.length
  ends : Ends (generate value) g () s.code
  top : s.machine.stack = v :: m.stack
  runs : m.Runs P s.code.length s.machine

/-- The program has the code of an assignment and, behind it, that of an access to its element. -/
def Stands (s : ElementSite) (P : Program) (value : Node) (g : Generator) (p : List Nat) (i : Nat) :
    Prop :=
  ∀ g₁ g₂, Ends (generate (.assign (.node (s.nested p i)) value)) g () g₁ →
    Ends (generate (s.nested p i)) g₁ () g₂ → P.Carries g₂ g.length

/-- The assignment and the access compile and run, and the access gives the value. What lies at
    other paths than those through the element stays. -/
def Assigns (s : ElementSite) (P : Program) (value : Node) (v : Item) (g : Generator) (m : Machine)
    (p : List Nat) (i : Nat) : Prop :=
  ∃ g₁ g₂ m', Ends (generate (.assign (.node (s.nested p i)) value)) g () g₁ ∧
    Ends (generate (s.nested p i)) g₁ () g₂ ∧ m.Runs P g₁.length m' ∧
    m'.Runs P g₂.length { m' with pc := g₂.length, stack := v :: m'.stack } ∧
    ∀ q, ¬p ++ [i] <+: q → m'.heap.at? s.reference q = s.machine.heap.at? s.reference q

/-- The code of an element that is read behind an assignment. -/
theorem carries_of_stands (hs : s.Behind P value v g m) (hP : s.Stands P value g p i) (h : Heap) :
    P.Carries ((s.assignedSite p i h).base.accesses (p ++ [i])) g.length ∧
      P.Carries (s.assigned p i) s.code.length := by
  have hread := hP _ _ ((ends_assigned hs.ends).2 rfl)
    ((ends_nested (s.assignedSite p i h).filed).2 rfl)
  have hsite := (s.assignedSite p i h).sound
  have hbase : Keeps 0 (s.assigned p i).length (s.assigned p i) (s.assignedSite p i h).base :=
    .push hsite _ (Nat.le_refl _)
  have hkeeps := (hsite.push (.instruction Op.load (.int s.address))).keeps_accesses (p ++ [i])
  have hall := hbase.trans (hkeeps.mono (Nat.le_refl _) (Nat.le_succ _)) (Nat.le_refl _)
  refine ⟨hread, (hread.of_keeps hsite hall).mono ?_⟩
  exact (built_of_ends hs.sound hs.ends).keeps.length_le

theorem length_le_assigned : s.code.length ≤ (s.assigned p i).length := by
  have hkeeps := (s.sound.push (.instruction Op.load (.int s.address))).keeps_accesses p.reverse
  exact Nat.le_trans (Nat.le_succ _) (Nat.le_succ_of_le hkeeps.length_le)

section

variable (hs : s.Behind P value v g m) (hP : s.Stands P value g p i)
  (hbounded : s.machine.heap.Bounded)

include hs hP hbounded

/-- If there is an element to write to, what counts is what the heap has then. -/
theorem assigns_iff_of_write (hz : s.machine.heap.at? s.reference p.reverse = some z)
    (hw : s.machine.heap.write z.block v.word (i * (s.machine.heap.block z.block).tag.width)
      (s.machine.heap.block z.block).tag.width = .ok h) (hbounded' : h.Bounded)
    (hx : h.at? s.reference (p ++ [i]) = some x) : s.Assigns P value v g m p i ↔ x = v ∧
      ∀ q, ¬p ++ [i] <+: q → h.at? s.reference q = s.machine.heap.at? s.reference q := by
  obtain ⟨hread, hset⟩ := carries_of_stands hs hP h
  have hstart := (built_of_ends hs.sound hs.ends).keeps.length_le
  have hle : g.length ≤ (s.assigned p i).length := Nat.le_trans hstart length_le_assigned
  have hassign := hs.runs.trans (runs_assigned hset hs.top hbounded hz hw) (hs.place ▸ hstart)
    length_le_assigned
  have haccess := (s.assignedSite p i h).runs_nested (hread.mono hle) hbounded' hx
  constructor
  · rintro ⟨g₁, g₂, m', h₁, h₂, hrun, hgives, hrest⟩
    obtain rfl := (ends_assigned hs.ends).1 h₁
    obtain rfl := hassign.unique hrun
    obtain rfl := (ends_nested (s.assignedSite p i h).filed).1 h₂
    have hstack := congrArg Machine.stack (haccess.unique hgives)
    exact ⟨(List.cons.inj hstack).1, hrest⟩
  · rintro ⟨rfl, hrest⟩
    exact ⟨_, _, _, (ends_assigned hs.ends).2 rfl, (ends_nested (s.assignedSite p i h).filed).2 rfl,
      hassign, haccess, hrest⟩

/-- If there is none, the assignment traps or makes a new one. -/
theorem not_assigns (hx : s.machine.heap.Nested s.reference (p.length + 1))
    (hp : s.machine.heap.at? s.reference (p ++ [i]) = some y)
    (hnone : s.machine.heap.at? s.reference (p.reverse ++ [i]) = none) :
    ¬s.Assigns P value v g m p i := by
  rintro ⟨g₁, g₂, m', h₁, -, hrun, -, hrest⟩
  obtain rfl := (ends_assigned hs.ends).1 h₁
  obtain ⟨-, hset⟩ := carries_of_stands hs hP s.machine.heap
  have hstart := hs.place ▸ (built_of_ends hs.sound hs.ends).keeps.length_le
  have hreach : ∃ x, s.machine.heap.at? s.reference p = some x := by
    rw [Heap.at?_append] at hp
    obtain ⟨x, hx, -⟩ := bind_eq_some_iff.1 hp
    exact ⟨x, hx⟩
  obtain ⟨x, hpx⟩ := hreach
  have hnot : ¬s.machine.Traps P (s.assigned p i).length := fun htrap =>
    (Traps.of_runs hs.runs htrap hstart length_le_assigned).not_runs hrun
  have htraps := mt (traps_assigned (i := i) hset hs.top hbounded hx hpx) hnot
  cases hz : s.machine.heap.at? s.reference p.reverse with
  | none => exact htraps (.inl hz)
  | some z =>
    have htag := hx.deep _ z (by rw [length_reverse]; exact Nat.lt_succ_self _) hz
    cases hw : s.machine.heap.write z.block v.word (i * (s.machine.heap.block z.block).tag.width)
        (s.machine.heap.block z.block).tag.width with
    | error t => exact htraps (.inr ⟨z, t, hz, hw⟩)
    | ok h =>
      have hassign := hs.runs.trans (runs_assigned hset hs.top hbounded hz hw) hstart
        length_le_assigned
      obtain rfl := hassign.unique hrun
      -- the new element lies at another path than the one assigned to
      obtain ⟨x, hx'⟩ := Heap.exists_at?_of_write hx hz htag hw
      have hother : ¬p ++ [i] <+: p.reverse ++ [i] := by
        intro hpre
        rw [← hpre.eq_of_length (by simp), hp] at hnone
        cases hnone
      have hsame : h.at? s.reference (p.reverse ++ [i]) = none := (hrest _ hother).trans hnone
      rw [hx'] at hsame
      cases hsame

end

end ElementSite

section

open Gen Machine

/-- An assignment to an element of a nested list changes this element and no other if and only if
    the indices of the lists on the way are the same from both ends and the element can hold the
    value, or the element has the value already and so has the one that is written to. -/
theorem element_assigned_iff (s : ElementSite) {P : Program} {value : Node} {v x : Item}
    {g : Generator} {m : Machine} {p : List Nat} {i : Nat} (hs : s.Behind P value v g m)
    (hP : s.Stands P value g p i) (hbounded : s.machine.heap.Bounded)
    (hnested : s.machine.heap.Nested s.reference (p.length + 1))
    (hx : s.machine.heap.at? s.reference (p ++ [i]) = some x) :
    s.Assigns P value v g m p i ↔ p.reverse = p ∧ (Item.mk x.tag v.word).kept = v ∨
      x = v ∧ ∃ y, s.machine.heap.at? s.reference (p.reverse ++ [i]) = some y ∧
        (Item.mk y.tag v.word).kept = y := by
  cases hy : s.machine.heap.at? s.reference (p.reverse ++ [i]) with
  | none =>
    refine iff_of_false (ElementSite.not_assigns hs hP hbounded hnested hx hy) ?_
    rintro (⟨hrev, -⟩ | ⟨-, y, hy', -⟩)
    · rw [hrev, hx] at hy
      cases hy
    · cases hy'
  | some y =>
    have hlen : p.reverse.length < p.length + 1 := by
      rw [List.length_reverse]
      exact Nat.lt_succ_self _
    obtain ⟨z, h, hz, hw, hbounded', hnew, hsame, hall⟩ :=
      Heap.exists_write hnested hbounded hlen hy v.word
    by_cases hrev : p.reverse = p
    · rw [hrev] at hnew hy hsame
      obtain rfl : x = y := Option.some.inj (hx.symm.trans hy)
      rw [ElementSite.assigns_iff_of_write hs hP hbounded hz hw hbounded' hnew,
        and_iff_left hsame]
      constructor
      · exact fun hkept => .inl ⟨hrev, hkept⟩
      · rintro (⟨-, hkept⟩ | ⟨rfl, y, hy', hkept⟩)
        · exact hkept
        · cases hy'
          exact hkept
    · -- the two elements are different, so the one that is read is as it was
      have hother : ¬p.reverse ++ [i] <+: p ++ [i] := fun hpre =>
        hrev (List.append_cancel_right (hpre.eq_of_length (by simp)))
      have hother' : ¬p ++ [i] <+: p.reverse ++ [i] := fun hpre =>
        hrev (List.append_cancel_right (hpre.eq_of_length (by simp))).symm
      have hold := (hsame _ hother).trans hx
      rw [ElementSite.assigns_iff_of_write hs hP hbounded hz hw hbounded' hold]
      constructor
      · rintro ⟨hv, hrest⟩
        have hkept := hrest _ hother'
        rw [hnew, hy, Option.some_inj] at hkept
        exact .inr ⟨hv, y, rfl, hkept⟩
      · rintro (⟨hrev', -⟩ | ⟨hv, y', hy', hkept⟩)
        · exact absurd hrev' hrev
        · cases hy'
          exact ⟨hv, fun q _ => hall hkept q⟩

/-- The generator behind the declaration of a list at address zero. -/
def cubeCode : Generator := { identifiers := [(.text "a", 0)], memory := 4 }

/-- The list has eight integers in two lists of two lists, and a nine is on the stack. -/
def cubeSite : ElementSite where
  list := .text "a"
  address := 0
  reference := ⟨.pointer, 6⟩
  code := Gen.after (generate (.int 9)) cubeCode
  machine :=
    { pc := 1
      stack := [⟨.int, 9⟩]
      memory := { cells := ⟨4, #[6]⟩, tags := #[.pointer] }
      heap := ⟨#[
        ⟨.int, ⟨8, #[7, 0, 0, 0, 8]⟩⟩,
        ⟨.int, ⟨8, #[5, 0, 0, 0, 6]⟩⟩,
        ⟨.pointer, ⟨8, #[1]⟩⟩,
        ⟨.int, ⟨8, #[3, 0, 0, 0, 4]⟩⟩,
        ⟨.int, ⟨8, #[1, 0, 0, 0, 2]⟩⟩,
        ⟨.pointer, ⟨8, #[4, 0, 0, 0, 3]⟩⟩,
        ⟨.pointer, ⟨8, #[5, 0, 0, 0, 2]⟩⟩]⟩ }
  sound := ⟨rfl, fun h => absurd rfl h.2⟩
  here := rfl
  filed := rfl
  held := rfl
  room := by decide

/-- The code of the assignment of nine to the element at 1, 1 and 0, and of the access to it. -/
def cubeAssigned : Generator :=
  Gen.after (generate (cubeSite.nested [1, 1] 0))
    (Gen.after (generate (.assign (.node (cubeSite.nested [1, 1] 0)) (.int 9))) cubeCode)

theorem nested_cubeSite : cubeSite.machine.heap.Nested cubeSite.reference 3 := by
  refine .of_locate (fun n => [[1, 1], [1, 0], [1], [0, 1], [0, 0], [0], []].getD n []) rfl rfl ?_
  exact Heap.forall_element? (by decide)

/-- The indices one and one are the same from both ends. -/
theorem element_assigned_cube : cubeSite.Assigns cubeAssigned.program (.int 9) ⟨.int, 9⟩ cubeCode
    { cubeSite.machine with pc := 0, stack := [] } [1, 1] 0 := by
  have hbehind : cubeSite.Behind cubeAssigned.program (.int 9) ⟨.int, 9⟩ cubeCode
      { cubeSite.machine with pc := 0, stack := [] } :=
    { sound := ⟨rfl, fun h => absurd rfl h.2⟩
      place := rfl
      ends := rfl
      top := rfl
      runs := .single (step_push (w := 9) rfl (by decide)) rfl rfl }
  have hstands : cubeSite.Stands cubeAssigned.program (.int 9) cubeCode [1, 1] 0 := by
    intro g₁ g₂ h₁ h₂
    obtain rfl := h₁.after_eq
    obtain rfl : cubeAssigned = g₂ := h₂.after_eq
    exact .of_whole (by decide) _
  have hbounded : cubeSite.machine.heap.Bounded := fun n b hb =>
    (show ∀ b ∈ cubeSite.machine.heap.blocks, b.size < 2 ^ 32 by decide) b
      (Array.mem_of_getElem? hb)
  exact (element_assigned_iff cubeSite (x := ⟨.int, 7⟩) hbehind hstands hbounded nested_cubeSite
    (by decide)).2 (.inl ⟨rfl, by decide⟩)

/-- With the indices zero and one the assignment goes to another list, and the element has the
    value that it had. -/
theorem element_missed_cube :
    itemAfter "int[][][] a = [[[1], [2]], [[3], [4]]]; a[0][1][0] = 9; int x = a[0][1][0];" 4 =
      some ⟨.int, 2⟩ := by
  decide +kernel

end

end StackLang
