import StackLang.Proofs.Conversion
import StackLang.Proofs.EscapedText
import StackLang.Proofs.ListBlock

/-!
# Lists and texts as they are written

The code of a list puts its items on the stack, the last one first, and builds a block of them.
This module says what the heap holds then. `Heap.content? h d x` reads what an item stands for: a
pointer for the list of what the elements of its block stand for, down to the depth `d`, and any
other item for itself.

* `Gen.Makes`: code that puts items on the stack which stand for given values, and that changes
  nothing but the stack and the heap, where all blocks stay;
* `ListLiteral.makes`: the code of a list or a text does so with one pointer;
* `literal_read_back`: reading from the pointer gives back what was written.
-/

namespace StackLang

open List

/-! ### What items stand for -/

/-- What an item stands for: itself, or a list. -/
inductive Content where
  | item (x : Item)
  | list (vs : List Content)
  deriving Repr, Inhabited

/-- The second heap has all blocks of the first one, and perhaps more behind them. -/
def Heap.Extends (h h' : Heap) : Prop := h.blocks.toList <+: h'.blocks.toList

/-- What an item stands for; lists are followed to a given depth. -/
def Heap.content? (h : Heap) (depth : Nat) (x : Item) : Option Content :=
  if x.tag ≠ .pointer then some (.item x)
  else
    match depth with
    | 0 => none
    | depth + 1 => h.blocks[x.block]?.bind fun b => (b.items.mapM (h.content? depth)).map .list

namespace Heap

variable {h h' h'' : Heap} {b : Block} {x : Item} {v : Content} {vs : List Content} {n d d' : Nat}

namespace Extends

theorem refl (h : Heap) : h.Extends h := prefix_rfl

theorem trans (h₁ : h.Extends h') (h₂ : h'.Extends h'') : h.Extends h'' := List.IsPrefix.trans h₁ h₂

theorem push (h : Heap) (b : Block) : h.Extends ⟨h.blocks.push b⟩ := by
  rw [Extends, Array.toList_push]
  exact prefix_append ..

theorem block (he : h.Extends h') (hb : h.blocks[n]? = some b) : h'.blocks[n]? = some b := by
  obtain ⟨bs, hbs⟩ := he
  rw [← Array.getElem?_toList] at hb ⊢
  rw [← hbs, List.getElem?_append_left (List.getElem?_eq_some_iff.1 hb).1, hb]

end Extends

theorem content?_of_tag (ht : x.tag ≠ .pointer) : h.content? d x = some (.item x) := by
  unfold content?
  rw [if_pos ht]

theorem content?_pointer (ht : x.tag = .pointer) :
    h.content? (d + 1) x = some v ↔ ∃ b vs, h.blocks[x.block]? = some b ∧
      b.items.map (h.content? d) = vs.map some ∧ v = .list vs := by
  rw [content?, if_neg (not_not_intro ht)]
  simp only [Option.bind_eq_some_iff, Option.map_eq_some_iff, mapM_eq_some_iff]
  constructor
  · rintro ⟨b, hb, vs, hvs, rfl⟩
    exact ⟨b, vs, hb, hvs, rfl⟩
  · rintro ⟨b, vs, hb, hvs, rfl⟩
    exact ⟨b, hb, vs, hvs, rfl⟩

/-- What an item stands for does not change when the heap grows, or when lists are followed
    further. -/
theorem content?_mono (he : h.Extends h') (hd : d ≤ d') (hv : h.content? d x = some v) :
    h'.content? d' x = some v := by
  induction d generalizing d' x v with
  | zero =>
    by_cases ht : x.tag = .pointer
    · rw [content?, if_neg (not_not_intro ht)] at hv
      cases hv
    · rw [content?_of_tag ht] at hv ⊢
      exact hv
  | succ d ih =>
    by_cases ht : x.tag = .pointer
    · obtain ⟨d', rfl⟩ := Nat.exists_eq_add_of_le' (show 1 ≤ d' by omega)
      rw [content?_pointer ht] at hv ⊢
      obtain ⟨b, vs, hb, hvs, rfl⟩ := hv
      refine ⟨b, vs, he.block hb, ?_, rfl⟩
      rw [← hvs]
      refine map_congr_left fun y hy => ?_
      obtain ⟨w, hw⟩ : ∃ w, h.content? d y = some w := by
        have hmem := mem_map_of_mem (f := h.content? d) hy
        rw [hvs] at hmem
        obtain ⟨w, -, hw⟩ := mem_map.1 hmem
        exact ⟨w, hw.symm⟩
      rw [hw]
      exact ih (by omega) hw
    · rw [content?_of_tag ht] at hv ⊢
      exact hv

theorem map_content?_mono (he : h.Extends h') (hd : d ≤ d') {xs : List Item}
    (hv : xs.map (h.content? d) = vs.map some) : xs.map (h'.content? d') = vs.map some := by
  rw [← mapM_eq_some_iff] at hv ⊢
  induction xs generalizing vs with
  | nil => exact hv
  | cons x xs ih =>
    simp only [mapM_cons, Option.bind_eq_bind, Option.bind_eq_some_iff, Option.pure_def] at hv ⊢
    obtain ⟨w, hw, ws, hws, hv⟩ := hv
    exact ⟨w, content?_mono he hd hw, ws, ih hws, hv⟩

/-- The newest block stands for the list of what its elements stand for. -/
theorem content?_newest (hn : h.size < 2 ^ 32) (hvs : b.items.map (h.content? d) = vs.map some) :
    (Heap.mk (h.blocks.push b)).content? (d + 1) (.ofBlock h.size) = some (.list vs) := by
  rw [content?_pointer rfl]
  refine ⟨b, vs, ?_, map_content?_mono (.push h b) (Nat.le_refl d) hvs, rfl⟩
  rw [Item.block, Item.ofBlock, toNat_toUInt32 hn]
  exact Array.getElem?_push_size

end Heap

/-! ### Code that makes values -/

/-- The machine with more items on its stack and another heap, come to a place. -/
def Machine.made (m : Machine) (pc : Nat) (xs : List Item) (h : Heap) : Machine :=
  { m with pc, stack := xs ++ m.stack, heap := h }

/-- The code that a step writes puts items of one tag on the stack, if there is room for them.
    Nothing changes but the stack above and the heap, where the blocks stay. As long as the numbers
    of blocks fit into words, the items stand for the values. -/
def Gen.Makes (a : Gen Unit) (t : Tag) (room blocks depth : Nat) (vs : List Content) : Prop :=
  ∀ g : Generator, g.Sound → ∃ g', Gen.Ends a g () g' ∧ g'.Sound ∧ Keeps 0 g.length g g' ∧
    ∀ (P : Program) (m : Machine), P.Carries g' g.length → m.pc = g.length →
      m.stack.length + room ≤ stackLimit →
      ∃ xs h, m.Runs P g'.length (m.made g'.length xs h) ∧ m.heap.Extends h ∧
        h.size = m.heap.size + blocks ∧ xs.length = vs.length ∧
        (∀ x ∈ xs, x.tag = t ∧ x.kept = x) ∧
        (h.size ≤ 2 ^ 32 → xs.map (h.content? depth) = vs.map some)

namespace Gen.Makes

open Machine

variable {a b : Gen Unit} {t : Tag} {room room' blocks blocks' depth depth' : Nat} {v : Content}
  {vs : List Content}

theorem nil (t : Tag) : Makes (pure ()) t 0 0 0 [] := by
  intro g hg
  refine ⟨g, ends_pure.2 ⟨rfl, rfl⟩, hg, .refl _ _ _, fun P m _ hpc _ => ?_⟩
  have hm : m.made m.pc [] m.heap = m := rfl
  rw [← hpc]
  exact ⟨[], m.heap, hm.symm ▸ .refl P m, .refl _, rfl, rfl, forall_mem_nil _, fun _ => rfl⟩

/-- Lists can be followed further than they go. -/
theorem mono (h : Makes a t room blocks depth vs) (hd : depth ≤ depth') :
    Makes a t room blocks depth' vs := by
  intro g hg
  obtain ⟨g', he, hg', hk, hrun⟩ := h g hg
  refine ⟨g', he, hg', hk, fun P m hP hpc hroom => ?_⟩
  obtain ⟨xs, heap, hr, hext, hsize, hlen, hxs, hvs⟩ := hrun P m hP hpc hroom
  exact ⟨xs, heap, hr, hext, hsize, hlen, hxs, fun h => Heap.map_content?_mono (.refl _) hd (hvs h)⟩

/-- An instruction that pushes its argument. -/
theorem push {c : Nat} {n : Int} (hop : Operation.ofCode? c.toUInt8.toNat = some (.push t))
    (ht : t ≠ .pointer) (hkept : (Item.mk t (intWord n)).kept = ⟨t, intWord n⟩) :
    Makes (emitInt c n) t 1 0 0 [.item ⟨t, intWord n⟩] := by
  intro g hg
  refine ⟨_, ends_emitInt.2 rfl, hg.push _, .push hg _ (Nat.le_refl _), fun P m hP hpc hroom => ?_⟩
  obtain ⟨w, hw, hi⟩ := hP.last hg (Nat.le_refl _)
  obtain rfl := Site.word_of_int hw
  rw [← hpc] at hi
  have hpush : m.Pushes P ⟨t, intWord n⟩ := pushes_of_push hi hop
  refine ⟨[⟨t, intWord n⟩], m.heap, ?_, .refl _, rfl, rfl,
    forall_mem_singleton.2 ⟨rfl, hkept⟩, fun _ => ?_⟩
  · rw [Generator.push_length, ← hpc]
    exact hpush.runs hroom
  · rw [map_singleton, Heap.content?_of_tag ht]
    rfl

/-- One more item above the others. -/
theorem cons (ha : Makes a t room blocks depth vs) (hb : Makes b t room' blocks' depth [v]) :
    Makes (a >>= fun _ => b) t (max room (vs.length + room')) (blocks + blocks') depth
      (v :: vs) := by
  intro g hg
  obtain ⟨g₁, he₁, hg₁, hk₁, hrun₁⟩ := ha g hg
  obtain ⟨g₂, he₂, hg₂, hk₂, hrun₂⟩ := hb g₁ hg₁
  have hle₁ := hk₁.length_le
  have hle₂ := hk₂.length_le
  refine ⟨g₂, ends_bind.2 ⟨(), g₁, he₁, he₂⟩, hg₂,
    hk₁.trans (hk₂.mono (Nat.le_refl _) hle₁) (Nat.le_refl _), fun P m hP hpc hroom => ?_⟩
  obtain ⟨xs, h₁, hr₁, hext₁, hsize₁, hlen₁, hxs, hvs⟩ :=
    hrun₁ P m (hP.of_keeps hg₁ hk₂) hpc (by omega)
  obtain ⟨ys, h₂, hr₂, hext₂, hsize₂, hlen₂, hys, hv⟩ := hrun₂ P (m.made g₁.length xs h₁)
    (hP.mono hle₁) rfl (by simp only [made, length_append]; omega)
  have hsize : h₂.size = m.heap.size + (blocks + blocks') := by
    rw [hsize₂, made, hsize₁, Nat.add_assoc]
  refine ⟨ys ++ xs, h₂, ?_, hext₁.trans hext₂, hsize, ?_, forall_mem_append.2 ⟨hys, hxs⟩,
    fun hle => ?_⟩
  · have hall := hr₁.trans hr₂ (hpc ▸ hle₁) hle₂
    simpa only [made, append_assoc] using hall
  · rw [length_append, hlen₁, hlen₂, length_singleton, length_cons, Nat.add_comm]
  · rw [map_append, hv hle, Heap.map_content?_mono hext₂ (Nat.le_refl _) (hvs (by omega))]
    rfl

/-- The items of a list, and the block that is built of them. -/
theorem build (ha : Makes a t room blocks depth vs) (hle : vs.length ≤ room) :
    Makes (a >>= fun _ => emitInt Op.buildList vs.length) .pointer (max room 1) (blocks + 1)
      (depth + 1) [.list vs] := by
  intro g hg
  obtain ⟨g₁, he₁, hg₁, hk₁, hrun₁⟩ := ha g hg
  have hle₁ := hk₁.length_le
  have hk₂ : Keeps 0 g₁.length g₁ (g₁.push (.instruction Op.buildList (.int vs.length))) :=
    .push hg₁ _ (Nat.le_refl _)
  refine ⟨_, ends_bind.2 ⟨(), g₁, he₁, ends_emitInt.2 rfl⟩, hg₁.push _,
    hk₁.trans (hk₂.mono (Nat.le_refl _) hle₁) (Nat.le_refl _), fun P m hP hpc hroom => ?_⟩
  obtain ⟨xs, h₁, hr₁, hext₁, hsize₁, hlen, hxs, hvs⟩ :=
    hrun₁ P m (hP.of_keeps hg₁ hk₂) hpc (by omega)
  obtain ⟨w, hw, hi⟩ := hP.last hg₁ hle₁
  have hwn : w.toNat = xs.length := by
    have := eq_toNat_of_word (Int.natCast_nonneg _) hw
    omega
  obtain ⟨b, hitems, hbuild⟩ : ∃ b : Block, b.items = xs ∧
      Act.buildList xs.length { m.made g₁.length xs h₁ with pc := g₁.length + 1 } =
        (.ok (), m.made (g₁.length + 1) [.ofBlock h₁.size] ⟨h₁.blocks.push b⟩) := by
    cases xs with
    | nil => exact ⟨{}, Block.items_empty _, Act.run_buildList_zero (by simp [made]; omega)⟩
    | cons x xs =>
      obtain ⟨b, -, hitems, hbuild⟩ := Act.run_buildList (t := t)
        (m := { m.made g₁.length (x :: xs) h₁ with pc := g₁.length + 1 }) rfl (by simp) hxs
        (by simp only [made, length_append]; omega)
      exact ⟨b, hitems, hbuild⟩
  have hstep : (m.made g₁.length xs h₁).step P = some (.next
      (m.made (g₁.length + 1) [.ofBlock h₁.size] ⟨h₁.blocks.push b⟩)) := by
    refine step_of_perform hi (show _ = some Operation.buildList from rfl) ?_
    rw [Act.perform, hwn]
    exact hbuild
  have hsize : (Heap.mk (h₁.blocks.push b)).size = m.heap.size + (blocks + 1) := by
    rw [Heap.size, Array.size_push, ← Nat.add_assoc, ← hsize₁]
  refine ⟨[.ofBlock h₁.size], ⟨h₁.blocks.push b⟩,
    hr₁.trans (.single hstep rfl rfl) (hpc ▸ hle₁) (Nat.le_succ _), hext₁.trans (.push _ _), hsize,
    rfl, forall_mem_singleton.2 ⟨rfl, rfl⟩, fun hnumbers => ?_⟩
  have hlt : h₁.size < 2 ^ 32 := by omega
  rw [map_singleton, Heap.content?_newest hlt (by rw [hitems]; exact hvs (by omega))]
  rfl

end Gen.Makes

/-! ### Lists and texts -/

/-- A text of single-byte characters without escapes. -/
abbrev PlainText := { s : String // ∀ c ∈ s.toList, c ≠ '\\' ∧ c.toNat < 256 }

/-- A text, a list of integers, or a list of lists and texts. -/
inductive ListLiteral where
  | text (s : PlainText)
  | ints (ws : List UInt32)
  | lists (ls : List ListLiteral)

namespace ListLiteral

open Gen

mutual

/-- The node of a literal; a list has a kind besides its items. -/
def node (kind : ListLiteral → String) : ListLiteral → Node
  | text s => .literal "STRING_LITERAL" (.text s.1)
  | ints ws => .listLiteral (kind (ints ws)) (ws.map fun w => .literal "INT_LITERAL" (.int (wordInt w)))
  | lists ls => .listLiteral (kind (lists ls)) (nodes kind ls)

/-- The nodes of literals. -/
def nodes (kind : ListLiteral → String) : List ListLiteral → List Node
  | [] => []
  | l :: ls => node kind l :: nodes kind ls

end

mutual

/-- What a literal stands for. -/
def content : ListLiteral → Content
  | text s => .list (s.1.toList.map fun c => .item ⟨.char, c.toNat.toUInt32⟩)
  | ints ws => .list (ws.map fun w => .item ⟨.int, w⟩)
  | lists ls => .list (contents ls)

/-- What literals stand for. -/
def contents : List ListLiteral → List Content
  | [] => []
  | l :: ls => content l :: contents ls

end

mutual

/-- How many places of the stack the code of a literal takes: the first items of a list are
    computed while the others wait. -/
def room : ListLiteral → Nat
  | text s => max s.1.toList.length 1
  | ints ws => max ws.length 1
  | lists ls => max (roomAll ls) 1

/-- How many places the code of the items of a list takes. -/
def roomAll : List ListLiteral → Nat
  | [] => 0
  | l :: ls => max (roomAll ls) (ls.length + room l)

end

mutual

/-- How many blocks a literal takes. -/
def blocks : ListLiteral → Nat
  | text _ | ints _ => 1
  | lists ls => blocksAll ls + 1

/-- How many blocks the items of a list take. -/
def blocksAll : List ListLiteral → Nat
  | [] => 0
  | l :: ls => blocksAll ls + blocks l

end

mutual

/-- How deep the lists of a literal lie in each other. -/
def depth : ListLiteral → Nat
  | text _ | ints _ => 1
  | lists ls => depthAll ls + 1

/-- How deep the lists of the items of a list lie in each other. -/
def depthAll : List ListLiteral → Nat
  | [] => 0
  | l :: ls => max (depthAll ls) (depth l)

end

theorem length_nodes (kind : ListLiteral → String) (ls : List ListLiteral) :
    (nodes kind ls).length = ls.length := by
  induction ls with
  | nil => rfl
  | cons l ls ih => rw [nodes, length_cons, ih, length_cons]

theorem length_contents (ls : List ListLiteral) : (contents ls).length = ls.length := by
  induction ls with
  | nil => rfl
  | cons l ls ih => rw [contents, length_cons, ih, length_cons]

theorem room_pos (l : ListLiteral) : 0 < l.room := by
  cases l with
  | text s | ints ws | lists ls => exact Nat.lt_of_lt_of_le Nat.one_pos (Nat.le_max_right _ _)

theorem length_le_roomAll (ls : List ListLiteral) : ls.length ≤ roomAll ls := by
  cases ls with
  | nil => exact Nat.le_refl _
  | cons l ls =>
    have := room_pos l
    rw [roomAll, length_cons]
    omega

/-- What holds of a list of literals if it holds of them holds of every literal. -/
theorem induct {p : ListLiteral → Prop} (text : ∀ s, p (text s)) (ints : ∀ ws, p (ints ws))
    (lists : ∀ ls, (∀ l ∈ ls, p l) → p (lists ls)) (l : ListLiteral) : p l := by
  cases l with
  | text s => exact text s
  | ints ws => exact ints ws
  | lists ls => exact lists ls fun l _ => induct text ints lists l
termination_by sizeOf l
decreasing_by
  have := sizeOf_lt_of_mem ‹_›
  simp
  omega

/-! ### What is generated -/

theorem stringChars_eq (s : PlainText) : stringChars s.1 = s.1.toList :=
  unescaped_eq_self fun c hc => (s.2 c hc).1

theorem generate_text (s : PlainText) : generate (.literal "STRING_LITERAL" (.text s.1)) =
    (s.1.toList.reverse.forM fun c => emitInt Op.storeChar c.toNat) >>= fun _ =>
      emitInt Op.buildList s.1.toList.length := by
  rw [generate]
  unfold literalCode
  dsimp only
  rw [stringChars_eq]
  rfl

/-- The characters of a text, the last one first. -/
theorem makes_chars {cs : List Char} (hcs : ∀ c ∈ cs, c.toNat < 256) :
    Makes (cs.reverse.forM fun c => emitInt Op.storeChar c.toNat) .char cs.length 0 0
      (cs.map fun c => .item ⟨.char, c.toNat.toUInt32⟩) := by
  induction cs with
  | nil => exact .nil _
  | cons c cs ih =>
    rw [forall_mem_cons] at hcs
    have hword : intWord c.toNat = c.toNat.toUInt32 := by
      rw [intWord]
      congr 1
      omega
    have hkept : (Item.mk .char (intWord c.toNat)).kept = ⟨.char, intWord c.toNat⟩ := by
      have hmod : intWord c.toNat % 256 = intWord c.toNat := by
        apply UInt32.toNat_inj.1
        rw [hword, UInt32.toNat_mod, toNat_toUInt32 (by omega)]
        exact Nat.mod_eq_of_lt hcs.1
      exact congrArg (Item.mk .char) hmod
    have h := (ih hcs.2).cons (.push (c := Op.storeChar) rfl (by decide) hkept)
    rw [hword] at h
    simpa [forM_append] using h

/-- Integers, the last one first. -/
theorem makes_ints (ws : List UInt32) :
    Makes (generateReversed (ws.map fun w => .literal "INT_LITERAL" (.int (wordInt w)))) .int
      ws.length 0 0 (ws.map fun w => .item ⟨.int, w⟩) := by
  induction ws with
  | nil => exact .nil _
  | cons w ws ih =>
    have h := ih.cons (.push (c := Op.store) (n := wordInt w) rfl (by decide) rfl)
    rw [intWord_wordInt, length_map, Nat.max_eq_right (Nat.le_succ _)] at h
    exact h

variable {kind : ListLiteral → String}

/-- Lists and texts, the last one first. -/
theorem makes_nodes {ls : List ListLiteral} (h : ∀ l ∈ ls,
    Makes (generate (l.node kind)) .pointer l.room l.blocks l.depth [l.content]) :
    Makes (generateReversed (nodes kind ls)) .pointer (roomAll ls) (blocksAll ls) (depthAll ls)
      (contents ls) := by
  induction ls with
  | nil => exact .nil _
  | cons l ls ih =>
    rw [forall_mem_cons] at h
    have hall := (ih h.2).mono (Nat.le_max_left (depthAll ls) l.depth)
    have hone := h.1.mono (Nat.le_max_right (depthAll ls) l.depth)
    have := hall.cons hone
    rwa [length_contents] at this

/-- The code of a literal leaves one pointer, which stands for what was written. -/
theorem makes (hkind : ∀ l, holds "[]" (kind l)) (l : ListLiteral) :
    Makes (generate (l.node kind)) .pointer l.room l.blocks l.depth [l.content] := by
  induction l using induct with
  | text s =>
    have h := (makes_chars fun c hc => (s.2 c hc).2).build (by simp)
    rw [length_map, ← generate_text] at h
    exact h
  | ints ws =>
    have h := (makes_ints ws).build (by simp)
    rw [node, generate_list (hkind _), length_map]
    rwa [length_map] at h
  | lists ls ih =>
    have h := (makes_nodes ih).build (by rw [length_contents]; exact length_le_roomAll ls)
    rw [node, generate_list (hkind _), length_nodes]
    rwa [length_contents] at h

end ListLiteral

open Gen in
/-- The code of a list or a text, run where the stack has room, pushes one pointer and changes
    nothing else but the heap, where all blocks stay. What the pointer stands for in that heap is
    what was written, as long as the numbers of blocks fit into words. -/
theorem literal_read_back (l : ListLiteral) (kind : ListLiteral → String)
    (hkind : ∀ l, holds "[]" (kind l)) {g : Generator} (hg : g.Sound) :
    ∃ g', Ends (generate (l.node kind)) g () g' ∧
      ∀ (P : Program) (m : Machine), P.Carries g' g.length → m.pc = g.length →
        m.stack.length + l.room ≤ stackLimit →
        ∃ x h, x.tag = .pointer ∧
          m.Runs P g'.length { m with pc := g'.length, stack := x :: m.stack, heap := h } ∧
          m.heap.Extends h ∧ h.size = m.heap.size + l.blocks ∧
          (h.size ≤ 2 ^ 32 → ∀ d, l.depth ≤ d → h.content? d x = some l.content) := by
  obtain ⟨g', he, -, -, hrun⟩ := l.makes hkind g hg
  refine ⟨g', he, fun P m hP hpc hroom => ?_⟩
  obtain ⟨xs, h, hr, hext, hsize, hlen, hxs, hvs⟩ := hrun P m hP hpc hroom
  obtain ⟨x, rfl⟩ : ∃ x, xs = [x] := List.length_eq_one_iff.1 hlen
  refine ⟨x, h, (hxs x List.mem_cons_self).1, hr, hext, hsize, fun hnumbers d hd => ?_⟩
  have hv : h.content? l.depth x = some l.content := by simpa using hvs hnumbers
  exact Heap.content?_mono (.refl h) hd hv

/-- The list `[[], ["ab", ""]]`. -/
def textTable : ListLiteral :=
  .lists [.lists [], .lists [.text ⟨"ab", by simp⟩, .text ⟨"", by simp⟩]]

/-- The code of the list. -/
def textTableCode : Generator := Gen.after (Gen.generate (textTable.node fun _ => "[]")) {}

/-- The code of the list leaves a pointer that stands for it. -/
theorem literal_read_back_textTable : ∃ x h, x.tag = .pointer ∧
    Machine.Runs textTableCode.program {} 7 { pc := 7, stack := [x], heap := h } ∧
    h.size = 5 ∧ h.content? 3 x = some (.list [.list [], .list
      [.list [.item ⟨.char, 97⟩, .item ⟨.char, 98⟩], .list []]]) := by
  obtain ⟨g', he, hrun⟩ := literal_read_back textTable (fun _ => "[]") (fun _ => rfl) .initial
  obtain rfl : textTableCode = g' := he.after_eq
  obtain ⟨x, h, hx, hr, -, hsize, hv⟩ := hrun textTableCode.program {}
    (.of_whole (by decide +kernel) _) rfl (by decide)
  have hsize : h.size = 5 := hsize
  exact ⟨x, h, hx, hr, hsize, hv (by omega) 3 (by decide)⟩

end StackLang
