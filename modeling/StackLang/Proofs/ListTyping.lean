import StackLang.Proofs.Keeping

/-!
# Types of list literals

The type of a list literal is the type of its last item with a pair of brackets,
if each item has the type of the one before it. An item that follows an empty
list may have any type, but an empty list may not follow an item of another type.

* `itemTypes_cons_eq_ok_iff`: one item after another;
* `type_of_itemTypes`: where items are accepted, each has the common type or that
  of an empty list;
* `listType_exact`: without empty lists, a literal has a type exactly if its leaves
  agree in type and depth, and else the fault tells two types that do not;
* `listType_order_iff`: the order of the items does not matter exactly if there are
  no empty lists among items of one other type.
-/

namespace StackLang

open List Scope

namespace Scope

variable {s : Scope} {before t u : Atom} {x : Node} {xs ys : List Node}

/-! ### Items -/

/-- An item of the type `t` can follow one of the type `before`. -/
def Admits (before t : Atom) : Prop := before = .nothing ∨ before = .text "[]" ∨ before = t

instance : Decidable (Admits before t) := by
  unfold Admits
  infer_instance

theorem itemTypes_nil : s.itemTypes before [] = .ok before := by
  rw [itemTypes]

theorem itemTypes_cons_error {f : Fault} (hx : s.itemType x = .error f) :
    s.itemTypes before (x :: xs) = .error f := by
  rw [itemTypes, hx]
  rfl

theorem itemTypes_cons (hx : s.itemType x = .ok t) : s.itemTypes before (x :: xs) =
    if Admits before t then s.itemTypes t xs else s.fail (.element t before) := by
  rw [itemTypes, hx]
  change (if _ then _ else _) = _
  by_cases hempty : before = .text "[]"
  · simp [Admits, hempty]
  · by_cases hn : before = .nothing <;> by_cases ht : before = t <;> simp [Admits, hempty, hn, ht]

theorem itemTypes_cons_eq_ok_iff : s.itemTypes before (x :: xs) = .ok u ↔
    ∃ t, s.itemType x = .ok t ∧ Admits before t ∧ s.itemTypes t xs = .ok u := by
  constructor
  · intro h
    cases hx : s.itemType x with
    | error f =>
      rw [itemTypes_cons_error hx] at h
      cases h
    | ok t =>
      rw [itemTypes_cons hx] at h
      split at h
      · exact ⟨t, rfl, ‹_›, h⟩
      · cases h
  · rintro ⟨t, hx, hadm, h⟩
    rw [itemTypes_cons hx, if_pos hadm, h]

/-- Items of one type are accepted with that type. -/
theorem itemTypes_of_same (hxs : ∀ x ∈ xs, s.itemType x = .ok t) (hadm : Admits before t)
    (hne : xs ≠ [] ∨ before = t) : s.itemTypes before xs = .ok t := by
  induction xs generalizing before with
  | nil =>
    obtain rfl := hne.resolve_left (· rfl)
    exact itemTypes_nil
  | cons x xs ih =>
    obtain ⟨hx, hxs⟩ := forall_mem_cons.1 hxs
    exact itemTypes_cons_eq_ok_iff.2 ⟨t, hx, hadm, ih hxs (.inr (.inr rfl)) (.inr rfl)⟩

/-- A type other than that of an empty list stays the type of all items that follow. -/
theorem same_of_itemTypes (hn : before ≠ .nothing) (hempty : before ≠ .text "[]")
    (h : s.itemTypes before xs = .ok u) : u = before ∧ ∀ x ∈ xs, s.itemType x = .ok u := by
  induction xs generalizing before with
  | nil =>
    rw [itemTypes_nil] at h
    cases h
    exact ⟨rfl, forall_mem_nil _⟩
  | cons x xs ih =>
    obtain ⟨t, hx, hadm, h⟩ := itemTypes_cons_eq_ok_iff.1 h
    obtain rfl := (hadm.resolve_left hn).resolve_left hempty
    obtain ⟨rfl, hxs⟩ := ih hn hempty h
    exact ⟨rfl, forall_mem_cons.2 ⟨hx, hxs⟩⟩

/-- Items that are accepted have the common type, the last one at least, or that of an empty list. -/
theorem type_of_itemTypes (htyped : ∀ x ∈ xs, s.itemType x ≠ .ok .nothing)
    (h : s.itemTypes before xs = .ok u) :
    (∀ x ∈ xs, s.itemType x = .ok (.text "[]") ∨ s.itemType x = .ok u) ∧
      (xs ≠ [] → ∃ x ∈ xs, s.itemType x = .ok u) := by
  induction xs generalizing before with
  | nil => exact ⟨forall_mem_nil _, (absurd rfl ·)⟩
  | cons x xs ih =>
    obtain ⟨t, hx, -, h⟩ := itemTypes_cons_eq_ok_iff.1 h
    obtain ⟨hne, htyped⟩ := forall_mem_cons.1 htyped
    -- behind an empty list the others decide, and any other item decides for them
    by_cases hempty : t = .text "[]"
    · subst hempty
      obtain ⟨hxs, hlast⟩ := ih htyped h
      refine ⟨forall_mem_cons.2 ⟨.inl hx, hxs⟩, fun _ => ?_⟩
      cases xs with
      | nil =>
        rw [itemTypes_nil] at h
        cases h
        exact ⟨x, mem_cons_self, hx⟩
      | cons y ys =>
        obtain ⟨z, hz, hu⟩ := hlast (cons_ne_nil _ _)
        exact ⟨z, mem_cons_of_mem _ hz, hu⟩
    · obtain ⟨rfl, hxs⟩ := same_of_itemTypes (by rintro rfl; exact hne hx) hempty h
      exact ⟨forall_mem_cons.2 ⟨.inr hx, fun y hy => .inr (hxs y hy)⟩,
        fun _ => ⟨x, mem_cons_self, hx⟩⟩

/-- The fault of a list with items of two types. -/
def Mismatch (s : Scope) (r : Except Fault Atom) : Prop :=
  ∃ given expected, given ≠ expected ∧ r = s.fail (.element given expected)

/-- If nothing else is wrong with the items, nothing else is wrong with the list. -/
theorem itemTypes_ok_or_mismatch (h : ∀ x ∈ xs, (∃ t, s.itemType x = .ok t) ∨ s.Mismatch (s.itemType x))
    (before : Atom) :
    (∃ u, s.itemTypes before xs = .ok u) ∧ (∀ x ∈ xs, ∃ t, s.itemType x = .ok t) ∨
      s.Mismatch (s.itemTypes before xs) := by
  induction xs generalizing before with
  | nil => exact .inl ⟨⟨before, itemTypes_nil⟩, forall_mem_nil _⟩
  | cons x xs ih =>
    obtain ⟨⟨t, hx⟩ | ⟨given, expected, hne, hx⟩, hxs⟩ := forall_mem_cons.1 h
    · rw [itemTypes_cons hx]
      by_cases hadm : Admits before t
      · rw [if_pos hadm]
        exact (ih hxs t).imp_left fun hok => ⟨hok.1, forall_mem_cons.2 ⟨⟨t, hx⟩, hok.2⟩⟩
      · exact .inr ⟨t, before, fun ht => hadm (.inr (.inr ht.symm)), if_neg hadm⟩
    · exact .inr ⟨given, expected, hne, itemTypes_cons_error hx⟩

theorem listType_eq_itemType (kind : String) (xs : List Node) :
    s.listType xs = s.itemType (.listLiteral kind xs) := by
  cases xs <;> rw [itemType] <;> rfl

theorem listType_eq_ok_iff (hne : xs ≠ []) : s.listType xs = .ok u ↔
    ∃ t, s.itemTypes .nothing xs = .ok t ∧ u = .text (t.shown ++ "[]") := by
  obtain ⟨x, xs, rfl⟩ := exists_cons_of_ne_nil hne
  rw [listType]
  constructor
  · intro h
    obtain ⟨t, ht, h⟩ := ok_of_bind h
    exact ⟨t, ht, (Except.ok.inj h).symm⟩
  · rintro ⟨t, ht, rfl⟩
    rw [ht]
    rfl

/-- A mismatch of items is one of their list. -/
theorem listType_of_fail {f : TypingCause} (hne : xs ≠ []) (h : s.itemTypes .nothing xs = s.fail f) :
    s.listType xs = s.fail f := by
  obtain ⟨x, xs, rfl⟩ := exists_cons_of_ne_nil hne
  rw [listType, h]
  rfl

end Scope

/-! ### Leaves -/

/-- The kinds of literals that are no lists. -/
def literalKinds : List String :=
  ["INT_LITERAL", "FLOAT_LITERAL", "STRING_LITERAL", "BOOL_LITERAL", "BYTE_LITERAL"]

/-- A literal, or a list of such that is not empty. -/
inductive Nested : Node → Prop
  | literal {kind : String} (value : Atom) : kind ∈ literalKinds → Nested (.literal kind value)
  | list (kind : String) {items : List Node} : items ≠ [] → (∀ x ∈ items, Nested x) →
      Nested (.listLiteral kind items)

mutual

/-- The types of the literals in a list literal, each with the number of lists around it. -/
def Node.leaves : Node → List (String × Nat)
  | .literal kind _ => [(literalType kind, 0)]
  | .listLiteral _ items => (leavesAll items).map fun p => (p.1, p.2 + 1)
  | _ => []

/-- The leaves of items. -/
def leavesAll : List Node → List (String × Nat)
  | [] => []
  | x :: xs => x.leaves ++ leavesAll xs

end

/-- The name of a type with pairs of brackets behind it. -/
def listName (type : String) : (depth : Nat) → String
  | 0 => type
  | d + 1 => listName type d ++ "[]"

theorem mem_leavesAll {p : String × Nat} {xs : List Node} :
    p ∈ leavesAll xs ↔ ∃ x ∈ xs, p ∈ x.leaves := by
  induction xs with
  | nil => simp [leavesAll]
  | cons x xs ih => simp [leavesAll, ih]

/-- The leaves of a list are those of its items, one list further in. -/
theorem forall_leaves_iff {kind : String} {xs : List Node} {P : String × Nat → Prop} :
    (∀ p ∈ (Node.listLiteral kind xs).leaves, P p) ↔ ∀ x ∈ xs, ∀ p ∈ x.leaves, P (p.1, p.2 + 1) := by
  simp only [Node.leaves, mem_map, mem_leavesAll]
  constructor
  · intro h x hx p hp
    exact h _ ⟨p, ⟨x, hx, hp⟩, rfl⟩
  · rintro h _ ⟨p, ⟨x, hx, hp⟩, rfl⟩
    exact h x hx p hp

theorem listName_inj {t u : String} (ht : '[' ∉ t.toList) (hu : '[' ∉ u.toList) {d e : Nat}
    (h : listName t d = listName u e) : t = u ∧ d = e := by
  induction d generalizing e with
  | zero =>
    cases e with
    | zero => exact ⟨h, rfl⟩
    | succ e =>
      rw [listName] at h
      exact absurd (by simp [h, listName]) ht
  | succ d ih =>
    cases e with
    | zero => exact absurd (by rw [← show _ = u from h]; simp [listName]) hu
    | succ e =>
      obtain ⟨rfl, rfl⟩ := ih (String.append_left_inj _ |>.1 h)
      exact ⟨rfl, rfl⟩

theorem literalKinds_type : ∀ kind ∈ literalKinds,
    kind ≠ "VARIABLE" ∧ literalType kind ≠ "" ∧ '[' ∉ (literalType kind).toList := by
  decide

/-- The node has the type that its leaves, which agree, tell. -/
structure Agreeing (s : Scope) (x : Node) (type : String) (depth : Nat) : Prop where
  named : type ≠ "" ∧ '[' ∉ type.toList
  typed : s.itemType x = .ok (.text (listName type depth))
  leaf : (type, depth) ∈ x.leaves
  leaves : ∀ p ∈ x.leaves, p = (type, depth)

section

variable {s : Scope} {kind type : String} {depth : Nat} {items : List Node}

/-- A list of items that agree with each other. -/
theorem Agreeing.list (hne : items ≠ []) (h : ∀ x ∈ items, Agreeing s x type depth) :
    Agreeing s (.listLiteral kind items) type (depth + 1) := by
  obtain ⟨x, hx⟩ := exists_mem_of_ne_nil items hne
  have htypes : s.itemTypes .nothing items = .ok (.text (listName type depth)) :=
    itemTypes_of_same (fun y hy => (h y hy).typed) (.inl rfl) (.inl hne)
  refine ⟨(h x hx).named, ?_, ?_, forall_leaves_iff.2 fun y hy p hp => ?_⟩
  · rw [← listType_eq_itemType]
    exact (listType_eq_ok_iff hne).2 ⟨_, htypes, rfl⟩
  · exact mem_map.2 ⟨_, mem_leavesAll.2 ⟨x, hx, (h x hx).leaf⟩, rfl⟩
  · rw [(h y hy).leaves p hp]

/-- The brackets of an empty list have no name in front of them. -/
theorem Agreeing.ne_empty {x : Node} (h : Agreeing s x type depth) : listName type depth ≠ "[]" :=
  fun hempty => h.named.1 (listName_inj (e := 1) h.named.2 (u := "") (by simp) hempty).1

/-- Items of one type agree with each other. -/
theorem agreeing_of_itemTypes (hne : items ≠ []) {u : Atom}
    (h : ∀ x ∈ items, ∃ type depth, Agreeing s x type depth)
    (hu : s.itemTypes .nothing items = .ok u) :
    ∃ type depth, ∀ x ∈ items, Agreeing s x type depth := by
  obtain ⟨x, xs, rfl⟩ := exists_cons_of_ne_nil hne
  obtain ⟨⟨type, depth, hagree⟩, h⟩ := forall_mem_cons.1 h
  obtain ⟨t, hx, -, hu⟩ := itemTypes_cons_eq_ok_iff.1 hu
  obtain rfl := Except.ok.inj (hagree.typed.symm.trans hx)
  obtain ⟨rfl, hxs⟩ := same_of_itemTypes (by simp) (by simp [hagree.ne_empty]) hu
  refine ⟨type, depth, forall_mem_cons.2 ⟨hagree, fun y hy => ?_⟩⟩
  obtain ⟨type', depth', hagree'⟩ := h y hy
  have hname := Atom.text.inj (Except.ok.inj ((hxs y hy).symm.trans hagree'.typed))
  obtain ⟨rfl, rfl⟩ := listName_inj hagree.named.2 hagree'.named.2 hname
  exact hagree'

/-- A node has the type that its leaves tell, or they do not agree. -/
theorem agreeing_or_mismatch (s : Scope) {x : Node} (h : Nested x) :
    (∃ type depth, Agreeing s x type depth) ∨
      s.Mismatch (s.itemType x) ∧ ¬∃ q, ∀ p ∈ x.leaves, p = q := by
  induction h with
  | @literal kind value hkind =>
    obtain ⟨hvar, hname⟩ := literalKinds_type kind hkind
    refine .inl ⟨_, 0, hname, ?_, by simp [Node.leaves], by simp [Node.leaves]⟩
    rw [itemType, typeOf, if_neg hvar]
    rfl
  | @list kind items hne _ ih =>
    have hitems : ∀ x ∈ items, (∃ t, s.itemType x = .ok t) ∨ s.Mismatch (s.itemType x) := by
      intro x hx
      rcases ih x hx with ⟨type, depth, hagree⟩ | ⟨hmismatch, -⟩
      · exact .inl ⟨_, hagree.typed⟩
      · exact .inr hmismatch
    rcases itemTypes_ok_or_mismatch hitems .nothing with ⟨⟨u, hu⟩, htyped⟩ | hmismatch
    · have hall : ∀ x ∈ items, ∃ type depth, Agreeing s x type depth := by
        intro x hx
        rcases ih x hx with hagree | ⟨⟨_, _, -, hfail⟩, -⟩
        · exact hagree
        · obtain ⟨t, ht⟩ := htyped x hx
          rw [hfail] at ht
          cases ht
      obtain ⟨type, depth, hagree⟩ := agreeing_of_itemTypes hne hall hu
      exact .inl ⟨type, depth + 1, .list hne hagree⟩
    · obtain ⟨given, expected, hdiffer, hmismatch⟩ := hmismatch
      have hfail : s.itemType (.listLiteral kind items) = s.fail (.element given expected) := by
        rw [← listType_eq_itemType]
        exact listType_of_fail hne hmismatch
      refine .inr ⟨⟨given, expected, hdiffer, hfail⟩, ?_⟩
      -- if the leaves of all items agreed, the list would have a type
      rintro ⟨q, hq⟩
      rw [forall_leaves_iff] at hq
      have hagree : ∀ x ∈ items, Agreeing s x q.1 (q.2 - 1) := by
        intro x hx
        rcases ih x hx with ⟨type, depth, hagree⟩ | ⟨-, hnone⟩
        · obtain rfl := hq x hx _ hagree.leaf
          exact hagree
        · exact absurd ⟨(q.1, q.2 - 1), fun p hp => by rw [← hq x hx p hp]; rfl⟩ hnone
      rw [(Agreeing.list hne hagree).typed] at hfail
      cases hfail

end

/-- A list literal without empty lists has the type of its leaves with as many pairs of brackets as there
    are lists around them, if they agree in both, and is a mismatch of types if they do not. -/
theorem listType_exact (s : Scope) {kind : String} {items : List Node}
    (h : Nested (.listLiteral kind items)) :
    (∀ type depth, (∀ p ∈ (Node.listLiteral kind items).leaves, p = (type, depth)) →
      s.listType items = .ok (.text (listName type depth))) ∧
    ((¬∃ type depth, ∀ p ∈ (Node.listLiteral kind items).leaves, p = (type, depth)) →
      ∃ given expected, given ≠ expected ∧ s.listType items = s.fail (.element given expected)) := by
  rw [Scope.listType_eq_itemType kind]
  rcases agreeing_or_mismatch s h with ⟨type, depth, hagree⟩ | ⟨hmismatch, hnone⟩
  · refine ⟨fun type' depth' hleaves => ?_, fun hnone => absurd ⟨type, depth, hagree.leaves⟩ hnone⟩
    cases hleaves _ hagree.leaf
    exact hagree.typed
  · exact ⟨fun type depth hleaves => absurd ⟨(type, depth), hleaves⟩ hnone, fun _ => hmismatch⟩

/-- Two rows of numbers, and a row with a number behind it. -/
theorem listType_exact_rows :
    let s : Scope := {}
    let one : Node := .literal "INT_LITERAL" (.int 1)
    let row : Node := .listLiteral "INT[]" [one, one]
    s.listType [row, row] = .ok (.text "INT[][]") ∧ ∃ given expected, given ≠ expected ∧
      s.listType [row, one] = s.fail (.element given expected) := by
  intro s one row
  have hone : Nested one := .literal _ (by decide)
  have hrow : Nested row := .list _ (by simp) (by simp [hone])
  have hrows : Nested (.listLiteral "" [row, row]) := .list _ (by simp) (by simp [hrow])
  have hmixed : Nested (.listLiteral "" [row, one]) := .list _ (by simp) (by simp [hrow, hone])
  refine ⟨(listType_exact _ hrows).1 "INT" 2 (by decide), (listType_exact _ hmixed).2 ?_⟩
  rintro ⟨type, depth, h⟩
  have hleaves : (Node.listLiteral "" [row, one]).leaves = [("INT", 2), ("INT", 2), ("INT", 1)] := by
    decide
  rw [hleaves] at h
  simp at h
  omega

/-! ### The order of the items -/

namespace Scope

variable {s : Scope} {xs ys : List Node} {t u : Atom} {x : Node}

/-- A literal has a type, if it is not at fault. -/
theorem itemType_ne_nothing (h : isLiteral x) : s.itemType x ≠ .ok .nothing := by
  cases x with
  | literal k v =>
    rw [itemType, typeOf]
    split
    · cases s.typeOfName v <;> rintro ⟨⟩
    · rintro ⟨⟩
  | listLiteral k xs =>
    cases xs with
    | nil =>
      rw [itemType]
      rintro ⟨⟩
    | cons x xs =>
      rw [itemType]
      cases s.itemTypes .nothing (x :: xs) <;> rintro ⟨⟩
  | _ => cases h

/-- Empty lists stand among items that have one other type. -/
def Mixed (s : Scope) (xs : List Node) : Prop :=
  ∃ t, t ≠ .text "[]" ∧ (∃ x ∈ xs, s.itemType x = .ok (.text "[]")) ∧
    (∃ x ∈ xs, s.itemType x = .ok t) ∧
    ∀ x ∈ xs, s.itemType x = .ok (.text "[]") ∨ s.itemType x = .ok t

theorem Mixed.of_perm (hperm : ys.Perm xs) (h : s.Mixed ys) : s.Mixed xs := by
  simpa only [Mixed, hperm.mem_iff] using h

theorem itemTypes_empties (hxs : ∀ x ∈ xs, s.itemType x = .ok (.text "[]"))
    (hys : ∀ x ∈ ys, s.itemType x = .ok t) (hne : ys ≠ []) {before : Atom}
    (hb : before = .nothing ∨ before = .text "[]") : s.itemTypes before (xs ++ ys) = .ok t := by
  induction xs generalizing before with
  | nil => exact itemTypes_of_same hys (hb.imp_right .inl) (.inl hne)
  | cons x xs ih =>
    obtain ⟨hx, hxs⟩ := forall_mem_cons.1 hxs
    exact itemTypes_cons_eq_ok_iff.2 ⟨_, hx, hb.imp_right .inl, ih hxs (.inr rfl)⟩

/-- Where empty lists are not mixed with others, the items of an accepted list have all one type. -/
theorem same_of_not_mixed (hxs : ∀ x ∈ xs, isLiteral x) (hmixed : ¬s.Mixed xs) (hne : xs ≠ [])
    (h : s.itemTypes .nothing xs = .ok u) : ∀ x ∈ xs, s.itemType x = .ok u := by
  obtain ⟨htypes, hlast⟩ := type_of_itemTypes (fun x hx => itemType_ne_nothing (hxs x hx)) h
  intro x hx
  refine (htypes x hx).elim (fun hempty => ?_) id
  by_cases hu : u = .text "[]"
  · rwa [hu]
  · exact absurd ⟨u, hu, ⟨x, hx, hempty⟩, hlast hne, htypes⟩ hmixed

/-- The type of a list whose empty lists are not mixed with others is that of every order of its items. -/
theorem listType_perm (hxs : ∀ x ∈ xs, isLiteral x) (hmixed : ¬s.Mixed xs) (hperm : ys.Perm xs)
    (h : s.listType xs = .ok u) : s.listType ys = .ok u := by
  by_cases hne : xs = []
  · subst hne
    rwa [hperm.eq_nil]
  · obtain ⟨t, ht, rfl⟩ := (listType_eq_ok_iff hne).1 h
    have hys : ys ≠ [] := fun hys => hne (hys ▸ hperm).nil_eq.symm
    have hsame : ∀ y ∈ ys, s.itemType y = .ok t := fun y hy =>
      same_of_not_mixed hxs hmixed hne ht y (hperm.mem_iff.1 hy)
    exact (listType_eq_ok_iff hys).2 ⟨t, itemTypes_of_same hsame (.inl rfl) (.inl hys), rfl⟩

/-- Mixed items are accepted if the empty lists come first, and refused if another item does. -/
theorem orders_of_mixed (hxs : ∀ x ∈ xs, isLiteral x) (hmixed : s.Mixed xs) :
    (∃ ys u, ys.Perm xs ∧ s.listType ys = .ok u) ∧ ∃ ys, ys.Perm xs ∧ ∀ u, s.listType ys ≠ .ok u := by
  obtain ⟨t, ht, ⟨y, hy, hempty⟩, ⟨x, hx, hother⟩, hall⟩ := hmixed
  have hdiffer : s.itemType x ≠ .ok (.text "[]") := by
    rw [hother]
    exact fun h => ht (Except.ok.inj h)
  constructor
  · classical
    have hperm := filter_append_perm (fun x => s.itemType x = .ok (.text "[]")) xs
    have hothers : xs.filter (fun x => !decide (s.itemType x = .ok (.text "[]"))) ≠ [] :=
      ne_nil_of_mem (mem_filter.2 ⟨hx, by simp [hdiffer]⟩)
    refine ⟨_, _, hperm, (listType_eq_ok_iff (by simp [hothers])).2 ⟨t,
      itemTypes_empties (fun z hz => ?_) (fun z hz => ?_) hothers (.inl rfl), rfl⟩⟩
    · simpa using (mem_filter.1 hz).2
    · obtain ⟨hz, hnot⟩ := mem_filter.1 hz
      exact (hall z hz).resolve_left (by simpa using hnot)
  · obtain ⟨front, rest, rfl⟩ := append_of_mem hx
    refine ⟨x :: (front ++ rest), perm_middle.symm, fun u h => ?_⟩
    obtain ⟨v, hv, -⟩ := (listType_eq_ok_iff (cons_ne_nil _ _)).1 h
    obtain ⟨t', hx', -, hv⟩ := itemTypes_cons_eq_ok_iff.1 hv
    obtain rfl := Except.ok.inj (hother.symm.trans hx')
    have hn : t ≠ .nothing := fun hn => itemType_ne_nothing (hxs x hx) (hn ▸ hother)
    -- the empty list is among the items behind the first
    have hyrest : y ∈ front ++ rest := by
      rcases mem_cons.1 (perm_middle.mem_iff.1 hy) with rfl | hy
      · exact absurd hempty hdiffer
      · exact hy
    obtain ⟨rfl, hsame⟩ := same_of_itemTypes hn ht hv
    exact ht (Except.ok.inj ((hsame y hyrest).symm.trans hempty))

end Scope

/-- Items are accepted in every order or in none, and always with the same type, exactly if there are no
    empty lists among items of one other type. -/
theorem listType_order_iff (s : Scope) {xs : List Node} (hxs : ∀ x ∈ xs, Scope.isLiteral x) :
    (∀ ys, ys.Perm xs → (s.listType ys).toOption = (s.listType xs).toOption) ↔ ¬s.Mixed xs := by
  constructor
  · intro h hmixed
    obtain ⟨⟨ys, u, hperm, hok⟩, zs, hperm', hnone⟩ := Scope.orders_of_mixed hxs hmixed
    have heq := (h ys hperm).trans (h zs hperm').symm
    rw [hok] at heq
    cases hz : s.listType zs with
    | ok v => exact hnone v hz
    | error e =>
      rw [hz] at heq
      cases heq
  · intro hmixed ys hperm
    cases hx : s.listType xs with
    | ok u => rw [Scope.listType_perm hxs hmixed hperm hx]
    | error e =>
      cases hy : s.listType ys with
      | ok u =>
        have hys : ∀ y ∈ ys, Scope.isLiteral y := fun y hy => hxs y (hperm.mem_iff.1 hy)
        rw [Scope.listType_perm hys (mt (Scope.Mixed.of_perm hperm) hmixed) hperm.symm hy] at hx
        cases hx
      | error e' => rfl

/-- Lists of empty lists and of numbers are refused in every order. -/
theorem listType_order_refused :
    let s : Scope := {}
    let empties : Node := .listLiteral "[][]" [.listLiteral "[]" []]
    let row : Node := .listLiteral "INT[]" [.literal "INT_LITERAL" (.int 1)]
    (∀ x ∈ [empties, row, empties], Scope.isLiteral x) ∧ ∀ ys, ys.Perm [empties, row, empties] →
      (s.listType ys).toOption = (s.listType [empties, row, empties]).toOption := by
  intro s empties row
  have hxs : ∀ x ∈ [empties, row, empties], Scope.isLiteral x := by simp [empties, row, Scope.isLiteral]
  refine ⟨hxs, (listType_order_iff s hxs).2 ?_⟩
  rintro ⟨t, -, ⟨x, hx, hempty⟩, -⟩
  have hempties : s.itemType empties = .ok (.text "[][]") := by rfl
  have hrow : s.itemType row = .ok (.text "INT[]") := by rfl
  simp only [List.mem_cons, List.not_mem_nil, or_false] at hx
  rcases hx with rfl | rfl | rfl <;> simp [hempties, hrow] at hempty

/-- A list of numbers and an empty list: their order decides. -/
theorem listType_order_empty :
    let s : Scope := {}
    let empty : Node := .listLiteral "[]" []
    let row : Node := .listLiteral "INT[]" [.literal "INT_LITERAL" (.int 1)]
    [empty, row].Perm [row, empty] ∧ s.listType [empty, row] = .ok (.text "INT[][]") ∧
      s.listType [row, empty] = s.fail (.element (.text "[]") (.text "INT[]")) := by
  intro s empty row
  exact ⟨.swap _ _ _, by rfl, by rfl⟩

end StackLang
