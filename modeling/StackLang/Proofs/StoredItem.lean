import StackLang.Proofs.Storage
import StackLang.Proofs.StoredWidth

/-!
# Variables after a store

A variable takes as many bytes as the tag of its item says, so memory keeps the word of a truth value
or of a small number only if it is below 256. A conversion to such a tag extends the sign over the
whole word, and what is read back is another word then.

* `Machine.keepsVariable_iff`: when a variable is read back as it was stored, in terms of the item;
* `Act.Ensures.whole_compute`: what an operator leaves is always kept whole;
* `variable_kept_iff`: when it is, in terms of the instruction that left the item.
-/

namespace StackLang

/-! ### Items that memory keeps whole -/

namespace Item

theorem kept_eq_self_iff (x : Item) : x.kept = x ↔ (x.tag.width = 1 → x.word.toNat < 256) := by
  rw [kept]
  by_cases hw : x.tag.width = 1
  · rw [if_pos hw]
    constructor
    · intro h _
      rw [← h, UInt32.toNat_mod]
      exact Nat.mod_lt _ (by decide)
    · intro h
      have hword : x.word % 256 = x.word :=
        UInt32.toNat_inj.1 ((UInt32.toNat_mod _ _).trans (Nat.mod_eq_of_lt (h hw)))
      rw [hword]
  · rw [if_neg hw]
    exact iff_of_true rfl fun h => absurd h hw

theorem kept_of_width_four {x : Item} (h : x.tag.width = 4) : x.kept = x :=
  x.kept_eq_self_iff.2 fun h' => by omega

theorem kept_ofBool (b : Bool) : (ofBool b).kept = ofBool b := by
  cases b <;> rfl

end Item

/-- The sign of a byte reaches beyond the byte if it is negative. -/
theorem extendByte_lt_iff (w : UInt32) : (extendByte w).toNat < 256 ↔ w.toUInt8 < 128 := by
  have hlt := w.toUInt8.toNat_lt
  change (w.toUInt8.toBitVec.signExtend 32).toNat < 256 ↔ _
  rw [BitVec.toNat_signExtend, BitVec.msb_eq_decide, BitVec.toNat_setWidth, UInt8.lt_iff_toNat_lt]
  change w.toUInt8.toNat % 2 ^ 32 + (if decide (2 ^ 7 ≤ w.toUInt8.toNat) = true then _ else 0) < 256 ↔
    w.toUInt8.toNat < 128
  rw [Nat.mod_eq_of_lt (by omega)]
  split
  · rename_i h
    rw [decide_eq_true_eq] at h
    omega
  · rename_i h
    rw [decide_eq_true_eq] at h
    omega

/-! ### Storing and loading -/

namespace Memory

variable {memory : Memory} {a w : UInt32} {x : Item}

/-- There is room for the item at the address: behind the end there always is. -/
def HasRoom (memory : Memory) (a : UInt32) (x : Item) : Prop :=
  a = endAddress ∨ a.toNat + x.tag.width ≤ memory.cells.size

theorem store_of_hasRoom (h : memory.HasRoom a x) : ∃ memory', memory.store a x = .ok memory' := by
  unfold store
  by_cases hend : a = endAddress
  · obtain ⟨s, hwrite, -⟩ := memory.cells.write_end x.word x.tag.width_pos x.tag.width_le
    rw [hend, hwrite]
    exact ⟨_, rfl⟩
  · have hwidth : ¬(x.tag.width = 0 ∨ 4 < x.tag.width) := by
      have := x.tag.width_pos
      have := x.tag.width_le
      omega
    have hfits := h.resolve_left hend
    unfold Segment.write
    rw [if_neg hwidth]
    dsimp only
    rw [if_neg hend, if_neg hend, if_neg (Nat.not_lt.2 hfits)]
    exact ⟨_, rfl⟩

/-- A load of the address pushes the item, on every stack that has room for it. -/
def Loads (memory : Memory) (w : UInt32) (x : Item) : Prop :=
  ∀ m : Machine, m.memory = memory → m.stack.length < stackLimit →
    m.execute ⟨0x14, w⟩ = .next { m with pc := m.pc + 1, stack := x :: m.stack }

theorem loads_iff : memory.Loads w x ↔ memory.load w = .ok x := by
  constructor
  · -- the empty stack has room
    intro h
    have hempty : 0 < stackLimit := by decide
    obtain ⟨op, hop, hact⟩ := Machine.perform_of_execute (h { memory } rfl hempty)
    cases hop
    rw [Act.perform] at hact
    cases hload : memory.load w with
    | error t =>
      rw [Act.load, Act.run_get_bind, hload] at hact
      cases hact
    | ok y =>
      rw [Act.run_load (m := { memory, pc := 0 + 1 }) hload hempty] at hact
      cases hact
      rfl
  · intro h m hm hlen
    refine Machine.execute_of_perform rfl ?_
    rw [Act.perform]
    exact Act.run_load (m := m.onward) (hm ▸ h) hlen

end Memory

namespace Machine

variable {m : Machine} {x : Item} {rest : List Item}

/-- The item on top of the stack is kept as a variable: wherever there is room for it, a store takes it,
    a load of the place where it went pushes it again, and loads of variables in other places push what
    they did before. -/
def KeepsVariable (m : Machine) (x : Item) (rest : List Item) : Prop :=
  ∀ a w : UInt32, m.memory.HasRoom a x → m.memory.cells.place a = w.toNat →
    ∃ memory, m.execute ⟨0x13, a⟩ = .next { m with pc := m.pc + 1, stack := rest, memory } ∧
      memory.Loads w x ∧
      ∀ v y, m.memory.Loads v y →
        v.toNat + y.tag.width ≤ w.toNat ∨ w.toNat + x.tag.width ≤ v.toNat → memory.Loads v y

/-- Some address has room for an item, and its place can be loaded from. -/
theorem exists_hasRoom (memory : Memory) (x : Item) :
    ∃ a w : UInt32, memory.HasRoom a x ∧ memory.cells.place a = w.toNat := by
  by_cases hsize : memory.cells.size < UInt32.size
  · refine ⟨endAddress, UInt32.ofNat memory.cells.size, .inl rfl, ?_⟩
    rw [UInt32.toNat_ofNat_of_lt' hsize]
    rfl
  · -- memory is larger than words can address, so its front has room
    refine ⟨0, 0, .inr ?_, rfl⟩
    have := x.tag.width_le
    have hlarge : 4 < UInt32.size := by decide
    rw [UInt32.toNat_zero]
    omega

theorem execute_storeMem {memory : Memory} {a : UInt32} (hs : m.stack = x :: rest)
    (h : m.memory.store a x = .ok memory) :
    m.execute ⟨0x13, a⟩ = .next { m with pc := m.pc + 1, stack := rest, memory } := by
  refine execute_of_perform rfl ?_
  rw [Act.perform, Act.run_storeMem (m := m.onward) a hs]
  dsimp only
  rw [h]

theorem keepsVariable_iff (hs : m.stack = x :: rest) : m.KeepsVariable x rest ↔ x.kept = x := by
  constructor
  · intro h
    obtain ⟨a, w, hroom, hw⟩ := exists_hasRoom m.memory x
    obtain ⟨stored, hstore⟩ := Memory.store_of_hasRoom hroom
    obtain ⟨memory, hexec, hloads, -⟩ := h a w hroom hw
    rw [execute_storeMem hs hstore, Transition.next.injEq, Machine.mk.injEq] at hexec
    obtain rfl : stored = memory := hexec.2.2.2.1
    have hself := Memory.load_of_store_self hstore hw
    rw [Memory.loads_iff.1 hloads] at hself
    exact (Except.ok.inj hself).symm
  · intro h a w hroom hw
    obtain ⟨memory, hstore⟩ := Memory.store_of_hasRoom hroom
    refine ⟨memory, execute_storeMem hs hstore, Memory.loads_iff.2 ?_, fun v y hy hout => ?_⟩
    · rw [Memory.load_of_store_self hstore hw, h]
    · rw [← hw] at hout
      exact Memory.loads_iff.2 ((Memory.load_of_store hstore hout).2 (Memory.loads_iff.1 hy))

end Machine

/-! ### What instructions leave -/

namespace Act.Ensures

theorem head_push (x : Item) : Ensures (fun _ m => m.stack.head? = some x) (Act.push x) := by
  intro m y m' h
  by_cases hlen : m.stack.length < stackLimit
  · rw [run_push hlen] at h
    cases h
    rfl
  · rw [run_push_full (Nat.not_lt.1 hlen)] at h
    cases h

/-- An act leaves an item on top of the stack that memory keeps whole. -/
abbrev Whole (a : Act Unit) : Prop := Ensures (fun _ m => ∀ x ∈ m.stack.head?, x.kept = x) a

theorem whole_push {x : Item} (h : x.kept = x) : Whole (Act.push x) := by
  intro m y m' hrun z hz
  rw [head_push x m y m' hrun, Option.mem_some_iff] at hz
  exact hz ▸ h

theorem whole_of_tops {a : Act Unit} (h : Tops 4 a) : Whole a := by
  intro m y m' hrun z hz
  obtain ⟨x, hx, hwidth⟩ := h m y m' hrun
  rw [hx, Option.mem_some_iff] at hz
  exact hz ▸ Item.kept_of_width_four hwidth

theorem kept_onTruths (op : Operator) (x y : Item) :
    (op.onTruths x y).kept = op.onTruths x y := by
  unfold Operator.onTruths
  split <;> exact Item.kept_ofBool _

/-- A logical operator joins no texts, and leaves a truth value. -/
theorem whole_compute_logical {op : Operator} (hop : op.isLogical = true) :
    Ensures (fun b m => b = false ∧ ∀ x ∈ m.stack.head?, x.kept = x) (Act.compute op) := by
  have pushed {x : Item} (h : x.kept = x) :
      Ensures (fun b m => b = false ∧ ∀ x ∈ m.stack.head?, x.kept = x)
        (Act.push x >>= fun _ => Pure.pure false) :=
    returning fun m y m' hrun => ⟨rfl, whole_push h m y m' hrun⟩
  unfold Act.compute
  refine next fun y => ?_
  by_cases hnot : op = .not
  · rw [if_pos hnot]
    exact pushed (Item.kept_ofBool _)
  · rw [if_neg hnot]
    refine next fun x => ?_
    rw [if_pos hop]
    exact pushed (kept_onTruths op x y)

theorem whole_compute (op : Operator) (arg : UInt32) : Whole (Act.perform (.compute op) arg) := by
  by_cases hop : op.isLogical = true
  · refine bind (whole_compute_logical hop) fun b m hb y m' h => ?_
    obtain ⟨rfl, hwhole⟩ := hb
    cases h
    exact hwhole
  · -- numbers and pointers take whole words
    have htops := perform_compute op arg
    rw [Operator.width, if_neg hop] at htops
    exact whole_of_tops htops

end Act.Ensures

namespace Operation

/-- The tag that the argument of a conversion names. -/
def castTag (arg : UInt32) : Tag := .ofCode (arg &&& 0xff).toNat

/-- The operation leaves its argument, the result of an operator, or that of a conversion of a single
    value to an integer, a truth value or a small number. -/
def LeavesValue (arg : UInt32) : Operation → Prop
  | .push _ => True
  | .compute _ => True
  | .cast => castTag arg = .int ∨ castTag arg = .byte ∧ ((arg >>> 16) &&& 0xff).toNat = 0
  | _ => False

/-- The item that the operation leaves, on this stack, fits into the bytes of its tag: a byte that is
    pushed is one, and a byte that a number is converted to is not negative. -/
def Fits (arg : UInt32) (stack : List Item) : Operation → Prop
  | .push t => t.width = 1 → arg.toNat < 256
  | .cast => castTag arg = .byte → ∀ y ∈ stack.head?, y.word.toUInt8 < 128
  | _ => True

end Operation

namespace Act

variable {m m' : Machine} {x y : Item} {rest : List Item} {arg : UInt32}

theorem run_cast_int (hs : m.stack = y :: rest) (htag : Operation.castTag arg = .int) :
    cast arg m = push ⟨.int, y.real.truncateWord⟩ { m with stack := rest } := by
  change Tag.ofCode (castFields arg).target = .int at htag
  unfold cast
  rw [run_bind_ok (run_pop hs)]
  simp only [htag]

theorem run_cast_byte (hs : m.stack = y :: rest) (htag : Operation.castTag arg = .byte)
    (hdepth : ((arg >>> 16) &&& 0xff).toNat = 0) :
    cast arg m = push ⟨.byte, extendByte y.word⟩ { m with stack := rest } := by
  change Tag.ofCode (castFields arg).target = .byte at htag
  change (castFields arg).depth = 0 at hdepth
  unfold cast
  rw [run_bind_ok (run_pop hs)]
  simp only [htag, hdepth]

/-- What a conversion leaves is kept whole unless it is a negative byte. -/
theorem whole_cast_iff (hvalue : Operation.LeavesValue arg .cast) (h : cast arg m = (.ok (), m'))
    (hx : m'.stack.head? = some x) : x.kept = x ↔ Operation.Fits arg m.stack .cast := by
  cases hs : m.stack with
  | nil =>
    rw [cast, run_bind_error (run_pop_nil hs)] at h
    cases h
  | cons y rest =>
    rcases hvalue with htag | ⟨htag, hdepth⟩
    · rw [run_cast_int hs htag] at h
      obtain rfl := Option.some.inj ((Ensures.head_push _ _ _ _ h).symm.trans hx)
      exact iff_of_true (Item.kept_of_width_four rfl) fun hbyte => by
        rw [htag] at hbyte
        cases hbyte
    · rw [run_cast_byte hs htag hdepth] at h
      obtain rfl := Option.some.inj ((Ensures.head_push _ _ _ _ h).symm.trans hx)
      rw [Item.kept_eq_self_iff]
      constructor
      · intro hlt _ z hz
        rw [List.head?_cons, Option.mem_some_iff] at hz
        subst hz
        exact (extendByte_lt_iff _).1 (hlt rfl)
      · intro hfits _
        exact (extendByte_lt_iff _).2 (hfits htag y rfl)

end Act

/-- An item that an instruction has left on the stack is kept as a variable if and only if it fits into
    the bytes of its tag. -/
theorem variable_kept_iff {m m' : Machine} {i : Instruction} {op : Operation} {x : Item}
    {rest : List Item} (hop : Operation.ofCode? i.code.toNat = some op)
    (hvalue : op.LeavesValue i.arg) (hexec : m.execute i = .next m') (hs : m'.stack = x :: rest) :
    m'.KeepsVariable x rest ↔ op.Fits i.arg m.stack := by
  obtain ⟨op', hop', hact⟩ := Machine.perform_of_execute hexec
  obtain rfl : op = op' := Option.some.inj (hop.symm.trans hop')
  have hhead : m'.stack.head? = some x := by rw [hs, List.head?_cons]
  rw [Machine.keepsVariable_iff hs]
  cases op with
  | push t =>
    obtain rfl := Option.some.inj ((Act.Ensures.head_push _ _ _ _ hact).symm.trans hhead)
    exact Item.kept_eq_self_iff _
  | compute op =>
    exact iff_of_true (Act.Ensures.whole_compute op i.arg _ _ _ hact x hhead) trivial
  | cast => exact Act.whole_cast_iff (m := { m with pc := m.pc + 1 }) hvalue hact hhead
  | _ => exact absurd hvalue id

/-- A number of three hundred is converted to a byte of forty-four, which is kept. -/
theorem variable_kept_cast :
    let m : Machine := { stack := [⟨.int, 300⟩] }
    let m' : Machine := { pc := 1, stack := [⟨.byte, 44⟩] }
    m.execute ⟨0x1E, 513⟩ = .next m' ∧ m'.KeepsVariable ⟨.byte, 44⟩ [] :=
  ⟨rfl, (variable_kept_iff (m := { stack := [⟨.int, 300⟩] }) (i := ⟨0x1E, 513⟩) rfl
    (.inr (by decide)) rfl rfl).2 fun _ => by decide⟩

/-- A number of two hundred is converted to a negative byte, of which a variable keeps the lowest bits
    only. -/
theorem variable_cut_cast :
    let m : Machine := { stack := [⟨.int, 200⟩] }
    let m' : Machine := { pc := 1, stack := [⟨.byte, 0xffffffc8⟩] }
    let stored : Memory := ⟨⟨1, #[200]⟩, #[.byte]⟩
    m.execute ⟨0x1E, 513⟩ = .next m' ∧ ¬m'.KeepsVariable ⟨.byte, 0xffffffc8⟩ [] ∧
      m'.execute ⟨0x13, 0xffffffff⟩ = .next { pc := 2, stack := [], memory := stored } ∧
      stored.load 0 = .ok ⟨.byte, 200⟩ := by
  refine ⟨rfl, fun h => ?_, rfl, rfl⟩
  have hfits := (variable_kept_iff (m := { stack := [⟨.int, 200⟩] }) (i := ⟨0x1E, 513⟩) rfl
    (.inr (by decide)) rfl rfl).1 h
  exact absurd (hfits rfl ⟨.int, 200⟩ rfl) (by decide)

end StackLang
