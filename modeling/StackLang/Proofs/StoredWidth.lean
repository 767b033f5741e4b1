import StackLang.Proofs.CastArgument
import StackLang.Proofs.Gain
import StackLang.Proofs.ScalarExpression

/-!
# How wide the values of expressions are

The tag of an item says how many bytes it takes, and the instruction that comes last in the code of
an expression says which tags its value can have. For a literal, an operator, a conversion of single
values and most of the built-in functions that leaves one width only. What is read from a variable or
an element, and what a function of the program gives, has the width of what was put there.

* `Node.width?`: the width of the value of an expression, where the tree tells;
* `Act.Ensures`: what holds when an act has come to its end, with one rule per way to put acts
  together;
* `Gen.tops_of_ends`: the code of an expression whose width is known ends with an instruction that
  puts such an item on the stack.
-/

namespace StackLang

/-! ### Trees -/

/-- The width of what the code of a literal leaves; variables are of its kinds, too. -/
def literalWidth? (kind : String) : Option Nat :=
  if kind = "VARIABLE" then none
  else if kind = "BOOL_LITERAL" ∨ kind = "BYTE_LITERAL" then some 1
  else some 4

/-- The width of what a conversion leaves, if no lists are converted. -/
def castWidth? (target source : String) : Option Nat :=
  if source ∈ scalarTypes then (scalarTag? target).map Tag.width else none

/-- The width of the result of a built-in function. Some have none, and some give an element of a
    list or what they were given. -/
def builtinWidth? : Nat → Option Nat
  | 2 | 3 | 4 | 5 | 6 | 7 | 8 | 12 | 17 | 18 | 19 => some 4
  | 11 => some 1
  | _ => none

/-- The width of an operator's result: of a truth value or of a number. -/
def operatorWidth (op : String) : Nat := if op ∈ ["and", "or", "not"] then 1 else 4

/-- The width of the value of an expression, where the tree tells. -/
def Node.width? (objects : Table Atom) : Node → Option Nat
  | .binary op _ _ => some (operatorWidth op)
  | .literal k _ => literalWidth? k
  | .listLiteral k _ => literalWidth? k
  | .cast t s _ => castWidth? t s
  | .call f _ o => if o.isObject objects then none else (builtinNumber? f).bind builtinWidth?
  | _ => none

/-! ### Acts -/

/-- The width of what an operator leaves: of a truth value or of a number. -/
def Operator.width (op : Operator) : Nat := if op.isLogical then 1 else 4

/-- An item of the given width lies on top of the stack. -/
def Machine.HasTop (w : Nat) (m : Machine) : Prop := ∃ x, m.stack.head? = some x ∧ x.tag.width = w

namespace Act

variable {α β : Type} {Q : α → Machine → Prop} {R : β → Machine → Prop} {w : Nat}

/-- When the act has come to its end, its result and the machine have the property. -/
def Ensures (Q : α → Machine → Prop) (a : Act α) : Prop := ∀ m x m', a m = (.ok x, m') → Q x m'

/-- When the act has come to its end, an item of the given width lies on top of the stack. -/
abbrev Tops (w : Nat) (a : Act Unit) : Prop := Ensures (fun _ m => m.HasTop w) a

namespace Ensures

variable {op : Operator}

theorem bind {a : Act α} {f : α → Act β} (ha : Ensures Q a)
    (hf : ∀ x m, Q x m → ∀ y m', f x m = (.ok y, m') → R y m') : Ensures R (a >>= f) := by
  intro m y m' h
  rw [run_bind] at h
  rcases hr : a m with ⟨_ | x, m₁⟩
  · rw [hr] at h
    cases h
  · rw [hr] at h
    exact hf x m₁ (ha m x m₁ hr) y m' h

/-- What comes next, after an act of which nothing matters. -/
theorem next {a : Act α} {f : α → Act β} (hf : ∀ x, Ensures R (f x)) : Ensures R (a >>= f) :=
  bind (Q := fun _ _ => True) (fun _ _ _ _ => trivial) fun x m _ => hf x m

theorem returning {a : Act α} {y : β} (ha : Ensures (fun _ => R y) a) :
    Ensures R (a >>= fun _ => Pure.pure y) :=
  bind ha fun x m hm y' m' h => by
    cases h
    exact hm

theorem throw (h : Halt) : Ensures Q (MonadExcept.throw h : Act α) := by
  intro m x m' h
  cases h

theorem push (x : Item) : Tops x.tag.width (Act.push x) := by
  intro m y m' h
  by_cases hlen : m.stack.length < stackLimit
  · rw [run_push hlen] at h
    cases h
    exact ⟨x, rfl, rfl⟩
  · rw [run_push_full (Nat.not_lt.1 hlen)] at h
    cases h

/-! ### Operations -/

theorem width_onTruths (hop : op.isLogical = true) (x y : Item) :
    (op.onTruths x y).tag.width = op.width := by
  rw [Operator.width, if_pos hop]
  unfold Operator.onTruths
  split <;> rfl

theorem width_onItems (hop : ¬op.isLogical = true) (x y : Item) :
    (op.onItems x y).tag.width = op.width := by
  rw [Operator.width, if_neg hop]
  unfold Operator.onItems
  split <;> rfl

/-- An operator leaves its result, unless it is about to join texts. No logical operator does. -/
theorem compute (op : Operator) :
    Ensures (fun b m => if b then op.width = 4 else m.HasTop op.width) (Act.compute op) := by
  unfold Act.compute
  refine next fun y => ?_
  split
  · rename_i hop
    subst hop
    exact returning (push (.ofBool _))
  refine next fun x => ?_
  split
  · rename_i hop
    exact returning (width_onTruths hop x y ▸ push (op.onTruths x y))
  rename_i hop
  split
  · exact next fun _ => next fun _ => returning fun _ _ _ _ => if_neg hop
  · exact returning (width_onItems hop x y ▸ push (op.onItems x y))

theorem join : Tops 4 Act.join := by
  refine next fun _ => next fun y => next fun x => ?_
  split
  · -- the first text is the one that is pushed again
    rename_i hx
    rw [show 4 = x.tag.width by rw [hx]; rfl]
    split <;> exact next fun _ => next fun _ => push _
  · exact next fun _ => next fun _ => next fun _ => next fun _ => push (.ofBlock _)

theorem perform_compute (op : Operator) (arg : UInt32) :
    Tops op.width (Act.perform (.compute op) arg) := by
  refine bind (compute op) fun b m hb y m' h => ?_
  cases b with
  | true =>
    rw [if_pos rfl] at hb
    exact hb ▸ join m y m' h
  | false =>
    cases h
    exact hb

theorem buildList (count : Nat) : Tops 4 (Act.buildList count) := by
  cases count with
  | zero => exact next fun _ => push (.ofBlock _)
  | succ count => exact next fun _ => next fun _ => next fun _ => next fun _ => push (.ofBlock _)

/-- A conversion that reaches into no list leaves an item of the tag that it names. -/
theorem cast {arg : UInt32} (hdepth : (Act.castFields arg).depth = 0) :
    Tops (Tag.ofCode (Act.castFields arg).target).width (Act.cast arg) := by
  refine next fun x => ?_
  rw [hdepth]
  cases Tag.ofCode (Act.castFields arg).target <;> exact push _

theorem pushText (bs : List UInt8) : Tops 4 (Act.pushText bs) :=
  next fun _ => next fun _ => push (.ofBlock _)

theorem readFile : Tops 4 Act.readFile := by
  refine next fun _ => next fun _ => next fun _ => ?_
  split
  · exact throw _
  · exact next fun _ => next fun _ => next fun _ => next fun _ => push (.ofBlock _)

theorem writeFile : Tops 4 Act.writeFile := by
  refine next fun _ => next fun _ => next fun _ => next fun count => next fun _ => ?_
  dsimp only
  split
  · exact next fun _ => next fun _ => next fun _ => push ⟨.int, _⟩
  · exact next fun _ => next fun _ => push ⟨.int, _⟩

theorem slice : Tops 4 Act.slice := by
  refine next fun _ => next fun _ => next fun _ => next fun _ => next fun _ => ?_
  split <;> exact next fun _ => push (.ofBlock _)

theorem mapText (f : UInt8 → UInt8) : Tops 4 (Act.mapText f) := by
  refine next fun _ => next fun _ => ?_
  dsimp only
  split
  · exact next fun _ => next fun _ => next fun _ => next fun _ => push (.ofBlock _)
  · exact next fun _ => next fun _ => next fun _ => push (.ofBlock _)

theorem builtin {n : UInt32} (hw : builtinWidth? n.toNat = some w) : Tops w (Act.builtin n) := by
  unfold Act.builtin
  split
  case h_21 =>
    unfold builtinWidth? at hw
    split at hw <;> contradiction
  all_goals rename_i h; rw [h] at hw; cases hw
  · exact next fun _ => push ⟨.int, _⟩
  · exact next fun _ => push ⟨.real, _⟩
  · exact next fun _ => pushText _
  · exact next fun _ => pushText _
  · exact readFile
  · exact writeFile
  · exact next fun _ => next fun _ => push ⟨.int, _⟩
  · exact next fun _ => next fun _ => push (.ofBool _)
  · exact slice
  · exact mapText _
  · exact mapText _
  · exact next fun _ => next fun _ => next fun _ => next fun _ => push (.ofBlock _)

end Ensures

end Act

/-! ### Code -/

/-- The slot holds an instruction that leaves an item of the given width on top of the stack, and
    that is no call. -/
def Slot.Tops (w : Nat) : Slot → Prop
  | .instruction c a => ∃ op, Operation.ofCode? c.toUInt8.toNat = some op ∧ op ≠ .call ∧
      ∀ word, Image.argumentWord? a = .ok (some word) → Act.Tops w (Act.perform op word)
  | _ => False

/-- There is code of `g'` behind that of `g`, and its last instruction leaves an item of the given
    width. -/
def TopsLast (w : Nat) (g g' : Generator) : Prop :=
  ∃ (h : Generator) (s : Slot), g' = h.push s ∧ g.length ≤ h.length ∧ s.Tops w

theorem TopsLast.push {g h : Generator} {s : Slot} {w : Nat} (hle : g.length ≤ h.length)
    (hs : s.Tops w) : TopsLast w g (h.push s) := ⟨h, s, rfl, hle, hs⟩

namespace Slot

variable {c n w : Nat}

/-- An instruction that pushes its argument. -/
theorem tops_push {c : Nat} {t : Tag} {a : Argument}
    (hc : Operation.ofCode? c.toUInt8.toNat = some (.push t)) : (Slot.instruction c a).Tops t.width :=
  ⟨.push t, hc, Operation.noConfusion, fun word _ => Act.Ensures.push ⟨t, word⟩⟩

theorem tops_buildList (a : Argument) : (Slot.instruction Op.buildList a).Tops 4 :=
  ⟨.buildList, rfl, Operation.noConfusion, fun _ _ => Act.Ensures.buildList _⟩

theorem tops_operator {op : String} (h : operatorCode? op = some c) (a : Argument) :
    (Slot.instruction c a).Tops (operatorWidth op) := by
  have tops : ∀ {o : Operator}, Operation.ofCode? c.toUInt8.toNat = some (.compute o) →
      o.width = operatorWidth op → (Slot.instruction c a).Tops (operatorWidth op) := fun hc hw =>
    ⟨.compute _, hc, Operation.noConfusion, fun word _ => hw ▸ Act.Ensures.perform_compute _ word⟩
  unfold operatorCode? at h
  split at h
  all_goals cases h
  all_goals exact tops rfl (by decide)

theorem tops_builtin (hw : builtinWidth? n = some w) :
    (Slot.instruction Op.syscall (.int n)).Tops w := by
  refine ⟨.builtin, by decide, Operation.noConfusion, fun word hword => ?_⟩
  have hn : n = word.toNat := Int.ofNat_inj.1 (eq_toNat_of_word (Int.natCast_nonneg n) hword)
  exact Act.Ensures.builtin (hn ▸ hw)

/-- The argument of a cast between single values names the tag and no list. -/
theorem tops_cast {t s : String} (hw : castWidth? t s = some w) (h : castArgument s t = .ok n) :
    (Slot.instruction Op.cast (.int n)).Tops w := by
  have hcast : ∀ t ∈ scalarTypes, ∀ s ∈ scalarTypes, ∃ n ∈ (castArgument s t).toOption,
      n < 0x10000 ∧ scalarTag? t = some (Tag.ofCode (n % 256)) := by
    decide
  unfold castWidth? at hw
  split at hw
  · rename_i hs
    obtain ⟨tag, htag, rfl⟩ := Option.map_eq_some_iff.1 hw
    obtain ⟨k, hk, hlt, hk'⟩ := hcast t (mem_scalarTypes htag).1 s hs
    rw [h] at hk
    obtain rfl : n = k := Option.some.inj hk
    obtain rfl := Option.some.inj (htag.symm.trans hk')
    refine ⟨.cast, rfl, Operation.noConfusion, fun word hword => ?_⟩
    have hn : n = word.toNat := Int.ofNat_inj.1 (eq_toNat_of_word (Int.natCast_nonneg n) hword)
    have hbyte : (Act.castFields word).target = n % 256 := by rw [castFields_eq, ← hn]
    have hdepth : (Act.castFields word).depth = 0 := by
      rw [castFields_eq, ← hn, Nat.div_eq_of_lt hlt]
    rw [← hbyte]
    exact Act.Ensures.cast hdepth
  · cases hw

end Slot

namespace Gen

variable {g g' : Generator} {w : Nat} {f k : String} {xs : List Node}

/-- A kind of lists is none of the others. -/
theorem literalWidth_of_list (hk : holds "[]" k = true) : literalWidth? k = some 4 := by
  unfold literalWidth?
  rw [if_neg, if_neg]
  · rintro (rfl | rfl) <;> revert hk <;> decide
  · rintro rfl
    revert hk
    decide

theorem tops_of_writes {a b : Argument} {c : Nat} (hw : literalWidth? k = some w)
    (hc : Writes g k a c b) : TopsLast w g (g.push (.instruction c b)) := by
  refine .push (Nat.le_refl _) ?_
  cases hc with
  | name _ => cases hw
  | int _ =>
    cases hw
    exact Slot.tops_push (t := .int) rfl
  | real =>
    cases hw
    exact Slot.tops_push (t := .real) rfl
  | bool | byte =>
    cases hw
    exact Slot.tops_push (t := .byte) rfl

theorem tops_literal {k : String} {v : Atom} (hw : literalWidth? k = some w)
    (e : Ends (literalCode k v) g () g') : TopsLast w g g' := by
  rcases ends_literalCode e with ⟨_, _, hc, rfl⟩ | ⟨s, -, hk, rfl⟩ | ⟨s, h, rfl, -, ec, rfl⟩
  · exact tops_of_writes hw hc
  · obtain rfl := Option.some.inj ((literalWidth_of_list hk).symm.trans hw)
    exact .push (Nat.le_refl _) (Slot.tops_buildList _)
  · cases hw
    exact .push ((Course.start (n := .plain)).chars ec).length_le (Slot.tops_buildList _)

theorem tops_list {k : String} {xs : List Node} (hw : literalWidth? k = some w)
    (e : Ends (generate (.listLiteral k xs)) g () g') : TopsLast w g g' := by
  rcases ends_list e with ⟨_, _, hc, rfl⟩ | ⟨h, hk, e₁, rfl⟩
  · exact tops_of_writes hw hc
  · obtain rfl := Option.some.inj ((literalWidth_of_list hk).symm.trans hw)
    exact .push ((Course.start (n := .plain)).reversed e₁).length_le (Slot.tops_buildList _)

/-- What a call of a built-in function writes last. -/
theorem tops_callee {h : Generator} (hle : g.length ≤ h.length)
    (hw : (builtinNumber? f).bind builtinWidth? = some w) (e : Ends (calleeCode f) h () g') :
    TopsLast w g g' := by
  obtain ⟨n, hn, hw⟩ := Option.bind_eq_some_iff.1 hw
  unfold calleeCode at e
  rw [hn] at e
  exact ends_emitInt.1 e ▸ .push hle (Slot.tops_builtin hw)

theorem tops_call {o : Operand} (hw : (Node.call f xs o).width? g'.objects = some w)
    (e : Ends (generate (.call f xs o)) g () g') : TopsLast w g g' := by
  rw [Node.width?] at hw
  split at hw
  · cases hw
  rename_i hobject
  obtain ⟨h, e₁, ⟨ho, rfl⟩ | ⟨-, k, e₂, e₃⟩⟩ := ends_call e
  · -- the method of a record has no code
    exact absurd ho hobject
  have hle := ((Course.start (n := .plain)).reversed e₁).length_le
  rcases ends_receiverCode e₂ with ⟨m, -, em⟩ | ⟨-, rfl⟩ | ⟨a, x, -, -, rfl⟩
  · exact tops_callee (Nat.le_trans hle (length_le em)) hw e₃
  · exact tops_callee hle hw e₃
  · exact tops_callee (Nat.le_succ_of_le hle) hw e₃

/-- The code of an expression whose width is known ends with an instruction that leaves such an
    item. -/
theorem tops_of_ends {n : Node} (hw : n.width? g'.objects = some w)
    (e : Ends (generate n) g () g') : TopsLast w g g' := by
  cases n with
  | binary op a b =>
    obtain ⟨h₁, h₂, c, e₁, e₂, hc, rfl⟩ := ends_binary e
    cases hw
    exact .push (((Course.start (n := .plain)).part e₁).option e₂).length_le
      (Slot.tops_operator hc _)
  | literal k v =>
    rw [generate] at e
    exact tops_literal hw e
  | listLiteral k xs => exact tops_list hw e
  | call f xs o => exact tops_call hw e
  | cast t s x =>
    obtain ⟨h, c, e₁, hn, rfl⟩ := ends_cast e
    exact .push (length_le e₁) (Slot.tops_cast hw hn)
  | _ => cases hw

end Gen

end StackLang
