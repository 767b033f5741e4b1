import StackLang.Proofs.Literal
import StackLang.Typing

/-!
# Faults of typing

The functions that declare names and check types have no fuel, so they do not stop for want of it. A step
that stops with some other fault, or not at all, is `Fueled`; so are steps that are put together from such
steps.
-/

namespace StackLang

variable {α β : Type}

/-- What stops does not stop for want of fuel. -/
def Fueled (x : Except Fault α) : Prop := x ≠ .error .exhausted

namespace Fueled

theorem ok (x : α) : Fueled (.ok x) := fun h => by cases h

theorem error {f : Fault} (h : f ≠ .exhausted) : Fueled (.error f : Except Fault α) :=
  fun e => h (Except.error.inj e)

theorem bind {x : Except Fault α} {f : α → Except Fault β} (hx : Fueled x) (hf : ∀ a, Fueled (f a)) :
    Fueled (x >>= f) := by
  cases x with
  | error e => exact error fun he => hx (congrArg _ he)
  | ok a => exact hf a

theorem foldlM {f : β → α → Except Fault β} (hf : ∀ b a, Fueled (f b a)) (xs : List α) (b : β) :
    Fueled (xs.foldlM f b) := by
  induction xs generalizing b with
  | nil => exact ok b
  | cons a xs ih => exact bind (hf b a) ih

theorem toInt (a : Atom) : Fueled a.toInt := by
  unfold Atom.toInt
  split
  · exact ok _
  · exact ok _
  · split
    · exact ok _
    · refine error ?_
      split <;> simp
  · split
    · exact ok _
    · exact error (by simp)
  · exact error (by simp)

theorem toReal (a : Atom) : Fueled a.toReal := by
  unfold Atom.toReal
  split
  · split
    · exact ok _
    · exact error (by simp)
  · exact ok _
  · exact ok _
  · split
    · exact ok _
    · exact error (by simp)
  · exact error (by simp)

variable (s : Scope)

theorem fail (cause : TypingCause) : Fueled (s.fail cause : Except Fault α) := error (by simp)

theorem typeOfName (name : Atom) : Fueled (s.typeOfName name) := by
  unfold Scope.typeOfName
  split
  · exact ok _
  split
  · dsimp only
    split
    · exact ok _
    split
    · exact ok _
    · exact fail s _
  · exact error (by simp)

theorem declare (name : Atom) (type : String) : Fueled (s.declare name type) := by
  refine bind ?_ fun full => ?_
  · unfold Scope.fullName
    split
    · exact ok _
    split
    · exact ok _
    · exact error (by simp)
  · split
    · exact fail s _
    · exact ok _

theorem declareRecord (name : Atom) (fields : List (Atom × String)) :
    Fueled (s.declareRecord name fields) := by
  unfold Scope.declareRecord
  split
  · exact fail s _
  · exact ok _

theorem declareFunction (name : Atom) (result : String) (parameters : List (Atom × String)) :
    Fueled (s.declareFunction name result parameters) := by
  unfold Scope.declareFunction
  split
  · exact fail s _
  split
  · refine bind (foldlM (fun t p => ?_) _ _) fun table => ok _
    split
    · exact ok _
    · exact error (by simp)
  · exact error (by simp)

theorem operatorType (op : String) (first last : Atom) : Fueled (s.operatorType op first last) := by
  unfold Scope.operatorType
  dsimp only
  repeat' split
  all_goals first | exact ok _ | exact fail s _

theorem typeOfOperand (o : Operand) : Fueled (s.typeOfOperand o) := by
  cases o with
  | atom a => exact typeOfName s a
  | node n => exact error (by simp)

theorem memberType (object selector : Operand) (indexed : Bool) :
    Fueled (s.memberType object selector indexed) := by
  unfold Scope.memberType
  split
  · refine bind (typeOfOperand s _) fun t => ?_
    split <;> exact ok _
  · refine bind (typeOfOperand s _) fun t => ?_
    split
    · exact error (by simp)
    split
    · split
      · exact ok _
      · exact error (by simp)
    · exact error (by simp)

theorem typeOf (n : Node) : Fueled (s.typeOf n) := by
  induction n using Node.childInduction with
  | h n ih =>
    cases n with
    | binary op a b =>
      obtain ⟨ha, hb⟩ := List.forall_mem_cons.1 ih
      rw [Scope.typeOf]
      refine bind ?_ fun last => bind ha fun first => operatorType s _ _ _
      cases b with
      | none => exact ok _
      | some n => exact hb n List.mem_cons_self
    | literal k v =>
      rw [Scope.typeOf]
      split
      · exact bind (typeOfName s v) fun _ => ok _
      · exact ok _
    | listLiteral k xs =>
      rw [Scope.typeOf]
      split
      · exact error (by simp)
      · exact ok _
    | call f xs o =>
      rw [Scope.typeOf]
      split
      · exact ok _
      · exact error (by simp)
    | member o a i =>
      rw [Scope.typeOf]
      exact memberType s _ _ _
    | create r xs =>
      rw [Scope.typeOf]
      exact ok _
    | _ =>
      unfold Scope.typeOf
      exact ok _

theorem itemTypes_of {xs : List Node} (h : ∀ x ∈ xs, Fueled (s.itemType x)) (before : Atom) :
    Fueled (s.itemTypes before xs) := by
  induction xs generalizing before with
  | nil =>
    rw [Scope.itemTypes]
    exact ok _
  | cons x xs ih =>
    obtain ⟨hx, hxs⟩ := List.forall_mem_cons.1 h
    rw [Scope.itemTypes]
    refine bind hx fun t => ?_
    dsimp only
    generalize (if before = .text "[]" then t else before) = expected
    split
    · exact fail s _
    · exact ih hxs _

theorem itemType (n : Node) : Fueled (s.itemType n) := by
  induction n using Node.childInduction with
  | h n ih =>
    cases n with
    | listLiteral k xs =>
      cases xs with
      | nil =>
        unfold Scope.itemType
        exact ok _
      | cons x xs =>
        unfold Scope.itemType
        exact bind (itemTypes_of s ih _) fun _ => ok _
    | binary op a b | literal k v =>
      rw [Scope.itemType]
      exact typeOf s _
    | assign t v =>
      rw [Scope.itemType]
      exact ok _
    | _ =>
      unfold Scope.itemType
      exact error (by simp)

theorem listType (xs : List Node) : Fueled (s.listType xs) := by
  cases xs with
  | nil => exact ok _
  | cons x xs => exact bind (itemTypes_of s (fun x _ => itemType s x) _) fun _ => ok _

theorem typeOfOption (v : Option Node) : Fueled (s.typeOfOption v) := by
  cases v with
  | none =>
    rw [Scope.typeOfOption]
    exact ok _
  | some n =>
    rw [Scope.typeOfOption]
    exact typeOf s n

theorem targetType (target : Operand) : Fueled (s.targetType target) := by
  unfold Scope.targetType
  split
  · exact bind (typeOfName s _) fun _ => ok _
  · exact ok _
  · exact typeOf s _

theorem levels (type : Atom) : Fueled (Scope.levels type) := by
  unfold Scope.levels
  split
  · exact ok _
  · exact error (by simp)

theorem convertPrimitive (value : Node) (given expected : String) :
    Fueled (s.convertPrimitive value given expected) := by
  have hint : Fueled (Scope.literalInt value) := by
    unfold Scope.literalInt
    split
    · exact toInt _
    · exact error (by simp)
  have hreal : Fueled (Scope.literalReal value) := by
    unfold Scope.literalReal
    split
    · exact toReal _
    · exact error (by simp)
  unfold Scope.convertPrimitive
  split
  · exact ok _
  split
  · exact ok _
  split
  · exact bind hint fun _ => ok _
  split
  · exact ok _
  split
  · exact bind hint fun _ => ok _
  split
  · exact ok _
  split
  · exact bind hreal fun _ => ok _
  · exact fail s _

theorem checkAssignment (target : Operand) (value : Option Node) :
    Fueled (s.checkAssignment target value) := by
  unfold Scope.checkAssignment
  refine bind (targetType s target) fun expected => bind (typeOfOption s value) fun given => ?_
  split
  · exact ok _
  refine bind (levels _) fun n => bind (levels _) fun m => ?_
  split
  · exact fail s _
  split
  · split
    · exact fail s _
    · exact bind (convertPrimitive s _ _ _) fun _ => ok _
  dsimp only
  split
  · exact fail s _
  split
  · exact ok _
  split
  · exact ok _
  · exact fail s _

theorem convertArguments (function : Atom) (types : List String) (xs : List Node) :
    Fueled (s.convertArguments function types xs) := by
  induction types generalizing xs with
  | nil =>
    unfold Scope.convertArguments
    exact ok _
  | cons t types ih =>
    cases xs with
    | nil =>
      unfold Scope.convertArguments
      exact ok _
    | cons x xs =>
      unfold Scope.convertArguments
      refine bind (typeOf s x) fun given => ?_
      split
      · exact bind (ih xs) fun _ => ok _
      split
      · exact bind (ih xs) fun _ => ok _
      · exact fail s _

theorem checkCall (function : Atom) (args : List Node) : Fueled (s.checkCall function args) := by
  unfold Scope.checkCall
  split
  · exact ok _
  split
  · exact error (by simp)
  split
  · exact fail s _
  split
  · exact fail s _
  · exact convertArguments s _ _ _

end Fueled

end StackLang
