import StackLang.Proofs.Literal

/-!
# What parsers keep

`Parse.Keeps I T Q a` says of the parser `a`: from a state with the property `I` it goes to a state
in the relation `T` to it, and only gives results with the property `Q`. Parsers that are put together
from such parsers are such parsers, so what is known of a parser follows the functions of the grammar.

* `Parse.Frame`: what `I` and `T` have to allow;
* `Parse.Forms`: what a property of nodes has to allow, so that all nodes of an expression have it;
* `Parse.keptExpressions`: the parsers of expressions keep both, by induction on the fuel;
* `Parse.Keeps.declaration`, `Parse.Keeps.nameStatement`, …: so do the parsers of the statements that
  hold no other statements.
-/

namespace StackLang

open List

/-- Steps that come to a result come to one each. -/
theorem ok_of_bind {ε α β : Type} {x : Except ε α} {f : α → Except ε β} {y : β}
    (h : (x >>= f) = .ok y) : ∃ a, x = .ok a ∧ f a = .ok y := by
  cases x with
  | error e => cases h
  | ok a => exact ⟨a, rfl, h⟩

/-- An expression other than a literal, a list or a call. -/
def Node.isCompound : Node → Bool
  | .binary .. | .create .. | .member .. | .cast .. => true
  | _ => false

namespace Parse

variable {α β : Type} {s s' : ParseState}

/-- From a state with the property, the parser goes to one in the relation to it, and gives what has
    the property. -/
def Keeps (I : ParseState → Prop) (T : ParseState → ParseState → Prop) (Q : α → Prop)
    (a : Parse α) : Prop :=
  ∀ s, I s → ∀ x s', a s = .ok (x, s') → T s s' ∧ Q x

/-- The property stays, whatever tokens are taken and lines are marked. -/
class Frame (I : ParseState → Prop) (T : ParseState → ParseState → Prop) : Prop where
  refl (s : ParseState) : T s s
  trans {s t u : ParseState} : T s t → T t u → T s u
  stable {s t : ParseState} : I s → T s t → I t
  advance (s : ParseState) : T s { s with tokens := s.tokens.tail }
  markLine (s : ParseState) (line : Nat) : T s { s with scope := { s.scope with line } }

theorem current_eq (s : ParseState) : current s =
    match s.tokens with
    | t :: _ => .ok (t, s)
    | [] => .error .endOfTokens := by
  obtain ⟨tokens, fault, scope⟩ := s
  cases tokens <;> rfl

/-- To go on is to take one token, if there is one. -/
theorem ok_of_advance {x : Unit} (h : advance s = .ok (x, s')) :
    s' = { s with tokens := s.tokens.tail } := by
  obtain ⟨tokens, fault, scope⟩ := s
  rcases tokens with _ | ⟨t, _ | ⟨u, rest⟩⟩ <;> cases fault <;> cases h <;> rfl

theorem ok_of_ask {f : Scope → Except Fault α} {x : α} (h : ask f s = .ok (x, s')) :
    f s.scope = .ok x ∧ s' = s := by
  change (liftM (f s.scope) : Parse α) s = _ at h
  cases hf : f s.scope with
  | error fault =>
    rw [hf] at h
    cases h
  | ok y =>
    rw [hf] at h
    cases h
    exact ⟨rfl, rfl⟩

theorem ok_of_tryScope {f : Scope → Except Fault Scope} {s s' : ParseState} {u : Unit}
    (e : tryScope f s = .ok (u, s')) : ∃ t, f s.scope = .ok t ∧ s' = { s with scope := t } := by
  obtain ⟨⟨t, s₁⟩, ht, e⟩ := ok_of_bind e
  obtain ⟨ht, rfl⟩ := ok_of_ask ht
  cases e
  exact ⟨t, ht, rfl⟩

namespace Keeps

variable {I J : ParseState → Prop} {T : ParseState → ParseState → Prop} {Q : α → Prop} {R : β → Prop}

theorem throw (f : Fault) : Keeps I T Q (MonadExcept.throw f) := fun _ _ _ _ e => nomatch e

theorem weaken {a : Parse α} (h : Keeps I T Q a) (hJ : ∀ s, J s → I s) : Keeps J T Q a :=
  fun s hs => h s (hJ s hs)

theorem mono {Q' : α → Prop} {a : Parse α} (h : Keeps I T Q a) (hQ : ∀ x, Q x → Q' x) :
    Keeps I T Q' a := fun s hs x s' e => (h s hs x s' e).imp_right (hQ x)

/-- To look at the kind of a token leaves the token there. -/
theorem kindAt {f : Kind → Parse α}
    (h : ∀ t : Token, Keeps (fun s => I s ∧ s.tokens.head? = some t) T Q (f t.kind)) :
    Keeps I T Q (Parse.kind >>= f) := by
  intro s hs x s' e
  obtain ⟨tokens, fault, scope⟩ := s
  cases tokens with
  | nil => cases e
  | cons t ts => exact h t _ ⟨hs, rfl⟩ x s' e

theorem currentAt {f : Token → Parse α} {t : Token} (h : (∃ s, I s ∧ t ∈ s.tokens) → Keeps I T Q (f t)) :
    Keeps (fun s => I s ∧ s.tokens.head? = some t) T Q (Parse.current >>= f) := by
  rintro s ⟨hs, ht⟩ x s' e
  obtain ⟨tokens, fault, scope⟩ := s
  cases tokens with
  | nil => cases ht
  | cons u ts =>
    cases ht
    exact h ⟨_, hs, mem_cons_self⟩ _ hs x s' e

theorem modifyScope {f : Scope → Scope} (h : ∀ s : ParseState, T s { s with scope := f s.scope }) :
    Keeps I T (fun _ => True) (Parse.modifyScope f) := by
  intro s _ x s' e
  cases e
  exact ⟨h s, trivial⟩

theorem tryScope {f : Scope → Except Fault Scope} {Q : Prop}
    (h : ∀ s t, f s.scope = .ok t → T s { s with scope := t } ∧ Q) :
    Keeps I T (fun _ => Q) (Parse.tryScope f) := by
  intro s _ x s' e
  obtain ⟨t, ht, rfl⟩ := ok_of_tryScope e
  exact h s t ht

/-! ### How parsers are put together -/

variable [Frame I T]

theorem pure {x : α} (h : Q x) : Keeps I T Q (Pure.pure x) := by
  intro s _ y s' e
  cases e
  exact ⟨Frame.refl I s, h⟩

theorem bind {a : Parse α} {f : α → Parse β} (ha : Keeps I T Q a)
    (hf : ∀ x, Q x → Keeps I T R (f x)) : Keeps I T R (a >>= f) := by
  intro s hs y s' e
  obtain ⟨⟨x, s₁⟩, hr, e⟩ := ok_of_bind e
  obtain ⟨hs₁, hx⟩ := ha s hs x s₁ hr
  obtain ⟨hs', hy⟩ := hf x hx s₁ (Frame.stable hs hs₁) y s' e
  exact ⟨Frame.trans I hs₁ hs', hy⟩

/-- What comes next, after a parser of which only its end matters. -/
theorem next {a : Parse α} {f : α → Parse β} (ha : Keeps I T (fun _ => True) a)
    (hf : ∀ x, Keeps I T R (f x)) : Keeps I T R (a >>= f) := bind ha fun x _ => hf x

/-- Nothing is asked of what comes after a parser that gives nothing. -/
theorem stuck {a : Parse α} {f : α → Parse β} (ha : Keeps I T (fun _ => False) a) :
    Keeps I T R (a >>= f) := bind ha fun _ h => h.elim

/-! ### Tokens and names -/

theorem current : Keeps I T (fun _ => True) Parse.current := by
  intro s _ t s' e
  rw [current_eq] at e
  split at e <;> cases e
  exact ⟨Frame.refl I s, trivial⟩

theorem current? : Keeps I T (fun _ => True) Parse.current? := by
  intro s _ t s' e
  cases e
  exact ⟨Frame.refl I s, trivial⟩

theorem kind : Keeps I T (fun _ => True) Parse.kind := next current fun _ => pure trivial

theorem advance : Keeps I T (fun _ => True) Parse.advance := by
  intro s _ x s' e
  rw [ok_of_advance e]
  exact ⟨Frame.advance I s, trivial⟩

theorem reject (cause : String → SyntaxCause) : Keeps I T Q (Parse.reject cause) :=
  next current fun _ => throw _

theorem unless_rejected {c : Prop} [Decidable c] {cause : String → SyntaxCause}
    {rest : Unit → Parse α} (h : Keeps I T Q (rest ())) :
    Keeps I T Q (if c then Parse.reject cause >>= rest else rest ()) := by
  split
  · exact stuck (reject cause)
  · exact h

theorem scope : Keeps I T (fun _ => True) Parse.scope := by
  intro s _ x s' e
  cases e
  exact ⟨Frame.refl I s, trivial⟩

theorem ask {f : Scope → Except Fault α} (h : ∀ s x, I s → f s.scope = .ok x → Q x) :
    Keeps I T Q (Parse.ask f) := by
  intro s hs x s' e
  obtain ⟨hx, rfl⟩ := ok_of_ask e
  exact ⟨Frame.refl I _, h _ x hs hx⟩

theorem asked (f : Scope → Except Fault α) : Keeps I T (fun _ => True) (Parse.ask f) :=
  ask fun _ _ _ _ => trivial

theorem markLine : Keeps I T (fun _ => True) Parse.markLine :=
  next current fun t s _ x s' e => by
    cases e
    exact ⟨Frame.markLine I s t.line, trivial⟩

theorem typeName : Keeps I T (fun _ => True) Parse.typeName := by
  refine next current fun t => ?_
  split <;> exact pure trivial

theorem atType : Keeps I T (fun _ => True) Parse.atType :=
  next current fun _ => next scope fun _ => pure trivial

theorem atOperator (group : Nat) : Keeps I T (fun _ => True) (Parse.atOperator group) := by
  refine next current? fun o => ?_
  split <;> exact pure trivial

theorem bracketPairs (n : Nat) (type : String) :
    Keeps I T (fun _ => True) (Parse.bracketPairs n type) := by
  induction n generalizing type with
  | zero => exact throw _
  | succ n ih =>
    unfold Parse.bracketPairs
    refine next kind fun k => ?_
    split
    · exact next advance fun _ => ih _
    · exact pure trivial

theorem parameters (n : Nat) : Keeps I T (fun _ => True) (Parse.parameters n) := by
  induction n with
  | zero => exact throw _
  | succ n ih =>
    unfold Parse.parameters
    refine next kind fun k => ?_
    split
    · exact pure trivial
    refine next advance fun _ => next typeName fun type => next advance fun _ => next kind fun k => ?_
    split
    · exact next advance fun _ => stuck (throw _)
    · exact next current fun t => next advance fun _ => next ih fun _ => pure trivial

theorem fields (n : Nat) : Keeps I T (fun _ => True) (Parse.fields n) := by
  induction n with
  | zero => exact throw _
  | succ n ih =>
    unfold Parse.fields
    refine next kind fun k => ?_
    split
    · exact pure trivial
    refine next current fun t => next advance fun _ => next kind fun k => ?_
    generalize (if t.kind = .identifier then t.value.shown else t.kind.name) = type
    split
    · exact next advance fun _ => stuck (throw _)
    · refine next kind fun k => unless_rejected (next current fun t => next advance fun _ => ?_)
      exact next kind fun k => unless_rejected (next advance fun _ => next ih fun _ => pure trivial)

end Keeps

/-! ### Types -/

section

variable {s : Scope} {xs : List Node} {x : Node} {f : Atom} {ys : List Node}

/-- The type of a list shows its brackets. -/
theorem brackets_of_listType {t : Atom} (h : s.listType xs = .ok t) :
    ∃ base, t.shown = base ++ "[]" := by
  cases xs with
  | nil =>
    cases h
    exact ⟨"", rfl⟩
  | cons x xs =>
    obtain ⟨t', -, h⟩ := ok_of_bind h
    cases h
    exact ⟨t'.shown, rfl⟩

/-- What a conversion makes of an expression: the expression itself, a cast of it, or a literal in
    its place. -/
inductive Converted (x : Node) : Node → Prop
  | same : Converted x x
  | cast (t u : String) : Converted x (.cast t u x)
  | int (n : Int) : Converted x (.literal "INT_LITERAL" (.int n))
  | bool (b : Bool) : Converted x (.literal "BOOL_LITERAL" (.bool b))
  | real (r : Real64) : Converted x (.literal "FLOAT_LITERAL" (.real r))

/-- Expressions from the first on, each converted. -/
inductive ConvertedAll : List Node → List Node → Prop
  | nil (xs : List Node) : ConvertedAll xs []
  | cons {x y : Node} {xs ys : List Node} (head : Converted x y) (tail : ConvertedAll xs ys) :
      ConvertedAll (x :: xs) (y :: ys)

theorem ConvertedAll.refl (xs : List Node) : ConvertedAll xs xs := by
  induction xs with
  | nil => exact .nil []
  | cons x xs ih => exact .cons .same ih

/-- A converted literal is one again, and anything else is cast. -/
theorem converted_of_convertPrimitive {y : Node} {given expected : String}
    (h : s.convertPrimitive x given expected = .ok y) : Converted x y := by
  unfold Scope.convertPrimitive at h
  split at h
  · cases h
    exact .cast _ _
  split at h
  · cases h
    exact .same
  split at h
  · obtain ⟨n, -, h⟩ := ok_of_bind h
    cases h
    exact .int _
  split at h
  · cases h
    exact .same
  split at h
  · obtain ⟨n, -, h⟩ := ok_of_bind h
    cases h
    exact .int _
  split at h
  · cases h
    exact .bool _
  split at h
  · obtain ⟨r, -, h⟩ := ok_of_bind h
    cases h
    exact .real _
  · cases h

theorem converted_of_checkAssignment {target : Operand} {v : Option Node}
    (h : s.checkAssignment target (some x) = .ok v) : ∃ y, v = some y ∧ Converted x y := by
  obtain ⟨expected, -, h⟩ := ok_of_bind h
  obtain ⟨given, -, h⟩ := ok_of_bind h
  split at h
  · cases h
    exact ⟨x, rfl, .same⟩
  obtain ⟨n, -, h⟩ := ok_of_bind h
  obtain ⟨m, -, h⟩ := ok_of_bind h
  split at h
  · cases h
  split at h
  · split at h
    · cases h
    · obtain ⟨y, hy, h⟩ := ok_of_bind h
      cases h
      exact ⟨y, rfl, converted_of_convertPrimitive hy⟩
  · dsimp only at h
    split at h
    · cases h
    split at h
    · cases h
      exact ⟨_, rfl, .cast _ _⟩
    split at h
    · cases h
      exact ⟨_, rfl, .cast _ _⟩
    · cases h

theorem converted_of_convertArguments {ts : List String} (h : s.convertArguments f ts xs = .ok ys) :
    ConvertedAll xs ys := by
  fun_induction Scope.convertArguments s f ts xs generalizing ys with
  | case1 t ts x xs ih =>
    obtain ⟨given, -, h⟩ := ok_of_bind h
    split at h
    · obtain ⟨zs, hz, h⟩ := ok_of_bind h
      cases h
      exact .cons .same (ih hz)
    split at h
    · obtain ⟨zs, hz, h⟩ := ok_of_bind h
      cases h
      exact .cons (.cast _ _) (ih hz)
    · cases h
  | case2 =>
    cases h
    exact .nil _

theorem converted_of_checkCall (h : s.checkCall f xs = .ok ys) : ConvertedAll xs ys := by
  unfold Scope.checkCall at h
  split at h
  · cases h
    exact .refl xs
  split at h
  · cases h
  split at h
  · cases h
  split at h
  · cases h
  · exact converted_of_convertArguments h

end

/-! ### Expressions -/

/-- The nodes that expressions are made of have the property. -/
class Forms (I : ParseState → Prop) (P : Node → Prop) : Prop where
  token {s : ParseState} {t : Token} : I s → t ∈ s.tokens →
    P (.literal (if isLiteralKind t.kind then t.kind.name else "VARIABLE") t.value)
  constant {k : String} {v : Atom} : Lexeme k v → P (.literal k v)
  list (type : String) (xs : List Node) : P (.listLiteral (type ++ "[]") xs)
  call {s : ParseState} {f : Atom} {xs ys : List Node} (o : Operand) : I s →
    s.scope.checkCall f xs = .ok ys → P (.call f.shown ys o)
  compound {x : Node} : x.isCompound → P x

section

variable (I : ParseState → Prop) (T : ParseState → ParseState → Prop) {P : Node → Prop}
  [Frame I T] [Forms I P]

include I in
theorem converted_throughout {x y : Node} (h : Converted x y) (hx : x.Throughout P) :
    y.Throughout P := by
  cases h with
  | same => exact hx
  | cast t u => exact .intro (Forms.compound I rfl) (forall_mem_singleton.2 hx)
  | int n => exact .intro (Forms.constant I (.int n)) (forall_mem_nil _)
  | bool b => exact .intro (Forms.constant I (.bool b)) (forall_mem_nil _)
  | real r => exact .intro (Forms.constant I (.real r)) (forall_mem_nil _)

include I in
theorem convertedAll_throughout {xs ys : List Node} (h : ConvertedAll xs ys)
    (hx : ∀ x ∈ xs, x.Throughout P) : ∀ y ∈ ys, y.Throughout P := by
  induction h with
  | nil => exact forall_mem_nil _
  | cons head _ ih =>
    rw [forall_mem_cons] at hx ⊢
    exact ⟨converted_throughout I head hx.1, ih hx.2⟩

include I in
theorem member_throughout {o a : Operand} {i : Bool} (ho : ∀ x ∈ o.nodes, x.Throughout P)
    (ha : ∀ x ∈ a.nodes, x.Throughout P) : (Node.member o a i).Throughout P :=
  .intro (Forms.compound I rfl) (forall_mem_append.2 ⟨ho, ha⟩)

/-- The parsers of expressions keep the frame and give nodes with the property, given fuel `n`. -/
structure KeptExpressions (P : Node → Prop) (n : Nat) : Prop where
  expression : Keeps I T (Node.Throughout P) (expression n)
  operators (group : Nat) : Keeps I T (Node.Throughout P) (operators n group)
  operatorsAfter (group : Nat) {x : Node} : x.Throughout P →
    Keeps I T (Node.Throughout P) (operatorsAfter n group x)
  unary : Keeps I T (Node.Throughout P) (unary n)
  items : Keeps I T (fun xs => ∀ x ∈ xs, x.Throughout P) (items n)
  firstIndex : Keeps I T (Node.Throughout P) (firstIndex n)
  indices {x : Node} : x.Throughout P → Keeps I T (Node.Throughout P) (indices n x)
  arguments : Keeps I T (fun xs => ∀ x ∈ xs, x.Throughout P) (arguments n)
  call (f : Atom) {o : Operand} : (∀ x ∈ o.nodes, x.Throughout P) →
    Keeps I T (Node.Throughout P) (call n f o)

end

variable {I : ParseState → Prop} {T : ParseState → ParseState → Prop} {P : Node → Prop}
  [Frame I T] [Forms I P]

namespace Keeps

theorem unary_succ {n : Nat} (ih : KeptExpressions I T P n) :
    Keeps I T (Node.Throughout P) (Parse.unary (n + 1)) := by
  have noNodes : ∀ a : Atom, ∀ x ∈ (Operand.atom a).nodes, x.Throughout P :=
    fun _ => forall_mem_nil _
  unfold Parse.unary
  refine next kind fun k => ?_
  split
  · exact next advance fun _ => pure (.intro (Forms.list I "" []) (forall_mem_nil _))
  refine next markLine fun _ => kindAt fun t => ?_
  have start : ∀ s, I s ∧ s.tokens.head? = some t → I s := fun _ h => h.1
  split
  · -- a list
    refine weaken (bind ih.items fun xs hxs => next advance fun _ => ?_) start
    refine bind (ask fun _ _ _ => brackets_of_listType) fun type htype => pure ?_
    obtain ⟨base, hbase⟩ := htype
    exact hbase ▸ .intro (Forms.list I base xs) hxs
  · -- an expression in parentheses
    refine weaken (next advance fun _ => bind (ih.operators 0) fun x hx => ?_) start
    exact next current? fun _ => unless_rejected (next advance fun _ => pure hx)
  · -- a new record
    refine weaken (next advance fun _ => next current fun r => next advance fun _ => ?_) start
    exact bind ih.arguments fun xs hxs => next advance fun _ =>
      pure (.intro (Forms.compound I rfl) hxs)
  · -- the token stands for itself, and it is the one whose kind has been looked at
    refine currentAt fun ht => next advance fun _ => ?_
    obtain ⟨s, hs, ht⟩ := ht
    have htoken := Forms.token (P := P) hs ht
    split
    · rename_i hk
      rw [if_pos hk] at htoken
      exact pure (.intro htoken (forall_mem_nil _))
    rename_i hk
    rw [if_neg hk] at htoken
    -- a name is called, has a member, or is looked up and perhaps indexed
    refine next kind fun k => ?_
    split
    · exact ih.call _ (noNodes _)
    · refine next advance fun _ => next current fun u => next advance fun _ => next kind fun k => ?_
      split
      · exact pure (member_throughout I (noNodes _) (noNodes _))
      · exact ih.call _ (noNodes _)
    · refine next markLine fun _ => next (asked _) fun _ => next kind fun k => ?_
      split
      · exact bind ih.firstIndex fun x hx =>
          ih.indices (member_throughout I (noNodes _) (forall_mem_singleton.2 hx))
      · exact pure (.intro htoken (forall_mem_nil _))

end Keeps

theorem keptExpressions (I : ParseState → Prop) (T : ParseState → ParseState → Prop) (P : Node → Prop)
    [Frame I T] [Forms I P] (n : Nat) : KeptExpressions I T P n := by
  induction n with
  | zero =>
    -- without fuel every parser fails
    constructor <;> intros <;> exact Keeps.throw _
  | succ n ih =>
    constructor
    case expression =>
      unfold expression
      refine .next .current? fun o => ?_
      split
      · refine .next .advance fun _ => .bind (ih.operators 0) fun x hx => .pure ?_
        exact .intro (Forms.compound I rfl) (forall_mem_singleton.2 hx)
      · exact ih.operators 0
    case operators =>
      intro group
      unfold operators
      split
      · exact ih.unary
      · exact .bind (ih.operators _) fun x hx => ih.operatorsAfter _ hx
    case operatorsAfter =>
      intro group x hx
      unfold operatorsAfter
      refine .next (.atOperator group) fun b => ?_
      split
      · refine .next .current fun t => .next .advance fun _ =>
          .bind (ih.operators _) fun y hy => ih.operatorsAfter _ ?_
        exact .intro (Forms.compound I rfl)
          (forall_mem_cons.2 ⟨hx, forall_mem_singleton.2 hy⟩)
      · exact .pure hx
    case unary => exact Keeps.unary_succ ih
    case items =>
      unfold items
      refine .next .kind fun k => ?_
      split
      · exact .pure (forall_mem_nil _)
      · exact .next .advance fun _ => .bind ih.expression fun x hx =>
          .bind ih.items fun xs hxs => .pure (forall_mem_cons.2 ⟨hx, hxs⟩)
    case firstIndex =>
      unfold firstIndex
      exact .next .advance fun _ => .bind ih.expression fun x hx => .next .kind fun k =>
        .unless_rejected (.next .advance fun _ => .pure hx)
    case indices =>
      intro x hx
      unfold indices
      refine .next .kind fun k => ?_
      split
      · exact .next .advance fun _ => .bind ih.expression fun y hy => .next .advance fun _ =>
          ih.indices (member_throughout I (forall_mem_singleton.2 hx)
            (forall_mem_singleton.2 hy))
      · exact .pure hx
    case arguments =>
      unfold arguments
      refine .next .kind fun k => ?_
      split
      · exact .pure (forall_mem_nil _)
      refine .next .advance fun _ => .next .kind fun k => ?_
      split
      · exact .pure (forall_mem_nil _)
      · exact .reject _
      · exact .bind ih.expression fun x hx => .bind ih.arguments fun xs hxs =>
          .pure (forall_mem_cons.2 ⟨hx, hxs⟩)
    case call =>
      intro f o ho
      unfold call
      refine .next .markLine fun _ => .bind ih.arguments fun xs hxs => .next .advance fun _ => ?_
      have hcheck : Keeps I T (fun ys => (Node.call f.shown ys o).Throughout P)
          (Parse.ask (·.checkCall f xs)) := .ask fun s ys hs h =>
        .intro (Forms.call o hs h) (forall_mem_append.2
          ⟨convertedAll_throughout I (converted_of_checkCall h) hxs, ho⟩)
      refine .bind hcheck fun ys hcall => .next .kind fun k => ?_
      split
      · exact .next .advance fun _ => .next .current fun t => .next .advance fun _ =>
          ih.call _ (forall_mem_singleton.2 hcall)
      · exact .pure hcall

/-! ### Statements without statements in them -/

/-- Records can be declared, and the nodes of such declarations and of assignments have the property. -/
class Acts (T : ParseState → ParseState → Prop) (P : Node → Prop) : Prop where
  declareRecord {s : ParseState} {name : Atom} {fields : List (Atom × String)} {t : Scope} :
    s.scope.declareRecord name fields = .ok t → T s { s with scope := t }
  record (name : Atom) (fields : List Parameter) : P (.record name fields)
  assigned (target : Operand) (value : Node) : P (.assign target value)

/-- So can variables. -/
class Declaring (T : ParseState → ParseState → Prop) (P : Node → Prop) : Prop extends Acts T P where
  declare {s : ParseState} {name : Atom} {type : String} {t : Scope} :
    s.scope.declare name type = .ok t → T s { s with scope := t }
  declared (name : Atom) (type : String) (value : Option Node) : P (.declare name type value)

namespace Keeps

/-- What a declaration reads behind the name of its variable. -/
theorem initial (n : Nat) (name : Atom) (type : String) {k : Kind} :
    Keeps I T (fun x : Node => ∃ value, x = .declare name type value ∧
      ∀ v ∈ value, v.Throughout P) (match k with
        | .semicolon => do
          Parse.advance
          return .declare name type none
        | .assign => do
          Parse.advance
          let value ← Parse.expression n
          Parse.advance
          let value ← Parse.ask (·.checkAssignment (.atom name) (some value))
          return .declare name type value
        | _ => Parse.reject .assignment) := by
  split
  · exact next advance fun _ => pure ⟨none, rfl, by simp⟩
  · refine next advance fun _ => bind (keptExpressions I T P n).expression fun x hx =>
      next advance fun _ => bind (ask fun _ _ _ => converted_of_checkAssignment) fun v hv => pure ?_
    obtain ⟨y, rfl, hy⟩ := hv
    refine ⟨some y, rfl, ?_⟩
    rintro _ ⟨⟩
    exact converted_throughout I hy hx
  · exact reject _

theorem declaration [Declaring T P] (n : Nat) :
    Keeps I T (Node.Throughout P) (Parse.declaration n) := by
  unfold Parse.declaration
  refine next typeName fun type => next markLine fun _ => next advance fun _ =>
    next (bracketPairs n type) fun type => next current fun t => next advance fun _ =>
    next (tryScope fun _ _ h => ⟨Declaring.declare P h, trivial⟩) fun _ => next kind fun k => ?_
  intro s hs x s' e
  obtain ⟨hs', value, rfl, hvalue⟩ := initial (T := T) (P := P) n t.value type s hs x s' e
  exact ⟨hs', .intro (Declaring.declared T _ _ _) fun m hm => hvalue m (by simpa [Node.children] using hm)⟩

variable [Acts T P] {o : Operand}

omit [Forms I P] in
theorem recordDeclaration (n : Nat) :
    Keeps I T (fun x => (∃ name fs, x = .record name fs) ∧ x.Throughout P) (Parse.recordDeclaration n) := by
  unfold Parse.recordDeclaration
  refine next advance fun _ => next current fun t => next advance fun _ => next kind fun k =>
    unless_rejected (next advance fun _ => next markLine fun _ => next (fields n) fun fs =>
      next advance fun _ => next (tryScope fun _ _ h => ⟨Acts.declareRecord P h, trivial⟩) fun _ => pure ?_)
  exact ⟨⟨t.value, fs, rfl⟩, .intro (Acts.record T _ _) (forall_mem_nil _)⟩

theorem assigned (n : Nat) (ho : ∀ x ∈ o.nodes, x.Throughout P) :
    Keeps I T (Node.Throughout P) (Parse.assigned n o) := by
  unfold Parse.assigned
  refine next advance fun _ => bind (keptExpressions I T P n).expression fun x hx => next advance fun _ =>
    bind (ask fun _ _ _ => converted_of_checkAssignment) fun v hv => pure ?_
  obtain ⟨y, rfl, hy⟩ := hv
  exact .intro (Acts.assigned T _ _) (forall_mem_cons.2 ⟨converted_throughout I hy hx, ho⟩)

theorem assignmentEnd (n : Nat) (ho : ∀ x ∈ o.nodes, x.Throughout P) :
    Keeps I T (Node.Throughout P) (Parse.assignmentEnd n o) :=
  next kind fun _ => unless_rejected (assigned n ho)

omit [Acts T P] in
theorem callStatement (n : Nat) (f : Atom) (ho : ∀ x ∈ o.nodes, x.Throughout P) :
    Keeps I T (Node.Throughout P) (Parse.callStatement n f o) :=
  bind ((keptExpressions I T P n).call f ho) fun _ hx => next advance fun _ => pure hx

theorem assignmentOrCall (n : Nat) (ho : ∀ x ∈ o.nodes, x.Throughout P) :
    Keeps I T (Node.Throughout P) (Parse.assignmentOrCall n o) := by
  unfold Parse.assignmentOrCall
  refine next kind fun k => ?_
  split
  · refine next advance fun _ => next current fun t => next advance fun _ => next kind fun k => ?_
    split
    · exact callStatement n _ ho
    · exact assignmentEnd n (forall_mem_singleton.2 (member_throughout I ho (forall_mem_nil _)))
  · refine next kind fun k => ?_
    split
    · split <;> exact callStatement n _ (forall_mem_nil _)
    · exact assignmentEnd n ho

theorem nameStatement (n : Nat) : Keeps I T (Node.Throughout P) (Parse.nameStatement n) := by
  unfold Parse.nameStatement
  refine next current fun t => next advance fun _ => next markLine fun _ => next kind fun k => ?_
  split
  · refine bind (keptExpressions I T P n).firstIndex fun x hx =>
      bind ((keptExpressions I T P n).indices (member_throughout I (forall_mem_nil _)
        (forall_mem_singleton.2 hx))) fun y hy => next kind fun k => ?_
    split
    · exact assigned n (forall_mem_singleton.2 hy)
    · exact assignmentOrCall n (forall_mem_singleton.2 hy)
  · exact assignmentOrCall n (forall_mem_nil _)

omit [Acts T P] in
theorem head (n : Nat) : Keeps I T (Node.Throughout P) (Parse.head n) :=
  next kind fun _ => unless_rejected (next advance fun _ =>
    bind (keptExpressions I T P n).expression fun _ hx => next advance fun _ => pure hx)

end Keeps

end Parse

end StackLang
