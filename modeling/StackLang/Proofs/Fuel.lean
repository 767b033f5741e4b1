import StackLang.Proofs.Keeping
import StackLang.Proofs.TypingFault

/-!
# Fuel of the parser

The functions of the grammar take fuel and stop with a fault of its own when it runs out. There is a bound
on the fuel that a function needs, sixteen units for each token that is left and a few more, and with that
much fuel the function comes to the end that it comes to with any more. The bound holds since each function
goes down a level of the grammar, of which there are fewer than sixteen, or takes a token.

* `Parse.Goes enough ts fault m m' a b`: the parser `a` and its copy `b` with more fuel come to the same
  end, if there is *enough* fuel for `a`; from a place marked `m` in the tokens `ts` they come to `m'`;
* `Parse.Bounded`: such a bound for a function of the grammar, with the number of tokens that it takes at
  least;
* `Parse.boundedExpressions` and `Parse.boundedStatements`: the bounds, by induction on the fuel;
* `parser_stops`: so the fuel of `parse` does not run out.
-/

namespace StackLang

variable {α β : Type}

namespace Parse

/-- To go on stops with the fault of the scan, or passes over a token if there is one. -/
theorem advance_cases (s : ParseState) : (∃ f, s.fault = some f ∧ advance s = .error f) ∨
    advance s = .ok ((), { s with tokens := s.tokens.tail }) := by
  obtain ⟨tokens, fault, scope⟩ := s
  rcases tokens with _ | ⟨t, _ | ⟨u, rest⟩⟩ <;> cases fault
  case nil.some f | cons.nil.some f => exact .inl ⟨f, rfl, rfl⟩
  all_goals exact .inr rfl

/-! ### Places in the tokens -/

/-- A place in the tokens of a program: whether a token is known to be left, and how many tokens are taken
    at least. -/
structure Mark where
  more : Bool
  taken : Nat

/-- The parser stands at a place in the tokens. -/
structure Stands (ts : List Token) (fault : Option Fault) (m : Mark) (s : ParseState) : Prop where
  fault : s.fault = fault
  suffix : s.tokens <:+ ts
  taken : s.tokens.length + m.taken ≤ ts.length
  more : m.more = true → s.tokens ≠ []

namespace Stands

variable {ts : List Token} {fault : Option Fault} {more : Bool} {j j' : Nat} {s : ParseState}

/-- Less may be said of a place. -/
theorem behind (h : Stands ts fault ⟨more, j⟩ s) (hj : j' ≤ j) : Stands ts fault ⟨false, j'⟩ s :=
  ⟨h.fault, h.suffix, Nat.le_trans (Nat.add_le_add_left hj _) h.taken, (absurd · Bool.false_ne_true)⟩

/-- A token that is there is left. -/
theorem at_token {t : Token} {rest : List Token} (h : Stands ts fault ⟨more, j⟩ s)
    (hs : s.tokens = t :: rest) : Stands ts fault ⟨true, j⟩ s :=
  ⟨h.fault, h.suffix, h.taken, fun _ => hs ▸ List.cons_ne_nil _ _⟩

end Stands

/-- How a parser ends, beside a copy of it that has more fuel. If there is enough fuel for the parser, they
    end alike, and only a fault of the scan can pass for the want of fuel. -/
inductive EndsAlike (enough : Prop) (fault : Option Fault) (Q : ParseState → Prop) :
    Except Fault (α × ParseState) → Except Fault (α × ParseState) → Prop
  | ok {x : α} {s : ParseState} (at_end : Q s) : EndsAlike enough fault Q (.ok (x, s)) (.ok (x, s))
  | stop {f : Fault} (scanned : f = .exhausted → fault = some .exhausted) :
      EndsAlike enough fault Q (.error f) (.error f)
  | exhausted {r : Except Fault (α × ParseState)} (short : ¬enough) :
      EndsAlike enough fault Q (.error .exhausted) r

/-- From one place in the tokens the parser and its copy with more fuel come to another place, or end alike
    before, if the fuel is enough. -/
def Goes (enough : Prop) (ts : List Token) (fault : Option Fault) (m m' : Mark) (a b : Parse α) : Prop :=
  ∀ s, Stands ts fault m s → EndsAlike enough fault (Stands ts fault m') (a s) (b s)

namespace Goes

variable {enough : Prop} {ts : List Token} {fault : Option Fault} {m m₁ m' : Mark} {more : Bool}
  {j j' : Nat} {c : Prop} {f : Fault}

/-! ### How parsers are put together -/

theorem pure {x : α} (hj : j' ≤ j) :
    Goes enough ts fault ⟨more, j⟩ ⟨false, j'⟩ (Pure.pure x) (Pure.pure x) :=
  fun _ hs => .ok (hs.behind hj)

/-- A result that leaves a token if there was one. -/
theorem here {x : α} (hj : j' ≤ j) :
    Goes enough ts fault ⟨more, j⟩ ⟨more, j'⟩ (Pure.pure x) (Pure.pure x) :=
  fun _ hs => .ok { hs with taken := (hs.behind hj).taken }

theorem bind {a b : Parse α} {f g : α → Parse β} (ha : Goes enough ts fault m m₁ a b)
    (hf : ∀ x, Goes enough ts fault m₁ m' (f x) (g x)) :
    Goes enough ts fault m m' (a >>= f) (b >>= g) := by
  intro s hs
  have h := ha s hs
  change EndsAlike _ _ _ (a s >>= fun p => f p.1 p.2) (b s >>= fun p => g p.1 p.2)
  generalize a s = r at h
  generalize b s = r' at h
  cases h with
  | ok at_end => exact hf _ _ at_end
  | stop scanned => exact .stop scanned
  | exhausted short => exact .exhausted short

/-- The last step may come further than it has to. -/
theorem last {a b : Parse α} (h : Goes enough ts fault m ⟨more, j⟩ a b) (hj : j' ≤ j) :
    Goes enough ts fault m ⟨false, j'⟩ a b := by
  intro s hs
  have h := h s hs
  generalize a s = r at h
  generalize b s = r' at h
  cases h with
  | ok at_end => exact .ok (at_end.behind hj)
  | stop scanned => exact .stop scanned
  | exhausted short => exact .exhausted short

theorem ite [Decidable c] {a₁ a₂ b₁ b₂ : Parse α} (h₁ : c → Goes enough ts fault m m' a₁ b₁)
    (h₂ : ¬c → Goes enough ts fault m m' a₂ b₂) :
    Goes enough ts fault m m' (if c then a₁ else a₂) (if c then b₁ else b₂) := by
  by_cases hc : c
  · rw [if_pos hc, if_pos hc]
    exact h₁ hc
  · rw [if_neg hc, if_neg hc]
    exact h₂ hc

theorem throw (h : f ≠ .exhausted) :
    Goes enough ts fault m m' (MonadExcept.throw f : Parse α) (MonadExcept.throw f) :=
  fun _ _ => .stop (absurd · h)

/-- Nothing comes after a fault. -/
theorem stuck {g h : α → Parse β} (hf : f ≠ .exhausted) :
    Goes enough ts fault m m' (MonadExcept.throw f >>= g) (MonadExcept.throw f >>= h) :=
  fun _ _ => .stop (absurd · hf)

/-! ### Tokens and names -/

/-- Where a token is asked for, one is left. -/
theorem current : Goes enough ts fault ⟨more, j⟩ ⟨true, j⟩ Parse.current Parse.current := by
  intro s hs
  rw [current_eq]
  cases h : s.tokens with
  | nil => exact .stop (absurd · (by simp))
  | cons t rest => exact .ok (hs.at_token h)

theorem kind : Goes enough ts fault ⟨more, j⟩ ⟨true, j⟩ Parse.kind Parse.kind :=
  bind current fun _ => here (Nat.le_refl _)

/-- A token that need not be there. -/
theorem current? {f g : Option Token → Parse α}
    (hsome : ∀ t, Goes enough ts fault ⟨true, j⟩ m' (f (some t)) (g (some t)))
    (hnone : Goes enough ts fault ⟨more, j⟩ m' (f none) (g none)) :
    Goes enough ts fault ⟨more, j⟩ m' (Parse.current? >>= f) (Parse.current? >>= g) := by
  intro s hs
  change EndsAlike _ _ _ (f s.tokens.head? s) (g s.tokens.head? s)
  cases h : s.tokens with
  | nil => exact hnone s hs
  | cons t rest => exact hsome t s (hs.at_token h)

theorem of_advance {k : Nat}
    (hk : ∀ s, Stands ts fault ⟨more, j⟩ s → s.tokens.length - 1 + k ≤ ts.length) :
    Goes enough ts fault ⟨more, j⟩ ⟨false, k⟩ Parse.advance Parse.advance := by
  intro s hs
  rcases Parse.advance_cases s with ⟨f, hf, hadvance⟩ | hadvance
  · rw [hadvance]
    exact .stop fun h => by rw [← hs.fault, hf, h]
  · rw [hadvance]
    refine .ok ⟨hs.fault, (List.tail_suffix _).trans hs.suffix, ?_, (absurd · Bool.false_ne_true)⟩
    rw [List.length_tail]
    exact hk s hs

/-- To go on from a token is to take it. -/
theorem advance : Goes enough ts fault ⟨true, j⟩ ⟨false, j + 1⟩ Parse.advance Parse.advance := by
  refine of_advance fun s hs => ?_
  have hpos := List.length_pos_iff.2 (hs.more rfl)
  have htaken : s.tokens.length + j ≤ ts.length := hs.taken
  omega

/-- To go on from anywhere takes a token if there is one. -/
theorem skip : Goes enough ts fault ⟨more, j⟩ ⟨false, j⟩ Parse.advance Parse.advance := by
  refine of_advance fun s hs => ?_
  have htaken : s.tokens.length + j ≤ ts.length := hs.taken
  omega

theorem reject {cause : String → SyntaxCause} :
    Goes enough ts fault ⟨more, j⟩ m' (Parse.reject cause : Parse α) (Parse.reject cause) :=
  bind current fun _ => throw (by simp)

theorem unless_rejected [Decidable c] {cause : String → SyntaxCause} {f g : Unit → Parse α}
    (h : Goes enough ts fault ⟨more, j⟩ m' (f ()) (g ())) :
    Goes enough ts fault ⟨more, j⟩ m' (if c then Parse.reject cause >>= f else f ())
      (if c then Parse.reject cause >>= g else g ()) :=
  ite (fun _ => bind reject fun _ => h) fun _ => h

theorem modifyScope (f : Scope → Scope) :
    Goes enough ts fault m m (Parse.modifyScope f) (Parse.modifyScope f) :=
  fun _ hs => .ok ⟨hs.fault, hs.suffix, hs.taken, hs.more⟩

theorem scope : Goes enough ts fault m m Parse.scope Parse.scope := fun _ hs => .ok hs

theorem lift {x : Except Fault α} (h : Fueled x) :
    Goes enough ts fault m m (liftM x : Parse α) (liftM x) := by
  intro s hs
  cases x with
  | error f => exact .stop fun hf => absurd (congrArg _ hf) h
  | ok y => exact .ok hs

theorem tryScope {f : Scope → Except Fault Scope} (h : ∀ s, Fueled (f s)) :
    Goes enough ts fault m m (Parse.tryScope f) (Parse.tryScope f) := by
  intro s hs
  have htry : Parse.tryScope f s = (liftM (f s.scope) >>= fun c =>
      MonadState.set { s with scope := c } : Parse PUnit) s := rfl
  have hf := h s.scope
  rw [htry]
  generalize f s.scope = r at hf
  cases r with
  | error e => exact .stop fun he => absurd (congrArg _ he) hf
  | ok c => exact .ok ⟨hs.fault, hs.suffix, hs.taken, hs.more⟩

theorem ask {f : Scope → Except Fault α} (h : ∀ s, Fueled (f s)) :
    Goes enough ts fault m m (Parse.ask f) (Parse.ask f) := bind scope fun s => lift (h s)

theorem markLine : Goes enough ts fault ⟨more, j⟩ ⟨true, j⟩ Parse.markLine Parse.markLine :=
  bind current fun _ => modifyScope _

theorem typeName : Goes enough ts fault ⟨more, j⟩ ⟨true, j⟩ Parse.typeName Parse.typeName := by
  refine bind current fun t => ?_
  split <;> exact here (Nat.le_refl _)

theorem atType : Goes enough ts fault ⟨more, j⟩ ⟨true, j⟩ Parse.atType Parse.atType :=
  bind current fun _ => bind scope fun _ => here (Nat.le_refl _)

theorem atOperator (group : Nat) :
    Goes enough ts fault ⟨more, j⟩ ⟨false, j⟩ (Parse.atOperator group) (Parse.atOperator group) :=
  current? (fun _ => pure (Nat.le_refl _)) (pure (Nat.le_refl _))

end Goes

/-! ### Bounds -/

/-- Sixteen units of fuel for each token that is left, and `c` more, are enough for a function of the
    grammar. It takes `d` tokens at least, and comes to a token if it has to leave one. -/
def Bounded (c d : Nat) (more : Bool) (f : Nat → Parse α) (n : Nat) : Prop :=
  ∀ (enough : Prop) (ts : List Token) (fault : Option Fault) (more' : Bool) (j : Nat),
    (enough → 16 * ts.length + c ≤ n + 16 * j) →
      Goes enough ts fault ⟨more', j⟩ ⟨more, j + d⟩ (f n) (f (n + 1))

namespace Bounded

variable {c d : Nat} {more : Bool} {f : Nat → Parse α} {n : Nat}

/-- Without fuel, what is needed is not there. -/
theorem zero (hc : 0 < c) (hf : f 0 = throw .exhausted) : Bounded c d more f 0 := by
  intro enough ts fault more' j h s hs
  rw [hf]
  refine .exhausted fun he => ?_
  have := h he
  have htaken : s.tokens.length + j ≤ ts.length := hs.taken
  omega

/-- A call further on in the tokens, or with less need. -/
theorem goes (hf : Bounded c d more f n) {enough : Prop} {ts : List Token} {fault : Option Fault}
    {more' : Bool} {j c' i k : Nat} (h : enough → 16 * ts.length + c' ≤ k + 16 * i)
    (hle : c + k + 16 * i ≤ c' + n + 16 * j) :
    Goes enough ts fault ⟨more', j⟩ ⟨more, j + d⟩ (f n) (f (n + 1)) :=
  hf enough ts fault more' j fun he => by
    have := h he
    omega

end Bounded

theorem bounded_bracketPairs (n : Nat) (type : String) :
    Bounded 1 0 false (bracketPairs · type) n := by
  induction n generalizing type with
  | zero => exact .zero (by decide) rfl
  | succ n ih =>
    intro enough ts fault more j h
    dsimp only
    unfold bracketPairs
    refine .bind .kind fun k => .ite (fun _ => .bind .advance fun _ => ?_) fun _ => .pure (by simp)
    exact .last ((ih _).goes h (by omega)) (by omega)

theorem bounded_parameters (n : Nat) : Bounded 1 0 false parameters n := by
  induction n with
  | zero => exact .zero (by decide) rfl
  | succ n ih =>
    intro enough ts fault more j h
    unfold parameters
    refine .bind .kind fun k => .ite (fun _ => .pure (by simp)) fun _ => .bind .advance fun _ =>
      .bind .typeName fun type => .bind .advance fun _ => .bind .kind fun k =>
      .ite (fun _ => .bind .advance fun _ => .stuck (by simp)) fun _ => ?_
    exact .bind .current fun t => .bind .advance fun _ => .bind (ih.goes h (by omega)) fun _ =>
      .pure (by omega)

theorem bounded_fields (n : Nat) : Bounded 1 0 false fields n := by
  induction n with
  | zero => exact .zero (by decide) rfl
  | succ n ih =>
    intro enough ts fault more j h
    unfold fields
    refine .bind .kind fun k => .ite (fun _ => .pure (by simp)) fun _ => .bind .current fun t =>
      .bind .advance fun _ => .bind .kind fun k => ?_
    generalize (if t.kind = .identifier then t.value.shown else t.kind.name) = type
    refine .ite (fun _ => .bind .advance fun _ => .stuck (by simp)) fun _ => .bind .kind fun k =>
      .unless_rejected (.bind .current fun t => .bind .advance fun _ => .bind .kind fun k =>
        .unless_rejected (.bind .advance fun _ => .bind (ih.goes h (by omega)) fun _ => ?_))
    exact .pure (by omega)

/-- The fuel that the functions below expressions need. The operators of a group call those of the next
    group, and after the last group an operand. -/
structure BoundedExpressions (n : Nat) : Prop where
  expression : Bounded 9 1 false expression n
  operators (group : Nat) (h : group ≤ groups.length) :
    Bounded (8 - group) 1 false (operators · group) n
  operatorsAfter (group : Nat) (h : group < groups.length) (x : Node) :
    Bounded 1 0 false (operatorsAfter · group x) n
  unary : Bounded 2 1 false unary n
  items : Bounded 1 0 true items n
  firstIndex : Bounded 10 1 false firstIndex n
  indices (x : Node) : Bounded 1 0 false (indices · x) n
  arguments : Bounded 1 0 false arguments n
  call (f : Atom) (o : Operand) : Bounded 2 0 false (call · f o) n

theorem unary_succ {n : Nat} (ih : BoundedExpressions n) : Bounded 2 1 false unary (n + 1) := by
  intro enough ts fault more j h
  unfold unary
  refine .bind .kind fun k => .ite (fun _ => .bind .advance fun _ => .pure (by simp)) fun _ =>
    .bind .markLine fun _ => .bind .kind fun k => ?_
  split
  · -- the items of a list end at the bracket that is passed over
    refine .bind (ih.items.goes h (by omega)) fun xs => .bind .advance fun _ => ?_
    exact .bind (.ask fun s => .listType s xs) fun _ => .pure (by simp)
  · refine .bind .advance fun _ => .bind ((ih.operators 0 (by decide)).goes h (by omega)) fun x => ?_
    refine .current? (fun t => .unless_rejected (.bind .skip fun _ => .pure (by omega))) ?_
    exact .unless_rejected (.bind .skip fun _ => .pure (by omega))
  · refine .bind .advance fun _ => .bind .current fun t => .bind .advance fun _ => ?_
    exact .bind (ih.arguments.goes h (by omega)) fun xs => .bind .skip fun _ => .pure (by omega)
  · refine .bind .current fun t => .bind .advance fun _ => .ite (fun _ => .pure (by simp)) fun _ => ?_
    refine .bind .kind fun k => ?_
    split
    · exact .last ((ih.call _ _).goes h (by omega)) (by omega)
    · refine .bind .advance fun _ => .bind .current fun u => .bind .advance fun _ => .bind .kind fun k => ?_
      exact .ite (fun _ => .pure (by omega)) fun _ => .last ((ih.call _ _).goes h (by omega)) (by omega)
    · refine .bind .markLine fun _ => .bind (.ask fun s => .typeOfName s _) fun _ => .bind .kind fun k => ?_
      refine .ite (fun _ => ?_) fun _ => .pure (by simp)
      refine .bind (ih.firstIndex.goes h (by omega)) fun x => ?_
      exact .last ((ih.indices _).goes h (by omega)) (by omega)

theorem boundedExpressions (n : Nat) : BoundedExpressions n := by
  induction n with
  | zero =>
    refine ⟨?_, fun g hg => ?_, fun g hg x => ?_, ?_, ?_, ?_, fun x => ?_, ?_, fun f o => ?_⟩
    case refine_2 =>
      have : groups.length = 5 := rfl
      exact .zero (by omega) rfl
    all_goals exact .zero (by decide) rfl
  | succ n ih =>
    constructor
    case expression =>
      intro enough ts fault more j h
      unfold expression
      refine .current? (fun t => ?_) ((ih.operators 0 (by decide)).goes h (by omega))
      split
      · exact .bind .advance fun _ => .bind ((ih.operators 0 (by decide)).goes h (by omega)) fun x =>
          .pure (by omega)
      · exact (ih.operators 0 (by decide)).goes h (by omega)
    case operators =>
      intro group hgroup enough ts fault more j h
      have hlength : groups.length = 5 := rfl
      dsimp only
      unfold operators
      refine .ite (fun hlast => ih.unary.goes h (by omega)) fun hlast => ?_
      exact .bind ((ih.operators (group + 1) (by omega)).goes h (by omega)) fun x =>
        .last ((ih.operatorsAfter group (by omega) x).goes h (by omega)) (by omega)
    case operatorsAfter =>
      intro group hgroup x enough ts fault more j h
      dsimp only
      unfold operatorsAfter
      refine .bind (.atOperator group) fun b => .ite (fun _ => ?_) fun _ => .pure (by omega)
      refine .bind .current fun t => .bind .advance fun _ => ?_
      exact .bind ((ih.operators (group + 1) hgroup).goes h (by omega)) fun y =>
        .last ((ih.operatorsAfter group hgroup _).goes h (by omega)) (by omega)
    case unary => exact unary_succ ih
    case items =>
      intro enough ts fault more j h
      unfold items
      refine .bind .kind fun k => .ite (fun _ => .here (by omega)) fun _ => .bind .advance fun _ => ?_
      exact .bind (ih.expression.goes h (by omega)) fun x => .bind (ih.items.goes h (by omega)) fun xs =>
        .here (by omega)
    case firstIndex =>
      intro enough ts fault more j h
      unfold firstIndex
      refine .bind .skip fun _ => .bind (ih.expression.goes h (by omega)) fun x => .bind .kind fun k => ?_
      exact .unless_rejected (.bind .skip fun _ => .pure (by omega))
    case indices =>
      intro x enough ts fault more j h
      dsimp only
      unfold indices
      refine .bind .kind fun k => .ite (fun _ => .bind .advance fun _ => ?_) fun _ => .pure (by omega)
      exact .bind (ih.expression.goes h (by omega)) fun y => .bind .skip fun _ =>
        .last ((ih.indices _).goes h (by omega)) (by omega)
    case arguments =>
      intro enough ts fault more j h
      unfold arguments
      refine .bind .kind fun k => .ite (fun _ => .pure (by omega)) fun _ => .bind .advance fun _ =>
        .bind .kind fun k => ?_
      split
      · exact .pure (by omega)
      · exact .reject
      · refine .bind (ih.expression.goes h (by omega)) fun x => ?_
        exact .bind (ih.arguments.goes h (by omega)) fun xs => .pure (by omega)
    case call =>
      intro f o enough ts fault more j h
      dsimp only
      unfold call
      refine .bind .markLine fun _ => .bind (ih.arguments.goes h (by omega)) fun xs => .bind .skip fun _ =>
        .bind (.ask fun s => .checkCall s f xs) fun ys => .bind .kind fun k => ?_
      refine .ite (fun _ => ?_) fun _ => .pure (by omega)
      exact .bind .advance fun _ => .bind .current fun t => .bind .advance fun _ =>
        .last ((ih.call _ _).goes h (by omega)) (by omega)

/-! ### Statements -/

variable (n : Nat)

theorem bounded_declaration : Bounded 0 1 false declaration n := by
  intro enough ts fault more j h
  unfold declaration
  refine .bind .typeName fun type => .bind .markLine fun _ => .bind .advance fun _ =>
    .bind ((bounded_bracketPairs n type).goes h (by omega)) fun type => .bind .current fun t => ?_
  refine .bind .advance fun _ => .bind (.tryScope fun s => .declare s _ _) fun _ => .bind .kind fun k => ?_
  split
  · exact .bind .advance fun _ => .pure (by omega)
  · exact .bind .advance fun _ => .bind ((boundedExpressions n).expression.goes h (by omega)) fun x =>
      .bind .skip fun _ => .bind (.ask fun s => .checkAssignment s _ _) fun _ => .pure (by omega)
  · exact .reject

theorem bounded_recordDeclaration : Bounded 0 1 false recordDeclaration n := by
  intro enough ts fault more j h
  unfold recordDeclaration
  refine .bind .skip fun _ => .bind .current fun t => .bind .advance fun _ => .bind .kind fun k =>
    .unless_rejected (.bind .advance fun _ => .bind .markLine fun _ => ?_)
  exact .bind ((bounded_fields n).goes h (by omega)) fun fs => .bind .skip fun _ =>
    .bind (.tryScope fun s => .declareRecord s _ _) fun _ => .pure (by omega)

theorem bounded_assigned (target : Operand) : Bounded 9 1 false (assigned · target) n := by
  intro enough ts fault more j h
  exact .bind .skip fun _ => .bind ((boundedExpressions n).expression.goes h (by omega)) fun x =>
    .bind .skip fun _ => .bind (.ask fun s => .checkAssignment s _ _) fun _ => .pure (by omega)

theorem bounded_assignmentEnd (target : Operand) : Bounded 9 1 false (assignmentEnd · target) n := by
  intro enough ts fault more j h
  exact .bind .kind fun _ => .unless_rejected ((bounded_assigned n target).goes h (by omega))

theorem bounded_callStatement (f : Atom) (o : Operand) : Bounded 2 0 false (callStatement · f o) n := by
  intro enough ts fault more j h
  exact .bind (((boundedExpressions n).call f o).goes h (by omega)) fun x => .bind .skip fun _ =>
    .pure (by omega)

theorem bounded_assignmentOrCall (target : Operand) :
    Bounded 9 0 false (assignmentOrCall · target) n := by
  intro enough ts fault more j h
  dsimp only
  unfold assignmentOrCall
  refine .bind .kind fun k => .ite (fun _ => ?_) fun _ => .bind .kind fun k => .ite (fun _ => ?_) fun _ => ?_
  · refine .bind .advance fun _ => .bind .current fun t => .bind .advance fun _ => .bind .kind fun k => ?_
    refine .ite (fun _ => ?_) fun _ => ?_
    · exact .last ((bounded_callStatement n _ _).goes h (by omega)) (by omega)
    · exact .last ((bounded_assignmentEnd n _).goes h (by omega)) (by omega)
  · cases target with
    | atom name | node x => exact .last ((bounded_callStatement n _ _).goes h (by omega)) (by omega)
  · exact .last ((bounded_assignmentEnd n _).goes h (by omega)) (by omega)

theorem bounded_nameStatement : Bounded 0 1 false nameStatement n := by
  intro enough ts fault more j h
  unfold nameStatement
  refine .bind .current fun t => .bind .advance fun _ => .bind .markLine fun _ => .bind .kind fun k =>
    .ite (fun _ => ?_) fun _ => .last ((bounded_assignmentOrCall n _).goes h (by omega)) (by omega)
  refine .bind ((boundedExpressions n).firstIndex.goes h (by omega)) fun x =>
    .bind (((boundedExpressions n).indices _).goes h (by omega)) fun target => .bind .kind fun k => ?_
  exact .ite (fun _ => .last ((bounded_assigned n _).goes h (by omega)) (by omega)) fun _ =>
    .last ((bounded_assignmentOrCall n _).goes h (by omega)) (by omega)

theorem bounded_head : Bounded 0 1 false head n := by
  intro enough ts fault more j h
  exact .bind .kind fun k => .unless_rejected (.bind .advance fun _ =>
    .bind ((boundedExpressions n).expression.goes h (by omega)) fun x => .bind .skip fun _ =>
      .pure (by omega))

/-- The fuel that statements need. -/
structure BoundedStatements (n : Nat) : Prop where
  statement : Bounded 3 1 false statement n
  block : Bounded 2 1 false block n
  body : Bounded 1 1 false body n
  statements : Bounded 4 0 false statements n
  branches : Bounded 1 0 false branches n
  forStatement : Bounded 1 1 false forStatement n
  functionDeclaration : Bounded 1 1 false functionDeclaration n

variable {n}

theorem statement_succ (ih : BoundedStatements n) : Bounded 3 1 false statement (n + 1) := by
  intro enough ts fault more j h
  unfold statement
  refine .bind .atType fun b => .ite (fun _ => (bounded_declaration n).goes h (by omega)) fun _ =>
    .bind .kind fun k => ?_
  split
  · exact .bind (ih.block.goes h (by omega)) fun ss => .pure (by omega)
  · exact ih.functionDeclaration.goes h (by omega)
  · exact (bounded_recordDeclaration n).goes h (by omega)
  · exact (bounded_nameStatement n).goes h (by omega)
  · refine .bind .advance fun _ => .bind ((bounded_head n).goes h (by omega)) fun c =>
      .bind (ih.block.goes h (by omega)) fun thenBlock => .bind (ih.branches.goes h (by omega)) fun bs => ?_
    refine .current? (fun t => ?_) (.pure (by omega))
    split
    · exact .bind .advance fun _ => .bind (ih.block.goes h (by omega)) fun ss => .pure (by omega)
    · exact .pure (by omega)
  · exact ih.forStatement.goes h (by omega)
  · exact .bind .advance fun _ => .bind ((bounded_head n).goes h (by omega)) fun c =>
      .bind (ih.block.goes h (by omega)) fun ss => .pure (by omega)
  · exact .bind .advance fun _ => .bind ((boundedExpressions n).expression.goes h (by omega)) fun x =>
      .bind .skip fun _ => .pure (by omega)
  · exact .bind .advance fun _ => .bind .skip fun _ => .pure (by omega)
  · exact .bind .advance fun _ => .bind .skip fun _ => .pure (by omega)
  · exact .reject

theorem functionDeclaration_succ (ih : BoundedStatements n) :
    Bounded 1 1 false functionDeclaration (n + 1) := by
  intro enough ts fault more j h
  unfold functionDeclaration
  refine .bind .skip fun _ => .bind .current fun t => .bind .advance fun _ => .bind .markLine fun _ =>
    .bind .kind fun k => .unless_rejected ?_
  refine .bind ((bounded_parameters n).goes h (by omega)) fun ps => ?_
  refine .bind .skip fun _ => .bind .kind fun k => ?_
  refine .ite (fun _ => .bind .advance fun _ => .bind .kind fun k => .bind .advance fun _ =>
    .bind (.here (Nat.le_refl _)) fun result => ?_) fun _ => .bind (.here (Nat.le_refl _)) fun result => ?_
  all_goals
    refine .bind (.tryScope fun s => .declareFunction s _ _ _) fun _ => .bind (.modifyScope _) fun _ => ?_
    exact .bind (ih.body.goes h (by omega)) fun ss => .bind (.modifyScope _) fun _ => .pure (by omega)

theorem boundedStatements (n : Nat) : BoundedStatements n := by
  induction n with
  | zero => constructor <;> exact .zero (by decide) rfl
  | succ n ih =>
    constructor
    case statement => exact statement_succ ih
    case block =>
      intro enough ts fault more j h
      unfold block
      exact .bind (.modifyScope _) fun _ => .bind (ih.body.goes h (by omega)) fun ss =>
        .bind (.modifyScope _) fun _ => .pure (by omega)
    case body =>
      intro enough ts fault more j h
      unfold body
      refine .bind .kind fun k => .unless_rejected (.bind .advance fun _ => ?_)
      exact .bind (ih.statements.goes h (by omega)) fun ss => .bind .skip fun _ => .pure (by omega)
    case statements =>
      intro enough ts fault more j h
      unfold statements
      refine .bind .kind fun k => .ite (fun _ => .pure (by omega)) fun _ => ?_
      exact .bind (ih.statement.goes h (by omega)) fun s => .bind (ih.statements.goes h (by omega)) fun ss =>
        .pure (by omega)
    case branches =>
      intro enough ts fault more j h
      unfold branches
      refine .current? (fun t => ?_) (.pure (by omega))
      split
      · refine .bind .advance fun _ => .bind ((boundedExpressions n).expression.goes h (by omega)) fun c => ?_
        exact .bind (ih.block.goes h (by omega)) fun ss => .bind (ih.branches.goes h (by omega)) fun bs =>
          .pure (by omega)
      · exact .pure (by omega)
    case forStatement =>
      intro enough ts fault more j h
      unfold forStatement
      refine .bind .skip fun _ => .bind .kind fun k => .unless_rejected (.bind .advance fun _ => ?_)
      refine .bind .atType fun b => .ite (fun _ => ?_) fun _ => .bind .kind fun k =>
        .ite (fun _ => .throw (by simp)) fun _ => .reject
      refine .bind (.modifyScope _) fun _ => .bind ((bounded_declaration n).goes h (by omega)) fun counter =>
        .bind ((boundedExpressions n).expression.goes h (by omega)) fun c => .bind .skip fun _ => ?_
      exact .bind (ih.body.goes h (by omega)) fun ss => .bind (.modifyScope _) fun _ => .pure (by omega)
    case functionDeclaration => exact functionDeclaration_succ ih

theorem bounded_program (n : Nat) : Bounded 4 0 false program n := by
  induction n with
  | zero => exact .zero (by decide) rfl
  | succ n ih =>
    intro enough ts fault more j h
    unfold program
    refine .current? (fun t => ?_) (.pure (by omega))
    exact .bind ((boundedStatements n).statement.goes h (by omega)) fun s =>
      .bind (ih.goes h (by omega)) fun ss => .pure (by omega)

/-! ### The end of a parse -/

/-- The functions of the grammar, by the fuel that they are given. The operators of a group are only read
    for a group that there is. -/
inductive Rule : {α : Type} → (Nat → Parse α) → Prop
  | bracketPairs (type : String) : Rule (bracketPairs · type)
  | parameters : Rule parameters
  | fields : Rule fields
  | expression : Rule expression
  | operators (group : Nat) (h : group ≤ groups.length) : Rule (operators · group)
  | operatorsAfter (group : Nat) (h : group < groups.length) (x : Node) : Rule (operatorsAfter · group x)
  | unary : Rule unary
  | items : Rule items
  | firstIndex : Rule firstIndex
  | indices (x : Node) : Rule (indices · x)
  | arguments : Rule arguments
  | call (f : Atom) (o : Operand) : Rule (call · f o)
  | declaration : Rule declaration
  | recordDeclaration : Rule recordDeclaration
  | assigned (target : Operand) : Rule (assigned · target)
  | assignmentEnd (target : Operand) : Rule (assignmentEnd · target)
  | callStatement (f : Atom) (o : Operand) : Rule (callStatement · f o)
  | assignmentOrCall (target : Operand) : Rule (assignmentOrCall · target)
  | nameStatement : Rule nameStatement
  | head : Rule head
  | statement : Rule statement
  | block : Rule block
  | body : Rule body
  | statements : Rule statements
  | branches : Rule branches
  | forStatement : Rule forStatement
  | functionDeclaration : Rule functionDeclaration
  | program : Rule program

theorem Rule.bounded {f : Nat → Parse α} (h : Rule f) : ∃ c d more, ∀ n, Bounded c d more f n := by
  cases h with
  | bracketPairs type => exact ⟨1, 0, false, fun n => bounded_bracketPairs n type⟩
  | parameters => exact ⟨1, 0, false, bounded_parameters⟩
  | fields => exact ⟨1, 0, false, bounded_fields⟩
  | expression => exact ⟨9, 1, false, fun n => (boundedExpressions n).expression⟩
  | operators group h => exact ⟨8 - group, 1, false, fun n => (boundedExpressions n).operators group h⟩
  | operatorsAfter group h x => exact ⟨1, 0, false, fun n => (boundedExpressions n).operatorsAfter group h x⟩
  | unary => exact ⟨2, 1, false, fun n => (boundedExpressions n).unary⟩
  | items => exact ⟨1, 0, true, fun n => (boundedExpressions n).items⟩
  | firstIndex => exact ⟨10, 1, false, fun n => (boundedExpressions n).firstIndex⟩
  | indices x => exact ⟨1, 0, false, fun n => (boundedExpressions n).indices x⟩
  | arguments => exact ⟨1, 0, false, fun n => (boundedExpressions n).arguments⟩
  | call f o => exact ⟨2, 0, false, fun n => (boundedExpressions n).call f o⟩
  | declaration => exact ⟨0, 1, false, bounded_declaration⟩
  | recordDeclaration => exact ⟨0, 1, false, bounded_recordDeclaration⟩
  | assigned target => exact ⟨9, 1, false, fun n => bounded_assigned n target⟩
  | assignmentEnd target => exact ⟨9, 1, false, fun n => bounded_assignmentEnd n target⟩
  | callStatement f o => exact ⟨2, 0, false, fun n => bounded_callStatement n f o⟩
  | assignmentOrCall target => exact ⟨9, 0, false, fun n => bounded_assignmentOrCall n target⟩
  | nameStatement => exact ⟨0, 1, false, bounded_nameStatement⟩
  | head => exact ⟨0, 1, false, bounded_head⟩
  | statement => exact ⟨3, 1, false, fun n => (boundedStatements n).statement⟩
  | block => exact ⟨2, 1, false, fun n => (boundedStatements n).block⟩
  | body => exact ⟨1, 1, false, fun n => (boundedStatements n).body⟩
  | statements => exact ⟨4, 0, false, fun n => (boundedStatements n).statements⟩
  | branches => exact ⟨1, 0, false, fun n => (boundedStatements n).branches⟩
  | forStatement => exact ⟨1, 1, false, fun n => (boundedStatements n).forStatement⟩
  | functionDeclaration => exact ⟨1, 1, false, fun n => (boundedStatements n).functionDeclaration⟩
  | program => exact ⟨4, 0, false, bounded_program⟩

namespace Bounded

variable {c d : Nat} {more : Bool} {f : Nat → Parse α} {s s' : ParseState}

theorem endsAlike (hf : Bounded c d more f n) (s : ParseState) :
    EndsAlike (16 * s.tokens.length + c ≤ n) s.fault (Stands s.tokens s.fault ⟨more, 0 + d⟩) (f n s)
      (f (n + 1) s) :=
  hf _ s.tokens s.fault false 0 id s
    ⟨rfl, List.suffix_refl _, Nat.le_refl _, (absurd · Bool.false_ne_true)⟩

/-- The tokens that a function takes are at the front. -/
theorem taken (hf : Bounded c d more f n) {x : α} (h : f n s = .ok (x, s')) :
    ∃ used, s.tokens = used ++ s'.tokens ∧ d ≤ used.length := by
  have hend := hf.endsAlike s
  rw [h] at hend
  generalize f (n + 1) s = r at hend
  cases hend with
  | ok at_end =>
    obtain ⟨used, hused⟩ := at_end.suffix
    refine ⟨used, hused.symm, ?_⟩
    have htaken : s'.tokens.length + (0 + d) ≤ s.tokens.length := at_end.taken
    rw [← hused, List.length_append] at htaken
    omega

/-- More fuel than is needed makes no difference. -/
theorem eq_of_le (hf : ∀ n, Bounded c d more f n) {n m : Nat} (hn : 16 * s.tokens.length + c ≤ n)
    (hm : n ≤ m) : f m s = f n s := by
  induction hm with
  | refl => rfl
  | @step m hm ih =>
    rw [← ih]
    have hend := (hf m).endsAlike s
    generalize f m s = r at hend
    generalize f (m + 1) s = r' at hend
    cases hend with
    | ok _ | stop _ => rfl
    | exhausted short => exact absurd (Nat.le_trans hn hm) short

/-- Fuel that is enough does not run out. -/
theorem fault_of_exhausted (hf : Bounded c d more f n) (hn : 16 * s.tokens.length + c ≤ n)
    (h : f n s = .error .exhausted) : s.fault = some .exhausted := by
  have hend := hf.endsAlike s
  rw [h] at hend
  generalize f (n + 1) s = r at hend
  cases hend with
  | stop scanned => exact scanned rfl
  | exhausted short => exact absurd hn short

end Bounded

end Parse

/-- A parse stops with the fault of the scan, or reads a program. -/
theorem parse_cases (s : Scan) : (∃ f, s.fault = some f ∧ parse s = .error f) ∨
    parse s = Parse.program (Parse.fuelFor s.tokens.length) ⟨s.tokens, s.fault, {}⟩ >>= fun p =>
      .ok (p.1, p.2.scope) := by
  obtain ⟨tokens, line, fault⟩ := s
  cases tokens with
  | nil =>
    cases fault with
    | none => exact .inr rfl
    | some f => exact .inl ⟨f, rfl, rfl⟩
  | cons t rest => exact .inr rfl

/-- Whatever the tokens are, the fuel of `parse` does not run out, and more fuel comes to the same end. A
    statement or an expression that is read has taken a token, and no function of the grammar takes what is
    not there. -/
theorem parser_stops (s : Scan) :
    (∀ n, Parse.fuelFor s.tokens.length ≤ n →
      Parse.program n ⟨s.tokens, s.fault, {}⟩ =
        Parse.program (Parse.fuelFor s.tokens.length) ⟨s.tokens, s.fault, {}⟩) ∧
    (parse s = .error .exhausted → s.fault = some .exhausted) ∧
    (∀ n t x t', Parse.statement n t = .ok (x, t') ∨ Parse.expression n t = .ok (x, t') →
      ∃ token used, t.tokens = token :: used ++ t'.tokens) ∧
    ∀ {α : Type} {f : Nat → Parse α}, Parse.Rule f → ∀ n t x t', f n t = .ok (x, t') →
      ∃ used, t.tokens = used ++ t'.tokens := by
  have hfuel : 16 * s.tokens.length + 4 ≤ Parse.fuelFor s.tokens.length :=
    Nat.add_le_add_left (by decide) _
  refine ⟨fun n hn => ?_, fun h => ?_, fun n t x t' h => ?_, fun hf n t x t' h => ?_⟩
  · exact Parse.Bounded.eq_of_le Parse.bounded_program hfuel hn
  · rcases parse_cases s with ⟨f, hfault, hparse⟩ | hparse
    · rw [hparse] at h
      rw [hfault, Except.error.inj h]
    · rw [hparse] at h
      refine (Parse.bounded_program _).fault_of_exhausted hfuel (s := ⟨s.tokens, s.fault, {}⟩) ?_
      cases hprogram : Parse.program (Parse.fuelFor s.tokens.length) ⟨s.tokens, s.fault, {}⟩ with
      | error f =>
        rw [hprogram] at h
        rw [Except.error.inj h]
      | ok p =>
        rw [hprogram] at h
        cases h
  · have hused : ∃ used, t.tokens = used ++ t'.tokens ∧ 1 ≤ used.length := by
      rcases h with h | h
      · exact (Parse.boundedStatements n).statement.taken h
      · exact (Parse.boundedExpressions n).expression.taken h
    obtain ⟨used, htokens, hlength⟩ := hused
    cases used with
    | nil => cases hlength
    | cons token used => exact ⟨token, used, htokens⟩
  · obtain ⟨c, d, more, hbounded⟩ := hf.bounded
    obtain ⟨used, htokens, -⟩ := (hbounded n).taken h
    exact ⟨used, htokens⟩

end StackLang
