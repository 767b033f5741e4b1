import StackLang.Proofs.Parsing
import StackLang.Proofs.Recorder

/-!
# Which closing tokens are checked

The recording parser goes along with the parser: `Recorder.Records Q r a` says that the recorder `r`
comes to the results of the parser `a` as far as the closings pass its check, and that the places it
records stand in the relation `Q` to the result. This is shown for every function of the grammar, by
induction on the fuel, and for whole programs in `closings_of_parse`.

* `closed_properly_iff`: a program that parses has its places closed properly if and only if the
  strict parser accepts it too;
* `unclosed_of_unchecked`: the parser makes sure of two kinds of places only.
-/

namespace StackLang

open List

variable {s : Scan}

namespace Parse

instance : Frame (fun _ => True) Shortens :=
  { (inferInstance : Frame ParseState.Lexical Shortens) with stable := fun _ _ => trivial }

/-- The parser takes tokens from the front only, and gives what has the property. -/
abbrev Takes {α : Type} (Q : α → Prop) (a : Parse α) : Prop := Keeps (fun _ => True) Shortens Q a

namespace Takes

theorem modifyScope (f : Scope → Scope) : Takes (fun _ => True) (Parse.modifyScope f) :=
  Keeps.modifyScope fun _ => suffix_refl _

theorem tryScope (f : Scope → Except Fault Scope) : Takes (fun _ => True) (Parse.tryScope f) :=
  Keeps.tryScope fun _ _ _ => ⟨suffix_refl _, trivial⟩

theorem ask {α : Type} (f : Scope → Except Fault α) :
    Takes (fun x => ∃ s, f s = .ok x) (Parse.ask f) := Keeps.ask fun s _ _ h => ⟨s.scope, h⟩

end Takes

end Parse

namespace Recorder

open Parse (Takes)

variable {α β : Type} {Q : α → List Place → Prop} {R : β → List Place → Prop} {place : Place}

/-! ### Records -/

/-- What a recorder comes to, given the check and the record so far. -/
abbrev Outcome (α : Type) := Check → List Closing → Except Fault ((α × List Closing) × ParseState)

/-- How a recorder ends beside the parser. Where the parser stops, it stops. Where the parser comes
    to a result, there are closings: the recorder adds them to the record and comes to the same
    result if they all pass the check, else it stops. Their tokens are among those that the parser
    takes, in order, and they are proper where the parser checks them. -/
inductive Agrees (Q : α → List Place → Prop) (s : ParseState) (u : Outcome α) :
    Except Fault (α × ParseState) → Prop
  | fault {f : Fault} (stops : ∀ check log, ∃ f', u check log = .error f') : Agrees Q s u (.error f)
  | ok {x : α} {s' : ParseState} {new : List Closing} {used : List Token}
      (tokens : s.tokens = used ++ s'.tokens)
      (taken : (new.filterMap Closing.token).Sublist used)
      (proper : ∀ c ∈ new, c.place.Checked → c.Proper)
      (result : Q x (new.map Closing.place))
      (passes : ∀ check log, (∀ c ∈ new, check c) → u check log = .ok ((x, log ++ new), s'))
      (stops : ∀ check log, ¬ (∀ c ∈ new, check c) → ∃ f, u check log = .error f) :
      Agrees Q s u (.ok (x, s'))

/-- The recorder goes along with the parser, and records the places of its result. -/
def Records (Q : α → List Place → Prop) (r : Recorder α) (a : Parse α) : Prop :=
  ∀ s, Agrees Q s (fun check log => r check log s) (a s)

/-- The same where the parser finds a certain token. -/
def RecordsAt (t : Token) (Q : α → List Place → Prop) (r : Recorder α) (a : Parse α) : Prop :=
  ∀ s, s.tokens.head? = some t → Agrees Q s (fun check log => r check log s) (a s)

namespace Agrees

variable {s : ParseState} {u : Outcome α} {v : Except Fault (α × ParseState)}

theorem mono {Q' : α → List Place → Prop} (h : Agrees Q s u v) (hQ : ∀ x ps, Q x ps → Q' x ps) :
    Agrees Q' s u v := by
  cases h with
  | fault stops => exact .fault stops
  | ok tokens taken proper result passes stops =>
    exact .ok tokens taken proper (hQ _ _ result) passes stops

/-- What is recorded after closings adds to them, and comes about if they pass. -/
theorem after {s₁ : ParseState} {used : List Token} {new : List Closing} {u₁ : Outcome α}
    (tokens : s.tokens = used ++ s₁.tokens) (taken : (new.filterMap Closing.token).Sublist used)
    (proper : ∀ c ∈ new, c.place.Checked → c.Proper)
    (passes : ∀ check log, (∀ c ∈ new, check c) → u check log = u₁ check (log ++ new))
    (stops : ∀ check log, ¬ (∀ c ∈ new, check c) → ∃ f, u check log = .error f)
    (h : Agrees (fun x ps => Q x (new.map Closing.place ++ ps)) s₁ u₁ v) : Agrees Q s u v := by
  cases h with
  | fault stops₁ =>
    refine .fault fun check log => ?_
    by_cases hnew : ∀ c ∈ new, check c
    · rw [passes check log hnew]
      exact stops₁ check _
    · exact stops check log hnew
  | ok tokens₁ taken₁ proper₁ result₁ passes₁ stops₁ =>
    refine .ok (by rw [tokens, tokens₁, append_assoc]) ?_
      (forall_mem_append.2 ⟨proper, proper₁⟩) ?_ (fun check log hall => ?_)
      fun check log hall => ?_
    · rw [filterMap_append]
      exact taken.append taken₁
    · rwa [map_append]
    · rw [forall_mem_append] at hall
      rw [passes check log hall.1, passes₁ check _ hall.2, append_assoc]
    · rw [forall_mem_append] at hall
      by_cases hnew : ∀ c ∈ new, check c
      · rw [passes check log hnew]
        exact stops₁ check _ fun h => hall ⟨hnew, h⟩
      · exact stops check log hnew

theorem bind {g : α → Recorder β} {f : α → Parse β} (h : Agrees Q s u v)
    (hf : ∀ x ps, Q x ps → Records (fun y qs => R y (ps ++ qs)) (g x) (f x)) :
    Agrees R s (fun check log => u check log >>= fun p => g p.1.1 check p.1.2 p.2)
      (v >>= fun p => f p.1 p.2) := by
  cases h with
  | fault stops =>
    refine .fault fun check log => ?_
    obtain ⟨f', hf'⟩ := stops check log
    exact ⟨f', by rw [hf']; rfl⟩
  | ok tokens taken proper result passes stops =>
    refine .after tokens taken proper (fun check log hnew => ?_) (fun check log hnew => ?_)
      (hf _ _ result _)
    · rw [passes check log hnew]
      rfl
    · obtain ⟨f', hf'⟩ := stops check log hnew
      exact ⟨f', by rw [hf']; rfl⟩

/-- A result without closings. -/
theorem silent {x : α} {s' : ParseState} (htokens : s'.tokens <:+ s.tokens) (h : Q x [])
    (hu : ∀ check log, u check log = .ok ((x, log), s')) : Agrees Q s u (.ok (x, s')) := by
  obtain ⟨used, hused⟩ := htokens
  have htaken : (([] : List Closing).filterMap Closing.token).Sublist used := nil_sublist _
  refine .ok hused.symm htaken (forall_mem_nil _) h (fun check log _ => ?_)
    fun _ _ hnew => absurd (forall_mem_nil _) hnew
  rw [hu, append_nil]

end Agrees

namespace Records

variable {c : Prop}

theorem pure {x : α} (h : Q x []) : Records Q (Pure.pure x) (Pure.pure x) :=
  fun _ => .silent (suffix_refl _) h fun _ _ => rfl

theorem throw (f : Fault) : Records Q (MonadExcept.throw f) (MonadExcept.throw f) :=
  fun _ => .fault fun _ _ => ⟨f, rfl⟩

theorem mono {Q' : α → List Place → Prop} {r : Recorder α} {a : Parse α} (h : Records Q r a)
    (hQ : ∀ x ps, Q x ps → Q' x ps) : Records Q' r a := fun s => (h s).mono hQ

theorem bind {r : Recorder α} {a : Parse α} {g : α → Recorder β} {f : α → Parse β}
    (ha : Records Q r a)
    (hf : ∀ x ps, Q x ps → Records (fun y qs => R y (ps ++ qs)) (g x) (f x)) :
    Records R (r >>= g) (a >>= f) := fun s => (ha s).bind hf

/-- A step that closes nothing. -/
theorem lift {P : α → Prop} {a : Parse α} (ha : Takes P a) :
    Records (fun x ps => ps = [] ∧ P x) (liftM a) a := by
  intro s
  change Agrees _ s (fun _ log => a s >>= fun p => Except.ok ((p.1, log), p.2)) (a s)
  cases h : a s with
  | error f => exact .fault fun _ _ => ⟨f, rfl⟩
  | ok p =>
    obtain ⟨hsuffix, hx⟩ := ha s trivial p.1 p.2 h
    exact .silent hsuffix ⟨rfl, hx⟩ fun _ _ => rfl

theorem step {P : α → Prop} {a : Parse α} {g : α → Recorder β} {f : α → Parse β} (ha : Takes P a)
    (hf : ∀ x, P x → Records R (g x) (f x)) : Records R (liftM a >>= g) (a >>= f) :=
  bind (lift ha) fun x ps h => by
    rw [h.1]
    exact hf x h.2

/-- What comes next, after a step of which only its end matters. -/
theorem next {a : Parse α} {g : α → Recorder β} {f : α → Parse β} (ha : Takes (fun _ => True) a)
    (hf : ∀ x, Records R (g x) (f x)) : Records R (liftM a >>= g) (a >>= f) :=
  step ha fun x _ => hf x

theorem after_pure {x : α} {g : α → Recorder β} {f : α → Parse β} (h : Records R (g x) (f x)) :
    Records R (Pure.pure x >>= g) (Pure.pure x >>= f) := h

theorem ite [Decidable c] {r₁ r₂ : Recorder α} {a₁ a₂ : Parse α} (h₁ : c → Records Q r₁ a₁)
    (h₂ : ¬ c → Records Q r₂ a₂) : Records Q (if c then r₁ else r₂) (if c then a₁ else a₂) := by
  by_cases hc : c
  · rw [if_pos hc, if_pos hc]
    exact h₁ hc
  · rw [if_neg hc, if_neg hc]
    exact h₂ hc

theorem reject (cause : String → SyntaxCause) :
    Records Q (liftM (Parse.reject cause : Parse α)) (Parse.reject cause) :=
  mono (lift (.reject (Q := fun _ => False) cause)) fun _ _ h => h.2.elim

theorem unless_rejected [Decidable c] {cause : String → SyntaxCause} {g : Unit → Recorder α}
    {f : Unit → Parse α} (h : Records Q (g ()) (f ())) :
    Records Q (if c then liftM (Parse.reject cause : Parse Unit) >>= g else g ())
      (if c then Parse.reject cause >>= f else f ()) :=
  ite (fun _ => step (.reject (Q := fun _ => False) cause) fun _ h => h.elim) fun _ => h

end Records

/-- To close a place is to pass over the token there, if it passes, and to record it. -/
theorem agrees_close {s : ParseState} (h : place.Checked → Closing.Proper ⟨place, s.tokens.head?⟩) :
    Agrees (fun _ ps => ps = [place]) s (fun check log => close place check log s)
      (Parse.advance s) := by
  -- what stands at the place is passed over if it passes, else it is a fault
  have hpass (check : Check) (log : List Closing) (hc : check ⟨place, s.tokens.head?⟩) :
      close place check log s = Parse.advance s >>= fun p =>
        .ok ((p.1, log ++ [⟨place, s.tokens.head?⟩]), p.2) := by
    change (if check ⟨place, s.tokens.head?⟩ = true then _ else _ : Recorder Unit) check log s = _
    rw [if_pos hc]
    rfl
  have hstop (check : Check) (log : List Closing) (hc : ¬ check ⟨place, s.tokens.head?⟩) :
      ∃ f, close place check log s = .error f := by
    change ∃ f,
      (if check ⟨place, s.tokens.head?⟩ = true then _ else _ : Recorder Unit) check log s = _
    rw [if_neg hc]
    obtain ⟨tokens, fault, scope⟩ := s
    cases tokens <;> exact ⟨_, rfl⟩
  cases hadvance : Parse.advance s with
  | error f =>
    refine .fault fun check log => ?_
    by_cases hc : check ⟨place, s.tokens.head?⟩
    · exact ⟨f, by rw [hpass check log hc, hadvance]; rfl⟩
    · exact hstop check log hc
  | ok p =>
    obtain ⟨x, s'⟩ := p
    have htokens : s.tokens = s.tokens.head?.toList ++ s'.tokens := by
      rw [Parse.ok_of_advance hadvance]
      cases s.tokens <;> rfl
    have htaken : (([⟨place, s.tokens.head?⟩] : List Closing).filterMap Closing.token).Sublist
        s.tokens.head?.toList := by
      cases s.tokens.head? <;> simp
    refine .ok htokens htaken (forall_mem_singleton.2 h) rfl (fun check log hnew => ?_)
      fun check log hnew => ?_
    · rw [hpass check log (hnew _ mem_cons_self), hadvance]
      rfl
    · exact hstop check log fun hc => hnew (forall_mem_singleton.2 hc)

/-- What comes next, after a place that is closed by whatever token stands there. -/
theorem Records.close {g : Recorder α} {f : Parse α} (h : ¬ place.Checked)
    (hf : Records (fun x ps => Q x (place :: ps)) g f) :
    Records Q (Recorder.close place >>= fun _ => g) (Parse.advance >>= fun _ => f) :=
  bind (fun _ => agrees_close (absurd · h)) fun _ ps hps => by
    rw [hps]
    exact hf

namespace RecordsAt

variable {t : Token}

theorem of_records {r : Recorder α} {a : Parse α} (h : Records Q r a) : RecordsAt t Q r a :=
  fun s _ => h s

theorem bind {r : Recorder α} {a : Parse α} {g : α → Recorder β} {f : α → Parse β}
    (ha : RecordsAt t Q r a)
    (hf : ∀ x ps, Q x ps → Records (fun y qs => R y (ps ++ qs)) (g x) (f x)) :
    RecordsAt t R (r >>= g) (a >>= f) := fun s hs => (ha s hs).bind hf

/-- To look at the kind of a token leaves the token there. -/
theorem kind {g : Kind → Recorder α} {f : Kind → Parse α}
    (h : ∀ t : Token, RecordsAt t Q (g t.kind) (f t.kind)) :
    Records Q (liftM Parse.kind >>= g) (Parse.kind >>= f) := by
  intro s
  obtain ⟨tokens, fault, scope⟩ := s
  cases tokens with
  | nil => exact .fault fun _ _ => ⟨_, rfl⟩
  | cons t rest => exact h t _ rfl

/-- What comes next, after a place that is closed by a token of the kind that closes it. -/
theorem close {place : Place} {g : Recorder α} {f : Parse α} (ht : t.kind = place.closer)
    (hf : Records (fun x ps => Q x (place :: ps)) g f) :
    RecordsAt t Q (Recorder.close place >>= fun _ => g) (Parse.advance >>= fun _ => f) := by
  refine bind (fun s hs => agrees_close fun _ => ?_) fun _ ps hps => ?_
  · rw [hs, Closing.Proper, Option.map_some, ht]
  · rw [hps]
    exact hf

theorem unless_rejected {c : Prop} [Decidable c] {cause : String → SyntaxCause}
    {g : Unit → Recorder α} {f : Unit → Parse α} (h : ¬ c → RecordsAt t Q (g ()) (f ())) :
    RecordsAt t Q (if c then liftM (Parse.reject cause : Parse Unit) >>= g else g ())
      (if c then Parse.reject cause >>= f else f ()) := by
  by_cases hc : c
  · rw [if_pos hc, if_pos hc]
    exact of_records (.step (.reject (Q := fun _ => False) cause) fun _ h => h.elim)
  · rw [if_neg hc, if_neg hc]
    exact h hc

end RecordsAt

/-! ### Expressions -/

/-- The recorders of expressions go along with the parsers, given fuel `n`. What is read after a
    node records the places that the result has beyond those of the node. -/
structure RecordsExpressions (n : Nat) : Prop where
  expression : Records (fun x ps => x.places.Sublist ps) (expression n) (Parse.expression n)
  operators (group : Nat) :
    Records (fun x ps => x.places.Sublist ps) (operators n group) (Parse.operators n group)
  operatorsAfter (group : Nat) (x : Node) :
    Records (fun y ps => y.places.Sublist (x.places ++ ps)) (operatorsAfter n group x)
      (Parse.operatorsAfter n group x)
  unary : Records (fun x ps => x.places.Sublist ps) (unary n) (Parse.unary n)
  items : Records (fun xs ps => (placesOfAll xs).Sublist ps) (items n) (Parse.items n)
  firstIndex :
    Records (fun x ps => (x.places ++ [.firstIndex]).Sublist ps) (firstIndex n) (Parse.firstIndex n)
  indices (x : Node) :
    Records (fun y ps => y.places.Sublist (x.places ++ ps)) (indices n x) (Parse.indices n x)
  arguments : Records (fun xs ps => (placesOfAll xs).Sublist ps) (arguments n) (Parse.arguments n)
  call (f : Atom) (o : Operand) :
    Records (fun y ps => y.places.Sublist (o.places ++ ps)) (call n f o) (Parse.call n f o)

namespace Records

open Parse Parse.Takes

variable {n : Nat} (ih : RecordsExpressions n)
include ih

/-- A call on what a name stands for has only the places of its arguments. -/
theorem call_atom (f a : Atom) :
    Records (fun y ps => y.places.Sublist ps) (Recorder.call n f (.atom a))
      (Parse.call n f (.atom a)) := by
  simpa only [Operand.places, nil_append] using ih.call f (.atom a)

/-- The indices after a name. -/
theorem index_succ (name : Atom) :
    Records (fun y ps => y.places.Sublist ps)
      (do
        let x ← Recorder.firstIndex n
        Recorder.indices n (.member (.atom name) (.node x) true))
      (do
        let x ← Parse.firstIndex n
        Parse.indices n (.member (.atom name) (.node x) true)) := by
  refine bind ih.firstIndex fun x ps hx => (ih.indices _).mono fun y qs h => h.trans ?_
  simp only [Node.places, Operand.places, nil_append, if_true, Operand.indexPlaces]
  exact hx.append_right qs

theorem unary_succ :
    Records (fun x ps => x.places.Sublist ps) (Recorder.unary (n + 1)) (Parse.unary (n + 1)) := by
  unfold Recorder.unary Parse.unary
  refine next .kind fun k => ite (fun _ => next .advance fun _ => pure ?_) fun _ =>
    next .markLine fun _ => next .kind fun k => ?_
  · simp only [Node.places, placesOfAll, List.Sublist.refl]
  by_cases hlist : k = .startList
  · subst hlist
    refine bind ih.items fun xs ps hxs => next .advance fun _ => step (.ask _) fun type _ => pure ?_
    simpa only [Node.places, append_nil] using hxs
  by_cases hparen : k = .lparen
  · subst hparen
    refine next .advance fun _ => bind (ih.operators 0) fun x ps hx => ?_
    refine next .current? fun _ => unless_rejected (next .advance fun _ => pure ?_)
    simpa only [append_nil] using hx
  by_cases hnew : k = .newWord
  · subst hnew
    refine next .advance fun _ => next .current fun r => next .advance fun _ =>
      bind ih.arguments fun xs ps hxs => next .advance fun _ => pure ?_
    simpa only [Node.places, append_nil] using hxs
  -- the token stands for itself, and what follows a name decides
  simp only
  refine next .current fun t => next .advance fun _ => ite (fun _ => pure ?_) fun _ =>
    next .kind fun k => ?_
  · exact nil_sublist _
  by_cases hcall : k = .lparen
  · subst hcall
    exact call_atom ih _ _
  by_cases hpoint : k = .point
  · subst hpoint
    refine next .advance fun _ => next .current fun u => next .advance fun _ => next .kind fun k =>
      ite (fun _ => pure ?_) fun _ => call_atom ih _ _
    simp [Node.places, Operand.places]
  simp only
  refine next .markLine fun _ => step (.ask _) fun _ _ => next .kind fun k =>
    ite (fun _ => index_succ ih _) fun _ => pure (nil_sublist _)

end Records

theorem recordsExpressions (n : Nat) : RecordsExpressions n := by
  induction n with
  | zero =>
    constructor <;> intros <;> exact Records.throw _
  | succ n ih =>
    constructor
    case expression =>
      unfold expression Parse.expression
      refine .next .current? fun o => ?_
      rcases o with _ | ⟨k, v, l, i⟩
      · exact ih.operators 0
      cases k with
      | notWord =>
        refine .next .advance fun _ => .bind (ih.operators 0) fun x ps hx => .pure ?_
        simpa only [Node.places, placesOfOption, append_nil] using hx
      | _ => exact ih.operators 0
    case operators =>
      intro group
      unfold operators Parse.operators
      refine .ite (fun _ => ih.unary) fun _ => .bind (ih.operators _) fun x ps hx => ?_
      exact (ih.operatorsAfter _ x).mono fun y qs h => h.trans (hx.append_right qs)
    case operatorsAfter =>
      intro group x
      unfold operatorsAfter Parse.operatorsAfter
      refine .next (.atOperator group) fun b =>
        .ite (fun _ => ?_) fun _ => .pure (sublist_append_left _ _)
      refine .next .current fun t => .next .advance fun _ => .bind (ih.operators _) fun z ps hz => ?_
      refine (ih.operatorsAfter _ _).mono fun y qs h => h.trans ?_
      rw [Node.places, placesOfOption, append_assoc]
      exact (hz.append_right qs).append_left _
    case unary => exact Records.unary_succ ih
    case items =>
      unfold items Parse.items
      refine .next .kind fun k => .ite (fun _ => .pure (nil_sublist _)) fun _ => ?_
      refine .next .advance fun _ => .bind ih.expression fun x ps hx =>
        .bind ih.items fun xs qs hxs => .pure ?_
      rw [placesOfAll, append_nil]
      exact hx.append hxs
    case firstIndex =>
      unfold firstIndex Parse.firstIndex
      refine .next .advance fun _ => .bind ih.expression fun x ps hx => RecordsAt.kind fun t =>
        RecordsAt.unless_rejected fun ht => RecordsAt.close (Decidable.not_not.1 ht) (.pure ?_)
      exact hx.append_right _
    case indices =>
      intro x
      unfold indices Parse.indices
      refine .next .kind fun k =>
        .ite (fun _ => ?_) fun _ => .pure (sublist_append_left _ _)
      refine .next .advance fun _ => .bind ih.expression fun z ps hz => .close (by decide) ?_
      refine (ih.indices _).mono fun y qs h => h.trans ?_
      simp only [Node.places, Operand.places, if_true, Operand.indexPlaces, append_assoc]
      exact (hz.append_right _).append_left _
    case arguments =>
      unfold arguments Parse.arguments
      refine .next .kind fun k => .ite (fun _ => .pure (nil_sublist _)) fun _ =>
        .next .advance fun _ => .next .kind fun k => ?_
      cases k with
      | rparen => exact .pure (nil_sublist _)
      | comma => exact .reject _
      | _ =>
        refine .bind ih.expression fun x ps hx => .bind ih.arguments fun xs qs hxs => .pure ?_
        rw [placesOfAll, append_nil]
        exact hx.append hxs
    case call =>
      intro f o
      unfold call Parse.call
      refine .next .markLine fun _ => .bind ih.arguments fun xs ps hxs => .next .advance fun _ =>
        .step (.ask _) fun ys hys => ?_
      obtain ⟨_, hys⟩ := hys
      have hcall : (Node.call f.shown ys o).places.Sublist (o.places ++ ps) := by
        rw [Node.places]
        exact ((Parse.converted_of_checkCall hys).places.trans hxs).append_left _
      refine .next .kind fun k => .ite (fun _ => ?_) fun _ => .pure ?_
      · refine .next .advance fun _ => .next .current fun t => .next .advance fun _ =>
          (ih.call _ _).mono fun y qs h => h.trans ?_
        rw [Operand.places, ← append_assoc]
        exact hcall.append_right qs
      · rwa [append_nil]

/-! ### Statements -/

namespace Records

open Parse.Takes

theorem declaration (n : Nat) :
    Records (fun x ps => x.places.Sublist ps ∧ x.endPlaces = []) (Recorder.declaration n)
      (Parse.declaration n) := by
  unfold Recorder.declaration Parse.declaration
  refine next .typeName fun type => next .markLine fun _ => next .advance fun _ =>
    next (.bracketPairs n type) fun type => next .current fun t => next .advance fun _ =>
    next (.tryScope _) fun _ => RecordsAt.kind fun u => ?_
  by_cases hend : u.kind = .semicolon
  · rw [hend]
    refine RecordsAt.close hend (pure ⟨?_, rfl⟩)
    simp only [Node.places, List.Sublist.refl]
  by_cases hvalue : u.kind = .assign
  · rw [hvalue]
    refine .of_records (next .advance fun _ => bind (recordsExpressions n).expression fun x ps hx =>
      close (by decide) (step (.ask _) fun v hv => pure ⟨?_, rfl⟩))
    obtain ⟨_, hv⟩ := hv
    obtain ⟨y, rfl, hy⟩ := Parse.converted_of_checkAssignment hv
    rw [Node.places]
    exact (hy.places.trans hx).append_right _
  simp only
  exact .of_records (reject _)

theorem assigned (n : Nat) (o : Operand) :
    Records (fun y ps => (y.places ++ y.endPlaces).Sublist (o.places ++ ps)) (Recorder.assigned n o)
      (Parse.assigned n o) := by
  unfold Recorder.assigned Parse.assigned
  refine next .advance fun _ => bind (recordsExpressions n).expression fun x ps hx =>
    close (by decide) (step (.ask _) fun v hv => pure ?_)
  obtain ⟨_, hv⟩ := hv
  obtain ⟨y, rfl, hy⟩ := Parse.converted_of_checkAssignment hv
  simp only [Node.places, Node.endPlaces, append_nil, Option.getD_some]
  exact ((hy.places.trans hx).append_right _).append_left _

theorem assignmentEnd (n : Nat) (o : Operand) :
    Records (fun y ps => (y.places ++ y.endPlaces).Sublist (o.places ++ ps))
      (Recorder.assignmentEnd n o) (Parse.assignmentEnd n o) :=
  next .kind fun _ => unless_rejected (assigned n o)

theorem callStatement (n : Nat) (f : Atom) (o : Operand) :
    Records (fun y ps => (y.places ++ y.endPlaces).Sublist (o.places ++ ps))
      (Recorder.callStatement n f o) (Parse.callStatement n f o) := by
  refine bind ((recordsExpressions n).call f o) fun y ps hy => close (by decide) (pure ?_)
  rw [← append_assoc]
  exact hy.append y.endPlaces_sublist

theorem assignmentOrCall (n : Nat) (o : Operand) :
    Records (fun y ps => (y.places ++ y.endPlaces).Sublist (o.places ++ ps))
      (Recorder.assignmentOrCall n o) (Parse.assignmentOrCall n o) := by
  unfold Recorder.assignmentOrCall Parse.assignmentOrCall
  refine next .kind fun k => ite (fun _ => ?_) fun _ => ?_
  · refine next .advance fun _ => next .current fun t => next .advance fun _ => next .kind fun k =>
      ite (fun _ => callStatement n _ o) fun _ => ?_
    simpa [Operand.places, Node.places] using
      assignmentEnd n (.node (.member o (.atom t.value) false))
  · refine next .kind fun k => ite (fun _ => ?_) fun _ => assignmentEnd n o
    cases o with
    | atom name => exact callStatement n name .system
    | node x =>
      exact (callStatement n .nothing .system).mono fun y ps h =>
        h.trans (sublist_append_right _ _)

theorem nameStatement (n : Nat) :
    Records (fun y ps => (y.places ++ y.endPlaces).Sublist ps) (Recorder.nameStatement n)
      (Parse.nameStatement n) := by
  unfold Recorder.nameStatement Parse.nameStatement
  refine next .current fun t => next .advance fun _ => next .markLine fun _ => next .kind fun k =>
    ite (fun _ => ?_) fun _ => assignmentOrCall n (.atom t.value)
  refine bind (recordsExpressions n).firstIndex fun x ps hx =>
    bind ((recordsExpressions n).indices _) fun target qs htarget => ?_
  have hplaces : target.places.Sublist (ps ++ qs) := by
    refine htarget.trans ?_
    simp only [Node.places, Operand.places, nil_append, if_true, Operand.indexPlaces]
    exact hx.append_right qs
  have hmono (y : Node) (rs : List Place)
      (h : (y.places ++ y.endPlaces).Sublist ((Operand.node target).places ++ rs)) :
      (y.places ++ y.endPlaces).Sublist (ps ++ (qs ++ rs)) := by
    rw [← append_assoc]
    exact h.trans (hplaces.append_right rs)
  exact next .kind fun k =>
    ite (fun _ => (assigned n _).mono hmono) fun _ => (assignmentOrCall n _).mono hmono

theorem head {place : Place} (h : ¬ place.Checked) (n : Nat) :
    Records (fun x ps => (x.places ++ [place]).Sublist ps) (Recorder.head place n) (Parse.head n) :=
  next .kind fun _ => unless_rejected (next .advance fun _ =>
    bind (recordsExpressions n).expression fun _ _ hx => close h (pure (hx.append_right _)))

end Records

/-- The recorders of statements go along with the parsers, given fuel `n`. -/
structure RecordsStatements (n : Nat) : Prop where
  statement :
    Records (fun x ps => (x.places ++ x.endPlaces).Sublist ps) (statement n) (Parse.statement n)
  block : Records (fun ss ps => (placesOf ss).Sublist ps) (block n) (Parse.block n)
  body : Records (fun ss ps => (placesOf ss).Sublist ps) (body n) (Parse.body n)
  statements : Records (fun ss ps => (placesOf ss).Sublist ps) (statements n) (Parse.statements n)
  branches :
    Records (fun bs ps => (placesOfBranches bs).Sublist ps) (branches n) (Parse.branches n)
  forStatement :
    Records (fun x ps => (x.places ++ x.endPlaces).Sublist ps) (forStatement n)
      (Parse.forStatement n)
  functionDeclaration :
    Records (fun x ps => (x.places ++ x.endPlaces).Sublist ps) (functionDeclaration n)
      (Parse.functionDeclaration n)

namespace Records

open Parse.Takes

theorem conditional {c : Node} {thenBlock : List Node} {bs : List Branch}
    {elseBlock : Option (List Node)} {ps qs rs us : List Place}
    (hc : (c.places ++ [Place.conditional]).Sublist ps) (ht : (placesOf thenBlock).Sublist qs)
    (hb : (placesOfBranches bs).Sublist rs) (he : (placesOfBlock elseBlock).Sublist us) :
    ((Node.conditional c thenBlock bs elseBlock).places ++
      (Node.conditional c thenBlock bs elseBlock).endPlaces).Sublist (ps ++ (qs ++ (rs ++ us))) := by
  simpa only [Node.places, Node.endPlaces, append_nil, append_assoc,
    singleton_append] using hc.append (ht.append (hb.append he))

variable {n : Nat} (ih : RecordsStatements n)
include ih

theorem statement_succ :
    Records (fun x ps => (x.places ++ x.endPlaces).Sublist ps) (Recorder.statement (n + 1))
      (Parse.statement (n + 1)) := by
  unfold Recorder.statement Parse.statement
  refine next .atType fun b => ite (fun _ => ?_) fun _ => next .kind fun k => ?_
  · refine (declaration n).mono fun x ps h => ?_
    rw [h.2, append_nil]
    exact h.1
  cases k with
  | lbrace =>
    refine bind ih.block fun ss ps hss => pure ?_
    simpa only [Node.places, Node.endPlaces, append_nil] using hss
  | funcWord => exact ih.functionDeclaration
  | structWord =>
    refine (lift (.recordDeclaration (P := Node.Lexical) n)).mono fun x ps h => ?_
    obtain ⟨-, ⟨name, fs, rfl⟩, -⟩ := h
    exact nil_sublist _
  | identifier => exact nameStatement n
  | ifWord =>
    refine next .advance fun _ => bind (head (by decide) n) fun c ps hc =>
      bind ih.block fun ss qs hss => bind ih.branches fun bs rs hbs => next .current? fun o => ?_
    have hnone : Records (fun x us => (x.places ++ x.endPlaces).Sublist (ps ++ (qs ++ (rs ++ us))))
        (Pure.pure (Node.conditional c ss bs none)) (Pure.pure (Node.conditional c ss bs none)) :=
      pure (conditional hc hss hbs (by simp only [placesOfBlock, List.Sublist.refl]))
    rcases o with _ | ⟨k, v, l, i⟩
    · exact hnone
    cases k with
    | elseWord =>
      refine next .advance fun _ => bind ih.block fun es us hes => pure ?_
      rw [append_nil]
      exact conditional hc hss hbs (by rwa [placesOfBlock])
    | _ => exact hnone
  | forWord => exact ih.forStatement
  | whileWord =>
    refine next .advance fun _ => bind (head (by decide) n) fun c ps hc =>
      bind ih.block fun ss qs hss => pure ?_
    simpa only [Node.places, Node.endPlaces, append_nil, append_assoc,
      singleton_append] using hc.append hss
  | returnWord =>
    refine next .advance fun _ => bind (recordsExpressions n).expression fun x ps hx =>
      close (by decide) (pure ?_)
    simpa only [Node.places, placesOfOption, Node.endPlaces, append_nil] using
      hx.append_right _
  | continueWord | breakWord =>
    refine next .advance fun _ => close (by decide) (pure ?_)
    simp only [Node.places, Node.endPlaces, append_nil, List.Sublist.refl]
  | _ => exact reject _

theorem for_succ :
    Records (fun x ps => (x.places ++ x.endPlaces).Sublist ps) (Recorder.forStatement (n + 1))
      (Parse.forStatement (n + 1)) := by
  unfold Recorder.forStatement Parse.forStatement
  refine next .advance fun _ => next .kind fun k => unless_rejected (next .advance fun _ =>
    next .atType fun b => ite (fun _ => ?_) fun _ => next .kind fun k =>
      ite (fun _ => throw _) fun _ => reject _)
  refine next (.modifyScope _) fun _ => bind (declaration n) fun v ps hv =>
    bind (recordsExpressions n).expression fun c qs hc => close (by decide) ?_
  refine bind ih.body fun ss rs hss => next (.modifyScope _) fun _ => pure ?_
  simp only [Node.places, Operand.places, Node.endPlaces, append_nil]
  exact hv.1.append (hc.append (hss.cons_cons _))

theorem function_succ :
    Records (fun x ps => (x.places ++ x.endPlaces).Sublist ps)
      (Recorder.functionDeclaration (n + 1)) (Parse.functionDeclaration (n + 1)) := by
  unfold Recorder.functionDeclaration Parse.functionDeclaration
  refine next .advance fun _ => next .current fun t => next .advance fun _ => next .markLine fun _ =>
    next .kind fun k => unless_rejected (next (.parameters n) fun ps => next .advance fun _ =>
      next .kind fun k => ?_)
  refine ite
    (fun _ => next .advance fun _ => next .kind fun k => next .advance fun _ => after_pure ?_)
    fun _ => after_pure ?_
  -- with a type of the result or without one, the rest is the same
  all_goals
    refine next (.tryScope _) fun _ => next (.modifyScope _) fun _ => bind ih.body fun ss qs hss =>
      next (.modifyScope _) fun _ => pure ?_
    simpa only [Node.places, Node.endPlaces, append_nil, placesOf_renameAll] using hss

end Records

theorem recordsStatements (n : Nat) : RecordsStatements n := by
  induction n with
  | zero =>
    constructor <;> exact Records.throw _
  | succ n ih =>
    constructor
    case statement => exact Records.statement_succ ih
    case block =>
      unfold block Parse.block
      refine .next (.modifyScope _) fun _ => .bind ih.body fun ss ps hss =>
        .next (.modifyScope _) fun _ => .pure ?_
      rwa [append_nil]
    case body =>
      unfold body Parse.body
      refine .next .kind fun k => .unless_rejected (.next .advance fun _ =>
        .bind ih.statements fun ss ps hss => .next .advance fun _ => .pure ?_)
      rwa [append_nil]
    case statements =>
      unfold statements Parse.statements
      refine .next .kind fun k => .ite (fun _ => .pure (nil_sublist _)) fun _ =>
        .bind ih.statement fun s ps hs => .bind ih.statements fun ss qs hss => .pure ?_
      rw [placesOf, append_nil, ← append_assoc]
      exact hs.append hss
    case branches =>
      unfold branches Parse.branches
      refine .next .current? fun o => ?_
      rcases o with _ | ⟨k, v, l, i⟩
      · exact .pure (nil_sublist _)
      cases k with
      | elifWord =>
        refine .next .advance fun _ => .bind (recordsExpressions n).expression fun c ps hc =>
          .bind ih.block fun ss qs hss => .bind ih.branches fun bs rs hbs => .pure ?_
        rw [placesOfBranches, append_nil]
        exact hc.append (hss.append hbs)
      | _ => exact .pure (nil_sublist _)
    case forStatement => exact Records.for_succ ih
    case functionDeclaration => exact Records.function_succ ih

theorem Records.program (n : Nat) :
    Records (fun ss ps => (placesOf ss).Sublist ps) (Recorder.program n) (Parse.program n) := by
  induction n with
  | zero => exact throw _
  | succ n ih =>
    unfold Recorder.program Parse.program
    refine next .current? fun o => ?_
    cases o with
    | none => exact pure (nil_sublist _)
    | some t =>
      refine bind (recordsStatements n).statement fun s ps hs => bind ih fun ss qs hss => pure ?_
      rw [placesOf, append_nil, ← append_assoc]
      exact hs.append hss

end Recorder

/-! ### Programs -/

/-- The closings of a program that parses. They are those of the tree and have tokens of the
    program, both in order; where the parser checks them, they are proper. A recorder lets the
    program pass, with its tree as it is, if they all pass its check, and else stops. -/
structure Closings (s : Scan) (program : List Node) (scope : Scope) (closings : List Closing) :
    Prop where
  places : (placesOf program).Sublist (closings.map Closing.place)
  tokens : (closings.filterMap Closing.token).Sublist s.tokens
  checked : ∀ c ∈ closings, c.place.Checked → c.Proper
  passes : ∀ check : Check, (∀ c ∈ closings, check c) →
    recordedWith check s = .ok (program, scope, closings)
  stops : ∀ check : Check, ¬ (∀ c ∈ closings, check c) → ∃ f, recordedWith check s = .error f

/-- Parsing and recording are runs over all tokens, unless the scan stops before the first one. -/
theorem runs (s : Scan) :
    (∃ f, parse s = .error f ∧ ∀ check, recordedWith check s = .error f) ∨
      parse s = (Parse.program (Parse.fuelFor s.tokens.length) ⟨s.tokens, s.fault, {}⟩ >>=
        fun r => .ok (r.1, r.2.scope)) ∧
      ∀ check, recordedWith check s =
        (Recorder.program (Parse.fuelFor s.tokens.length) check [] ⟨s.tokens, s.fault, {}⟩ >>=
          fun r => .ok (r.1.1, r.2.scope, r.1.2)) := by
  unfold parse recordedWith
  by_cases hempty : s.tokens.isEmpty = true
  · simp only [if_pos hempty]
    cases hfault : s.fault with
    | some f => exact .inl ⟨f, rfl, fun _ => rfl⟩
    | none => exact .inr ⟨rfl, fun _ => rfl⟩
  · simp only [if_neg hempty]
    exact .inr ⟨rfl, fun _ => rfl⟩

theorem closings_of_parse {s : Scan} {program : List Node} {scope : Scope}
    (h : parse s = .ok (program, scope)) : ∃ closings, Closings s program scope closings := by
  rcases runs s with ⟨f, hparse, -⟩ | ⟨hparse, hrecorded⟩
  · rw [hparse] at h
    cases h
  rw [hparse] at h
  obtain ⟨⟨ss, s'⟩, hrun, h⟩ := ok_of_bind h
  cases h
  have hagrees := Recorder.Records.program (Parse.fuelFor s.tokens.length) ⟨s.tokens, s.fault, {}⟩
  rw [hrun] at hagrees
  cases hagrees with
  | ok tokens taken proper result passes stops =>
    rename_i closings used
    refine ⟨closings, result, ?_, proper, fun check hall => ?_, fun check hall => ?_⟩
    · dsimp only at tokens
      rw [tokens]
      exact taken.trans (sublist_append_left _ _)
    · rw [hrecorded, passes check [] hall]
      rfl
    · obtain ⟨f, hf⟩ := stops check [] hall
      exact ⟨f, by rw [hrecorded, hf]; rfl⟩

/-- A recorder stops at programs that do not parse, whatever it checks. -/
theorem stops_of_parse_error {f : Fault} (check : Check) (h : parse s = .error f) :
    ∃ f', recordedWith check s = .error f' := by
  rcases runs s with ⟨f', -, hrecorded⟩ | ⟨hparse, hrecorded⟩
  · exact ⟨f', hrecorded check⟩
  have hagrees := Recorder.Records.program (Parse.fuelFor s.tokens.length) ⟨s.tokens, s.fault, {}⟩
  rw [hparse] at h
  cases hrun : Parse.program (Parse.fuelFor s.tokens.length) ⟨s.tokens, s.fault, {}⟩ with
  | ok r =>
    rw [hrun] at h
    cases h
  | error f' =>
    rw [hrun] at hagrees
    cases hagrees with
    | fault stops =>
      obtain ⟨f', hf'⟩ := stops check []
      exact ⟨f', by rw [hrecorded, hf']; rfl⟩

/-- Recording gives trees of programs that parse, whatever it checks. -/
theorem parse_of_recordedWith {check : Check} {program : List Node} {scope : Scope}
    {closings : List Closing} (h : recordedWith check s = .ok (program, scope, closings)) :
    parse s = .ok (program, scope) := by
  cases hparse : parse s with
  | ok r =>
    obtain ⟨closings', hclosings⟩ := closings_of_parse hparse
    by_cases hall : ∀ c ∈ closings', check c
    · rw [hclosings.passes check hall] at h
      cases h
      rfl
    · obtain ⟨f, hf⟩ := hclosings.stops check hall
      rw [hf] at h
      cases h
  | error f =>
    obtain ⟨f', hf'⟩ := stops_of_parse_error check hparse
    rw [hf'] at h
    cases h

/-- What the strict parser accepts parses, with the same tree. -/
theorem parse_of_parseStrictly {r : List Node × Scope} (h : parseStrictly s = .ok r) :
    parse s = .ok r := by
  unfold parseStrictly at h
  cases hr : recordedWith (fun c => c.Proper) s with
  | error f =>
    rw [hr] at h
    cases h
  | ok p =>
    rw [hr] at h
    cases h
    exact parse_of_recordedWith hr

/-- Whether a record holds a closing of the place that is not proper. -/
def misses (place : Place) (r : Except Fault (List Node × Scope × List Closing)) : Bool :=
  match r with
  | .ok (_, _, closings) => closings.any fun c => c.place = place ∧ ¬ c.Proper
  | .error _ => false

/-- A program that the parser accepts although the token at an unchecked place does not close it. -/
def Place.unclosed : Place → String
  | .declaration | .firstIndex => ""
  | .initialization => "int x = 1, x = 2;"
  | .assignment => "int x; x = 1, x = 2;"
  | .call => "print(1), print(2);"
  | .giveBack => "return 1, return 2;"
  | .continueLoop => "continue, continue;"
  | .breakLoop => "break, break;"
  | .conditional => "if (true; \x7b \x7d"
  | .whileLoop => "while (true; \x7b \x7d"
  | .forLoop => "for (int i = 0; i < 3; \x7b \x7d"
  | .furtherIndex => "int[][] a; a[0][1; = 2;"

theorem misses_unclosed (place : Place) (h : ¬ place.Checked) :
    misses place (recorded (scan place.unclosed)) = true := by
  cases place with
  | declaration => exact absurd (.inl rfl) h
  | firstIndex => exact absurd (.inr rfl) h
  | _ => decide +kernel

theorem exists_of_misses {place : Place} {r : Except Fault (List Node × Scope × List Closing)}
    (h : misses place r = true) : ∃ program scope closings, r = .ok (program, scope, closings) ∧
      ∃ c ∈ closings, c.place = place ∧ ¬ c.Proper := by
  cases r with
  | error f => cases h
  | ok r =>
    obtain ⟨program, scope, closings⟩ := r
    obtain ⟨c, hc, hmiss⟩ := any_eq_true.1 h
    exact ⟨program, scope, closings, rfl, c, hc, of_decide_eq_true hmiss⟩

/-- For every program that parses there are the closings that the parser passes over: one for each
    place of the tree in order, with tokens of the program in order. They are proper at declarations
    without a value and at the first indices after names. They are all proper if and only if the
    strict parser accepts the program as well, and then it gives the same tree. -/
theorem closed_properly_iff {s : Scan} {program : List Node} {scope : Scope}
    (h : parse s = .ok (program, scope)) :
    ∃ closings, recorded s = .ok (program, scope, closings) ∧
      (placesOf program).Sublist (closings.map Closing.place) ∧
      (closings.filterMap Closing.token).Sublist s.tokens ∧
      (∀ c ∈ closings, c.place = .declaration ∨ c.place = .firstIndex → c.Proper) ∧
      ((∀ c ∈ closings, c.Proper) ↔ parseStrictly s = .ok (program, scope)) := by
  obtain ⟨closings, hclosings⟩ := closings_of_parse h
  refine ⟨closings, hclosings.passes _ fun _ _ => rfl, hclosings.places, hclosings.tokens,
    hclosings.checked, fun hproper => ?_, fun hstrict c hc => ?_⟩
  · rw [parseStrictly, hclosings.passes _ fun c hc => decide_eq_true (hproper c hc)]
    rfl
  · refine Decidable.byContradiction fun hmiss => ?_
    obtain ⟨f, hf⟩ := hclosings.stops (fun c => c.Proper) fun hall =>
      hmiss (of_decide_eq_true (hall c hc))
    rw [parseStrictly, hf] at hstrict
    cases hstrict

/-- The strict parser accepts a loop over a list, so its places are all closed. -/
theorem closed_properly_loop :
    ∃ program scope closings,
      recorded (scan "int[] a = [1]; while (a[0] < 9) \x7b a[0] = a[0] + 1; \x7d print(a);") =
        .ok (program, scope, closings) ∧ ∀ c ∈ closings, c.Proper := by
  generalize hsource :
    "int[] a = [1]; while (a[0] < 9) \x7b a[0] = a[0] + 1; \x7d print(a);" = source
  have hok : (parseStrictly (scan source)).toOption.isSome := by
    rw [← hsource]
    decide +kernel
  cases hstrict : parseStrictly (scan source) with
  | error f =>
    rw [hstrict] at hok
    cases hok
  | ok r =>
    obtain ⟨closings, hrecorded, -, -, -, hiff⟩ :=
      closed_properly_iff (parse_of_parseStrictly hstrict)
    exact ⟨r.1, r.2, closings, hrecorded, hiff.2 hstrict⟩

/-- Of the places that the parser does not check, every one is left open by some program that
    parses. -/
theorem unclosed_of_unchecked (place : Place) (h : ¬ place.Checked) :
    ∃ program scope closings, parse (scan place.unclosed) = .ok (program, scope) ∧
      recorded (scan place.unclosed) = .ok (program, scope, closings) ∧
      ∃ c ∈ closings, c.place = place ∧ ¬ c.Proper := by
  obtain ⟨program, scope, closings, hr, hmiss⟩ := exists_of_misses (misses_unclosed place h)
  exact ⟨program, scope, closings, parse_of_recordedWith hr, hr, hmiss⟩

/-- `int x = 1, x = 2;` is accepted, with a comma where the declaration ends. -/
theorem initialization_unclosed :
    ∃ program scope closings, parse (scan "int x = 1, x = 2;") = .ok (program, scope) ∧
      recorded (scan "int x = 1, x = 2;") = .ok (program, scope, closings) ∧
      ∃ c ∈ closings, c.place = .initialization ∧ ¬ c.Proper :=
  unclosed_of_unchecked .initialization (by decide)

end StackLang
