import StackLang.Proofs.Task

/-!
# What steps of generation keep

Generation may stop with a fault in the middle of a node. What its steps keep holds of the generator that
it leaves all the same.

* `Node.declared`: what generation of a node declares, in its order;
* `Gen.Allows I P`: what the property `I` has to allow, so that generation keeps it. It is about a generator
  and what was declared so far, and places with the property `P` may be filled;
* `Gen.Gives I ds Q a`: the step `a` keeps the property `I`, whether it ends or stops. If it ends, it has
  declared `ds`, and its result has the property `Q`; places that are kept are results with the
  property `P`;
* `Gen.Gives.generate_declared`: the code of every node is such a step, by induction on the tree.
-/

namespace StackLang

open List

/-- What steps do not change that only note something. -/
def Generator.core (g : Generator) : Array Slot × Nat × (Nat × Exit) × Table Nat × Nat :=
  (g.code, g.length, g.pending, g.identifiers, g.memory)

/-- Names that were declared, with their types. -/
abbrev History := List (Atom × String)

/-- The names that a node declares itself. -/
def Node.reservations : Node → History
  | .declare x t _ => [(x, t)]
  | .function f _ ps _ => (f, "") :: ps.map fun p => (f.parameter p, p.type)
  | _ => []

/-- What generation of a node declares, each node before those that it turns to. -/
def Node.declared (n : Node) : History := n.reached.flatMap reservations

theorem Node.declared_eq (n : Node) : n.declared = n.reservations ++ n.turns.flatMap declared := by
  rw [declared, reached_eq, flatMap_cons, flatMap_assoc]
  rfl

namespace Gen

/-- The property stays, whatever generation does. What was declared last is the first of the history. -/
class Allows (I : History → Generator → Prop) (P : outParam (Nat → Prop)) : Prop where
  same {rs : History} {g h : Generator} : I rs g → h.code = g.code → h.length = g.length →
    h.pending = g.pending → h.identifiers = g.identifiers → h.memory = g.memory → I rs h
  push {rs : History} {g : Generator} (s : Slot) : I rs g → I rs (g.push s)
  fill {rs : History} {g : Generator} {i : Nat} (code target : Nat) :
    I rs g → P i → I rs (g.fill i code target)
  settled {rs : History} {g : Generator} {e : Exit} : I rs g → e ≠ .none → I rs (g.settled e)
  waitFor {rs : History} {g : Generator} (e : Exit) : I rs g → I rs (g.waitFor e)
  reserved {rs : History} {g : Generator} (x : Atom) (t : String) :
    I rs g → I ((x, t) :: rs) (g.reserved x t)
  here {rs : History} {g : Generator} : I rs g → P g.length

variable {α β : Type} {I : History → Generator → Prop} {P : Nat → Prop} {ds es : History} {Q : α → Prop}
  {R : β → Prop}

/-- The step keeps the property `I`. It declares `ds` and gives a result with the property `Q`, or stops
    when it has declared an initial part of `ds`. -/
def Gives (I : History → Generator → Prop) (ds : History) (Q : α → Prop) (a : Gen α) : Prop :=
  ∀ rs g, I rs g → ∃ ts, ts <+: ds ∧ I (ts.reverse ++ rs) (after a g) ∧
    ∀ x, result? a g = some x → ts = ds ∧ Q x

/-- The same if nothing is asked of the result. -/
abbrev Stays (I : History → Generator → Prop) (ds : History) (a : Gen α) : Prop :=
  Gives I ds (fun _ => True) a

/-- The same of a step that declares what the nodes do. -/
abbrev Turns (I : History → Generator → Prop) (ns : List Node) (a : Gen α) : Prop :=
  Stays I (ns.flatMap Node.declared) a

/-- Each of the nodes is generated so. -/
abbrev Each (I : History → Generator → Prop) (ns : List Node) : Prop :=
  ∀ n ∈ ns, Stays I n.declared (generate n)

namespace Gives

variable {ns : List Node} {o : Operand} {bs : List Branch}

/-! ### How steps are put together -/

/-- A step that ends and declares nothing. -/
theorem of_ends {a : Gen α} (ha : ∀ rs g, I rs g → ∃ x h, Ends a g x h ∧ I rs h ∧ Q x) :
    Gives I [] Q a := by
  intro rs g hg
  obtain ⟨x, h, hend, hk, hx⟩ := ha rs g hg
  rw [hend.after_eq, hend.result_eq]
  exact ⟨[], prefix_rfl, hk, fun y hy => ⟨rfl, Option.some.inj hy ▸ hx⟩⟩

theorem pure {x : α} (hx : Q x) : Gives I [] Q (Pure.pure x) :=
  of_ends fun _ h hh => ⟨x, h, ends_pure.2 ⟨rfl, rfl⟩, hh, hx⟩

theorem throw (f : Fault) : Gives I ds Q (MonadExcept.throw f) :=
  fun _ _ hh => ⟨[], nil_prefix, hh, fun _ hx => by cases hx⟩

/-- What the second of two steps declares comes behind what the first one does. -/
theorem seq {a : Gen α} {f : α → Gen β} (ha : Gives I ds Q a) (hf : ∀ x, Q x → Gives I es R (f x)) :
    Gives I (ds ++ es) R (a >>= f) := by
  intro rs g hg
  obtain ⟨ts, hts, hafter, hresult⟩ := ha rs g hg
  rw [after] at hafter
  rw [result?] at hresult
  simp only [after, result?, outcome_bind]
  rcases hr : outcome a g with ⟨_ | x, k⟩
  · rw [hr] at hafter
    exact ⟨ts, hts.trans (prefix_append _ _), hafter, fun _ hy => by cases hy⟩
  · rw [hr] at hafter hresult
    obtain ⟨rfl, hx⟩ := hresult x rfl
    obtain ⟨us, hus, hafter, hresult⟩ := hf x hx _ k hafter
    refine ⟨ts ++ us, (prefix_append_right_inj _).2 hus, ?_, fun y hy => ?_⟩
    · rw [reverse_append, append_assoc]
      exact hafter
    · obtain ⟨rfl, hy⟩ := hresult y hy
      exact ⟨rfl, hy⟩

/-- The same if the first step declares nothing. -/
theorem bind {a : Gen α} {f : α → Gen β} (ha : Gives I [] Q a) (hf : ∀ x, Q x → Gives I es R (f x)) :
    Gives I es R (a >>= f) := seq ha hf

/-- What comes next, after a step whose result does not matter. -/
theorem next {a : Gen α} {f : α → Gen β} (ha : Stays I [] a) (hf : ∀ x, Gives I es R (f x)) :
    Gives I es R (a >>= f) := bind ha fun x _ => hf x

/-- The last step that declares something. -/
theorem last {a : Gen α} {f : α → Gen β} (ha : Gives I ds Q a) (hf : ∀ x, Q x → Gives I [] R (f x)) :
    Gives I ds R (a >>= f) := append_nil ds ▸ seq ha hf

theorem get : Stays I [] (MonadState.get : Gen Generator) :=
  of_ends fun _ h hh => ⟨h, h, ends_get.2 ⟨rfl, rfl⟩, hh, trivial⟩

theorem lift (e : Except Fault α) : Stays I [] (liftM e : Gen α) := by
  cases e with
  | error f => exact throw f
  | ok x => exact pure trivial

theorem address (name : Atom) : Stays I [] (Gen.address name) := by
  refine next get fun h => ?_
  split
  · exact pure trivial
  · exact throw _

theorem addressOf (o : Operand) : Stays I [] (Gen.addressOf o) := by
  cases o with
  | atom a => exact address a
  | node n => exact throw _

theorem forM (xs : List β) {f : β → Gen Unit} (hf : ∀ x ∈ xs, Stays I [] (f x)) :
    Stays I [] (xs.forM f) := by
  induction xs with
  | nil => exact pure trivial
  | cons x xs ih =>
    obtain ⟨hx, hxs⟩ := forall_mem_cons.1 hf
    exact next hx fun _ => ih hxs

theorem counterName (o : Operand) : Stays I [] (Gen.counterName o) := by
  unfold Gen.counterName
  split
  case h_8 => exact throw _
  all_goals exact pure trivial

theorem selectorArgument (n : Node) : Stays I [] (Gen.selectorArgument n) := by
  unfold Gen.selectorArgument
  split
  · exact pure trivial
  · exact pure trivial
  · exact throw _

theorem generateAll (hns : Each I ns) : Turns I ns (Gen.generateAll ns) := by
  induction ns with
  | nil => exact pure trivial
  | cons n ns ih =>
    obtain ⟨hn, hns⟩ := forall_mem_cons.1 hns
    exact seq hn fun _ _ => ih hns

theorem generateReversed (hns : Each I ns) : Turns I ns.reverse (Gen.generateReversed ns) := by
  induction ns with
  | nil => exact pure trivial
  | cons n ns ih =>
    obtain ⟨hn, hns⟩ := forall_mem_cons.1 hns
    rw [Turns, reverse_cons, flatMap_append, flatMap_singleton]
    exact seq (ih hns) fun _ _ => hn

theorem single {n : Node} {a : Gen α} (h : Stays I n.declared a) : Turns I [n] a := by
  rw [Turns, flatMap_singleton]
  exact h

theorem generateOption {v : Option Node} (hv : Each I v.toList) :
    Turns I v.toList (Gen.generateOption v) := by
  cases v with
  | none => exact pure trivial
  | some n => exact single (hv n mem_cons_self)

theorem generateOperand (ho : Each I o.nodes) : Turns I o.nodes (Gen.generateOperand o) := by
  cases o with
  | atom a => exact pure trivial
  | node n => exact single (ho n mem_cons_self)

theorem elseCode {elseBlock : Option (List Node)} (h : Each I (elseBlock.getD [])) :
    Turns I (elseBlock.getD []) (Gen.elseCode elseBlock) := by
  cases elseBlock with
  | none => exact pure trivial
  | some ss => exact generateAll h

/-! ### Steps -/

variable [allows : Allows I P]

include allows

theorem note {f : Generator → Generator} (hf : ∀ g, (f g).core = g.core) :
    Stays I [] (modify f : Gen Unit) := by
  refine of_ends fun _ g hg => ⟨(), f g, ends_modify.2 rfl, ?_, trivial⟩
  have h := hf g
  simp only [Generator.core, Prod.mk.injEq] at h
  obtain ⟨hc, hl, hp, hi, hm⟩ := h
  exact Allows.same hg hc hl hp hi hm

theorem append (s : Slot) : Stays I [] (Gen.append s) :=
  of_ends fun _ _ hg => ⟨(), _, ends_append.2 rfl, Allows.push s hg, trivial⟩

theorem emit (code : Nat) (arg : Argument) : Stays I [] (Gen.emit code arg) := append _

theorem emitInt (code : Nat) (arg : Int) : Stays I [] (Gen.emitInt code arg) := append _

/-- The next place may be filled later. -/
theorem here : Gives I [] P Gen.here :=
  of_ends fun _ g hg => ⟨_, g, ends_here.2 ⟨rfl, rfl⟩, hg, Allows.here hg⟩

/-- So may the place that was written last. -/
theorem append_here {f : Nat → Gen α} (s : Slot) (hf : ∀ i, P (i - 1) → Gives I ds Q (f i)) :
    Gives I ds Q (Gen.append s >>= fun _ => Gen.here >>= f) := by
  intro rs g hg
  exact hf (g.length + 1) (Allows.here hg) rs (g.push s) (Allows.push s hg)

theorem patch {place : Nat} (hi : P place) (code target : Nat) :
    Stays I [] (Gen.patch place code target) :=
  of_ends fun _ _ hg => ⟨(), _, ends_patch.2 rfl, Allows.fill code target hg hi, trivial⟩

theorem reserve (name : Atom) (type : String) : Stays I [(name, type)] (Gen.reserve name type) := by
  intro rs g hg
  have hend : Ends (Gen.reserve name type) g () (g.reserved name type) := ends_reserve.2 rfl
  rw [hend.after_eq]
  exact ⟨_, prefix_rfl, Allows.reserved name type hg, fun _ _ => ⟨rfl, trivial⟩⟩

theorem settle {e : Exit} (he : e ≠ .none) : Stays I [] (Gen.settle e) :=
  of_ends fun _ _ hg => ⟨(), _, ends_settle.2 rfl, Allows.settled hg he, trivial⟩

theorem exitCode (e : Exit) : Stays I [] (Gen.exitCode e) := by
  refine of_ends fun _ g hg => ⟨(), _, ends_exitCode.2 rfl, ?_, trivial⟩
  split
  · exact Allows.waitFor e hg
  · exact hg

/-! ### Parts of nodes -/

theorem literalCode (kind : String) (value : Atom) : Stays I [] (Gen.literalCode kind value) := by
  unfold Gen.literalCode
  split
  · exact next (lift _) fun _ => emitInt _ _
  · exact emit _ _
  · exact emitInt _ _
  · exact emit _ _
  · split
    · exact next (forM _ fun _ _ => emitInt _ _) fun _ => emitInt _ _
    · exact throw _
  · split
    · split
      · exact emitInt _ _
      · exact throw _
    split
    · exact next (address _) fun _ => emitInt _ _
    · exact throw _

theorem declareParameters (function : Atom) (ps : List Parameter) :
    Stays I (ps.map fun p => (function.parameter p, p.type)) (Gen.declareParameters function ps) := by
  induction ps with
  | nil => exact pure trivial
  | cons p ps ih =>
    have hrest := seq (reserve (I := I) (function.parameter p) p.type) fun _ _ =>
      next (emitInt Op.store 0) fun _ => next (emitInt Op.storeMem (-1)) fun _ => ih
    unfold Gen.declareParameters
    refine next get fun h => ?_
    dsimp only
    split
    · exact next (note fun _ => rfl) fun _ => hrest
    · exact hrest

theorem storeParameters (function : Atom) (ps : List Parameter) :
    Stays I [] (Gen.storeParameters function ps) := by
  induction ps with
  | nil => exact pure trivial
  | cons p ps ih => exact next (address _) fun _ => next (emitInt _ _) fun _ => ih

theorem closeFunction : Stays I [] Gen.closeFunction := by
  unfold Gen.closeFunction
  refine next get fun h => ?_
  split
  · split
    · exact emitInt _ _
    · exact pure trivial
  · exact throw _
  · exact emitInt _ _

theorem fieldCode (record : Atom) (ps : List Parameter) : Stays I [] (Gen.fieldCode record ps) := by
  induction ps with
  | nil => exact pure trivial
  | cons p ps ih => exact next (note fun _ => rfl) fun _ => next (emitInt _ _) fun _ => ih

theorem recordCode (name : Atom) (fields : List Parameter) : Stays I [] (Gen.recordCode name fields) :=
  next (note fun _ => rfl) fun _ => next (fieldCode _ _) fun _ => emitInt _ _

theorem noteObject (name : Atom) (v : Option Node) : Stays I [] (Gen.noteObject name v) := by
  unfold Gen.noteObject
  split
  · exact note fun _ => rfl
  · exact pure trivial

/-- The jump or the system call, behind the code of the arguments and of the object. -/
theorem calleeCode (f : String) : Stays I [] (Gen.calleeCode f) := by
  unfold Gen.calleeCode
  split
  · exact emitInt _ _
  · refine next get fun h => ?_
    split
    · exact emitInt _ _
    · exact throw _

theorem closeCode {start test : Nat} (htest : P test) : Stays I [] (Gen.closeCode start test) :=
  next (emitInt _ _) fun _ => bind here fun _ _ => next (patch htest _ _) fun _ =>
    next (settle (by decide)) fun _ => note fun _ => rfl

theorem countCode (v : Operand) {rest : Gen Unit} (hrest : Stays I [] rest) :
    Stays I [] (Gen.countCode v rest) :=
  next (counterName v) fun _ => next (address _) fun _ => next (emitInt _ _) fun _ =>
    next (emitInt _ _) fun _ => next (emitInt _ _) fun _ => next (emitInt _ _) fun _ => hrest

/-! ### Nodes -/

theorem generateFields (record : Atom) (hns : Each I ns) : Turns I ns (Gen.generateFields record ns) := by
  induction ns with
  | nil => exact pure trivial
  | cons n ns ih =>
    obtain ⟨hn, hns⟩ := forall_mem_cons.1 hns
    exact next (note fun _ => rfl) fun _ => seq hn fun _ _ => ih hns

/-- A place is kept for each further test, and may be filled later. -/
theorem generateTests (hbs : Each I (bs.map Branch.condition)) :
    Gives I ((bs.map Branch.condition).flatMap Node.declared)
      (fun tests => tests.length = bs.length ∧ ∀ i ∈ tests, P i) (Gen.generateTests bs) := by
  induction bs with
  | nil => exact pure ⟨rfl, forall_mem_nil _⟩
  | cons b bs ih =>
    obtain ⟨c, body⟩ := b
    obtain ⟨hc, hbs⟩ := forall_mem_cons.1 hbs
    refine seq hc fun _ _ => bind here fun test htest => next (append _) fun _ => ?_
    exact last (ih hbs) fun tests htests =>
      pure ⟨congrArg (· + 1) htests.1, forall_mem_cons.2 ⟨htest, htests.2⟩⟩

/-- So may those for the ends of further blocks. -/
theorem generateBranches {tests : List Nat} (hbs : Each I (bs.flatMap Branch.body))
    (htests : tests.length = bs.length ∧ ∀ i ∈ tests, P i) :
    Gives I ((bs.flatMap Branch.body).flatMap Node.declared) (fun ends => ∀ i ∈ ends, P i)
      (Gen.generateBranches bs tests) := by
  induction bs generalizing tests with
  | nil => exact pure (forall_mem_nil _)
  | cons b bs ih =>
    obtain ⟨c, body⟩ := b
    obtain ⟨hlen, htests⟩ := htests
    cases tests with
    | nil => cases hlen
    | cons test tests =>
      obtain ⟨hb, hbs⟩ := forall_mem_append.1 hbs
      obtain ⟨htest, htests⟩ := forall_mem_cons.1 htests
      rw [flatMap_cons, flatMap_append]
      refine seq (generateAll hb) fun _ _ => bind here fun finish hfinish => next (patch htest _ _) fun _ =>
        next (append _) fun _ => last (ih hbs ⟨Nat.succ.inj hlen, htests⟩) fun ends hends => ?_
      exact pure (forall_mem_cons.2 ⟨hfinish, hends⟩)

theorem indexCode (inPlace : Node → Bool) (code : Nat) (ho : Each I (o.index inPlace)) :
    Turns I (o.index inPlace) (Gen.indexCode inPlace code o) := by
  cases o with
  | atom a => exact emitInt _ _
  | node n =>
    rw [Gen.indexCode]
    cases hn : inPlace n with
    | true =>
      have hindex : (Operand.node n).index inPlace = [] := by simp [Operand.index, Operand.nodes, hn]
      rw [hindex]
      exact next (selectorArgument n) fun _ => emit _ _
    | false =>
      have hindex : (Operand.node n).index inPlace = [n] := by simp [Operand.index, Operand.nodes, hn]
      rw [hindex] at ho ⊢
      exact last (single (ho n mem_cons_self)) fun _ _ => emitInt _ _

theorem generateSetters (ho : Each I o.steps) : Turns I o.steps (Gen.generateSetters o) := by
  fun_induction Operand.steps o with
  | case1 o a ih =>
    obtain ⟨ha, ho⟩ := forall_mem_append.1 ho
    rw [generateSetters_member, Turns, flatMap_append]
    exact seq (indexCode _ _ ha) fun _ _ => ih ho
  | case2 o h =>
    rw [Gen.generateSetters]
    · exact pure trivial
    · exact h

theorem initialCode (type : String) {v : Option Node} (hv : Each I v.toList) :
    Turns I v.toList (Gen.initialCode type v) := by
  cases v with
  | none =>
    rw [Gen.initialCode]
    split
    · exact emitInt _ _
    · exact throw _
  | some n => exact generateOption hv

theorem closeConditional {test : Nat} {thenBlock : List Node} {tests : List Nat} (htest : P test)
    (htests : tests.length = bs.length ∧ ∀ i ∈ tests, P i) (hbs : Each I (bs.flatMap Branch.body))
    (hthen : Each I thenBlock) :
    Turns I (bs.flatMap Branch.body ++ thenBlock) (Gen.closeConditional test thenBlock bs tests) := by
  rw [Turns, flatMap_append]
  refine append_here _ fun place hplace => seq (generateBranches hbs htests) fun ends hends => ?_
  refine bind here fun _ _ => next (patch htest _ _) fun _ => last (generateAll hthen) fun _ _ => ?_
  exact bind here fun finish _ => next (patch hplace _ _) fun _ =>
    forM ends fun i hi => patch (hends i hi) _ _

theorem loopCode {v : Operand} {c : Node} {body : List Node} {tail : Nat → Nat → Gen Unit}
    (hns : Each I (v.nodes ++ c :: body)) (htail : ∀ start test, P test → Stays I [] (tail start test)) :
    Turns I (v.nodes ++ c :: body) (Gen.loopCode v c body tail) := by
  obtain ⟨hv, hrest⟩ := forall_mem_append.1 hns
  obtain ⟨hc, hbody⟩ := forall_mem_cons.1 hrest
  rw [Turns, flatMap_append]
  refine next (note fun _ => rfl) fun _ => seq (generateOperand hv) fun _ _ => bind here fun start _ => ?_
  refine seq hc fun _ _ => next (emitInt _ _) fun _ => bind here fun test htest => ?_
  exact next (append _) fun _ => last (generateAll hbody) fun _ _ => htail start test htest

theorem receiverCode (ho : Each I o.nodes) : Turns I o.nodes (Gen.receiverCode o) := by
  cases o with
  | node n => exact generateOperand ho
  | atom a =>
    unfold Gen.receiverCode
    dsimp only
    split
    · exact next (address _) fun _ => emitInt _ _
    · exact pure trivial

theorem call {f : String} {xs : List Node} (hns : Each I (xs.reverse ++ o.nodes)) :
    Turns I (xs.reverse ++ o.nodes) (Gen.generate (.call f xs o)) := by
  obtain ⟨hxs, ho⟩ := forall_mem_append.1 hns
  rw [generate_call, Turns, flatMap_append]
  refine seq (generateReversed fun x hx => hxs x (mem_reverse.2 hx)) fun _ _ => next get fun h => ?_
  split
  · exact last (receiverCode ho) fun _ _ => calleeCode f
  · cases o with
    | atom a => exact pure trivial
    | node n => exact absurd rfl ‹_›

theorem member {a : Operand} {indexed : Bool} (hns : Each I (Node.member o a indexed).turns) :
    Turns I (Node.member o a indexed).turns (Gen.generate (.member o a indexed)) := by
  by_cases hnested : ∃ o' a' i', o = .node (.member o' a' i')
  · obtain ⟨o', a', i', rfl⟩ := hnested
    obtain ⟨ho, ha⟩ := forall_mem_cons.1 hns
    rw [generate_member_nested]
    refine seq ho fun _ _ => ?_
    cases indexed with
    | true => exact indexCode _ _ ha
    | false => exact pure trivial
  · have hturns : (Node.member o a indexed).turns = if indexed then a.index Node.isUnary else [] := by
      unfold Node.turns
      split <;> simp_all
    rw [hturns] at hns ⊢
    rw [generate_member_plain fun o' a' i' h => hnested ⟨o', a', i', h⟩]
    cases indexed with
    | true => exact next (addressOf o) fun _ => next (emitInt _ _) fun _ => indexCode _ _ hns
    | false => exact pure trivial

theorem assign {t : Operand} {v : Node} (hns : Each I (v :: t.targets)) :
    Turns I (v :: t.targets) (Gen.generate (.assign t v)) := by
  obtain ⟨hv, ht⟩ := forall_mem_cons.1 hns
  by_cases helement : ∃ o a, t = .node (.member o a true)
  · obtain ⟨o, a, rfl⟩ := helement
    obtain ⟨ho, ha⟩ := forall_mem_append.1 ht
    rw [generate_assign_element, Turns, flatMap_cons, Operand.targets, flatMap_append]
    exact seq hv fun _ _ => next (addressOf _) fun _ => next (emitInt _ _) fun _ =>
      seq (generateSetters ho) fun _ _ => indexCode _ _ ha
  · have htargets : t.targets = [] := by
      unfold Operand.targets
      split <;> simp_all
    unfold Gen.generate
    rw [htargets]
    refine last (single hv) fun _ _ => ?_
    split
    · exact absurd ⟨_, _, rfl⟩ helement
    · exact pure trivial
    · exact next (addressOf _) fun _ => emitInt _ _

/-- A node that declares nothing itself, if those that it turns to are generated so. -/
theorem turns {n : Node} (hr : n.reservations = []) (hn : Each I n.turns) :
    Turns I n.turns (Gen.generate n) := by
  cases n with
  | declare | function => cases hr
  | binary op a b =>
    obtain ⟨ha, hb⟩ := forall_mem_cons.1 hn
    rw [Gen.generate]
    refine seq ha fun _ _ => last (generateOption hb) fun _ _ => ?_
    split
    · exact emitInt _ _
    · exact throw _
  | literal k v =>
    rw [Gen.generate]
    exact literalCode k v
  | listLiteral k xs =>
    by_cases hk : holds "[]" k
    · rw [Node.turns, if_pos hk] at hn ⊢
      rw [generate_list hk]
      exact last (generateReversed fun x hx => hn x (mem_reverse.2 hx)) fun _ _ => emitInt _ _
    · rw [Node.turns, if_neg hk]
      unfold Gen.generate
      split
      · exact throw _
      · exact emit _ _
      · exact emitInt _ _
      · exact emit _ _
      · exact throw _
      · split
        · exact absurd ‹_› hk
        · split <;> exact throw _
  | call f xs o => exact call hn
  | create r xs =>
    rw [Gen.generate]
    refine last (generateFields r hn) fun _ _ => next get fun h => ?_
    split
    · exact emitInt _ _
    · exact throw _
  | member o a indexed => exact member hn
  | cast t s x =>
    rw [Gen.generate]
    exact last (single (hn x mem_cons_self)) fun _ _ => next (lift _) fun _ => emitInt _ _
  | record x fs =>
    rw [Gen.generate]
    exact recordCode x fs
  | assign t v => exact assign hn
  | conditional c thenBlock bs elseBlock =>
    simp only [Node.turns, cons_append, append_assoc] at hn ⊢
    obtain ⟨hc, hrest⟩ := forall_mem_cons.1 hn
    obtain ⟨hbs, hrest⟩ := forall_mem_append.1 hrest
    obtain ⟨helse, hrest⟩ := forall_mem_append.1 hrest
    obtain ⟨hbody, hthen⟩ := forall_mem_append.1 hrest
    rw [generate_conditional, Turns, flatMap_cons, flatMap_append, flatMap_append]
    refine seq hc fun _ _ => bind here fun test htest => next (append _) fun _ => ?_
    exact seq (generateTests hbs) fun tests htests => seq (elseCode helse) fun _ _ =>
      closeConditional htest htests hbody hthen
  | whileLoop c body =>
    rw [generate_whileLoop]
    exact loopCode (v := .atom .nothing) hn fun _ _ htest =>
      next (settle (by decide)) fun _ => closeCode htest
  | forLoop v c body =>
    rw [generate_forLoop]
    exact loopCode hn fun _ _ htest => next (settle (by decide)) fun _ => countCode v (closeCode htest)
  | giveBack v =>
    rw [Gen.generate]
    exact last (generateOption hn) fun _ _ => emitInt _ _
  | breakLoop | continueLoop =>
    rw [Gen.generate]
    exact exitCode _
  | plainUnary | plainDeclaration =>
    rw [Gen.generate]
    exact throw _
  | block | parameter | plain | plainExpression =>
    rw [Gen.generate]
    exact pure trivial

/-- The names that a node declares come first. -/
theorem generate_of_turns {n : Node} (hn : Each I n.turns) : Stays I n.declared (Gen.generate n) := by
  rw [Node.declared_eq]
  cases n with
  | declare x t v =>
    rw [generate_declare]
    exact seq (reserve x t) fun _ _ => next (noteObject _ _) fun _ => last (initialCode t hn) fun _ _ =>
      emitInt _ _
  | function name r ps body =>
    rw [Gen.generate]
    change Stays I ([(name, "")] ++ (_ ++ body.flatMap Node.declared)) _
    refine bind here fun start hstart => seq (reserve name "") fun _ _ => next (emitInt _ _) fun _ => ?_
    refine next (emitInt _ _) fun _ => seq (declareParameters name ps) fun _ _ => ?_
    refine bind here fun skip hskip => next (emitInt _ _) fun _ => bind here fun _ _ => ?_
    refine next (patch hstart _ _) fun _ => next (storeParameters _ _) fun _ => ?_
    exact last (generateAll hn) fun _ _ => next closeFunction fun _ => bind here fun _ _ =>
      patch hskip _ _
  | _ => exact turns rfl hn

/-- Every node is generated so. -/
theorem generate_declared (n : Node) : Stays I n.declared (Gen.generate n) :=
  generate_of_turns fun m _ => generate_declared m
termination_by sizeOf n
decreasing_by exact Node.sizeOf_turns ‹_›

end Gives

end Gen

end StackLang
