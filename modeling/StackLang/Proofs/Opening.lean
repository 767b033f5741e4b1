import StackLang.Proofs.Context
import StackLang.Proofs.DottedName

/-!
# Contexts that a parse opens

A block without a name, the head of a loop with a counter and the body of a function are each read
in a context of their own, which is closed behind them. The tracker is the parser of statements,
step for step, with a record of the contexts that it opens for blocks and loops.

* `Tracker.Tracks k k' r a`: from open contexts `k`, the tracker `r` and the parser `a` come to the
  same results with the open contexts `k'`, and the recorded contexts end with the numbers that
  follow the last one;
* `Tracker.tracksStatements`: a statement leaves the contexts as it finds them, by induction on the
  fuel;
* `contexts_balanced`: so does a program, which ends in the outermost context, and no context was
  opened twice.
-/

namespace StackLang

open List

/-- A parser that records the contexts of the blocks and loops that it opens. -/
abbrev Tracker := StateT (List String) Parse

namespace Tracker

open Parse hiding statement block body statements branches forStatement functionDeclaration program

/-- Open a block without a name, and record its context. -/
def openBlock : Tracker Unit := do
  modifyScope (·.enterBlock)
  let s ← scope
  modify (· ++ [s.context])

mutual

/-- A statement. -/
def statement : (fuel : Nat) → Tracker Node
  | 0 => throw .exhausted
  | n + 1 => do
    if ← atType then declaration n
    else
      match ← kind with
      | .lbrace => return .block (← block n)
      | .funcWord => functionDeclaration n
      | .structWord => recordDeclaration n
      | .identifier => nameStatement n
      | .ifWord =>
        advance
        let condition ← head n
        let thenBlock ← block n
        let bs ← branches n
        match ← current? with
        | some ⟨.elseWord, _, _, _⟩ =>
          advance
          return .conditional condition thenBlock bs (some (← block n))
        | _ => return .conditional condition thenBlock bs none
      | .forWord => forStatement n
      | .whileWord =>
        advance
        let condition ← head n
        return .whileLoop condition (← block n)
      | .returnWord =>
        advance
        let value ← expression n
        advance
        return .giveBack (some value)
      | .continueWord =>
        advance
        advance
        return .continueLoop
      | .breakWord =>
        advance
        advance
        return .breakLoop
      | _ => reject .unexpected

/-- A block in a context of its own. -/
def block : (fuel : Nat) → Tracker (List Node)
  | 0 => throw .exhausted
  | n + 1 => do
    openBlock
    let ss ← body n
    modifyScope (·.leave)
    return ss

/-- The statements between braces. -/
def body : (fuel : Nat) → Tracker (List Node)
  | 0 => throw .exhausted
  | n + 1 => do
    if (← kind) ≠ .lbrace then reject .blockStart
    advance
    let ss ← statements n
    advance
    return ss

/-- The statements up to the closing brace. -/
def statements : (fuel : Nat) → Tracker (List Node)
  | 0 => throw .exhausted
  | n + 1 => do
    if (← kind) = .rbrace then return []
    let s ← statement n
    return s :: (← statements n)

/-- The further conditions of a conditional. -/
def branches : (fuel : Nat) → Tracker (List Branch)
  | 0 => throw .exhausted
  | n + 1 => do
    match ← current? with
    | some ⟨.elifWord, _, _, _⟩ =>
      advance
      let condition ← expression n
      let ss ← block n
      return .mk condition ss :: (← branches n)
    | _ => return []

/-- A loop that declares its counter. -/
def forStatement : (fuel : Nat) → Tracker Node
  | 0 => throw .exhausted
  | n + 1 => do
    advance
    if (← kind) ≠ .lparen then reject .headStart
    advance
    if ← atType then
      openBlock
      let counter ← declaration n
      let condition ← expression n
      advance
      let ss ← body n
      modifyScope (·.leave)
      return .forLoop (.node counter) condition ss
    else if (← kind) = .identifier then throw .loopOverName
    else reject .loopVariable

/-- A declaration of a function. -/
def functionDeclaration : (fuel : Nat) → Tracker Node
  | 0 => throw .exhausted
  | n + 1 => do
    advance
    let name := (← current).value
    advance
    markLine
    if (← kind) ≠ .lparen then reject .parameterStart
    let ps ← parameters n
    advance
    let result ← do
      if (← kind) = .ret then
        advance
        let k ← kind
        advance
        pure k.name
      else pure "VOID"
    tryScope (·.declareFunction name result (ps.map fun p => (p.name, p.type)))
    modifyScope (·.enter name.shown)
    let ss ← body n
    modifyScope (·.leave)
    return .function name result ps (renameAll name.shown (ps.map Parameter.name) ss)

end

/-- The statements up to the last token. -/
def program : (fuel : Nat) → Tracker (List Node)
  | 0 => throw .exhausted
  | n + 1 => do
    match ← current? with
    | none => return []
    | some _ =>
      let s ← statement n
      return s :: (← program n)

end Tracker

/-! ### Numbers of contexts -/

/-- The open context and those around it, the innermost first. -/
def Scope.contexts (s : Scope) : List String := s.context :: s.history

/-- The context is that of the block with this number. -/
def OfBlock (n : Nat) (context : String) : Prop := ∃ front, context = front ++ "." ++ decimalText n

/-- The number of a block can be read off its context. -/
theorem OfBlock.unique {m n : Nat} {context : String} (hm : OfBlock m context)
    (hn : OfBlock n context) : m = n := by
  obtain ⟨x, rfl⟩ := hm
  obtain ⟨y, hy⟩ := hn
  -- read from its end, the text has the digits up to the first point
  have hlist := congrArg (fun s => s.toList.reverse) hy
  simp only [String.toList_append, decimalText, String.toList_ofList, reverse_append,
    show ".".toList.reverse = ['.'] from rfl, singleton_append] at hlist
  have hpoint (k : Nat) : '.' ∉ (digitsOf k).reverse := fun h =>
    point_notMem_digitsOf k (mem_reverse.1 h)
  exact digitsOf_inj (reverse_inj.1 (eq_of_append_point (hpoint m) (hpoint n) hlist))

/-- The contexts are those of the blocks that follow the block `n`. -/
inductive Successive : Nat → List String → Prop
  | nil (n : Nat) : Successive n []
  | cons {n : Nat} {c : String} {cs : List String} (head : OfBlock (n + 1) c)
      (tail : Successive (n + 1) cs) : Successive n (c :: cs)

namespace Successive

variable {n : Nat} {cs ds : List String}

theorem append (h : Successive n cs) (h' : Successive (n + cs.length) ds) :
    Successive n (cs ++ ds) := by
  induction h with
  | nil => exact h'
  | cons head _ ih =>
    refine .cons head (ih ?_)
    rwa [length_cons, Nat.add_comm _ 1, ← Nat.add_assoc] at h'

theorem exists_number (h : Successive n cs) : ∀ c ∈ cs, ∃ k, n < k ∧ OfBlock k c := by
  induction h with
  | nil => exact forall_mem_nil _
  | cons head _ ih =>
    refine forall_mem_cons.2 ⟨⟨_, Nat.lt_succ_self _, head⟩, fun c hc => ?_⟩
    obtain ⟨k, hk, hc⟩ := ih c hc
    exact ⟨k, Nat.lt_of_succ_lt hk, hc⟩

/-- Contexts of different blocks are different. -/
theorem nodup (h : Successive n cs) : cs.Nodup := by
  induction h with
  | nil => exact nodup_nil
  | cons head tail ih =>
    refine nodup_cons.2 ⟨fun hmem => ?_, ih⟩
    obtain ⟨k, hk, hc⟩ := tail.exists_number _ hmem
    exact Nat.ne_of_lt hk (head.unique hc)

end Successive

/-! ### Trackers and parsers -/

namespace Tracker

open Parse (Quiet)

variable {α β : Type} {k k' k'' : List String}

/-- What a tracker comes to, given the record so far. -/
abbrev Outcome (α : Type) := List String → Except Fault ((α × List String) × ParseState)

/-- How a tracker ends beside the parser: with the same fault, or with the same result, where the
    contexts `k` are open and the contexts opened in between have been added to the record. -/
inductive Agrees (k : List String) (s : ParseState) (u : Outcome α) :
    Except Fault (α × ParseState) → Prop
  | fault {f : Fault} (stops : ∀ log, u log = .error f) : Agrees k s u (.error f)
  | ok {x : α} {s' : ParseState} {new : List String} (contexts : s'.scope.contexts = k)
      (opened : Successive s.scope.unnamed new)
      (count : s'.scope.unnamed = s.scope.unnamed + new.length)
      (records : ∀ log, u log = .ok ((x, log ++ new), s')) : Agrees k s u (.ok (x, s'))

/-- The tracker goes along with the parser from open contexts `k` to open contexts `k'`. -/
def Tracks (k k' : List String) (r : Tracker α) (a : Parse α) : Prop :=
  ∀ s, s.scope.contexts = k → Agrees k' s (fun log => r log s) (a s)

namespace Agrees

variable {s : ParseState} {u : Outcome α} {v : Except Fault (α × ParseState)}

theorem bind {g : α → Tracker β} {f : α → Parse β} (h : Agrees k s u v)
    (hf : ∀ x, Tracks k k' (g x) (f x)) :
    Agrees k' s (fun log => u log >>= fun p => g p.1.1 p.1.2 p.2) (v >>= fun p => f p.1 p.2) := by
  cases h with
  | fault stops =>
    refine .fault fun log => ?_
    rw [stops log]
    rfl
  | @ok x s₁ new contexts opened count records =>
    have hrest := hf x s₁ contexts
    change Agrees k' s _ (f x s₁)
    generalize hv : f x s₁ = v₁ at hrest ⊢
    cases hrest with
    | fault stops =>
      refine .fault fun log => ?_
      rw [records log]
      exact stops _
    | ok contexts' opened' count' records' =>
      refine .ok contexts' (opened.append (count ▸ opened')) ?_ fun log => ?_
      · rw [count', count, length_append, Nat.add_assoc]
      · rw [records log, ← append_assoc]
        exact records' _

end Agrees

namespace Tracks

theorem pure (x : α) : Tracks k k (Pure.pure x) (Pure.pure x) := fun _ hs =>
  .ok hs (.nil _) rfl fun log => by
    rw [append_nil]
    rfl

theorem throw (f : Fault) : Tracks k k' (MonadExcept.throw f : Tracker α) (MonadExcept.throw f) :=
  fun _ _ => .fault fun _ => rfl

theorem bind {r : Tracker α} {a : Parse α} {g : α → Tracker β} {f : α → Parse β}
    (ha : Tracks k k' r a) (hf : ∀ x, Tracks k' k'' (g x) (f x)) :
    Tracks k k'' (r >>= g) (a >>= f) := fun s hs => (ha s hs).bind hf

/-- A step that opens and closes nothing. -/
theorem lift {Q : α → Prop} {a : Parse α} (ha : Quiet Q a) : Tracks k k (liftM a) a := by
  intro s hs
  change Agrees k s (fun log => a s >>= fun p => Except.ok ((p.1, log), p.2)) (a s)
  cases h : a s with
  | error f => exact .fault fun _ => rfl
  | ok p =>
    have hsame := (ha s trivial p.1 p.2 h).1
    refine .ok ?_ (.nil _) hsame.unnamed fun log => ?_
    · rw [← hs, Scope.contexts, Scope.contexts, hsame.context, hsame.history]
    · rw [append_nil]
      rfl

theorem next {Q : α → Prop} {a : Parse α} {g : α → Tracker β} {f : α → Parse β} (ha : Quiet Q a)
    (hf : ∀ x, Tracks k k' (g x) (f x)) : Tracks k k' (liftM a >>= g) (a >>= f) :=
  bind (lift ha) hf

theorem after_pure {x : α} {g : α → Tracker β} {f : α → Parse β} (h : Tracks k k' (g x) (f x)) :
    Tracks k k' (Pure.pure x >>= g) (Pure.pure x >>= f) := h

theorem ite {c : Prop} [Decidable c] {r₁ r₂ : Tracker α} {a₁ a₂ : Parse α}
    (h₁ : Tracks k k' r₁ a₁) (h₂ : Tracks k k' r₂ a₂) :
    Tracks k k' (if c then r₁ else r₂) (if c then a₁ else a₂) := by
  by_cases hc : c
  · rw [if_pos hc, if_pos hc]
    exact h₁
  · rw [if_neg hc, if_neg hc]
    exact h₂

theorem reject (cause : String → SyntaxCause) :
    Tracks k k (liftM (Parse.reject cause : Parse α)) (Parse.reject cause) :=
  lift (.reject (Q := fun _ => True) cause)

theorem unless_rejected {c : Prop} [Decidable c] {cause : String → SyntaxCause}
    {g : Unit → Tracker α} {f : Unit → Parse α} (h : Tracks k k' (g ()) (f ())) :
    Tracks k k' (if c then liftM (Parse.reject cause : Parse Unit) >>= g else g ())
      (if c then Parse.reject cause >>= f else f ()) :=
  ite (next (.reject (Q := fun _ => True) cause) fun _ => h) h

/-! ### Opening and closing -/

/-- A new block is open above the contexts that were open before. -/
theorem openBlock {g : Tracker α} {f : Parse α} (h : ∀ c, k ≠ [] → Tracks (c :: k) k' g f) :
    Tracks k k' (Tracker.openBlock >>= fun _ => g)
      (Parse.modifyScope (·.enterBlock) >>= fun _ => f) := by
  intro s hs
  have hk : k ≠ [] := by
    rw [← hs]
    exact cons_ne_nil _ _
  have hopen : Agrees (s.scope.enterBlock.context :: k) s
      (fun log => Tracker.openBlock log s) (Parse.modifyScope (·.enterBlock) s) := by
    refine .ok ?_ (.cons ⟨s.scope.context, rfl⟩ (.nil _)) rfl fun log => rfl
    rw [← hs]
    rfl
  exact hopen.bind fun _ => h _ hk

/-- A function is open above the contexts that were open before. -/
theorem enter {name : String} {g : Tracker α} {f : Parse α}
    (h : k ≠ [] → Tracks (name :: k) k' g f) :
    Tracks k k' (liftM (Parse.modifyScope (·.enter name)) >>= fun _ => g)
      (Parse.modifyScope (·.enter name) >>= fun _ => f) := by
  intro s hs
  have hk : k ≠ [] := by
    rw [← hs]
    exact cons_ne_nil _ _
  have hopen : Agrees (name :: k) s
      (fun log => (liftM (Parse.modifyScope (·.enter name)) : Tracker Unit) log s)
      (Parse.modifyScope (·.enter name) s) := by
    refine .ok ?_ (.nil _) rfl fun log => ?_
    · rw [← hs]
      rfl
    · rw [append_nil]
      rfl
  exact hopen.bind fun _ => h hk

/-- The innermost context is closed again. -/
theorem leave {c : String} (hk : k ≠ []) :
    Tracks (c :: k) k (liftM (Parse.modifyScope (·.leave))) (Parse.modifyScope (·.leave)) := by
  intro s hs
  obtain ⟨c', h, rfl⟩ := exists_cons_of_ne_nil hk
  obtain ⟨-, hhistory⟩ := List.cons.inj hs
  have hleave : s.scope.leave = { s.scope with context := c', history := h } := by
    rw [Scope.leave, hhistory]
  change Agrees (c' :: h) s _ (.ok ((), { s with scope := s.scope.leave }))
  rw [hleave]
  refine .ok rfl (.nil _) rfl fun log => ?_
  rw [append_nil, ← hleave]
  rfl

end Tracks

/-! ### Statements -/

/-- The trackers of statements go along with the parsers, given fuel `n`, and leave the contexts as
    they find them. -/
structure TracksStatements (n : Nat) : Prop where
  statement (k : List String) : Tracks k k (statement n) (Parse.statement n)
  block (k : List String) : Tracks k k (block n) (Parse.block n)
  body (k : List String) : Tracks k k (body n) (Parse.body n)
  statements (k : List String) : Tracks k k (statements n) (Parse.statements n)
  branches (k : List String) : Tracks k k (branches n) (Parse.branches n)
  forStatement (k : List String) : Tracks k k (forStatement n) (Parse.forStatement n)
  functionDeclaration (k : List String) :
    Tracks k k (functionDeclaration n) (Parse.functionDeclaration n)

namespace Tracks

variable {n : Nat} (ih : TracksStatements n)
include ih

theorem statement_succ (k : List String) :
    Tracks k k (Tracker.statement (n + 1)) (Parse.statement (n + 1)) := by
  unfold Tracker.statement Parse.statement
  refine next .atType fun b => ite (lift (.declaration n)) (next .kind fun kind => ?_)
  cases kind with
  | lbrace => exact bind (ih.block k) fun _ => pure _
  | funcWord => exact ih.functionDeclaration k
  | structWord => exact lift (.recordDeclaration n)
  | identifier => exact lift (.nameStatement n)
  | ifWord =>
    refine next .advance fun _ => next (.head n) fun c => bind (ih.block k) fun ss =>
      bind (ih.branches k) fun bs => next .current? fun o => ?_
    rcases o with _ | ⟨kind, v, l, i⟩
    · exact pure _
    cases kind with
    | elseWord => exact next .advance fun _ => bind (ih.block k) fun _ => pure _
    | _ => exact pure _
  | forWord => exact ih.forStatement k
  | whileWord => exact next .advance fun _ => next (.head n) fun _ => bind (ih.block k) fun _ => pure _
  | returnWord =>
    exact next .advance fun _ => next (.expression n) fun _ =>
      next .advance fun _ => pure _
  | continueWord | breakWord => exact next .advance fun _ => next .advance fun _ => pure _
  | _ => exact reject _

theorem for_succ (k : List String) :
    Tracks k k (Tracker.forStatement (n + 1)) (Parse.forStatement (n + 1)) := by
  unfold Tracker.forStatement Parse.forStatement
  refine next .advance fun _ => next .kind fun _ => unless_rejected (next .advance fun _ =>
    next .atType fun b => ite (openBlock fun c hk => ?_)
      (next .kind fun _ => ite (throw _) (reject _)))
  -- the head and the body are read in the new context
  exact next (.declaration n) fun _ => next (.expression n) fun _ =>
    next .advance fun _ => bind (ih.body _) fun _ => bind (leave hk) fun _ => pure _

theorem function_succ (k : List String) :
    Tracks k k (Tracker.functionDeclaration (n + 1)) (Parse.functionDeclaration (n + 1)) := by
  unfold Tracker.functionDeclaration Parse.functionDeclaration
  refine next .advance fun _ => next .current fun t => next .advance fun _ => next .markLine fun _ =>
    next .kind fun _ => unless_rejected (next (.parameters n) fun ps => next .advance fun _ =>
      next .kind fun _ => ite
        (next .advance fun _ => next .kind fun _ => next .advance fun _ => after_pure ?_)
        (after_pure ?_))
  -- with a type of the result or without one, the body is read in the context of the function
  all_goals
    exact next (.declareFunction _ _ _) fun _ => enter fun hk =>
      bind (ih.body _) fun _ => bind (leave hk) fun _ => pure _

end Tracks

theorem tracksStatements (n : Nat) : TracksStatements n := by
  induction n with
  | zero =>
    constructor <;> intro k <;> exact Tracks.throw _
  | succ n ih =>
    constructor
    case statement => exact Tracks.statement_succ ih
    case block =>
      intro k
      unfold block Parse.block
      exact .openBlock fun _ hk => .bind (ih.body _) fun _ => .bind (.leave hk) fun _ => .pure _
    case body =>
      intro k
      unfold body Parse.body
      exact .next .kind fun _ => .unless_rejected (.next .advance fun _ =>
        .bind (ih.statements k) fun _ => .next .advance fun _ => .pure _)
    case statements =>
      intro k
      unfold statements Parse.statements
      exact .next .kind fun _ => .ite (.pure _) (.bind (ih.statement k) fun _ =>
        .bind (ih.statements k) fun _ => .pure _)
    case branches =>
      intro k
      unfold branches Parse.branches
      refine .next .current? fun o => ?_
      rcases o with _ | ⟨kind, v, l, i⟩
      · exact .pure _
      cases kind with
      | elifWord =>
        exact .next .advance fun _ => .next (.expression n) fun _ =>
          .bind (ih.block k) fun _ => .bind (ih.branches k) fun _ => .pure _
      | _ => exact .pure _
    case forStatement => exact Tracks.for_succ ih
    case functionDeclaration => exact Tracks.function_succ ih

theorem Tracks.program (n : Nat) (k : List String) :
    Tracks k k (Tracker.program n) (Parse.program n) := by
  induction n with
  | zero => exact throw _
  | succ n ih =>
    unfold Tracker.program Parse.program
    refine next .current? fun o => ?_
    cases o with
    | none => exact pure _
    | some t => exact bind ((tracksStatements n).statement k) fun _ => bind ih fun _ => pure _

end Tracker

/-- A program that parses ends in the outermost context, with no context around it. The contexts
    that are opened for its blocks and loops, as the tracker records them, are as many as have been
    counted, and all different. Every statement, wherever it is read, leaves the open context and
    those around it as it finds them. -/
theorem contexts_balanced {n : Nat} {tokens : List Token} {fault : Option Fault}
    {program : List Node} {s : ParseState}
    (h : Parse.program n ⟨tokens, fault, {}⟩ = .ok (program, s)) :
    s.scope.context = "MAIN" ∧ s.scope.history = [] ∧
      (∃ opened, Tracker.program n [] ⟨tokens, fault, {}⟩ = .ok ((program, opened), s) ∧
        opened.length = s.scope.unnamed ∧ opened.Nodup) ∧
      ∀ (fuel : Nat) (t t' : ParseState) (x : Node), Parse.statement fuel t = .ok (x, t') →
        t'.scope.context = t.scope.context ∧ t'.scope.history = t.scope.history := by
  have hagrees := Tracker.Tracks.program n ["MAIN"] ⟨tokens, fault, {}⟩ rfl
  rw [h] at hagrees
  cases hagrees with
  | @ok _ _ opened contexts successive count records =>
    obtain ⟨hcontext, hhistory⟩ := List.cons.inj contexts
    refine ⟨hcontext, hhistory, ⟨opened, records [], ?_, successive.nodup⟩, fun fuel t t' x hx => ?_⟩
    · rw [count]
      exact (Nat.zero_add _).symm
    · have hstatement := (Tracker.tracksStatements fuel).statement _ t rfl
      rw [hx] at hstatement
      cases hstatement with
      | ok contexts' => exact List.cons.inj contexts'

/-- A function with a loop in a conditional, and a block behind it. -/
def nestedScopes : List Token :=
  (scan ("func f(int a) -> int \x7b if (a < 3) \x7b for (int i = 0; i < a) \x7b print(i); \x7d \x7d " ++
    "return a; \x7d \x7b print(1); \x7d")).tokens

theorem contexts_balanced_nested : ∃ program s,
    Parse.program 64 ⟨nestedScopes, none, {}⟩ = .ok (program, s) ∧ s.scope.context = "MAIN" ∧
      Tracker.program 64 [] ⟨nestedScopes, none, {}⟩ =
        .ok ((program, ["f.1", "f.1.2", "MAIN.3"]), s) := by
  have hopened : (Tracker.program 64 [] ⟨nestedScopes, none, {}⟩).toOption.map (fun r => r.1.2) =
      some ["f.1", "f.1.2", "MAIN.3"] := by
    decide +kernel
  have hparses : (Parse.program 64 ⟨nestedScopes, none, {}⟩).toOption.isSome := by
    decide +kernel
  cases hrun : Parse.program 64 ⟨nestedScopes, none, {}⟩ with
  | error f =>
    rw [hrun] at hparses
    cases hparses
  | ok r =>
    obtain ⟨hcontext, -, ⟨opened, hrecorded, -⟩, -⟩ := contexts_balanced hrun
    rw [hrecorded] at hopened
    obtain rfl := Option.some.inj hopened
    exact ⟨r.1, r.2, rfl, hcontext, hrecorded⟩

end StackLang
