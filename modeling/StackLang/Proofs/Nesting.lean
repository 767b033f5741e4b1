import StackLang.Proofs.DottedName
import StackLang.Proofs.Generation

/-!
# Nested scopes

`Nesting` keeps the scopes that are open at a place of a program and, for every scope, the names
that are declared in it. A `Scope` has one table for all names instead, filed under the contexts of
their scopes.

* `Nesting.innermost`: the type that a name is meant to have, that of its innermost declaration;
* `Models`: what the table of a scope has for the scopes of a nesting. Since the numbers of blocks
  are used once, no two open blocks share a context;
* `Models.perform` and `Models.performAll`: a call that opens or closes a scope or declares a name
  keeps it so, and so do all calls from the beginning of a program.
-/

namespace StackLang

/-! ### Scopes that are open -/

/-- What opens a scope and tells it from all others: a block has its number, a function its name. -/
inductive Opener where
  | block (number : Nat)
  | function (name : String)
  deriving DecidableEq, Repr

/-- The scopes at a place of a program. -/
structure Nesting where
  /-- The names outside of all blocks and functions. -/
  globals : Table String := builtinTypes
  /-- The names of a scope, with their types. -/
  names : Opener → Table String := fun _ => []
  /-- The scopes that are open, the innermost first. -/
  scopes : List Opener := []
  /-- How many blocks have been opened. -/
  count : Nat := 0

/-- A call that opens or closes a scope, or declares a name. -/
inductive ScopeCall where
  | declare (name type : String)
  | openBlock
  | openFunction (name result : String) (parameters : List (String × String))
  | close

/-- The names of a call are free of points. -/
def ScopeCall.Undotted : ScopeCall → Prop
  | .declare name _ => '.' ∉ name.toList
  | .openFunction name _ parameters => '.' ∉ name.toList ∧ ∀ p ∈ parameters, '.' ∉ p.1.toList
  | _ => True

instance (c : ScopeCall) : Decidable c.Undotted :=
  match c with
  | .declare name _ => inferInstanceAs (Decidable ('.' ∉ name.toList))
  | .openFunction name _ parameters =>
    inferInstanceAs (Decidable ('.' ∉ name.toList ∧ ∀ p ∈ parameters, '.' ∉ p.1.toList))
  | .openBlock | .close => isTrue trivial

/-- The scope after a call. -/
def Scope.perform (s : Scope) : ScopeCall → Except Fault Scope
  | .declare name type => s.declare (.text name) type
  | .openBlock => .ok s.enterBlock
  | .openFunction name result parameters => do
    let s ← s.declareFunction (.text name) result (parameters.map fun p => (.text p.1, p.2))
    .ok (s.enter name)
  | .close => .ok s.leave

/-- The scope after calls, if none of them fails. -/
def Scope.performAll (s : Scope) (calls : List ScopeCall) : Except Fault Scope :=
  calls.foldlM Scope.perform s

namespace Nesting

variable {os : List Opener} {o : Opener}

/-- The nesting with a name in a scope. -/
def file (e : Nesting) (o : Opener) (name type : String) : Nesting :=
  { e with names := fun o' => if o' = o then (e.names o).put (.text name) type else e.names o' }

/-- The nesting with a global name. -/
def fileGlobal (e : Nesting) (name type : String) : Nesting :=
  { e with globals := e.globals.put (.text name) type }

/-- What a call does, if the names of some scopes are taken for global ones. Functions are global,
    and their parameters are names of the scope that they open. -/
def perform (outermost : Opener → Bool) (e : Nesting) : ScopeCall → Nesting
  | .declare name type =>
    match e.scopes with
    | [] => e.fileGlobal name type
    | o :: _ => if outermost o then e.fileGlobal name type else e.file o name type
  | .openBlock => { e with scopes := .block (e.count + 1) :: e.scopes, count := e.count + 1 }
  | .openFunction name result parameters =>
    parameters.foldl (fun e p => e.file (.function name) p.1 p.2)
      { e.fileGlobal name result with scopes := .function name :: e.scopes }
  | .close => { e with scopes := e.scopes.tail }

/-- The scopes after calls from the beginning of a program, as they are meant. -/
def meant (calls : List ScopeCall) : Nesting := calls.foldl (perform fun _ => false) {}

/-- The scopes as the table has them: a function with the name of the outermost context is taken
    for it. -/
def filed (calls : List ScopeCall) : Nesting := calls.foldl (perform (· = .function "MAIN")) {}

/-- The blocks around a place, up to the function that they are in, and the function. -/
def enclosing : List Opener → List Opener
  | [] => []
  | .block n :: os => .block n :: enclosing os
  | .function f :: _ => [.function f]

/-- The type that the first of the scopes gives to a name. -/
def declaredIn (e : Nesting) (os : List Opener) (name : String) : Option String :=
  os.findSome? fun o => (e.names o).get? (.text name)

/-- The type that the innermost declaration gives to a name. -/
def innermost (e : Nesting) (name : String) : Option String :=
  (e.declaredIn (enclosing e.scopes) name).or (e.globals.get? (.text name))

theorem declaredIn_cons (e : Nesting) (o : Opener) (os : List Opener) (name : String) :
    e.declaredIn (o :: os) name = ((e.names o).get? (.text name)).or (e.declaredIn os name) := by
  rw [declaredIn, List.findSome?_cons]
  cases (e.names o).get? (.text name) <;> rfl

/-! ### Contexts -/

/-- The name of the function that a place is in, or of the outermost context. -/
def head : List Opener → String
  | [] => "MAIN"
  | .block _ :: os => head os
  | .function f :: _ => f

/-- The numbers of the blocks up to the function, the outermost first. -/
def numbers : List Opener → List Nat
  | [] => []
  | .block n :: os => numbers os ++ [n]
  | .function _ :: _ => []

/-- The segments of the context. -/
def segments (os : List Opener) : List (List Char) :=
  (head os).toList :: (numbers os).map digitsOf

/-- The context of the innermost scope. -/
def context (os : List Opener) : String := String.ofList (dotted (segments os))

/-- The contexts around the innermost scope. -/
def history : List Opener → List String
  | [] => []
  | _ :: os => context os :: history os

theorem segments_ne_nil : segments os ≠ [] := List.cons_ne_nil _ _

theorem segments_block (n : Nat) (os : List Opener) :
    segments (.block n :: os) = segments os ++ [digitsOf n] := by
  simp [segments, head, numbers]

theorem segments_function (f : String) (os : List Opener) :
    segments (.function f :: os) = [f.toList] := rfl

/-- The context of a function has one segment, that of a block more. -/
theorem segments_eq_singleton {f : List Char} :
    segments (o :: os) = [f] ↔ .function (String.ofList f) = o := by
  cases o with
  | block n => simp [segments, numbers]
  | function g =>
    rw [segments_function, List.singleton_inj, Opener.function.injEq, ← String.toList_inj,
      String.toList_ofList, eq_comm]

/-- A context that ends with a number is that of the block. -/
theorem segments_eq_concat {r : List (List Char)} {n : Nat} (hr : r ≠ []) :
    segments (o :: os) = r ++ [digitsOf n] ↔ .block n = o ∧ segments os = r := by
  cases o with
  | block k =>
    rw [segments_block, List.append_singleton_inj, Opener.block.injEq, and_comm]
    exact and_congr_left' ⟨fun h => digitsOf_inj h.symm, fun h => by rw [h]⟩
  | function f => simp [segments_function, List.singleton_eq_append_iff, hr]

theorem context_nil : context [] = "MAIN" := by decide

theorem context_function (f : String) (os : List Opener) : context (.function f :: os) = f := by
  rw [context, segments_function, dotted, String.ofList_toList]

/-- The context of a block is not the outermost one. -/
theorem context_block_ne (n : Nat) (os : List Opener) : context (.block n :: os) ≠ "MAIN" := by
  intro h
  have hpoint : '.' ∈ (context (.block n :: os)).toList := by
    rw [context, segments_block, dotted_concat segments_ne_nil, String.toList_ofList]
    simp
  rw [h] at hpoint
  revert hpoint
  decide

end Nesting

/-! ### Names with segments in a table -/

/-- The name with the given segments. -/
def dottedName (segments : List (List Char)) : Atom := .text (String.ofList (dotted segments))

theorem dottedName_singleton (name : String) : dottedName [name.toList] = .text name := by
  rw [dottedName, dotted, String.ofList_toList]

/-- One segment more. -/
theorem ofList_dotted_concat {r : List (List Char)} (h : r ≠ []) (v : List Char) :
    String.ofList (dotted (r ++ [v])) = String.ofList (dotted r) ++ "." ++ String.ofList v := by
  rw [dotted_concat h, ← String.toList_inj]
  simp

/-- A name under a context. -/
theorem text_context (os : List Opener) (name : String) :
    .text (Nesting.context os ++ "." ++ name) =
      dottedName (Nesting.segments os ++ [name.toList]) := by
  rw [dottedName, ofList_dotted_concat Nesting.segments_ne_nil, String.ofList_toList]
  rfl

namespace Table

variable (table : Table String) {c r : List (List Char)} {v w : List Char} (type : String)

theorem get?_text (name : String) : table.get? (.text name) = table.typeAt? [name.toList] := by
  rw [typeAt?, dotted, String.ofList_toList]

/-- Names are the same if their contexts and their last segments are. -/
theorem typeAt?_put (hc : Undotted c) (hw : '.' ∉ w) (hr : Undotted r) (hv : '.' ∉ v) :
    (table.put (dottedName (c ++ [w])) type).typeAt? (r ++ [v]) =
      if c = r ∧ w = v then some type else table.typeAt? (r ++ [v]) := by
  have hcw : Undotted (c ++ [w]) := undotted_append.2 ⟨hc, undotted_singleton.2 hw⟩
  have hrv : Undotted (r ++ [v]) := undotted_append.2 ⟨hr, undotted_singleton.2 hv⟩
  have hsame : (dottedName (c ++ [w])).same (.text (String.ofList (dotted (r ++ [v])))) ↔
      c = r ∧ w = v := by
    simp only [dottedName, Atom.same, Atom.key, beq_iff_eq, Key.text.injEq]
    refine ⟨fun h => ?_, fun h => by rw [h.1, h.2]⟩
    have hcut := congrArg (cutAt '.') (String.ofList_injective h)
    rw [cutAt_dotted (by simp) hcw, cutAt_dotted (by simp) hrv] at hcut
    exact List.append_singleton_inj.1 hcut
  rw [typeAt?, typeAt?, get?_put]
  simp only [hsame]

/-- A global name is under no context. -/
theorem typeAt?_put_text {name : String} (hname : '.' ∉ name.toList) (hr : Undotted r)
    (hv : '.' ∉ v) :
    (table.put (.text name) type).typeAt? (r ++ [v]) =
      if [] = r ∧ name.toList = v then some type else table.typeAt? (r ++ [v]) := by
  have h := table.typeAt?_put type undotted_nil hname hr hv
  rwa [List.nil_append, dottedName_singleton] at h

/-- There are no points in the names of the built-in functions. -/
theorem typeAt?_builtinTypes (hr : r ≠ []) : builtinTypes.typeAt? (r ++ [v]) = none := by
  have hnames : ∀ p ∈ builtinTypes, ∃ name, p.1 = .text name ∧ '.' ∉ name.toList := by
    simp [builtinTypes]
  rw [typeAt?, get?, Option.map_eq_none_iff, List.find?_eq_none]
  intro p hp hsame
  obtain ⟨name, hname, hpoint⟩ := hnames p hp
  simp only [hname, Atom.same, Atom.key, beq_iff_eq, Key.text.injEq] at hsame
  rw [hsame, dotted_concat hr, String.toList_ofList] at hpoint
  simp at hpoint

end Table

theorem Nesting.typeAt?_file (e : Nesting) (o o' : Opener) {name : String} (type : String)
    {v : List Char} (hname : '.' ∉ name.toList) (hv : '.' ∉ v) :
    ((e.file o name type).names o').typeAt? [v] =
      if o' = o ∧ name.toList = v then some type else (e.names o').typeAt? [v] := by
  have h := (e.names o).typeAt?_put_text type hname undotted_nil hv
  by_cases ho : o' = o
  · simpa [file, ho] using h
  · simp [file, ho]

open Nesting

/-! ### Open blocks in a table -/

/-- A block that is open inside of scopes: its number is the greatest, the table has its names under
    its context, and names under no other context that ends with the number. -/
structure Placed (table names : Table String) (os : List Opener) (n : Nat) : Prop where
  greatest : ∀ m, .block m ∈ os → m < n
  names : ∀ v, '.' ∉ v → table.typeAt? (segments os ++ [digitsOf n] ++ [v]) = names.typeAt? [v]
  only : ∀ r v, r ≠ [] → Undotted r → '.' ∉ v →
    (table.typeAt? (r ++ [digitsOf n] ++ [v])).isSome → segments os = r

/-- All open blocks are placed in the table. -/
inductive Stacked (table : Table String) (names : Opener → Table String) (count : Nat) :
    List Opener → Prop
  | nil : Stacked table names count []
  | block {n : Nat} {os : List Opener} : n ≤ count → Placed table (names (.block n)) os n →
    Stacked table names count os → Stacked table names count (.block n :: os)
  | function {f : String} {os : List Opener} : '.' ∉ f.toList →
    Stacked table names count os → Stacked table names count (.function f :: os)

namespace Stacked

variable {table table' : Table String} {names names' : Opener → Table String} {count count' : Nat}
  {os : List Opener} {o : Opener} {name : String}

theorem undotted_head (h : Stacked table names count os) : '.' ∉ (head os).toList := by
  induction h with
  | nil => decide
  | block _ _ _ ih => exact ih
  | function hf => exact hf

theorem undotted_segments (h : Stacked table names count os) : Undotted (segments os) :=
  undotted_cons.2 ⟨h.undotted_head, undotted_digits _⟩

/-- The numbers in a context are increasing, and they are those of open blocks. -/
theorem pairwise_numbers (h : Stacked table names count os) :
    (numbers os).Pairwise (· < ·) ∧ ∀ n ∈ numbers os, .block n ∈ os := by
  induction h with
  | nil | function => exact ⟨.nil, fun n hn => absurd hn List.not_mem_nil⟩
  | @block n os _ hp _ ih =>
    obtain ⟨hsorted, hopen⟩ := ih
    refine ⟨List.pairwise_append.2 ⟨hsorted, List.pairwise_singleton _ _, fun m hm k hk => ?_⟩,
      fun m hm => ?_⟩
    · obtain rfl := List.mem_singleton.1 hk
      exact hp.greatest m (hopen m hm)
    · rcases List.mem_append.1 hm with hm | hm
      · exact List.mem_cons_of_mem _ (hopen m hm)
      · obtain rfl := List.mem_singleton.1 hm
        exact List.mem_cons_self

theorem tail (h : Stacked table names count (o :: os)) : Stacked table names count os := by
  cases h with
  | block _ _ hs | function _ hs => exact hs

/-- Blocks stay in place if their names do, and the names under contexts that end with their
    numbers. -/
theorem mono (h : Stacked table names count os) (hcount : count ≤ count')
    (hkeep : ∀ n, .block n ∈ os → names' (.block n) = names (.block n) ∧
      ∀ r v, r ≠ [] → Undotted r → '.' ∉ v →
        table'.typeAt? (r ++ [digitsOf n] ++ [v]) = table.typeAt? (r ++ [digitsOf n] ++ [v])) :
    Stacked table' names' count' os := by
  induction h with
  | nil => exact .nil
  | @block n os hn hp hs ih =>
    obtain ⟨hnames, htable⟩ := hkeep n List.mem_cons_self
    refine .block (Nat.le_trans hn hcount) ⟨hp.greatest, fun v hv => ?_, fun r v hr hu hv => ?_⟩
      (ih fun m hm => hkeep m (List.mem_cons_of_mem _ hm))
    · rw [hnames, ← hp.names v hv]
      exact htable _ v segments_ne_nil hs.undotted_segments hv
    · rw [htable r v hr hu hv]
      exact hp.only r v hr hu hv
  | function hf hs ih =>
    exact .function hf (ih fun m hm => hkeep m (List.mem_cons_of_mem _ hm))

theorem le_count (h : Stacked table names count os) {n : Nat} (hn : .block n ∈ os) :
    n ≤ count := by
  induction h with
  | nil => exact absurd hn List.not_mem_nil
  | block hle _ _ ih =>
    rcases List.mem_cons.1 hn with heq | hn
    · obtain rfl := Opener.block.inj heq
      exact hle
    · exact ih hn
  | function _ _ ih =>
    rcases List.mem_cons.1 hn with heq | hn
    · exact absurd heq (by simp)
    · exact ih hn

/-- A name in the innermost scope is under a context that ends with a number only if the scope is
    the block with this number. -/
theorem typeAt?_put (h : Stacked table names count (o :: os)) (type : String)
    (hname : '.' ∉ name.toList) (r : List (List Char)) (n : Nat) (v : List Char) (hr : r ≠ [])
    (hu : Undotted r) (hv : '.' ∉ v) :
    (table.put (dottedName (segments (o :: os) ++ [name.toList])) type).typeAt?
        (r ++ [digitsOf n] ++ [v]) =
      if (.block n = o ∧ segments os = r) ∧ name.toList = v then some type
      else table.typeAt? (r ++ [digitsOf n] ++ [v]) := by
  rw [table.typeAt?_put type h.undotted_segments hname (hu.number n) hv]
  simp only [segments_eq_concat hr]

/-- Blocks stay in place with a name more in the innermost scope. -/
theorem file {e : Nesting} (h : Stacked table e.names count (o :: os)) (type : String)
    (hname : '.' ∉ name.toList) :
    Stacked (table.put (dottedName (segments (o :: os) ++ [name.toList])) type)
      (e.file o name type).names count (o :: os) := by
  -- no name changes under a context that ends with the number of another block
  have hothers : ∀ n, .block n ≠ o → (e.file o name type).names (.block n) = e.names (.block n) ∧
      ∀ r v, r ≠ [] → Undotted r → '.' ∉ v →
        (table.put (dottedName (segments (o :: os) ++ [name.toList])) type).typeAt?
          (r ++ [digitsOf n] ++ [v]) = table.typeAt? (r ++ [digitsOf n] ++ [v]) :=
    fun n hn => ⟨if_neg hn, fun r v hr hu hv => by
      rw [h.typeAt?_put type hname r n v hr hu hv, if_neg fun heq => hn heq.1.1]⟩
  have hput := h.typeAt?_put type hname
  cases h with
  | function hf hs => exact .function hf (hs.mono (Nat.le_refl _) fun n _ => hothers n (by simp))
  | @block n _ hn hp hs =>
    refine .block hn ⟨hp.greatest, fun v hv => ?_, fun r v hr hu hv hsome => ?_⟩
      (hs.mono (Nat.le_refl _) fun m hm => hothers m fun heq => ?_)
    · rw [hput _ n v segments_ne_nil hs.undotted_segments hv, e.typeAt?_file _ _ type hname hv,
        hp.names v hv]
      simp only [true_and]
    · rw [hput r n v hr hu hv] at hsome
      by_cases hr' : segments os = r
      · exact hr'
      · rw [if_neg fun heq => hr' heq.1.2] at hsome
        exact hp.only r v hr hu hv hsome
    · obtain rfl := Opener.block.inj heq
      exact absurd (hp.greatest m hm) (Nat.lt_irrefl m)

end Stacked

/-! ### Calls -/

namespace Scope

variable {s s' : Scope} {name : String}

theorem eq_of_declare {type : String} (h : s.declare (.text name) type = .ok s') :
    s' = { s with
      table := s.table.put
        (.text (if s.context = "MAIN" then name else s.context ++ "." ++ name)) type } := by
  have hfull : s.fullName (.text name) =
      .ok (.text (if s.context = "MAIN" then name else s.context ++ "." ++ name)) := by
    rw [fullName]
    split <;> rfl
  rw [declare, hfull] at h
  generalize (if s.context = "MAIN" then name else s.context ++ "." ++ name) = full at h ⊢
  simp only [bind, Except.bind] at h
  split at h
  · cases h
  · exact (Except.ok.inj h).symm

theorem eq_of_declareFunction {result : String} {ps : List (String × String)}
    (h : s.declareFunction (.text name) result (ps.map fun p => (.text p.1, p.2)) = .ok s') :
    ∃ functions, s' = { s with
      table := ps.foldl (fun t p => t.put (.text (name ++ "." ++ p.1)) p.2)
        (s.table.put (.text name) result)
      functions } := by
  have hfold : ps.foldlM (fun t p => .ok (Table.put t (.text (name ++ "." ++ p.1)) p.2))
      (s.table.put (.text name) result) = (.ok (ps.foldl (fun t p =>
        t.put (.text (name ++ "." ++ p.1)) p.2) (s.table.put (.text name) result)) :
          Except Fault (Table String)) := List.foldlM_pure
  rw [declareFunction] at h
  split at h
  · cases h
  · rw [List.foldlM_map, hfold] at h
    exact ⟨_, (Except.ok.inj h).symm⟩

end Scope

/-- The scope is that of the nesting: the contexts are those of the open scopes, and the table has
    the global names, the names of functions and the names of open blocks, and no other names under
    contexts that end with a number. -/
structure Models (e : Nesting) (s : Scope) : Prop where
  context : s.context = context e.scopes
  history : s.history = history e.scopes
  unnamed : s.unnamed = e.count
  globals : ∀ v, '.' ∉ v → s.table.typeAt? [v] = e.globals.typeAt? [v]
  functions : ∀ f v, '.' ∉ f → '.' ∉ v →
    s.table.typeAt? [f, v] = (e.names (.function (String.ofList f))).typeAt? [v]
  numbered : ∀ r n v, r ≠ [] → Undotted r → '.' ∉ v →
    (s.table.typeAt? (r ++ [digitsOf n] ++ [v])).isSome → n ≤ e.count
  fresh : ∀ n, e.count < n → e.names (.block n) = []
  stacked : Stacked s.table e.names e.count e.scopes

namespace Models

variable {e : Nesting} {s : Scope} {name type : String} {s' : Scope} {os : List Opener} {f : String}

/-- At the beginning of a program, the table has the built-in functions. -/
theorem initial : Models {} {} where
  context := by decide
  history := rfl
  unnamed := rfl
  globals _ _ := rfl
  functions f v _ _ := Table.typeAt?_builtinTypes (List.cons_ne_nil f [])
  numbered r n v _ _ _ h := by
    rw [Table.typeAt?_builtinTypes (by simp)] at h
    exact absurd h (by simp)
  fresh _ _ := rfl
  stacked := .nil

section

variable (h : Models e s)

include h

theorem withFunctions (functions : Table (List String)) : Models e { s with functions } :=
  ⟨h.context, h.history, h.unnamed, h.globals, h.functions, h.numbered, h.fresh, h.stacked⟩

theorem fileGlobal (type : String) (hname : '.' ∉ name.toList) :
    Models (e.fileGlobal name type) { s with table := s.table.put (.text name) type } := by
  have hkeep : ∀ r v, r ≠ [] → Undotted r → '.' ∉ v →
      (s.table.put (.text name) type).typeAt? (r ++ [v]) = s.table.typeAt? (r ++ [v]) := by
    intro r v hr hu hv
    rw [Table.typeAt?_put_text _ _ hname hu hv, if_neg fun heq => hr heq.1.symm]
  refine ⟨h.context, h.history, h.unnamed, fun v hv => ?_, fun f v hf hv => ?_,
    fun r n v hr hu hv hsome => ?_, h.fresh, h.stacked.mono (Nat.le_refl _) fun n _ =>
      ⟨rfl, fun r v hr hu hv => hkeep _ v (by simp) (hu.number n) hv⟩⟩
  · have hglobal := e.globals.typeAt?_put_text type hname undotted_nil hv
    rw [List.nil_append, ← h.globals v hv] at hglobal
    exact (s.table.typeAt?_put_text type hname undotted_nil hv).trans hglobal.symm
  · exact (hkeep [f] v (by simp) (undotted_singleton.2 hf) hv).trans (h.functions f v hf hv)
  · rw [hkeep _ v (by simp) (hu.number n) hv] at hsome
    exact h.numbered r n v hr hu hv hsome

/-- A name is filed under the context of the innermost scope. -/
theorem file {o : Opener} (type : String) (ho : e.scopes = o :: os) (hname : '.' ∉ name.toList) :
    Models (e.file o name type)
      { s with table := s.table.put (.text (s.context ++ "." ++ name)) type } := by
  have hstacked := h.stacked
  rw [ho] at hstacked
  rw [show s.table.put (.text (s.context ++ "." ++ name)) type =
    s.table.put (dottedName (segments (o :: os) ++ [name.toList])) type by
      rw [h.context, ho, text_context]]
  have hput : ∀ r v, Undotted r → '.' ∉ v →
      (s.table.put (dottedName (segments (o :: os) ++ [name.toList])) type).typeAt? (r ++ [v]) =
        if segments (o :: os) = r ∧ name.toList = v then some type
        else s.table.typeAt? (r ++ [v]) := fun r v hu hv =>
    s.table.typeAt?_put type hstacked.undotted_segments hname hu hv
  refine ⟨h.context, h.history, h.unnamed, fun v hv => ?_, fun f v hf hv => ?_,
    fun r n v hr hu hv hsome => ?_, fun n hn => ?_, ?_⟩
  · have hglobal := hput [] v undotted_nil hv
    rw [if_neg fun heq => segments_ne_nil heq.1] at hglobal
    exact hglobal.trans (h.globals v hv)
  · -- a context of one segment is that of a function
    have hfunction := hput [f] v (undotted_singleton.2 hf) hv
    simp only [segments_eq_singleton, List.singleton_append, h.functions f v hf hv] at hfunction
    exact hfunction.trans (e.typeAt?_file o _ type hname hv).symm
  · rw [hstacked.typeAt?_put type hname r n v hr hu hv] at hsome
    by_cases hn : .block n = o
    · subst hn
      exact hstacked.le_count List.mem_cons_self
    · rw [if_neg fun heq => hn heq.1.1] at hsome
      exact h.numbered r n v hr hu hv hsome
  · have hne : .block n ≠ o := by
      rintro rfl
      exact absurd hn (Nat.not_lt.2 (hstacked.le_count List.mem_cons_self))
    exact (if_neg hne).trans (h.fresh n hn)
  · have hscopes : (e.file o name type).scopes = o :: os := ho
    rw [hscopes]
    exact hstacked.file type hname

/-- A fresh number is in no context of the table. -/
theorem enterBlock :
    Models { e with scopes := .block (e.count + 1) :: e.scopes, count := e.count + 1 }
      s.enterBlock where
  context := by
    rw [Scope.enterBlock, h.context, h.unnamed, Nesting.context, Nesting.context, segments_block,
      ofList_dotted_concat segments_ne_nil]
    rfl
  history := by
    rw [Scope.enterBlock, h.context, h.history]
    rfl
  unnamed := by rw [Scope.enterBlock, h.unnamed]
  globals := h.globals
  functions := h.functions
  numbered r n v hr hu hv hsome := Nat.le_succ_of_le (h.numbered r n v hr hu hv hsome)
  fresh n hn := h.fresh n (Nat.lt_of_succ_lt hn)
  stacked := by
    -- all numbers in the table are old ones
    have hnone : ∀ r v, r ≠ [] → Undotted r → '.' ∉ v →
        s.table.typeAt? (r ++ [digitsOf (e.count + 1)] ++ [v]) = none := fun r v hr hu hv =>
      Option.not_isSome_iff_eq_none.1 fun hsome =>
        absurd (h.numbered r _ v hr hu hv hsome) (Nat.not_succ_le_self _)
    refine .block (Nat.le_refl _) ⟨fun m hm => ?_, fun v hv => ?_, fun r v hr hu hv hsome => ?_⟩
      (h.stacked.mono (Nat.le_succ _) fun n _ => ⟨rfl, fun _ _ _ _ _ => rfl⟩)
    · exact Nat.lt_succ_of_le (h.stacked.le_count hm)
    · rw [h.fresh _ (Nat.lt_succ_self _)]
      exact hnone _ v segments_ne_nil h.stacked.undotted_segments hv
    · exact absurd hsome (Option.not_isSome_iff_eq_none.2 (hnone r v hr hu hv))

theorem leave : Models { e with scopes := e.scopes.tail } s.leave := by
  have hhistory := h.history
  have hstacked := h.stacked
  cases hscopes : e.scopes with
  | nil =>
    rw [hscopes] at hhistory
    have hleave : s.leave = { s with context := "MAIN" } := by rw [Scope.leave, hhistory]; rfl
    rw [hleave]
    exact ⟨context_nil.symm, hhistory, h.unnamed, h.globals, h.functions, h.numbered, h.fresh, .nil⟩
  | cons o os =>
    rw [hscopes] at hhistory hstacked
    have hleave : s.leave =
        { s with context := Nesting.context os, history := Nesting.history os } := by
      rw [Scope.leave, hhistory]; rfl
    rw [hleave]
    exact ⟨rfl, rfl, h.unnamed, h.globals, h.functions, h.numbered, h.fresh, hstacked.tail⟩

/-- A declared name is filed under the context, and in the outermost context as it stands. -/
theorem declare (hname : '.' ∉ name.toList) (hd : s.declare (.text name) type = .ok s') :
    Models (e.perform (· = .function "MAIN") (.declare name type)) s' := by
  rw [Scope.eq_of_declare hd, Nesting.perform]
  cases hscopes : e.scopes with
  | nil =>
    have hcontext : s.context = "MAIN" := by rw [h.context, hscopes, context_nil]
    rw [if_pos hcontext]
    exact h.fileGlobal type hname
  | cons o os =>
    have hcontext : s.context = "MAIN" ↔ o = .function "MAIN" := by
      rw [h.context, hscopes]
      cases o with
      | block n => simp [context_block_ne]
      | function f => rw [context_function, Opener.function.injEq]
    by_cases ho : o = .function "MAIN"
    · rw [if_pos (hcontext.2 ho)]
      simp only [ho, decide_true, if_true]
      exact h.fileGlobal type hname
    · rw [if_neg (mt hcontext.1 ho)]
      simp only [ho, decide_false, Bool.false_eq_true, if_false]
      exact h.file type hscopes hname

theorem fileAll {ps : List (String × String)} (hf : e.scopes = .function f :: os)
    (hps : ∀ p ∈ ps, '.' ∉ p.1.toList) :
    Models (ps.foldl (fun e p => e.file (.function f) p.1 p.2) e)
      { s with
        table := ps.foldl (fun t p => t.put (.text (s.context ++ "." ++ p.1)) p.2) s.table } := by
  induction ps generalizing e s with
  | nil => exact h
  | cons p ps ih =>
    obtain ⟨hp, hps⟩ := List.forall_mem_cons.1 hps
    exact ih (h.file p.2 hf hp) hf hps

/-- The scope of a function has its parameters. -/
theorem openFunction {ps : List (String × String)} (hf : '.' ∉ f.toList)
    (hps : ∀ p ∈ ps, '.' ∉ p.1.toList)
    (hd : s.declareFunction (.text f) type (ps.map fun p => (.text p.1, p.2)) = .ok s') :
    Models (e.perform (· = .function "MAIN") (.openFunction f type ps)) (s'.enter f) := by
  obtain ⟨functions, rfl⟩ := Scope.eq_of_declareFunction hd
  have hglobal := h.fileGlobal type hf
  have henter : Models { e.fileGlobal f type with scopes := .function f :: e.scopes }
      ({ s with table := s.table.put (.text f) type }.enter f) :=
    ⟨(context_function f _).symm, by rw [Scope.enter, h.context, h.history]; rfl, hglobal.unnamed,
      hglobal.globals, hglobal.functions, hglobal.numbered, hglobal.fresh,
      .function hf hglobal.stacked⟩
  exact (henter.fileAll rfl hps).withFunctions functions

/-- A call keeps the scope that of the nesting. -/
theorem perform {c : ScopeCall} (hc : c.Undotted) (hs : s.perform c = .ok s') :
    Models (e.perform (· = .function "MAIN") c) s' := by
  cases c with
  | declare name type => exact h.declare hc hs
  | openBlock =>
    obtain rfl := Except.ok.inj hs
    exact h.enterBlock
  | openFunction f type ps =>
    rw [Scope.perform] at hs
    cases hd : s.declareFunction (.text f) type (ps.map fun p => (.text p.1, p.2)) with
    | error fault =>
      rw [hd] at hs
      cases hs
    | ok t =>
      rw [hd] at hs
      obtain rfl := Except.ok.inj hs
      exact h.openFunction hc.1 hc.2 hd
  | close =>
    obtain rfl := Except.ok.inj hs
    exact h.leave

/-- So do all calls. -/
theorem performAll {calls : List ScopeCall} (hc : ∀ c ∈ calls, c.Undotted)
    (hs : s.performAll calls = .ok s') :
    Models (calls.foldl (Nesting.perform (· = .function "MAIN")) e) s' := by
  induction calls generalizing e s with
  | nil =>
    obtain rfl := Except.ok.inj hs
    exact h
  | cons c calls ih =>
    obtain ⟨hcall, hcalls⟩ := List.forall_mem_cons.1 hc
    rw [Scope.performAll, List.foldlM_cons] at hs
    cases ht : s.perform c with
    | error fault =>
      rw [ht] at hs
      cases hs
    | ok t =>
      rw [ht] at hs
      exact ih (h.perform hcall ht) hcalls hs

end

end Models

end StackLang
