import StackLang.Proofs.Nesting

/-!
# Resolution of names

A name is meant to stand for its innermost declaration: the one in the innermost block around the
place that has one, else that of the function, else the global one. The search in the table of a
scope comes out differently in three cases: a global name is found first, whatever the scopes around
declare; a block whose number ends the name of the function hides the blocks around it; and a
function with the name of the outermost context is taken for it.

* `Nesting.sought`: the scopes that the search comes by;
* `Models.typeOfName`: what the search finds, in terms of scopes;
* `innermost_found_iff` and `typeOfName_eq_innermost`: when this is the innermost declaration.
-/

namespace StackLang

namespace Nesting

/-- The scopes that the search comes by, the innermost first: behind a block whose number ends the
    name of the function, only the function is left. -/
def sought : List Opener → List Opener
  | [] => [.function (head [])]
  | .block n :: os =>
    .block n :: if digitsOf n <:+ (head os).toList then [.function (head os)] else sought os
  | .function f :: _ => [.function f]

/-- The type that the search finds: that of the global name, or else that of the first scope it
    comes by with such a name. -/
def found (e : Nesting) (name : String) : Option String :=
  (e.globals.get? (.text name)).or (e.declaredIn (sought e.scopes) name)

end Nesting

open Nesting

/-! ### The search -/

namespace Models

variable {e : Nesting} {s : Scope} {os : List Opener} {v : String}

/-- The last part that is taken away is the first segment, and the name is left. -/
theorem searchOutwards_head (h : Stacked s.table e.names e.count os)
    (hglobal : s.table.typeAt? [v.toList] = none) :
    Scope.searchOutwards s.table [(head os).toList] (dotted [(head os).toList, v.toList]) =
      none := by
  have hcut := removeFirst_ending (x := []) (y := v.toList) (r := []) (by simp) h.undotted_head
  rw [List.nil_append, List.nil_append] at hcut
  rw [Scope.searchOutwards_cons hcut, hglobal]
  rfl

/-- In the context of the function, the table has the names of the function. -/
theorem typeAt?_head (hm : Models e s) (h : Stacked s.table e.names e.count os)
    (hv : '.' ∉ v.toList) :
    s.table.typeAt? [(head os).toList, v.toList] = e.declaredIn [.function (head os)] v := by
  rw [hm.functions _ _ h.undotted_head hv, String.ofList_toList, ← Table.get?_text, declaredIn,
    List.findSome?_singleton]

/-- Behind a block whose number ends the name of the function, the search comes to the function. -/
theorem search_ending (hm : Models e s) (h : Stacked s.table e.names e.count os) {n : Nat}
    (hp : Placed s.table (e.names (.block n)) os n) (hv : '.' ∉ v.toList)
    (hglobal : s.table.typeAt? [v.toList] = none) (hn : digitsOf n <:+ (head os).toList) :
    Scope.searchOutwards s.table (digitsOf n :: (segments os).reverse)
        (dotted (segments os ++ [digitsOf n] ++ [v.toList])) =
      e.declaredIn [.function (head os)] v := by
  obtain ⟨front, hfront⟩ := hn
  obtain ⟨hsorted, hopen⟩ := h.pairwise_numbers
  have hpairwise : (numbers os ++ [n]).Pairwise (· < ·) := by
    refine List.pairwise_append.2 ⟨hsorted, List.pairwise_singleton _ _, fun m hm k hk => ?_⟩
    obtain rfl := List.mem_singleton.1 hk
    exact hp.greatest m (hopen m hm)
  have hundotted : '.' ∉ front := fun hmem =>
    h.undotted_head (hfront ▸ List.mem_append_left _ hmem)
  have hsearch := Scope.searchOutwards_ending s.table (numbers os) n [v.toList]
    [(head os).toList] hpairwise hundotted (undotted_singleton.2 hv) fun first inner hu hlen => by
      -- a context that ends with this number is that of the block, which is longer
      refine Option.not_isSome_iff_eq_none.1 fun hsome => ?_
      have hcontext := hp.only (first :: inner) v.toList (by simp) hu hv (by simpa using hsome)
      have := congrArg List.length hcontext
      simp only [segments, List.length_cons, List.length_map] at this
      omega
  rw [hfront, hm.typeAt?_head h hv, searchOutwards_head h hglobal, Option.or_none] at hsearch
  simpa [segments] using hsearch

/-- Otherwise it comes to the context around the block. -/
theorem search_segment (h : Stacked s.table e.names e.count os) {n : Nat}
    (hp : Placed s.table (e.names (.block n)) os n) (hn : ¬digitsOf n <:+ (head os).toList) :
    Scope.searchOutwards s.table (digitsOf n :: (segments os).reverse)
        (dotted (segments os ++ [digitsOf n] ++ [v.toList])) =
      (s.table.typeAt? (segments os ++ [v.toList])).or
        (Scope.searchOutwards s.table (segments os).reverse
          (dotted (segments os ++ [v.toList]))) := by
  refine Scope.searchOutwards_cons ?_
  rw [List.append_assoc, List.singleton_append]
  refine removeFirst_segment h.undotted_segments (point_notMem_digitsOf n)
    (List.forall_mem_cons.2 ⟨hn, fun x hx => ?_⟩) (by simp)
  obtain ⟨m, hm, rfl⟩ := List.mem_map.1 hx
  exact not_suffix_of_lt (hp.greatest m (h.pairwise_numbers.2 m hm))

/-- The search comes by the scopes that are sought, from the innermost to the outermost. -/
theorem search (hm : Models e s) (h : Stacked s.table e.names e.count os) (hv : '.' ∉ v.toList)
    (hglobal : s.table.typeAt? [v.toList] = none) :
    (s.table.typeAt? (segments os ++ [v.toList])).or
        (Scope.searchOutwards s.table (segments os).reverse (dotted (segments os ++ [v.toList]))) =
      e.declaredIn (sought os) v := by
  -- in the outermost context and in that of a function, one part is left
  have hlast : ∀ {os}, Stacked s.table e.names e.count os → segments os = [(head os).toList] →
      (s.table.typeAt? (segments os ++ [v.toList])).or
        (Scope.searchOutwards s.table (segments os).reverse (dotted (segments os ++ [v.toList]))) =
          e.declaredIn [.function (head os)] v := by
    intro os h hos
    rw [hos, List.reverse_singleton, List.singleton_append, hm.typeAt?_head h hv,
      searchOutwards_head h hglobal, Option.or_none]
  induction h with
  | nil => exact hlast .nil rfl
  | @block n os hn hp hs ih =>
    rw [segments_block, List.reverse_append, List.reverse_singleton, List.singleton_append,
      hp.names _ hv, ← Table.get?_text, sought, declaredIn_cons]
    by_cases hending : digitsOf n <:+ (head os).toList
    · rw [hm.search_ending hs hp hv hglobal hending, if_pos hending]
    · rw [search_segment hs hp hending, ih, if_neg hending]
  | function hf hs => exact hlast (.function hf hs) rfl

end Models

/-- What the type of a name is said to be, if that is the declaration it is found at. -/
def Scope.answer (s : Scope) (name : String) : Option String → Except Fault String
  | some type => .ok type
  | none => s.fail (.undefined (.text name))

theorem Scope.answer_inj {s : Scope} {name : String} {a b : Option String} :
    s.answer name a = s.answer name b ↔ a = b := by
  cases a <;> cases b <;> simp [Scope.answer, Scope.fail]

/-- A name is found among the global names, or else in the innermost of the scopes that are
    sought. -/
theorem Models.typeOfName {e : Nesting} {s : Scope} (h : Models e s) {v : String}
    (hv : '.' ∉ v.toList) : s.typeOfName (.text v) = s.answer v (e.found v) := by
  have hglobals := h.globals v.toList hv
  rw [← Table.get?_text, ← Table.get?_text] at hglobals
  rw [Scope.typeOfName, found, ← hglobals]
  cases hglobal : s.table.get? (.text v) with
  | some type => rfl
  | none =>
    rw [Table.get?_text] at hglobal
    -- the search begins with the full name and goes back through the segments of the context
    have hfull : s.context ++ "." ++ v =
        String.ofList (dotted (segments e.scopes ++ [v.toList])) := by
      rw [ofList_dotted_concat segments_ne_nil, h.context, String.ofList_toList]
      rfl
    have hparts : cutAt '.' s.context.toList = segments e.scopes := by
      rw [h.context, Nesting.context, String.toList_ofList,
        cutAt_dotted segments_ne_nil h.stacked.undotted_segments]
    have hsearch := h.search h.stacked hv hglobal
    simp only [hfull, hparts, String.toList_ofList, Option.none_or]
    rw [← hsearch, Table.typeAt?]
    generalize s.table.get? _ = found
    generalize Scope.searchOutwards s.table _ _ = further
    cases found with
    | some type => rfl
    | none => cases further <;> rfl

/-! ### The innermost declaration -/

/-- A name without points gets the type that the search finds: the global one, or else that of the
    first scope sought that has the name, where the declarations of a function `MAIN` are taken for
    global ones. It is given the type of its innermost declaration, or the fault that there is none,
    if and only if that is what the search finds. -/
theorem innermost_found_iff {calls : List ScopeCall} {s : Scope}
    (h : Scope.performAll {} calls = .ok s) (hc : ∀ c ∈ calls, c.Undotted) {v : String}
    (hv : '.' ∉ v.toList) :
    s.typeOfName (.text v) = s.answer v ((filed calls).found v) ∧
      (s.typeOfName (.text v) = s.answer v ((meant calls).innermost v) ↔
        (filed calls).found v = (meant calls).innermost v) := by
  have hmodels : Models (filed calls) s := Models.initial.performAll hc h
  rw [hmodels.typeOfName hv]
  exact ⟨rfl, Scope.answer_inj⟩

/-! ### Where the search is right -/

/-- The call opens no function with the name of the outermost context. -/
def ScopeCall.MainFree : ScopeCall → Prop
  | .openFunction name _ _ => name ≠ "MAIN"
  | _ => True

namespace Nesting

/-- There is no function with the name of the outermost context. -/
structure MainFree (e : Nesting) : Prop where
  closed : .function "MAIN" ∉ e.scopes
  empty : e.names (.function "MAIN") = []

variable {e : Nesting}

theorem MainFree.file (h : e.MainFree) {o : Opener} (ho : o ≠ .function "MAIN")
    (name type : String) : (e.file o name type).MainFree :=
  ⟨h.closed, (if_neg (Ne.symm ho)).trans h.empty⟩

theorem MainFree.fileAll (h : e.MainFree) {f : String} (hf : f ≠ "MAIN")
    (ps : List (String × String)) :
    (ps.foldl (fun e p => e.file (.function f) p.1 p.2) e).MainFree := by
  induction ps generalizing e with
  | nil => exact h
  | cons p ps ih => exact ih (h.file (mt Opener.function.inj hf) p.1 p.2)

/-- A call then does what it is meant to do. -/
theorem MainFree.perform (h : e.MainFree) {c : ScopeCall} (hc : c.MainFree) :
    e.perform (· = .function "MAIN") c = e.perform (fun _ => false) c ∧
      (e.perform (fun _ => false) c).MainFree := by
  cases c with
  | declare name type =>
    simp only [Nesting.perform]
    split
    · exact ⟨rfl, h.closed, h.empty⟩
    · rename_i o os hos
      have ho : o ≠ .function "MAIN" := fun heq =>
        h.closed (hos ▸ heq ▸ List.mem_cons_self)
      simp only [ho, decide_false, Bool.false_eq_true, if_false, true_and]
      exact h.file ho name type
  | openBlock => exact ⟨rfl, by simpa [Nesting.perform] using h.closed, h.empty⟩
  | openFunction f type ps =>
    have hopened : MainFree { e.fileGlobal f type with scopes := .function f :: e.scopes } :=
      ⟨by simpa [Ne.symm hc] using h.closed, h.empty⟩
    exact ⟨rfl, hopened.fileAll hc ps⟩
  | close => exact ⟨rfl, fun hmem => h.closed (List.mem_of_mem_tail hmem), h.empty⟩

/-- So do all calls. -/
theorem MainFree.performAll (h : e.MainFree) {calls : List ScopeCall}
    (hc : ∀ c ∈ calls, c.MainFree) :
    calls.foldl (Nesting.perform (· = .function "MAIN")) e =
      calls.foldl (Nesting.perform fun _ => false) e ∧
      (calls.foldl (Nesting.perform fun _ => false) e).MainFree := by
  induction calls generalizing e with
  | nil => exact ⟨rfl, h⟩
  | cons c calls ih =>
    obtain ⟨hcall, hcalls⟩ := List.forall_mem_cons.1 hc
    obtain ⟨heq, hnext⟩ := h.perform hcall
    rw [List.foldl_cons, List.foldl_cons, heq]
    exact ih hnext hcalls

/-- If no number of a block ends the name of the function, then all scopes around are sought. -/
theorem MainFree.declaredIn_sought (h : e.MainFree) {os : List Opener}
    (hos : ∀ n, .block n ∈ enclosing os → ¬digitsOf n <:+ (head os).toList) (name : String) :
    e.declaredIn (sought os) name = e.declaredIn (enclosing os) name := by
  induction os with
  | nil =>
    rw [sought, enclosing, declaredIn_cons, head, h.empty]
    rfl
  | cons o os ih =>
    cases o with
    | block n =>
      have hn : ¬digitsOf n <:+ (head os).toList := hos n List.mem_cons_self
      rw [sought, enclosing, if_neg hn, declaredIn_cons, declaredIn_cons,
        ih fun m hm => hos m (List.mem_cons_of_mem _ hm)]
    | function f => rfl

end Nesting

/-- A name without points gets the type of its innermost declaration if no function has the name
    of the outermost context, no number of a block around the place ends the name of the function,
    and the name is not global or not declared in the scopes around. -/
theorem typeOfName_eq_innermost {calls : List ScopeCall} {s : Scope}
    (h : Scope.performAll {} calls = .ok s) (hc : ∀ c ∈ calls, c.Undotted)
    (hmain : ∀ c ∈ calls, c.MainFree) {v : String} (hv : '.' ∉ v.toList)
    (hblocks : ∀ n, .block n ∈ enclosing (meant calls).scopes →
      ¬digitsOf n <:+ (head (meant calls).scopes).toList)
    (hglobal : (meant calls).globals.get? (.text v) = none ∨
      (meant calls).declaredIn (enclosing (meant calls).scopes) v = none) :
    s.typeOfName (.text v) = s.answer v ((meant calls).innermost v) := by
  have hmodels : Models (filed calls) s := Models.initial.performAll hc h
  obtain ⟨heq, hfree⟩ : filed calls = meant calls ∧ (meant calls).MainFree :=
    MainFree.performAll ⟨List.not_mem_nil, rfl⟩ hmain
  rw [hmodels.typeOfName hv, heq, found, innermost, hfree.declaredIn_sought hblocks]
  rcases hglobal with hnone | hnone
  · rw [hnone, Option.none_or, Option.or_none]
  · rw [hnone, Option.none_or, Option.or_none]

/-- What is computed from the scope after calls holds of it. -/
theorem exists_of_performAll {α : Type} (calls : List ScopeCall) (f : Scope → α) {x : α}
    (h : (Scope.performAll {} calls).toOption.map f = some x) :
    ∃ s, Scope.performAll {} calls = .ok s ∧ f s = x := by
  cases hs : Scope.performAll {} calls with
  | error fault =>
    rw [hs] at h
    cases h
  | ok s =>
    rw [hs] at h
    exact ⟨s, rfl, Option.some.inj h⟩

/-- Two blocks in a function, one in the other: `func f(int a) -> int { float b = 0.0; { int b = 1;
    { … } } }`. -/
def nestedBlocks : List ScopeCall :=
  [.openFunction "f" "INT" [("a", "INT")], .declare "b" "FLOAT", .openBlock, .declare "b" "INT",
    .openBlock]

theorem innermost_found_nested : ∃ s, Scope.performAll {} nestedBlocks = .ok s ∧
    (∀ c ∈ nestedBlocks, c.Undotted) ∧ '.' ∉ "b".toList ∧
    (s.typeOfName (.text "b") = s.answer "b" ((filed nestedBlocks).found "b") ∧
      (s.typeOfName (.text "b") = s.answer "b" ((meant nestedBlocks).innermost "b") ↔
        (filed nestedBlocks).found "b" = (meant nestedBlocks).innermost "b")) := by
  obtain ⟨s, hs, -⟩ := exists_of_performAll nestedBlocks (fun _ => ()) (x := ()) (by decide +kernel)
  have hc : ∀ c ∈ nestedBlocks, c.Undotted := by decide
  exact ⟨s, hs, hc, by decide, innermost_found_iff hs hc (by decide)⟩

/-- A block that declares a global name: `int x = 1; { float x = 2.0; … }`. -/
def shadowedGlobal : List ScopeCall := [.declare "x" "INT", .openBlock, .declare "x" "FLOAT"]

/-- The second block of a function whose name ends with its number: `func f2(int a) -> int { {
    int v = 1; { … } } }`. -/
def numberedFunction : List ScopeCall :=
  [.openFunction "f2" "INT" [("a", "INT")], .openBlock, .declare "v" "INT", .openBlock]

/-- A function with the name of the outermost context, behind its end: `func MAIN(int a) -> int
    { … }`. -/
def outermostFunction : List ScopeCall := [.openFunction "MAIN" "INT" [("a", "INT")], .close]

/-- In the block the global declaration is found, in the second block of the function none, and
    behind a function with the name of the outermost context its parameter. -/
theorem innermost_missed :
    (∃ s, Scope.performAll {} shadowedGlobal = .ok s ∧ s.typeOfName (.text "x") = .ok "INT" ∧
      (meant shadowedGlobal).innermost "x" = some "FLOAT") ∧
    (∃ s, Scope.performAll {} numberedFunction = .ok s ∧
      s.typeOfName (.text "v") = s.fail (.undefined (.text "v")) ∧
      (meant numberedFunction).innermost "v" = some "INT") ∧
    ∃ s, Scope.performAll {} outermostFunction = .ok s ∧ s.typeOfName (.text "a") = .ok "INT" ∧
      (meant outermostFunction).innermost "a" = none := by
  obtain ⟨s₁, hs₁, hx⟩ := exists_of_performAll shadowedGlobal
    (fun s => s.typeOfName (.text "x")) (x := .ok "INT") rfl
  obtain ⟨s₂, hs₂, hv⟩ := exists_of_performAll numberedFunction
    (fun s => (s.line, s.typeOfName (.text "v")))
    (x := (0, .error (.typing (.undefined (.text "v")) 0))) rfl
  obtain ⟨s₃, hs₃, ha⟩ := exists_of_performAll outermostFunction
    (fun s => s.typeOfName (.text "a")) (x := .ok "INT") rfl
  obtain ⟨hline, hv⟩ := Prod.mk.inj hv
  refine ⟨⟨s₁, hs₁, hx, by decide +kernel⟩, ⟨s₂, hs₂, ?_, by decide +kernel⟩, s₃, hs₃, ha,
    by decide +kernel⟩
  rw [hv, Scope.fail, hline]

end StackLang
