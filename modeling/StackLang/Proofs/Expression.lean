import StackLang.Proofs.Boundary
import StackLang.Proofs.Context

/-!
# Expressions

An expression computes: its code neither jumps nor returns nor stores, and it gives no name an
address. The parser puts nothing else into the place of an expression, and it accepts no call but
of a built-in function or of one that has been declared.

* `Node.Evaluable`: a tree of expressions, with what may be called in it;
* `Gen.computes_of_ends`: what the code of such a tree consists of, by induction on tasks;
* `Parse.Gives`: the parsers of expressions give such trees and leave all names as they are;
* `Parse.declares_of_statement`: a statement that comes out as a declaration of a variable has
  added its name to those that are known, and has found it new;
* `evaluable_of_parse` and `declarations_of_parse`: so the values in a program are such trees, and
  a program of declarations only has distinct names and calls built-in functions only.
-/

namespace StackLang

open List

variable {p : List Node}

/-! ### Trees -/

namespace Node

/-- Whether the node is an expression. -/
def isExpression : Node → Bool
  | .binary .. | .literal .. | .listLiteral .. | .call .. | .create .. | .member .. | .cast .. => true
  | _ => false

/-- Whether the node is anything but the declaration of a variable. -/
def isOther : Node → Bool
  | .declare .. => false
  | _ => true

/-- The node is an expression. If it is a call, then of a built-in function or of one that is
    known. -/
structure Evaluates (functions : Table (List String)) (n : Node) : Prop where
  expression : n.isExpression
  called : ∀ f xs o, n = .call f xs o → f ∈ builtinFunctions ∨ ∃ a, functions.has a ∧ f = a.shown

/-- The tree consists of expressions, and what it calls is known. -/
abbrev Evaluable (functions : Table (List String)) (n : Node) : Prop :=
  n.Throughout (Evaluates functions)

variable {functions : Table (List String)} {n : Node}

theorem evaluates_of_ne (hn : n.isExpression) (h : ∀ f xs o, n ≠ .call f xs o) :
    n.Evaluates functions := ⟨hn, fun f xs o heq => absurd heq (h f xs o)⟩

/-- Where no function is known, an expression calls built-in functions only. -/
theorem Evaluates.mayCall (h : n.Evaluates []) : n.mayCall = false := by
  obtain ⟨hn, hcalled⟩ := h
  cases n with
  | call f xs o =>
    have hf : f ∈ builtinFunctions := (hcalled f xs o rfl).resolve_right (by simp [Table.has, Table.get?])
    simpa [Node.mayCall, builtinNumber?, findIdx?_eq_none_iff] using hf
  | plain => cases hn
  | _ => rfl

end Node

namespace Parse

variable {functions : Table (List String)}

/-- A function that is called is built in or declared. -/
theorem called_of_checkCall {s : Scope} {f : Atom} {xs ys : List Node}
    (h : s.checkCall f xs = .ok ys) :
    f.shown ∈ builtinFunctions ∨ ∃ a, s.functions.has a ∧ f.shown = a.shown := by
  unfold Scope.checkCall at h
  split at h
  · rename_i hf
    obtain ⟨b, hb, hf⟩ := any_eq_true.1 hf
    rw [beq_iff_eq] at hf
    subst hf
    exact .inl hb
  split at h
  · cases h
  · rename_i hf
    exact .inr ⟨f, by rw [Table.has, hf]; rfl, rfl⟩

end Parse

/-! ### Code -/

/-- The slot holds an instruction that computes. It may be a call if `calls` says so. -/
def Slot.Computes (calls : Bool) : Slot → Prop
  | .instruction c _ => c < 256 ∧ c ∉ [Op.jump, Op.jumpIf, Op.ret, Op.storeMem] ∧ (c = Op.call → calls)
  | _ => False

/-- The generator `h` has the code of `g` and behind it code that computes. The addresses are those
    of `g`. -/
structure Computes (calls : Bool) (g h : Generator) : Prop where
  memory : h.memory = g.memory
  identifiers : h.identifiers = g.identifiers
  code : ∃ ss, h.code.toList = g.code.toList ++ ss ∧ ∀ s ∈ ss, s.Computes calls

namespace Computes

variable {calls : Bool} {g h k : Generator} {s : Slot} {i : Nat}

theorem refl (g : Generator) : Computes calls g g :=
  ⟨rfl, rfl, [], (append_nil _).symm, forall_mem_nil _⟩

section

variable (h₁ : Computes calls g h)

include h₁

theorem trans (h₂ : Computes calls h k) : Computes calls g k := by
  obtain ⟨ss, hss, hs⟩ := h₁.code
  obtain ⟨ts, hts, ht⟩ := h₂.code
  refine ⟨h₂.memory.trans h₁.memory, h₂.identifiers.trans h₁.identifiers, ss ++ ts, ?_, ?_⟩
  · rw [hts, hss, append_assoc]
  · exact forall_mem_append.2 ⟨hs, ht⟩

theorem push (hs : s.Computes calls) : Computes calls g (h.push s) :=
  h₁.trans ⟨rfl, rfl, [s], by simp [Generator.push], forall_mem_singleton.2 hs⟩

/-- What the slots behind the old code hold. -/
theorem slot (hi : g.code.size ≤ i) (hs : h.code[i]? = some s) : s.Computes calls := by
  obtain ⟨ss, hss, hcomputes⟩ := h₁.code
  rw [← Array.getElem?_toList, hss, getElem?_append_right (by rwa [Array.length_toList])] at hs
  exact hcomputes s (mem_of_getElem? hs)

theorem size_le : g.code.size ≤ h.code.size := by
  obtain ⟨ss, hss, -⟩ := h₁.code
  rw [← Array.length_toList, ← Array.length_toList, hss, length_append]
  exact Nat.le_add_right _ _

/-- There are no new jumps. -/
theorem jumpsTo {x : Nat} (hj : h.JumpsTo i x) : g.JumpsTo i x := by
  obtain ⟨ss, hss, hs⟩ := h₁.code
  obtain ⟨c, hc, hi⟩ := hj
  rw [← Array.getElem?_toList, hss, getElem?_append] at hi
  split at hi
  · exact ⟨c, hc, by rwa [← Array.getElem?_toList]⟩
  · have hcomputes := (hs _ (mem_of_getElem? hi)).2.1
    exact absurd (by rcases hc with rfl | rfl <;> decide) hcomputes

end

end Computes

section

variable {n : Node} {g h : Generator} {ts : List Task} {ks fs : List Nat}
  (c : Course n g ts ks fs h)

include c

/-- A node without jumps fills no places. -/
theorem Course.filled_eq_nil (hn : n.jumps = false) : fs = [] := by
  induction c with
  | start => rfl
  | fill _ hj => simp [hn] at hj
  | _ => assumption

/-- The course of an expression computes, if its parts do. -/
theorem Course.computes {calls : Bool} (hn : n.isExpression) (hcalls : n.mayCall → calls)
    (hks : ks = []) (hts : ∀ t ∈ ts, Computes calls t.start t.finish) : Computes calls g h := by
  -- an expression is none of the nodes that take the other steps
  have hno : n.declares = false ∧ n.jumps = false ∧ n.isLoop = false ∧ n.exit = .none ∧
      n.mayReturn = false ∧ ∀ g a, ¬n.MayStore g a := by
    cases n with
    | binary | literal | listLiteral | call | create | member | cast =>
      exact ⟨rfl, rfl, rfl, rfl, rfl, fun _ _ => id⟩
    | _ => cases hn
  obtain ⟨hdeclares, hjumps, hloop, hexit, hreturn, hstore⟩ := hno
  induction c with
  | start => exact .refl _
  | write c hp ih =>
    refine (ih hks hts).push ⟨hp.small, ?_, fun hc => hcalls (hp.called hc)⟩
    simp only [mem_cons, not_mem_nil, or_false, not_or]
    refine ⟨hp.not_jump, hp.not_jumpIf, fun hc => ?_, fun hc => ?_⟩
    · exact absurd (hp.returned hc) (by simp [hreturn])
    · obtain ⟨a, -, ha⟩ := hp.stored hc
      exact hstore _ a ha
  | note heap records objects c ih => exact (ih hks hts).trans ⟨rfl, rfl, [], by simp, by simp⟩
  | reserve name type c hd | declare c hd => simp [hdeclares] at hd
  | keep c _ => cases hks
  | fill c hj => simp [hjumps] at hj
  | back c hl | flag b c hl | settle e c hl => simp [hloop] at hl
  | wait c he => exact absurd hexit he
  | @part ts ks fs h k m c e ih =>
    obtain rfl : Task.finish ⟨m, h⟩ = k := e.after_eq
    exact (ih hks fun t ht => hts t (mem_append_left _ ht)).trans (hts _ mem_concat_self)

end

/-- The code of a tree of expressions computes. -/
theorem Gen.computes_of_ends {calls : Bool} {n : Node} {g h : Generator}
    (hn : n.Throughout fun m => m.isExpression ∧ (m.mayCall → calls))
    (e : Ends (generate n) g () h) : Computes calls g h := by
  refine ends_induction (P := fun n g h => (n.Throughout fun m => m.isExpression ∧ (m.mayCall → calls)) →
    Computes calls g h) (fun {n} _ _ _ _ c hks ih hn => ?_) e hn
  obtain ⟨hexpr, hcalls⟩ := hn.self
  have hjumps : n.jumps = false := by
    cases n <;> simp_all [Node.isExpression, Node.jumps]
  rw [c.filled_eq_nil hjumps] at hks
  refine c.computes hexpr hcalls (eq_nil_iff_forall_not_mem.2 fun i hi => by
    cases hks i hi) fun u hu => ?_
  refine ih u hu _ (c.ends_of_mem hu) (hn.child ?_)
  rcases Node.mem_turns (node_mem_of_tasksOf hu) with hm | ⟨o, v, rfl, -⟩
  · exact hm
  · cases hexpr

/-! ### Parsing -/

/-- The scopes differ in nothing but the line that faults are reported on. -/
def Scope.SameNames (s t : Scope) : Prop := ∃ line, t = { s with line }

namespace Scope.SameNames

variable {s t u : Scope}

theorem refl (s : Scope) : s.SameNames s := ⟨s.line, rfl⟩

theorem trans (h : s.SameNames t) (h' : t.SameNames u) : s.SameNames u := by
  obtain ⟨_, rfl⟩ := h
  obtain ⟨line, rfl⟩ := h'
  exact ⟨line, rfl⟩

theorem functions (h : s.SameNames t) : t.functions = s.functions := by
  obtain ⟨_, rfl⟩ := h
  rfl

end Scope.SameNames

namespace Parse

variable {α β : Type} {functions : Table (List String)} {Q : α → Prop} {s s' : ParseState} {n : Nat}
  {name : Atom} {type : String}

instance : Frame (fun s => s.scope.functions = functions) fun s t => s.scope.SameNames t.scope where
  refl s := .refl s.scope
  trans := .trans
  stable hs h := h.functions.trans hs
  advance s := .refl s.scope
  markLine _ line := ⟨line, rfl⟩

instance : Forms (fun s => s.scope.functions = functions) (Node.Evaluates functions) where
  token _ _ := Node.evaluates_of_ne rfl (by simp)
  constant _ := Node.evaluates_of_ne rfl (by simp)
  list _ _ := Node.evaluates_of_ne rfl (by simp)
  call o hs h := by
    refine ⟨rfl, fun f xs o heq => ?_⟩
    obtain ⟨rfl, -, -⟩ := Node.call.inj heq
    exact hs ▸ called_of_checkCall h
  compound {x} h := by
    cases x <;> simp [Node.isCompound] at h <;> exact Node.evaluates_of_ne rfl (by simp)

/-- Where the functions are known, the parser leaves all names as they are and gives what has the
    property. -/
abbrev Gives (functions : Table (List String)) (Q : α → Prop) (a : Parse α) : Prop :=
  Keeps (fun s => s.scope.functions = functions) (fun s t => s.scope.SameNames t.scope) Q a

/-! ### Declarations of variables -/

/-- The parser has read the declaration of a variable: its value can be evaluated, its full name was
    new and is known now, and nothing else has changed. -/
structure Declares (s : ParseState) (name : Atom) (type : String) (value : Option Node)
    (s' : ParseState) : Prop where
  value : ∀ x ∈ value, x.Evaluable s.scope.functions
  named : ∃ full, s.scope.fullName name = .ok full ∧ s.scope.table.has full = false ∧
    Scope.SameNames { s.scope with table := s.scope.table.put full type } s'.scope

/-- One step of a parser that gives something. -/
theorem Gives.step {a : Parse α} {f : α → Parse β} {y : β} (e : (a >>= f) s = .ok (y, s'))
    (ha : Gives s.scope.functions Q a) :
    ∃ x s₁, s.scope.SameNames s₁.scope ∧ Q x ∧ f x s₁ = .ok (y, s') := by
  obtain ⟨⟨x, s₁⟩, hr, e⟩ := ok_of_bind e
  obtain ⟨hsame, hx⟩ := ha s rfl x s₁ hr
  exact ⟨x, s₁, hsame, hx, e⟩

theorem declares_of_declaration {x : Node} (e : declaration n s = .ok (x, s')) :
    ∃ name type value, x = .declare name type value ∧ Declares s name type value s' := by
  unfold declaration at e
  obtain ⟨_, s₁, h₁, -, e⟩ := Gives.step e .typeName
  obtain ⟨_, s₂, h₂, -, e⟩ := Gives.step e .markLine
  obtain ⟨_, s₃, h₃, -, e⟩ := Gives.step e .advance
  obtain ⟨type, s₄, h₄, -, e⟩ := Gives.step e (.bracketPairs n _)
  obtain ⟨t, s₅, h₅, -, e⟩ := Gives.step e .current
  obtain ⟨_, s₆, h₆, -, e⟩ := Gives.step e .advance
  have hsame := ((((h₁.trans h₂).trans h₃).trans h₄).trans h₅).trans h₆
  -- the name is filed, and only then the value is read
  obtain ⟨⟨_, s₇⟩, hdeclare, e⟩ := ok_of_bind e
  obtain ⟨u, hu, rfl⟩ := ok_of_tryScope hdeclare
  obtain ⟨k, s₈, h₈, -, e⟩ := Gives.step e .kind
  have hinitial := Keeps.initial (I := fun s => s.scope.functions = s₈.scope.functions)
    (T := fun s t => s.scope.SameNames t.scope) (P := Node.Evaluates s₈.scope.functions) n
  obtain ⟨h₉, value, rfl, hvalue⟩ := hinitial t.value type s₈ rfl x s' e
  obtain ⟨full, hfull, hu⟩ := ok_of_bind hu
  obtain ⟨line, hline⟩ := hsame
  rw [hline] at hfull hu
  split at hu
  · cases hu
  rename_i hnew
  cases hu
  have hlast := h₈.trans h₉
  refine ⟨t.value, type, value, rfl, h₈.functions ▸ hvalue, full, hfull, by simpa using hnew, ?_⟩
  obtain ⟨line', hline'⟩ := hlast
  exact ⟨line', hline'⟩

instance : Frame (fun _ => True) fun _ _ => True where
  refl _ := trivial
  trans _ _ := trivial
  stable _ _ := trivial
  advance _ := trivial
  markLine _ _ := trivial

instance : Forms (fun _ => True) fun x => x.isOther where
  token _ _ := rfl
  constant _ := rfl
  list _ _ := rfl
  call _ _ _ := rfl
  compound {x} h := by cases x <;> first | rfl | cases h

instance : Acts (fun _ _ => True) fun x => x.isOther where
  declareRecord _ := trivial
  record _ _ := rfl
  assigned _ _ := rfl

/-- The parser does not give the declaration of a variable. -/
abbrev GivesOther (a : Parse Node) : Prop := Keeps (fun _ => True) (fun _ _ => True) (·.isOther) a

namespace GivesOther

theorem next {a : Parse α} {f : α → Parse Node} (hf : ∀ x, GivesOther (f x)) :
    GivesOther (a >>= f) := Keeps.next (fun _ _ _ _ _ => ⟨trivial, trivial⟩) hf

theorem functionDeclaration (n : Nat) : GivesOther (Parse.functionDeclaration n) := by
  cases n with
  | zero => exact .throw _
  | succ n =>
    unfold Parse.functionDeclaration
    iterate 5 refine next fun _ => ?_
    refine .unless_rejected (next fun _ => next fun _ => next fun _ => ?_)
    -- with a type of the result or without one, nothing but a function comes out
    split
    all_goals
      repeat refine next fun _ => ?_
      exact .pure rfl

theorem forStatement (n : Nat) : GivesOther (Parse.forStatement n) := by
  cases n with
  | zero => exact .throw _
  | succ n =>
    unfold Parse.forStatement
    refine next fun _ => next fun _ => .unless_rejected (next fun _ => next fun _ => ?_)
    split
    · iterate 6 refine next fun _ => ?_
      exact .pure rfl
    · refine next fun _ => ?_
      split
      · exact .throw _
      · exact .reject _

end GivesOther

/-- A statement that comes out as the declaration of a variable has been read as one. -/
theorem declares_of_statement {value : Option Node}
    (e : statement n s = .ok (.declare name type value, s')) : Declares s name type value s' := by
  cases n with
  | zero => cases e
  | succ n =>
    unfold statement at e
    obtain ⟨b, s₁, h₁, -, e⟩ := Gives.step e .atType
    cases b with
    | true =>
      obtain ⟨_, _, _, heq, hdeclares⟩ := declares_of_declaration e
      obtain ⟨rfl, rfl, rfl⟩ := Node.declare.inj heq
      obtain ⟨hvalue, full, hfull, hnew, hsame⟩ := hdeclares
      obtain ⟨line, hline⟩ := h₁
      rw [hline] at hvalue hfull hnew hsame
      exact ⟨hvalue, full, hfull, hnew, hsame⟩
    | false =>
      rw [if_neg Bool.false_ne_true] at e
      refine Bool.noConfusion (GivesOther.next (fun k => ?_) s₁ trivial _ s' e).2
      split
      · exact .next fun _ => .pure rfl
      · exact .functionDeclaration n
      · exact (Keeps.recordDeclaration n).mono fun _ h => h.2.self
      · exact (Keeps.nameStatement n).mono fun _ h => h.self
      · refine .next fun _ => .next fun _ => .next fun _ => .next fun _ => .next fun _ => ?_
        split
        · exact .next fun _ => .next fun _ => .pure rfl
        · exact .pure rfl
      · exact .forStatement n
      · exact .next fun _ => .next fun _ => .next fun _ => .pure rfl
      · exact .next fun _ => .next fun _ => .next fun _ => .pure rfl
      · exact .next fun _ => .next fun _ => .pure rfl
      · exact .next fun _ => .next fun _ => .pure rfl
      · exact .reject _

/-! ### Programs -/

/-- The values of the variables that a program declares are evaluable. -/
theorem evaluable_of_program (e : program n s = .ok (p, s')) {v : Node}
    (hmem : .declare name type (some v) ∈ p) : ∃ functions, v.Evaluable functions := by
  induction n generalizing s p with
  | zero => cases e
  | succ n ih =>
    unfold program at e
    obtain ⟨o, s₁, -, -, e⟩ := Gives.step e .current?
    cases o with
    | none =>
      cases e
      cases hmem
    | some t =>
      obtain ⟨⟨x, s₂⟩, hx, e⟩ := ok_of_bind e
      obtain ⟨⟨xs, s₃⟩, hxs, e⟩ := ok_of_bind e
      cases e
      rcases mem_cons.1 hmem with rfl | hmem
      · exact ⟨_, (declares_of_statement hx).value v rfl⟩
      · exact ih hxs hmem

end Parse

/-- Two nodes do not declare the same variable. -/
def Node.NamesApart (n m : Node) : Prop :=
  ∀ a t v b u w, n = .declare a t v → m = .declare b u w → a.same b = false

/-- What is known of a program that only declares variables: its values call built-in functions only,
    and no two variables have the same name. -/
structure Declarations (p : List Node) : Prop where
  values : ∀ name type v, .declare name type (some v) ∈ p → v.Evaluable []
  names : p.Pairwise Node.NamesApart

/-- Outside of all functions, with none declared, the declarations that a parser reads are such a
    program. None of their names was known before. -/
theorem Parse.declarations_of_program {n : Nat} {s s' : ParseState} (e : program n s = .ok (p, s'))
    (hp : ∀ x ∈ p, ∃ name type v, x = .declare name type v) (hfunctions : s.scope.functions = [])
    (hcontext : s.scope.context = "MAIN") :
    Declarations p ∧ ∀ name type v, .declare name type v ∈ p → s.scope.table.has name = false := by
  induction n generalizing s p with
  | zero => cases e
  | succ n ih =>
    unfold program at e
    obtain ⟨o, s₁, h₁, -, e⟩ := Gives.step e .current?
    cases o with
    | none =>
      cases e
      exact ⟨⟨by simp, .nil⟩, by simp⟩
    | some t =>
      obtain ⟨⟨x, s₂⟩, hx, e⟩ := ok_of_bind e
      obtain ⟨⟨xs, s₃⟩, hxs, e⟩ := ok_of_bind e
      cases e
      obtain ⟨⟨name, type, v, rfl⟩, hps⟩ := forall_mem_cons.1 hp
      obtain ⟨line, hline⟩ := h₁
      obtain ⟨hvalue, full, hfull, hnew, line₂, hline₂⟩ := declares_of_statement hx
      rw [hline] at hvalue hfull hnew hline₂
      unfold Scope.fullName at hfull
      rw [if_pos hcontext] at hfull
      cases hfull
      rw [hfunctions] at hvalue
      obtain ⟨hrest, hnews⟩ := ih hxs hps (by rw [hline₂]; exact hfunctions)
        (by rw [hline₂]; exact hcontext)
      -- a later name is neither this one nor one that was known
      have hlater : ∀ b u w, .declare b u w ∈ xs →
          name.same b = false ∧ s.scope.table.has b = false := by
        intro b u w hb
        have hnone := hnews b u w hb
        rw [hline₂, Table.has, Table.get?_put] at hnone
        split at hnone
        · cases hnone
        · rename_i hb
          exact ⟨Bool.eq_false_iff.2 hb, hnone⟩
      refine ⟨⟨fun a u w hmem => ?_, .cons (fun m hm => ?_) hrest.names⟩, fun a u w hmem => ?_⟩
      · rcases mem_cons.1 hmem with heq | hmem
        · obtain ⟨rfl, rfl, rfl⟩ := Node.declare.inj heq
          exact hvalue w rfl
        · exact hrest.values a u w hmem
      · rintro a u w b u' w' heq rfl
        obtain ⟨rfl, rfl, rfl⟩ := Node.declare.inj heq
        exact (hlater b u' w' hm).1
      · rcases mem_cons.1 hmem with heq | hmem
        · obtain ⟨rfl, rfl, rfl⟩ := Node.declare.inj heq
          exact hnew
        · exact (hlater a u w hmem).2

section

variable {s : Scan} {scope : Scope} (h : parse s = .ok (p, scope))

include h

/-- Parsing runs the parser of programs from the empty scope. -/
theorem program_of_parse : ∃ n s', Parse.program n ⟨s.tokens, s.fault, {}⟩ = .ok (p, s') := by
  unfold parse at h
  dsimp only at h
  split at h
  · split at h
    · cases h
    · obtain ⟨⟨ss, finish⟩, hrun, h⟩ := ok_of_bind h
      cases h
      exact ⟨_, _, hrun⟩
  · obtain ⟨⟨ss, finish⟩, hrun, h⟩ := ok_of_bind h
    cases h
    exact ⟨_, _, hrun⟩

/-- The values of the variables that a parsed program declares are evaluable. -/
theorem evaluable_of_parse {name : Atom} {type : String} {v : Node}
    (hmem : .declare name type (some v) ∈ p) : ∃ functions, v.Evaluable functions := by
  obtain ⟨n, s', hrun⟩ := program_of_parse h
  exact Parse.evaluable_of_program hrun hmem

/-- What is known of a parsed program that only declares variables. -/
theorem declarations_of_parse (hp : ∀ x ∈ p, ∃ name type v, x = .declare name type v) :
    Declarations p := by
  obtain ⟨n, s', hrun⟩ := program_of_parse h
  exact (Parse.declarations_of_program hrun hp rfl rfl).1

end

end StackLang
