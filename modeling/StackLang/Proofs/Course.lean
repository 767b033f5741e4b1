import StackLang.Proofs.Task

/-!
# The course of generation

`Course` says once what the steps of generation between the parts of a node can
be: instructions are written, places are kept for jumps and filled later, names
get addresses, exits wait and are settled. Each rule carries the sort of node
that takes such a step. The main statement is `course_of_ends`: generation that
ends has run a course, over exactly the parts of the node, and has filled every
place it kept. What generation keeps intact is then proved by induction on
courses, and never by opening the generator again.
-/

namespace StackLang

open List

/-- A slot that waits for an instruction to be filled in. The place of an exit is
    not one of them: it may wait for ever. -/
def Slot.isOpen : Slot → Bool
  | .instruction code _ => code == 0
  | .label _ => true
  | .bare n => n != 0

/-! ### What a node writes itself -/

/-- The numbers of the instructions that only some nodes write. -/
def Slot.guarded : List Nat := [Op.jump, Op.jumpIf, Op.storeMem, Op.call, Op.ret]

/-- Whether every node may write an operation. -/
def Slot.isFree (c : Nat) : Bool := c ∈ opcodes.map Prod.snd ∧ c ∉ guarded

/-- The argument that a node is where it stands in an instruction. -/
def Node.argument? : Node → Option Argument
  | .literal _ v => some (.atom v)
  | .listLiteral _ xs => some (.nodes xs)
  | _ => none

namespace Operand

/-- The index that an operand is, if it stands in the instruction itself. -/
def inPlace (p : Node → Bool) (o : Operand) : List Node := o.nodes.filter p

/-- The indices on the way to an assigned element that stand in instructions. -/
def stepsInPlace : Operand → List Node
  | .node (.member o a true) => a.inPlace Gen.isConstant ++ stepsInPlace o
  | _ => []

end Operand

namespace Node

/-- The indices that stand in the instructions of a node. -/
def inPlace : Node → List Node
  | .member _ a true => a.inPlace isUnary
  | .assign (.node (.member o a true)) _ => o.stepsInPlace ++ a.inPlace Gen.isConstant
  | _ => []

/-- The nodes whose values stand in the instructions of a node as they are. -/
def verbatim : Node → List Node
  | .literal k v =>
    if k = "FLOAT_LITERAL" ∨ k = "BYTE_LITERAL" then [.literal k v] else []
  | .listLiteral k xs =>
    if k = "FLOAT_LITERAL" ∨ k = "BYTE_LITERAL" then [.listLiteral k xs] else []
  | n => n.inPlace

/-- The address is one that the code of a node may store at: that of a name that it assigns
    to or, for the first value of a variable, zero. A stretch of code that is told of no node
    in particular may store anywhere. -/
def MayStore : Node → Generator → (address : Nat) → Prop
  | .function f _ ps _, g, a =>
    ∃ p ∈ ps, g.identifiers.get? (.text (f.shown ++ "." ++ p.name.shown)) = some a
  | .assign t _, g, a => ∃ x, t = .atom x ∧ g.identifiers.get? x = some a
  | .forLoop v _ _, g, a => ∃ x, v.counter? = some x ∧ g.identifiers.get? x = some a
  | .declare _ _ none, _, a => a = 0
  | .plain, _, _ => True
  | _, _, _ => False

/-- Whether the code of a node may call a function that is not built in. -/
def mayCall : Node → Bool
  | .call f _ _ => (builtinNumber? f).isNone
  | .plain => true
  | _ => false

/-- Whether the code of a node may return from a function. So may a stretch of code that is told of
    no node in particular. -/
def mayReturn : Node → Bool
  | .function .. | .giveBack _ | .plain | .plainExpression => true
  | _ => false

end Node

/-- The instruction that gives a variable its first value has a name that begins with `B` or `S`. -/
theorem mem_opcodes_of_initial {type : String} {c : Nat}
    (h : opcodes.lookup (initialInstruction type) = some c) : (initialInstruction type, c) ∈ opcodes ∧
      (initialInstruction type).toList.head? ∈ [some 'B', some 'S'] := by
  constructor
  · obtain ⟨l₁, l₂, hl, -⟩ := lookup_eq_some_iff.1 h
    rw [hl]
    exact mem_append_right _ mem_cons_self
  · unfold initialInstruction
    repeat' split
    all_goals simp

/-- An instruction that a node can write behind the code of `g`, and that neither jumps nor
    declares. If it stores into memory, then at an address where the node may; only some nodes call
    and return. Its argument is an integer, or it stands in the tree. -/
structure Plain (n : Node) (g : Generator) (code : Nat) (arg : Argument) : Prop where
  listed : code ∈ opcodes.map Prod.snd
  not_jump : code ≠ Op.jump
  not_jumpIf : code ≠ Op.jumpIf
  stored : code = Op.storeMem → ∃ a : Nat, arg = .int a ∧ n.MayStore g a
  called : code = Op.call → n.mayCall
  returned : code = Op.ret → n.mayReturn
  argument : (∃ x : Int, arg = .int x) ∨ ∃ m ∈ n.verbatim, m.argument? = some arg

namespace Plain

variable {n : Node} {g : Generator} {c : Nat} {a : Argument} {x : Int}

theorem known (h : Plain n g c a) : c ≠ 0 := by
  have hcodes : ∀ c ∈ opcodes.map Prod.snd, c ≠ 0 := by decide
  exact hcodes c h.listed

theorem small (h : Plain n g c a) : c < 256 := by
  have hcodes : ∀ c ∈ opcodes.map Prod.snd, c < 256 := by decide
  exact hcodes c h.listed

theorem address (h : Plain n g c a) (hc : c = Op.storeMem) : ∃ x : Nat, a = .int x := by
  obtain ⟨x, hx, -⟩ := h.stored hc
  exact ⟨x, hx⟩

theorem of_argument (h : Slot.isFree c = true)
    (ha : (∃ x : Int, a = .int x) ∨ ∃ m ∈ n.verbatim, m.argument? = some a) : Plain n g c a := by
  simp only [Slot.isFree, Slot.guarded, decide_eq_true_eq, mem_cons, not_mem_nil,
    or_false, not_or] at h
  obtain ⟨hc, hjump, hjumpIf, hstore, hcall, hret⟩ := h
  exact ⟨hc, hjump, hjumpIf, (absurd · hstore), (absurd · hcall), (absurd · hret), ha⟩

theorem of_code (h : Slot.isFree c = true) : Plain n g c (.int x) := of_argument h (.inl ⟨x, rfl⟩)

theorem storeMem {address : Nat} (hn : n.MayStore g address) :
    Plain n g Op.storeMem (.int address) :=
  ⟨by decide, by decide, by decide, fun _ => ⟨address, rfl, hn⟩, (absurd · (by decide)),
    (absurd · (by decide)), .inl ⟨address, rfl⟩⟩

theorem call (hn : n.mayCall) : Plain n g Op.call (.int x) :=
  ⟨by decide, by decide, by decide, (absurd · (by decide)), fun _ => hn, (absurd · (by decide)),
    .inl ⟨x, rfl⟩⟩

theorem giveBack (hn : n.mayReturn) : Plain n g Op.ret (.int x) :=
  ⟨by decide, by decide, by decide, (absurd · (by decide)), (absurd · (by decide)), fun _ => hn,
    .inl ⟨x, rfl⟩⟩

theorem of_operator {op : String} (h : operatorCode? op = some c) : Plain n g c (.int x) := by
  unfold operatorCode? at h
  split at h <;> first | (cases h; exact of_code rfl) | cases h

/-- The instruction that gives a variable its first value neither jumps nor calls nor returns: its
    name begins with another letter. -/
theorem of_initial {type : String} (hn : n.MayStore g 0)
    (h : opcodes.lookup (initialInstruction type) = some c) : Plain n g c (.int 0) := by
  obtain ⟨hmem, hname⟩ := mem_opcodes_of_initial h
  have hcodes : ∀ p ∈ opcodes, p.1.toList.head? ∈ [some 'B', some 'S'] →
      p.2 ≠ Op.jump ∧ p.2 ≠ Op.jumpIf ∧ p.2 ≠ Op.call ∧ p.2 ≠ Op.ret := by
    decide
  obtain ⟨hj, hi, hc, hr⟩ := hcodes _ hmem hname
  exact ⟨mem_map_of_mem hmem, hj, hi, fun _ => ⟨0, rfl, hn⟩, (absurd · hc), (absurd · hr),
    .inl ⟨0, rfl⟩⟩

end Plain

/-! ### Courses -/

open Gen in
/-- The generator `h` is on the course that generation of the node `n` takes from
    `g`. It has done the tasks `ts`, has kept the places `kept` open, and has
    filled those of `filled`. -/
inductive Course (n : Node) (g : Generator) :
    (ts : List Task) → (kept filled : List Nat) → Generator → Prop
  | start : Course n g [] [] [] g
  | write {ts : List Task} {ks fs : List Nat} {h : Generator} {c : Nat} {a : Argument} :
      Course n g ts ks fs h → Plain n h c a → Course n g ts ks fs (h.push (.instruction c a))
  | note {ts : List Task} {ks fs : List Nat} {h : Generator} (heap : List String)
      (records : Table RecordInfo) (objects : Table Atom) :
      Course n g ts ks fs h → Course n g ts ks fs { h with heap, records, objects }
  | reserve {ts : List Task} {ks fs : List Nat} {h : Generator} (name : Atom) (type : String) :
      Course n g ts ks fs h → n.declares → Course n g ts ks fs (h.reserved name type)
  | declare {ts : List Task} {ks fs : List Nat} {h : Generator} :
      Course n g ts ks fs h → n.declares →
        Course n g ts ks fs (h.push (.instruction Op.storeMem (.int (-1))))
  | keep {ts : List Task} {ks fs : List Nat} {h : Generator} {s : Slot} :
      Course n g ts ks fs h → s.isOpen → Course n g ts (h.length :: ks) fs (h.push s)
  | fill {ts : List Task} {ks fs : List Nat} {h : Generator} {i c : Nat} :
      Course n g ts ks fs h → n.jumps → i ∈ ks → c = Op.jump ∨ c = Op.jumpIf ∨ c = Op.store →
        Course n g ts ks (i :: fs) (h.fill i c h.length)
  | back {ts : List Task} {ks fs : List Nat} {h : Generator} {t : Nat} :
      Course n g ts ks fs h → n.isLoop → (∃ u ∈ ts, u.start.length = t) →
        Course n g ts ks fs (h.push (.instruction Op.jump (.int t)))
  | flag {ts : List Task} {ks fs : List Nat} {h : Generator} (b : Bool) :
      Course n g ts ks fs h → n.isLoop → Course n g ts ks fs (h.flag b)
  | settle {ts : List Task} {ks fs : List Nat} {h : Generator} (e : Exit) :
      Course n g ts ks fs h → n.isLoop → e ≠ .none → Course n g ts ks fs (h.settled e)
  | wait {ts : List Task} {ks fs : List Nat} {h : Generator} :
      Course n g ts ks fs h → n.exit ≠ .none → h.inLoop = true →
        Course n g ts ks fs (h.waitFor n.exit)
  | part {ts : List Task} {ks fs : List Nat} {h k : Generator} {m : Node} :
      Course n g ts ks fs h → Ends (generate m) h () k →
        Course n g (ts ++ [⟨m, h⟩]) ks fs k

namespace Course

open Gen

variable {n : Node} {g h k : Generator} {ts : List Task} {ks fs : List Nat} {ns : List Node}
  {o : Operand} {ps : List Parameter} {v : Option Node} {bs : List Branch} {xs : List Nat}
  {f name : Atom} {a : Operand}

/-! ### Stretches of a course -/

section

variable (c : Course n g ts ks fs h)

include c

theorem all (e : Ends (generateAll ns) h () k) : Course n g (ts ++ allTasks ns h) ks fs k := by
  induction ns generalizing ts h with
  | nil =>
    obtain ⟨-, rfl⟩ := ends_pure.1 e
    simpa [allTasks] using c
  | cons m ns ih =>
    simp only [generateAll, ends_bind] at e
    obtain ⟨_, h₁, e₁, e₂⟩ := e
    simpa [allTasks, e₁.after_eq] using ih (c.part e₁) e₂

theorem reversed (e : Ends (generateReversed ns) h () k) :
    Course n g (ts ++ reversedTasks ns h) ks fs k := by
  induction ns generalizing k with
  | nil =>
    obtain ⟨-, rfl⟩ := ends_pure.1 e
    simpa [reversedTasks] using c
  | cons m ns ih =>
    simp only [generateReversed, ends_bind] at e
    obtain ⟨_, h₁, e₁, e₂⟩ := e
    simpa [reversedTasks, e₁.after_eq] using (ih e₁).part e₂

theorem fields {r : Atom} (e : Ends (generateFields r ns) h () k) :
    Course n g (ts ++ fieldTasks r ns h) ks fs k := by
  induction ns generalizing ts h with
  | nil =>
    obtain ⟨-, rfl⟩ := ends_pure.1 e
    simpa [fieldTasks] using c
  | cons m ns ih =>
    simp only [generateFields, ends_bind, ends_modify] at e
    obtain ⟨_, _, rfl, _, h₁, e₁, e₂⟩ := e
    simpa [fieldTasks, e₁.after_eq] using
      ih ((c.note (h.heap ++ ["DATA-" ++ r.shown]) h.records h.objects).part e₁) e₂

theorem option (e : Ends (generateOption v) h () k) : Course n g (ts ++ optionTasks v h) ks fs k := by
  cases v with
  | none =>
    obtain ⟨-, rfl⟩ := ends_pure.1 e
    simpa [optionTasks] using c
  | some m => exact c.part e

theorem operand (e : Ends (generateOperand o) h () k) : Course n g (ts ++ operandTasks o h) ks fs k := by
  cases o with
  | atom a =>
    obtain ⟨-, rfl⟩ := ends_pure.1 e
    simpa [operandTasks] using c
  | node m => exact c.part e

/-- The tests of further conditions keep one place each. -/
theorem tests (e : Ends (generateTests bs) h xs k) :
    Course n g (ts ++ testTasks bs h) (xs.reverse ++ ks) fs k ∧ xs.length = bs.length := by
  induction bs generalizing ts ks h xs with
  | nil =>
    obtain ⟨rfl, rfl⟩ := ends_pure.1 e
    simpa [testTasks] using c
  | cons b bs ih =>
    obtain ⟨m, body⟩ := b
    simp only [generateTests, ends_bind, ends_here, ends_append, ends_pure] at e
    obtain ⟨_, h₁, e₁, _, _, ⟨rfl, rfl⟩, _, _, rfl, xs, _, e₂, rfl, rfl⟩ := e
    have := ih ((c.part e₁).keep (s := .label "To replace ELIF START") rfl) e₂
    simpa [testTasks, e₁.after_eq] using this

theorem last {v : Option (List Node)} (e : Ends (elseCode v) h () k) :
    Course n g (ts ++ elseTasks v h) ks fs k := by
  cases v with
  | none =>
    obtain ⟨-, rfl⟩ := ends_pure.1 e
    simpa [elseTasks] using c
  | some ss => exact c.all e

/-- The blocks of further conditions fill the places of their tests, and keep one
    place each. -/
theorem branches {tests : List Nat} (hn : n.jumps) (hks : ∀ i ∈ tests, i ∈ ks)
    (hlen : tests.length = bs.length) (e : Ends (generateBranches bs tests) h xs k) :
    Course n g (ts ++ branchTasks bs tests h) (xs.reverse ++ ks) (tests.reverse ++ fs) k := by
  induction bs generalizing ts ks fs h xs tests with
  | nil =>
    obtain rfl : tests = [] := length_eq_zero_iff.1 hlen
    obtain ⟨rfl, rfl⟩ := ends_pure.1 e
    simpa [branchTasks] using c
  | cons b bs ih =>
    obtain ⟨m, body⟩ := b
    cases tests with
    | nil => simp at hlen
    | cons test tests =>
      simp only [generateBranches, ends_bind, ends_here, ends_append, ends_patch, ends_pure] at e
      obtain ⟨_, h₁, e₁, _, _, ⟨rfl, rfl⟩, _, _, rfl, _, _, rfl, xs, _, e₂, rfl, rfl⟩ := e
      have c₁ := ((c.all e₁).fill hn (hks test (by simp)) (.inr (.inl rfl))).keep
        (s := .label "To replace ELIF END") rfl
      have := ih c₁ (fun i hi => by simp [hks i (by simp [hi])]) (by simpa using hlen) e₂
      simpa [branchTasks, e₁.after_eq] using this

theorem fillAll {es : List Nat} (hn : n.jumps) (hks : ∀ i ∈ es, i ∈ ks)
    (e : Ends (es.forM fun i => patch i Op.jump h.length) h () k) :
    Course n g ts ks (es.reverse ++ fs) k := by
  induction es generalizing h fs with
  | nil =>
    obtain ⟨-, rfl⟩ := ends_pure.1 e
    simpa using c
  | cons i es ih =>
    simp only [List.forM, ends_bind, ends_patch] at e
    obtain ⟨_, _, rfl, e⟩ := e
    have := ih (c.fill hn (hks i (by simp)) (.inl rfl)) (fun j hj => hks j (by simp [hj])) e
    simpa using this

theorem chars {cs : List Char} (e : Ends (cs.forM fun x => emitInt Op.storeChar x.toNat) h () k) :
    Course n g ts ks fs k := by
  induction cs generalizing h with
  | nil =>
    obtain ⟨-, rfl⟩ := ends_pure.1 e
    exact c
  | cons x cs ih =>
    simp only [List.forM, ends_bind, ends_emitInt] at e
    obtain ⟨_, _, rfl, e⟩ := e
    exact ih (c.write (.of_code rfl)) e

end

theorem literal {kind : String} {v : Atom} (c : Course (.literal kind v) g ts ks fs h)
    (e : Ends (literalCode kind v) h () k) : Course (.literal kind v) g ts ks fs k := by
  rcases ends_literalCode e with ⟨_, _, hw, rfl⟩ | ⟨s, -, -, rfl⟩ | ⟨s, h₁, -, -, e₁, rfl⟩
  · cases hw with
    | real | byte =>
      exact c.write (.of_argument rfl (.inr ⟨_, mem_singleton.2 rfl, rfl⟩))
    | _ => exact c.write (.of_code rfl)
  · exact c.write (.of_code rfl)
  · exact (c.chars e₁).write (.of_code rfl)

section

variable (c : Course n g ts ks fs h)

include c

theorem parameters (hn : n.declares) (e : Ends (declareParameters f ps) h () k) :
    Course n g ts ks fs k := by
  induction ps generalizing h with
  | nil =>
    obtain ⟨-, rfl⟩ := ends_pure.1 e
    exact c
  | cons p ps ih =>
    obtain ⟨objects, e⟩ := ends_declareParameters_cons e
    have c₁ := (c.note h.heap h.records objects).reserve (f.parameter p)
      p.type hn
    exact ih ((c₁.write (.of_code rfl)).declare hn) e

theorem stores
    (hn : ∀ p ∈ ps, ∀ h a, h.identifiers.get? (f.parameter p) = some a →
      n.MayStore h a) (e : Ends (storeParameters f ps) h () k) : Course n g ts ks fs k := by
  induction ps generalizing h with
  | nil =>
    obtain ⟨-, rfl⟩ := ends_pure.1 e
    exact c
  | cons p ps ih =>
    simp only [storeParameters, ends_bind, ends_address, ends_emitInt] at e
    obtain ⟨_, _, ⟨ha, rfl⟩, _, _, rfl, e⟩ := e
    obtain ⟨hp, hps⟩ := forall_mem_cons.1 hn
    exact ih (c.write (.storeMem (hp _ _ ha))) hps e

theorem close (hn : n.mayReturn) (e : Ends closeFunction h () k) : Course n g ts ks fs k := by
  simp only [closeFunction, ends_bind, ends_get] at e
  obtain ⟨_, _, ⟨rfl, rfl⟩, e⟩ := e
  split at e
  · split at e
    · exact ends_emitInt.1 e ▸ c.write (.giveBack hn)
    · obtain ⟨-, rfl⟩ := ends_pure.1 e
      exact c
  · exact absurd e ends_throw
  · exact ends_emitInt.1 e ▸ c.write (.giveBack hn)

theorem record (e : Ends (recordCode name ps) h () k) : Course n g ts ks fs k := by
  have hfields : ∀ {qs : List Parameter} {h k : Generator}, Course n g ts ks fs h →
      Ends (fieldCode name qs) h () k → Course n g ts ks fs k := by
    intro qs
    induction qs with
    | nil =>
      intro h k c e
      obtain ⟨-, rfl⟩ := ends_pure.1 e
      exact c
    | cons q qs ih =>
      intro h k c e
      simp only [fieldCode, ends_bind, ends_modify, ends_emitInt] at e
      obtain ⟨_, _, rfl, _, _, rfl, e⟩ := e
      exact ih ((c.note _ h.records h.objects).write (.of_code rfl)) e
  simp only [recordCode, ends_bind, ends_modify, ends_emitInt] at e
  obtain ⟨_, _, rfl, _, h₁, e, rfl⟩ := e
  exact (hfields (c.note _ _ h.objects) e).write (.of_code rfl)

end

theorem selector {m : Node} {x : Argument} (e : Ends (selectorArgument m) h x k) :
    m.argument? = some x ∧ k = h := by
  unfold selectorArgument at e
  split at e
  · obtain ⟨rfl, rfl⟩ := ends_pure.1 e
    exact ⟨rfl, rfl⟩
  · obtain ⟨rfl, rfl⟩ := ends_pure.1 e
    exact ⟨rfl, rfl⟩
  · exact absurd e ends_throw

section

variable (c : Course n g ts ks fs h)

include c

/-- One access on the way to an assigned element. -/
theorem setter (hn : ∀ m ∈ a.inPlace isConstant, m ∈ n.verbatim)
    (e : Ends (generateSetters (.node (.member o a true))) h () k) :
    ∃ h', Course n g (ts ++ indexTasks isConstant a h) ks fs h' ∧
      Ends (generateSetters (.node (.member (.atom .nothing) a true))) h () h' ∧
      Ends (generateSetters o) h' () k := by
  cases a with
  | atom x =>
    simp only [generateSetters, ends_bind, ends_emitInt] at e ⊢
    obtain ⟨_, _, rfl, e⟩ := e
    refine ⟨_, ?_, ⟨(), _, rfl, ends_pure.2 ⟨rfl, rfl⟩⟩, e⟩
    simpa [indexTasks] using c.write (.of_code rfl)
  | node m =>
    simp only [generateSetters] at e ⊢
    split at e
    · rename_i hm
      simp only [ends_bind, ends_emit] at e
      obtain ⟨x, _, es, _, _, rfl, e⟩ := e
      obtain ⟨hx, rfl⟩ := selector es
      refine ⟨_, ?_, ?_, e⟩
      · have hmem := hn m (mem_filter.2 ⟨mem_cons_self, hm⟩)
        simpa [indexTasks, hm] using
          c.write (.of_argument rfl (.inr ⟨m, hmem, hx⟩))
      · rw [if_pos hm]
        simp only [ends_bind, ends_emit]
        exact ⟨x, _, es, (), _, rfl, ends_pure.2 ⟨rfl, rfl⟩⟩
    · rename_i hm
      simp only [ends_bind, ends_emitInt] at e
      obtain ⟨_, h₁, em, _, _, rfl, e⟩ := e
      refine ⟨_, ?_, ?_, e⟩
      · simpa [indexTasks, hm] using (c.part em).write (.of_code rfl)
      · rw [if_neg hm]
        simp only [ends_bind, ends_emitInt]
        exact ⟨(), h₁, em, (), _, rfl, ends_pure.2 ⟨rfl, rfl⟩⟩

theorem setters (hn : ∀ m ∈ o.stepsInPlace, m ∈ n.verbatim) (e : Ends (generateSetters o) h () k) :
    Course n g (ts ++ setterTasks o h) ks fs k := by
  fun_induction setterTasks o h generalizing ts k with
  | case1 h o a ih =>
    rw [Operand.stepsInPlace, forall_mem_append] at hn
    obtain ⟨h', c, e₁, e₂⟩ := c.setter hn.1 e
    rw [e₁.after_eq] at ih ⊢
    simpa using ih c hn.2 e₂
  | case2 h o ho =>
    unfold generateSetters at e
    split at e
    · exact absurd rfl (ho _ _)
    · obtain ⟨-, rfl⟩ := ends_pure.1 e
      simpa using c

/-- An index is generated, unless it stands in the instruction. -/
theorem index {p : Node → Bool} {code : Nat} (hcode : Slot.isFree code = true)
    (hn : ∀ m ∈ a.inPlace p, m ∈ n.verbatim) (e : Ends (indexCode p code a) h () k) :
    Course n g (ts ++ indexTasks p a h) ks fs k := by
  cases a with
  | atom x => simpa [indexTasks, ends_emitInt.1 e] using c.write (.of_code hcode)
  | node m =>
    simp only [indexCode] at e
    split at e
    · rename_i hm
      simp only [ends_bind, ends_emit] at e
      obtain ⟨x, _, es, rfl⟩ := e
      obtain ⟨hx, rfl⟩ := selector es
      have hmem := hn m (mem_filter.2 ⟨mem_cons_self, hm⟩)
      simpa [indexTasks, hm] using c.write (.of_argument hcode (.inr ⟨m, hmem, hx⟩))
    · rename_i hm
      simp only [ends_bind, ends_emitInt] at e
      obtain ⟨_, h₁, em, rfl⟩ := e
      simpa [indexTasks, hm] using (c.part em).write (.of_code hcode)

theorem count {counter : Nat} (hn : n.Counts h counter) :
    Course n g ts ks fs (h.pushAll (n.increment counter)) := by
  unfold Node.increment
  split
  · exact (((c.write (.of_code rfl)).write (.of_code rfl)).write
      (.of_code rfl)).write (.storeMem hn)
  · exact c

end

/-- Behind its address, a declaration has the code of its value and its store. -/
theorem value {g₀ g' : Generator} {t : String} (c : Course n g ts ks fs (g₀.reserved name t))
    (hn : v = none → ∀ h, n.MayStore h 0) (e : Ends (generate (.declare name t v)) g₀ () g') :
    ∃ k, Course n g (ts ++ tasksOf (.declare name t v) g₀) ks fs k ∧
      g' = k.push (.instruction Op.storeMem (.int (-1))) := by
  simp only [generate_declare, ends_bind, ends_reserve, ends_emitInt] at e
  obtain ⟨_, _, rfl, _, h, e₁, _, k, e₂, rfl⟩ := e
  have c₁ : Course n g ts ks fs h := by
    unfold noteObject at e₁
    split at e₁
    · exact ends_modify.1 e₁ ▸ c.note _ _ _
    · obtain ⟨-, rfl⟩ := ends_pure.1 e₁
      exact c
  refine ⟨k, ?_, rfl⟩
  rw [tasksOf, e₁.after_eq]
  cases v with
  | none =>
    simp only [initialCode] at e₂
    split at e₂
    · rename_i hcode
      rw [ends_emitInt.1 e₂, optionTasks, append_nil]
      exact c₁.write (.of_initial (hn rfl _) hcode)
    · exact absurd e₂ ends_throw
  | some x => exact c₁.part e₂

/-! ### What a course keeps -/

/-- The tasks on a course come to their end. -/
theorem ends_of_mem (c : Course n g ts ks fs h) {t : Task} (ht : t ∈ ts) :
    Ends (generate t.node) t.start () t.finish := by
  induction c with
  | start => simp at ht
  | part c e ih =>
    rcases mem_append.1 ht with ht | ht
    · exact ih ht
    · obtain rfl := mem_singleton.1 ht
      rwa [Task.finish, e.after_eq]
  | _ => apply_assumption; exact ht

/-- Code only grows along a course, if it does along its parts. -/
theorem length_le_of_parts (c : Course n g ts ks fs h)
    (hts : ∀ t ∈ ts, ∀ k, Ends (generate t.node) t.start () k → t.start.length ≤ k.length) :
    g.length ≤ h.length := by
  induction c with
  | start => exact Nat.le_refl _
  | part c e ih =>
    have h₁ := ih fun t ht => hts t (mem_append_left _ ht)
    exact Nat.le_trans h₁ (hts _ mem_concat_self _ e)
  | write c _ ih | declare c _ ih | keep c _ ih | back c _ _ ih | wait c _ _ ih =>
    exact Nat.le_succ_of_le (ih hts)
  | settle e c _ _ ih => exact (Generator.settled_length _ e).symm ▸ ih hts
  | _ => apply_assumption; exact hts

end Course

namespace Gen

variable {g g' : Generator} {name : Atom} {n : Node} {thenBlock xs : List Node} {o : Operand}
  {ps : List Parameter} {c : Node} {bs : List Branch} {elseBlock : Option (List Node)}

/-- Generation of a call runs a course. -/
theorem course_call {f : String} (e : Ends (generate (.call f xs o)) g () g') :
    Course (.call f xs o) g (tasksOf (.call f xs o) g) [] [] g' := by
  obtain ⟨h, e₁, hcall⟩ := ends_call e
  have c := Course.start.reversed (n := .call f xs o) e₁
  rw [tasksOf, e₁.after_eq]
  rcases hcall with ⟨ho, rfl⟩ | ⟨-, k, e₂, e₃⟩
  · cases o with
    | atom a => simpa [operandTasks] using c
    | node m => cases ho
  have c₁ : Course (.call f xs o) g (reversedTasks xs g ++ operandTasks o h) [] [] k := by
    rcases ends_receiverCode e₂ with ⟨m, rfl, em⟩ | ⟨rfl, rfl⟩ | ⟨a, x, rfl, -, rfl⟩
    · simpa [operandTasks] using c.part em
    · simpa [operandTasks, Operand.system] using c
    · simpa [operandTasks] using c.write (.of_code rfl)
  rcases ends_calleeCode e₃ with ⟨n, -, rfl⟩ | ⟨a, hf, -, rfl⟩
  · exact c₁.write (.of_code rfl)
  · exact c₁.write (.call (by simp [Node.mayCall, hf]))

/-- Generation of an access runs a course. -/
theorem course_member {a : Operand} {i : Bool} (e : Ends (generate (.member o a i)) g () g') :
    Course (.member o a i) g (tasksOf (.member o a i) g) [] [] g' := by
  obtain ⟨h, e₂, ⟨o', a', i', rfl, e₁⟩ | ⟨ho, hload⟩⟩ := ends_member e
  · have c := Course.start.part (n := .member (.node (.member o' a' i')) a i) e₁
    rw [tasksOf, e₁.after_eq]
    cases i with
    | true => simpa using c.index rfl (fun _ => id) e₂
    | false => exact e₂ ▸ c
  · rw [tasksOf.eq_6 _ _ _ _ ho]
    cases i with
    | true =>
      obtain ⟨x, ex, rfl⟩ := hload
      have hload : Ends (do emitInt Op.load (← addressOf o)) g ()
          (g.push (.instruction Op.load (.int x))) := by
        simp only [ends_bind, ends_emitInt]
        exact ⟨x, g, ex, rfl⟩
      have c := Course.start.write (n := .member o a true) (g := g)
        (.of_code (c := Op.load) (x := x) rfl)
      simpa [hload.after_eq] using c.index rfl (fun _ => id) e₂
    | false =>
      obtain rfl := e₂.trans hload
      exact .start

/-- Generation of a declaration runs a course. -/
theorem course_declare {t : String} {v : Option Node}
    (e : Ends (generate (.declare name t v)) g () g') :
    Course (.declare name t v) g (tasksOf (.declare name t v) g) [] [] g' := by
  obtain ⟨k, c, rfl⟩ := (Course.start.reserve (n := .declare name t v) name t rfl).value
    (by rintro rfl _; rfl) e
  exact c.declare rfl

/-- The steps of a function up to its entry: it keeps a place for its address and one for the jump
    over it, and gets the address. -/
theorem course_entry {g₁ : Generator} (r : String) (body : List Node)
    (e : Ends (declareParameters name ps) (g.enterFunction name) () g₁) :
    Course (.function name r ps body) g [] [g₁.length, g.length] [g.length]
      ((g₁.push (.instruction 0 (.int 0))).fill g.length Op.store (g₁.length + 1)) := by
  have c₀ : Course (.function name r ps body) g [] [] [] g := .start
  have c₁ := ((c₀.reserve name "" rfl).keep (s := .instruction 0 (.int 0)) rfl).declare rfl
  have c₂ := (c₁.parameters rfl e).keep (s := .instruction 0 (.int 0)) rfl
  exact c₂.fill rfl (i := g.length) (by simp) (.inr (.inr rfl))

/-- Generation of a function runs a course. -/
theorem course_function {r : String} {body : List Node}
    (e : Ends (generate (.function name r ps body)) g () g') :
    ∃ ks fs, Course (.function name r ps body) g (tasksOf (.function name r ps body) g) ks fs g' ∧
      ∀ i ∈ ks, i ∈ fs := by
  obtain ⟨g₁, g₂, g₃, g₄, e₁, e₂, e₃, e₄, rfl, ht⟩ := ends_function e
  have c₃ := ((course_entry r body e₁).stores (fun p hp _ _ ha => ⟨p, hp, ha⟩) e₂).all e₃
  have c₄ := (c₃.close rfl e₄).fill rfl (i := g₁.length) (by simp) (.inl rfl)
  rw [ht]
  exact ⟨_, _, c₄, by simp⟩

/-- Generation of an assignment runs a course. -/
theorem course_assign {t : Operand} {v : Node} (e : Ends (generate (.assign t v)) g () g') :
    Course (.assign t v) g (tasksOf (.assign t v) g) [] [] g' := by
  obtain ⟨h, e₁, ht⟩ := ends_assign e
  have c := Course.start.part (n := .assign t v) e₁
  rcases ht with ⟨o, a, x, k, rfl, ex, e₂, e₃⟩ | ⟨o, a, rfl, rfl⟩ | ⟨y, x, rfl, ha, rfl⟩
  · have hload : Ends (do emitInt Op.load (← addressOf (indexedBase o))) h ()
        (h.push (.instruction Op.load (.int x))) := by
      simp only [ends_bind, ends_emitInt]
      exact ⟨x, h, ex, rfl⟩
    have c₁ := ((c.write (.of_code (c := Op.load) (x := x) rfl)).setters
      (fun _ => mem_append_left _) e₂).index rfl
      (fun _ => mem_append_right _) e₃
    simpa [tasksOf, targetTasks, e₁.after_eq, hload.after_eq, e₂.after_eq] using c₁
  · exact c
  · exact c.write (.storeMem ⟨y, rfl, ha⟩)

/-- The course of a conditional up to the end of its first block. What is left then is
    to give the jumps in the places `last` and `ends` that end as their target. -/
theorem course_blocks (e : Ends (generate (.conditional c thenBlock bs elseBlock)) g () g') :
    ∃ (last : Nat) (ends ks fs : List Nat) (k : Generator),
      Course (.conditional c thenBlock bs elseBlock) g
        (tasksOf (.conditional c thenBlock bs elseBlock) g) ks fs k ∧
      last ∈ ks ∧ (∀ i ∈ ends, i ∈ ks) ∧ (∀ i ∈ ks, i = last ∨ i ∈ ends ∨ i ∈ fs) ∧
      Ends (ends.forM fun i => patch i Op.jump k.length) (k.fill last Op.jump k.length) () g' := by
  obtain ⟨g₁, tests, g₂, g₃, ends, g₄, g₅, e₁, e₂, e₃, e₄, e₅, e₆, ht⟩ := ends_conditional e
  have c₀ : Course (.conditional c thenBlock bs elseBlock) g [] [] [] g := .start
  have c₁ := (c₀.part e₁).keep (s := .label "To replace IF") rfl
  obtain ⟨c₂, hlen⟩ := c₁.tests e₂
  have c₃ := (c₂.last e₃).keep (s := .label "To replace ELSE") rfl
  have c₄ := c₃.branches rfl (by simp +contextual) hlen e₄
  have c₅ := (c₄.fill rfl (i := g₁.length) (by simp) (.inr (.inl rfl))).all e₅
  rw [ht]
  refine ⟨g₃.length, ends, _, _, g₅, by simpa using c₅, by simp, by simp +contextual, ?_, e₆⟩
  grind

/-- Generation of a conditional runs a course. -/
theorem course_conditional (e : Ends (generate (.conditional c thenBlock bs elseBlock)) g () g') :
    ∃ ks fs, Course (.conditional c thenBlock bs elseBlock) g
      (tasksOf (.conditional c thenBlock bs elseBlock) g) ks fs g' ∧ ∀ i ∈ ks, i ∈ fs := by
  obtain ⟨last, ends, ks, fs, k, c, hlast, hends, hks, e⟩ := course_blocks e
  refine ⟨_, _, (c.fill rfl hlast (.inl rfl)).fillAll rfl hends e, fun i hi => ?_⟩
  have := hks i hi
  simp only [mem_append, mem_reverse, mem_cons]
  grind

/-- Generation of a loop runs a course. -/
theorem course_loop (hn : n.isLoop) (e : Ends (generate n) g () g') :
    ∃ ks fs, Course n g (tasksOf n g) ks fs g' ∧ ∀ i ∈ ks, i ∈ fs := by
  have hj : n.jumps := by cases n <;> simp_all [Node.isLoop, Node.jumps]
  obtain ⟨v, c, body, counter, g₁, g₂, g₃, ev, ec, eb, hcounts, rfl, ht⟩ := ends_loop hn e
  have c₀ := (((Course.start.flag true hn).operand ev).part ec).write (c := Op.not)
    (.of_code (x := 0) rfl)
  have cb := (((c₀.keep (s := .bare Op.jumpIf) (by decide)).all eb).settle .continue hn
    (by decide)).count hcounts
  rw [nil_append, append_assoc] at cb
  -- control goes back to where the condition begins
  have c₁ := cb.back hn (t := g₁.length) ⟨⟨c, g₁⟩, by simp, rfl⟩
  have c₂ := ((c₁.fill hj (i := g₂.length + 1) (by simp) (.inr (.inl rfl))).settle .break hn
    (by decide)).flag false hn
  rw [ht]
  exact ⟨_, _, c₂, by simp⟩

/-- Generation of a list runs a course. -/
theorem course_list {k : String} (e : Ends (generate (.listLiteral k xs)) g () g') :
    Course (.listLiteral k xs) g (tasksOf (.listLiteral k xs) g) [] [] g' := by
  have c : Course (.listLiteral k xs) g [] [] [] g := .start
  rcases ends_list e with ⟨_, _, hw, rfl⟩ | ⟨h, hk, e₁, rfl⟩
  · -- generation turns to the items only under a kind of its own for lists
    rw [tasksOf, hw.not_list]
    cases hw with
    | real | byte =>
      exact c.write (.of_argument rfl (.inr ⟨_, mem_singleton.2 rfl, rfl⟩))
    | bool => exact c.write (.of_code rfl)
  · simpa [tasksOf, hk] using (c.reversed e₁).write (.of_code rfl)

/-- Generation of an exit runs a course: the exit waits if there is a loop around it, and
    otherwise is left out. -/
theorem course_exit {x : Exit} (hx : n.exit = x) (hne : x ≠ .none) (ht : tasksOf n g = [])
    (e : Ends (exitCode x) g () g') : Course n g (tasksOf n g) [] [] g' := by
  subst hx
  rw [ends_exitCode] at e
  rw [ht, e]
  split
  · rename_i hl
    exact Course.start.wait hne hl
  · exact .start

/-- Generation that ends has run a course over the parts of the node, and has
    filled every place that it kept. -/
theorem course_of_ends (e : Ends (generate n) g () g') :
    ∃ ks fs, Course n g (tasksOf n g) ks fs g' ∧ ∀ i ∈ ks, i ∈ fs := by
  have c₀ : Course n g [] [] [] g := .start
  have plain : ∀ {ts}, Course n g ts [] [] g' →
      ∃ ks fs, Course n g ts ks fs g' ∧ ∀ i ∈ ks, i ∈ fs := fun c => ⟨[], [], c, by simp⟩
  cases n with
  | binary op a b =>
    obtain ⟨h, k, code, e₁, e₂, hop, rfl⟩ := ends_binary e
    refine plain ?_
    simpa [tasksOf, e₁.after_eq] using ((c₀.part e₁).option e₂).write (.of_operator hop)
  | literal k v =>
    refine plain ?_
    rw [generate] at e
    exact c₀.literal e
  | listLiteral k xs => exact plain (course_list e)
  | call f xs o => exact plain (course_call e)
  | create r xs =>
    obtain ⟨h, info, e₁, -, rfl⟩ := ends_create e
    exact plain ((c₀.fields e₁).write (.of_code rfl))
  | member o a i => exact plain (course_member e)
  | cast t s x =>
    obtain ⟨h, x, e₁, -, rfl⟩ := ends_cast e
    exact plain ((c₀.part e₁).write (.of_code rfl))
  | plainUnary | plainDeclaration name =>
    rw [generate] at e
    exact absurd e ends_throw
  | declare name t v => exact plain (course_declare e)
  | function name r ps body => exact course_function e
  | record name ps =>
    refine plain ?_
    rw [generate] at e
    exact c₀.record e
  | assign t v => exact plain (course_assign e)
  | conditional c thenBlock bs elseBlock => exact course_conditional e
  | whileLoop c body | forLoop v c body => exact course_loop rfl e
  | giveBack v =>
    refine plain ?_
    simp only [generate, ends_bind, ends_emitInt] at e
    obtain ⟨_, h, e₁, rfl⟩ := e
    exact (c₀.option e₁).write (.giveBack rfl)
  | breakLoop | continueLoop =>
    rw [generate] at e
    exact plain (course_exit rfl (by decide) rfl e)
  | _ =>
    refine plain ?_
    rw [generate] at e
    obtain ⟨-, rfl⟩ := ends_pure.1 e
    exact c₀

/-- What holds of every course if it holds of its parts holds of the code of every node. -/
theorem ends_induction {P : Node → Generator → Generator → Prop}
    (h : ∀ {n g g' ks fs}, Course n g (tasksOf n g) ks fs g' → (∀ i ∈ ks, i ∈ fs) →
      (∀ t ∈ tasksOf n g, ∀ k, Ends (generate t.node) t.start () k → P t.node t.start k) → P n g g')
    (e : Ends (generate n) g () g') : P n g g' := by
  suffices ∀ t : Task, ∀ k, Ends (generate t.node) t.start () k → P t.node t.start k from
    this ⟨n, g⟩ g' e
  intro t
  induction t using Task.induction with
  | h t ih =>
    intro k e
    obtain ⟨ks, fs, c, hks⟩ := course_of_ends e
    exact h c hks ih

/-- Generation never takes code back. -/
theorem length_le : Ends (generate n) g () g' → g.length ≤ g'.length :=
  ends_induction (P := fun _ g k => g.length ≤ k.length) fun c _ ih => c.length_le_of_parts ih

end Gen

/-- Code only grows along a course. -/
theorem Course.length_le {n : Node} {g h : Generator} {ts : List Task} {ks fs : List Nat}
    (c : Course n g ts ks fs h) : g.length ≤ h.length :=
  c.length_le_of_parts fun _ _ _ => Gen.length_le

end StackLang
