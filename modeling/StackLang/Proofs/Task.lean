import StackLang.Proofs.Generation
import StackLang.Proofs.Reach

/-!
# Tasks of generation

While the code of a node is generated, generation turns to parts of the node, one
after the other, and takes steps of its own in between. A `Task` is a node
together with the generator as it is when generation turns to the node;
`Task.parts` lists the tasks that one task leads to, in their order, and
`Task.all` the task itself and all those below it. `Gen.map_tasksOf` says that the
tasks are those of the nodes that the tree gives (`Node.turns`).

The steps in between are spelled out once for each sort of node:

* `Gen.ends_call`, `Gen.ends_member`, `Gen.ends_assign` and their like say how the
  code of an expression or of an assignment comes about;
* `Gen.ends_loop`, `Gen.ends_function` and `Gen.ends_conditional` say it of the
  nodes whose code has jumps.
-/

namespace StackLang

open List

/-- The name that a function has for a parameter. -/
abbrev Atom.parameter (f : Atom) (p : Parameter) : Atom := .text (f.shown ++ "." ++ p.name.shown)

/-- A node that generation turns to, and the generator as it is then. -/
structure Task where
  node : Node
  start : Generator

namespace Gen

/-! ### Parts -/

/-- The tasks of statements, one after the other. -/
def allTasks : List Node → Generator → List Task
  | [], _ => []
  | n :: ns, g => ⟨n, g⟩ :: allTasks ns (after (generate n) g)

/-- The tasks of nodes from the last to the first. -/
def reversedTasks : List Node → Generator → List Task
  | [], _ => []
  | n :: ns, g => reversedTasks ns g ++ [⟨n, after (generateReversed ns) g⟩]

/-- The tasks of the fields of a new record. -/
def fieldTasks (record : Atom) : List Node → Generator → List Task
  | [], _ => []
  | n :: ns, g =>
    let h := { g with heap := g.heap ++ ["DATA-" ++ record.shown] }
    ⟨n, h⟩ :: fieldTasks record ns (after (generate n) h)

/-- The tasks of the tests of further conditions. -/
def testTasks : List Branch → Generator → List Task
  | [], _ => []
  | .mk c _ :: bs, g =>
    ⟨c, g⟩ :: testTasks bs ((after (generate c) g).push (.label "To replace ELIF START"))

/-- The tasks of the blocks of further conditions. -/
def branchTasks : List Branch → (tests : List Nat) → Generator → List Task
  | .mk _ body :: bs, test :: tests, g =>
    let h := after (generateAll body) g
    allTasks body g ++
      branchTasks bs tests
        ((h.fill test Op.jumpIf h.length).push (.label "To replace ELIF END"))
  | _, _, _ => []

/-- The task of a node that may be absent. -/
def optionTasks : Option Node → Generator → List Task
  | none, _ => []
  | some n, g => [⟨n, g⟩]

/-- The task of an operand; a name has none. -/
def operandTasks : Operand → Generator → List Task
  | .atom _, _ => []
  | .node n, g => [⟨n, g⟩]

/-- The task of an index, unless it stands in the instruction itself. -/
def indexTasks (inPlace : Node → Bool) : Operand → Generator → List Task
  | .atom _, _ => []
  | .node n, g => if inPlace n then [] else [⟨n, g⟩]

/-- The tasks of the indices on the way to an assigned element. -/
def setterTasks : Operand → Generator → List Task
  | .node (.member o a true), g =>
    indexTasks isConstant a g ++
      setterTasks o (after (generateSetters (.node (.member (.atom .nothing) a true))) g)
  | _, _ => []

/-- The tasks of the target of an assignment. -/
def targetTasks : Operand → Generator → List Task
  | .node (.member o a true), g =>
    let h := after (do emitInt Op.load (← addressOf (indexedBase o))) g
    setterTasks o h ++ indexTasks isConstant a (after (generateSetters o) h)
  | _, _ => []

/-- The tasks of the last block of a conditional. -/
def elseTasks : Option (List Node) → Generator → List Task
  | none, _ => []
  | some ss, g => allTasks ss g

/-- The code of the last block of a conditional. -/
def elseCode : Option (List Node) → Gen Unit
  | none => pure ()
  | some ss => generateAll ss

/-- Note the record type of a variable that is declared with a new record. -/
def noteObject (n : Atom) : Option Node → Gen Unit
  | some (.create r _) => modify fun g => { g with objects := g.objects.put n r }
  | _ => pure ()

/-- The steps of a function declaration up to its body. -/
def functionHead (name : Atom) (ps : List Parameter) : Gen Unit := do
  let start ← here
  reserve name ""
  emitInt 0 0
  emitInt Op.storeMem (-1)
  declareParameters name ps
  emitInt 0 0
  patch start Op.store (← here)
  storeParameters name ps

/-- The steps of a loop from its test to its body. -/
def loopHead (condition : Node) : Gen Unit := do
  generate condition
  emitInt Op.not 0
  append (.bare Op.jumpIf)

/-- The tasks that generation of a node turns to, in their order. -/
def tasksOf : Node → Generator → List Task
  | .binary _ a b, g => ⟨a, g⟩ :: optionTasks b (after (generate a) g)
  | .listLiteral k xs, g => if holds "[]" k then reversedTasks xs g else []
  | .call _ xs o, g => reversedTasks xs g ++ operandTasks o (after (generateReversed xs) g)
  | .create r xs, g => fieldTasks r xs g
  | .member (.node (.member o a i)) b indexed, g =>
    ⟨.member o a i, g⟩ ::
      if indexed then indexTasks Node.isUnary b (after (generate (.member o a i)) g) else []
  | .member o b indexed, g =>
    if indexed then indexTasks Node.isUnary b (after (do emitInt Op.load (← addressOf o)) g)
    else []
  | .cast _ _ x, g => [⟨x, g⟩]
  | .declare n t v, g => optionTasks v (after (noteObject n v) (g.reserved n t))
  | .function name _ ps body, g => allTasks body (after (functionHead name ps) g)
  | .assign t v, g => ⟨v, g⟩ :: targetTasks t (after (generate v) g)
  | .conditional c thenBlock bs elseBlock, g =>
    let test := (after (generate c) g).length
    let g₁ := (after (generate c) g).push (.label "To replace IF")
    let tests := (result? (generateTests bs) g₁).getD []
    let g₂ := after (generateTests bs) g₁
    let g₃ := (after (elseCode elseBlock) g₂).push (.label "To replace ELSE")
    let g₄ := after (generateBranches bs tests) g₃
    ⟨c, g⟩ :: testTasks bs g₁ ++
      elseTasks elseBlock g₂ ++ branchTasks bs tests g₃ ++
      allTasks thenBlock (g₄.fill test Op.jumpIf g₄.length)
  | .whileLoop c body, g =>
    ⟨c, g.flag true⟩ :: allTasks body (after (loopHead c) (g.flag true))
  | .forLoop v c body, g =>
    let h := after (generateOperand v) (g.flag true)
    operandTasks v (g.flag true) ++ ⟨c, h⟩ :: allTasks body (after (loopHead c) h)
  | .giveBack v, g => optionTasks v g
  | _, _ => []

end Gen

namespace Task

/-- The generator when the task is done. -/
def finish (t : Task) : Generator := Gen.after (Gen.generate t.node) t.start

/-- The tasks that this one leads to, in their order. -/
def parts (t : Task) : List Task := Gen.tasksOf t.node t.start

end Task

/-! ### Everything below a task -/

namespace Gen

variable {t : Task} {g : Generator} {bs : List Branch} {tests : List Nat} {n : Node}

@[simp] theorem map_allTasks (ns : List Node) : (allTasks ns g).map Task.node = ns := by
  induction ns generalizing g with
  | nil => rfl
  | cons n ns ih => rw [allTasks, map_cons, ih]

@[simp] theorem map_reversedTasks (ns : List Node) :
    (reversedTasks ns g).map Task.node = ns.reverse := by
  induction ns with
  | nil => rfl
  | cons n ns ih => rw [reversedTasks, map_append, ih, reverse_cons, map_singleton]

@[simp] theorem map_fieldTasks (r : Atom) (ns : List Node) :
    (fieldTasks r ns g).map Task.node = ns := by
  induction ns generalizing g with
  | nil => rfl
  | cons n ns ih => rw [fieldTasks, map_cons, ih]

@[simp] theorem map_testTasks (bs : List Branch) :
    (testTasks bs g).map Task.node = bs.map Branch.condition := by
  induction bs generalizing g with
  | nil => rfl
  | cons b bs ih =>
    obtain ⟨c, body⟩ := b
    rw [testTasks, map_cons, ih]
    rfl

@[simp] theorem map_branchTasks (h : tests.length = bs.length) :
    (branchTasks bs tests g).map Task.node = bs.flatMap Branch.body := by
  induction bs generalizing g tests with
  | nil => rw [branchTasks] <;> simp
  | cons b bs ih =>
    obtain ⟨c, body⟩ := b
    obtain _ | ⟨i, tests⟩ := tests
    · cases h
    · rw [branchTasks, map_append, map_allTasks, ih (Nat.succ.inj h)]
      rfl

@[simp] theorem map_optionTasks (v : Option Node) :
    (optionTasks v g).map Task.node = v.toList := by
  cases v <;> rfl

@[simp] theorem map_elseTasks (v : Option (List Node)) :
    (elseTasks v g).map Task.node = v.getD [] := by
  cases v with
  | none => rfl
  | some ss => exact map_allTasks ss

@[simp] theorem map_operandTasks (o : Operand) : (operandTasks o g).map Task.node = o.nodes := by
  cases o <;> rfl

@[simp] theorem map_indexTasks (p : Node → Bool) (o : Operand) :
    (indexTasks p o g).map Task.node = o.index p := by
  cases o with
  | atom a => rfl
  | node n =>
    rw [indexTasks, Operand.index, Operand.nodes]
    cases hp : p n <;> simp [hp]

@[simp] theorem map_setterTasks (o : Operand) : (setterTasks o g).map Task.node = o.steps := by
  fun_induction setterTasks o g with
  | case1 g o a ih => rw [map_append, map_indexTasks, ih, Operand.steps]
  | case2 => rw [Operand.steps] <;> simp_all

@[simp] theorem map_targetTasks (o : Operand) : (targetTasks o g).map Task.node = o.targets := by
  unfold targetTasks
  split
  · rw [map_append, map_setterTasks, map_indexTasks, Operand.targets]
  · rw [Operand.targets] <;> simp_all

/-- The blocks of further conditions come as long as there are places of tests. -/
theorem node_mem_of_branchTasks (h : t ∈ branchTasks bs tests g) :
    t.node ∈ bs.flatMap Branch.body := by
  induction bs generalizing g tests with
  | nil => simp [branchTasks] at h
  | cons b bs ih =>
    obtain ⟨c, body⟩ := b
    rw [flatMap_cons]
    cases tests with
    | nil => simp [branchTasks] at h
    | cons i tests =>
      rcases mem_append.1 h with h | h
      · refine mem_append_left _ ?_
        rw [Branch.body, ← map_allTasks (g := g) body]
        exact mem_map_of_mem h
      · exact mem_append_right _ (ih h)

/-- Each of the further conditions gives a place. -/
theorem length_of_generateTests (e : Ends (generateTests bs) g tests g') :
    tests.length = bs.length := by
  induction bs generalizing g g' tests with
  | nil =>
    obtain ⟨rfl, -⟩ := ends_pure.1 e
    rfl
  | cons b bs ih =>
    obtain ⟨c, body⟩ := b
    simp only [generateTests, ends_bind, ends_here, ends_append, ends_pure] at e
    obtain ⟨_, _, -, _, _, -, _, _, -, tests, _, e, rfl, -⟩ := e
    rw [length_cons, ih e, length_cons]

/-- Except for conditionals, the tasks do not depend on how generation goes. -/
theorem map_tasksOf_of_ne
    (h : ∀ c thenBlock bs elseBlock, n ≠ .conditional c thenBlock bs elseBlock) :
    (tasksOf n g).map Task.node = n.turns := by
  cases n with
  | conditional c thenBlock bs elseBlock => exact absurd rfl (h _ _ _ _)
  | listLiteral k xs =>
    rw [tasksOf, Node.turns]
    split <;> simp
  | member o a indexed =>
    unfold tasksOf Node.turns
    split <;> simp_all <;> split <;> simp
  | _ => simp [tasksOf, Node.turns]

/-- Generation of a node only turns to what the node says. -/
theorem node_mem_of_tasksOf (h : t ∈ tasksOf n g) : t.node ∈ n.turns := by
  have hmap : ∀ {ts : List Task} {ns : List Node}, ts.map Task.node = ns → t ∈ ts → t.node ∈ ns :=
    fun h ht => h ▸ mem_map_of_mem ht
  cases n with
  | conditional c thenBlock bs elseBlock =>
    simp only [tasksOf, cons_append, mem_cons, mem_append] at h
    simp only [Node.turns, cons_append, mem_cons, mem_append]
    rcases h with rfl | ((h | h) | h) | h
    · exact .inl rfl
    · exact .inr (.inl (.inl (.inl (hmap (map_testTasks _) h))))
    · exact .inr (.inl (.inl (.inr (hmap (map_elseTasks _) h))))
    · exact .inr (.inl (.inr (node_mem_of_branchTasks h)))
    · exact .inr (.inr (hmap (map_allTasks _) h))
  | _ => exact hmap (map_tasksOf_of_ne (by simp)) h

end Gen

namespace Task

open Gen

variable {t u : Task}

/-- A task only turns to nodes below its own. -/
theorem sizeOf_parts (h : u ∈ t.parts) : sizeOf u.node < sizeOf t.node := by
  exact Node.sizeOf_turns (node_mem_of_tasksOf h)

/-- The task and all those below it, each before its parts. -/
def all (t : Task) : List Task :=
  t :: t.parts.attach.flatMap fun u => all u.1
termination_by sizeOf t.node
decreasing_by exact sizeOf_parts u.2

theorem all_eq (t : Task) : t.all = t :: t.parts.flatMap all := by
  rw [all]
  simp [List.flatMap]

theorem mem_all : u ∈ t.all ↔ u = t ∨ ∃ v ∈ t.parts, u ∈ v.all := by
  rw [all_eq, mem_cons, mem_flatMap]

theorem mem_all_self (t : Task) : t ∈ t.all := mem_all.2 (.inl rfl)

/-- What holds of a task if it holds of its parts holds of every task. -/
theorem induction {P : Task → Prop} (h : ∀ t, (∀ u ∈ t.parts, P u) → P t) (t : Task) : P t :=
  h t fun u _ => induction h u
termination_by sizeOf t.node
decreasing_by exact sizeOf_parts ‹_›

end Task

/-! ### Accesses and declarations -/

namespace Gen

/-- The code of an index, which stands in the instruction itself or comes from the
    stack. -/
def indexCode (inPlace : Node → Bool) (code : Nat) : Operand → Gen Unit
  | .atom _ => emitInt code (-1)
  | .node n =>
    if inPlace n then do emit code (← selectorArgument n)
    else do
      generate n
      emitInt code (-1)

theorem generateSetters_member (o a : Operand) :
    generateSetters (.node (.member o a true)) = (do
      indexCode isConstant Op.listAccess a
      generateSetters o) := by
  cases a with
  | atom x => rw [generateSetters]; rfl
  | node m =>
    rw [generateSetters, indexCode]
    split <;> simp

theorem generate_member_nested (o a b : Operand) (i indexed : Bool) :
    generate (.member (.node (.member o a i)) b indexed) = (do
      generate (.member o a i)
      if indexed then indexCode Node.isUnary Op.listAccess b) := by
  conv => lhs; unfold generate
  simp only [pure_bind, Bool.not_true, Bool.false_eq_true, if_false]
  cases b <;> rfl

theorem generate_member_plain {o b : Operand} {indexed : Bool}
    (ho : ∀ o' a' i', o ≠ .node (.member o' a' i')) :
    generate (.member o b indexed) = (do
      if indexed then
        emitInt Op.load (← addressOf o)
        indexCode Node.isUnary Op.listAccess b) := by
  unfold generate
  cases o with
  | atom x => cases b <;> exact pure_bind _ _
  | node m =>
    cases m with
    | member o a i => exact absurd rfl (ho _ _ _)
    | _ => cases b <;> exact pure_bind _ _

/-- The code of the first value of a variable. -/
def initialCode (t : String) : Option Node → Gen Unit
  | none =>
    match opcodes.lookup (initialInstruction t) with
    | some code => emitInt code 0
    | none => throw (.unknownKey (.text (initialInstruction t)))
  | some x => generate x

theorem generate_declare (n : Atom) (t : String) (v : Option Node) :
    generate (.declare n t v) = (do
      reserve n t
      noteObject n v
      initialCode t v
      emitInt Op.storeMem (-1)) := by
  unfold generate
  cases v with
  | none =>
    simp only [noteObject, initialCode, pure_bind]
    cases opcodes.lookup (initialInstruction t) <;> rfl
  | some x => cases x <;> simp only [noteObject, initialCode, pure_bind]

theorem generate_assign_element (o a : Operand) (v : Node) :
    generate (.assign (.node (.member o a true)) v) = (do
      generate v
      emitInt Op.load (← addressOf (indexedBase o))
      generateSetters o
      indexCode isConstant Op.listSet a) := by
  conv => lhs; unfold generate
  cases a <;> rfl

end Gen

/-! ### Expressions and assignments -/

/-- Whether the operand is a variable that is known to hold a record. -/
def Operand.isObject (objects : Table Atom) : Operand → Bool
  | .atom a => objects.has a
  | .node _ => false

namespace Gen

/-- What a call writes for its receiver. -/
def receiverCode : Operand → Gen Unit
  | .node n => generate n
  | .atom a => do if a ≠ .text "System" then emitInt Op.load (← address a)

/-- What a call writes behind its arguments and its receiver. -/
def calleeCode (f : String) : Gen Unit :=
  match builtinNumber? f with
  | some n => emitInt Op.syscall n
  | none => do
    match (← get).identifiers.get? (.text f) with
    | some a => emitInt Op.call a
    | none => throw (.unfound (.text f))

/-- Of a call on a record, only the arguments have code. -/
theorem generate_call (f : String) (xs : List Node) (o : Operand) :
    generate (.call f xs o) = (do
      generateReversed xs
      if !o.isObject (← get).objects then
        receiverCode o
        calleeCode f) := by
  rw [generate]
  cases o with
  | atom a =>
    by_cases ha : a = .text "System"
    · subst ha
      rfl
    · simp only [pure_bind, receiverCode, if_pos ha, bind_assoc]
      rfl
  | node n => rfl

/-- The code and the argument of an instruction that is all that a literal writes, by the kind and the
    value of the literal. -/
inductive Writes (g : Generator) : String → Argument → Nat → Argument → Prop
  | int {v : Atom} {n : Int} : v.toInt = .ok n → Writes g "INT_LITERAL" (.atom v) Op.store (.int n)
  | real (x : Argument) : Writes g "FLOAT_LITERAL" x Op.storeFloat x
  | bool (x : Argument) (n : Int) : Writes g "BOOL_LITERAL" x Op.storeByte (.int n)
  | byte (x : Argument) : Writes g "BYTE_LITERAL" x Op.storeByte x
  | name {v : Atom} {a : Nat} : g.identifiers.get? v = some a →
    Writes g "VARIABLE" (.atom v) Op.load (.int a)

variable {g g' : Generator} {k : String} {xs : List Node} {o : Operand} {f : String}

theorem Writes.not_list {x y : Argument} {c : Nat} (h : Writes g k x c y) :
    holds "[]" k = false := by
  cases h <;> decide

theorem ends_literalCode {v : Atom} (e : Ends (literalCode k v) g () g') :
    (∃ c x, Writes g k (.atom v) c x ∧ g' = g.push (.instruction c x)) ∨
      (∃ s, v = .text s ∧ holds "[]" k ∧
        g' = g.push (.instruction Op.buildList (.int s.length))) ∨
      ∃ s h, k = "STRING_LITERAL" ∧ v = .text s ∧
        Ends ((stringChars s).reverse.forM fun c => emitInt Op.storeChar c.toNat) g () h ∧
        g' = h.push (.instruction Op.buildList (.int (stringChars s).length)) := by
  unfold literalCode at e
  split at e
  · simp only [ends_bind, ends_lift, ends_emitInt] at e
    obtain ⟨n, _, ⟨hn, rfl⟩, rfl⟩ := e
    exact .inl ⟨_, _, .int hn, rfl⟩
  · exact .inl ⟨_, _, .real _, ends_emit.1 e⟩
  · exact .inl ⟨_, _, .bool _ _, ends_emitInt.1 e⟩
  · exact .inl ⟨_, _, .byte _, ends_emit.1 e⟩
  · split at e
    · simp only [ends_bind, ends_emitInt] at e
      obtain ⟨_, h, e, rfl⟩ := e
      exact .inr (.inr ⟨_, h, rfl, rfl, e, rfl⟩)
    · exact absurd e ends_throw
  · split at e
    · split at e
      · exact .inr (.inl ⟨_, rfl, ‹_›, ends_emitInt.1 e⟩)
      · exact absurd e ends_throw
    · split at e
      · rename_i hk
        subst hk
        simp only [ends_bind, ends_address, ends_emitInt] at e
        obtain ⟨a, _, ⟨ha, rfl⟩, rfl⟩ := e
        exact .inl ⟨_, _, .name ha, rfl⟩
      · exact absurd e ends_throw

theorem ends_list (e : Ends (generate (.listLiteral k xs)) g () g') :
    (∃ c x, Writes g k (.nodes xs) c x ∧ g' = g.push (.instruction c x)) ∨
      ∃ h, holds "[]" k ∧ Ends (generateReversed xs) g () h ∧
        g' = h.push (.instruction Op.buildList (.int xs.length)) := by
  by_cases hk : holds "[]" k
  · simp only [generate_list hk, ends_bind, ends_emitInt] at e
    obtain ⟨_, h, e, rfl⟩ := e
    exact .inr ⟨h, hk, e, rfl⟩
  unfold generate at e
  split at e
  · exact absurd e ends_throw
  · exact .inl ⟨_, _, .real _, ends_emit.1 e⟩
  · exact .inl ⟨_, _, .bool _ _, ends_emitInt.1 e⟩
  · exact .inl ⟨_, _, .byte _, ends_emit.1 e⟩
  · exact absurd e ends_throw
  · rw [if_neg hk] at e
    split at e <;> exact absurd e ends_throw

theorem ends_binary {op : String} {a : Node} {b : Option Node}
    (e : Ends (generate (.binary op a b)) g () g') :
    ∃ h k c, Ends (generate a) g () h ∧ Ends (generateOption b) h () k ∧ operatorCode? op = some c ∧
      g' = k.push (.instruction c (.int 0)) := by
  simp only [generate, ends_bind] at e
  obtain ⟨_, h, e₁, _, k, e₂, e⟩ := e
  split at e
  · exact ⟨h, k, _, e₁, e₂, ‹_›, ends_emitInt.1 e⟩
  · exact absurd e ends_throw

theorem ends_receiverCode (e : Ends (receiverCode o) g () g') :
    (∃ n, o = .node n ∧ Ends (generate n) g () g') ∨ (o = .system ∧ g' = g) ∨
      ∃ a x, o = .atom a ∧ a ≠ .text "System" ∧ g' = g.push (.instruction Op.load (.int x)) := by
  cases o with
  | node n => exact .inl ⟨n, rfl, e⟩
  | atom a =>
    unfold receiverCode at e
    dsimp only at e
    split at e
    · rename_i ha
      simp only [ends_bind, ends_address, ends_emitInt] at e
      obtain ⟨x, _, ⟨-, rfl⟩, rfl⟩ := e
      exact .inr (.inr ⟨a, x, rfl, ha, rfl⟩)
    · rename_i ha
      obtain ⟨-, rfl⟩ := ends_pure.1 e
      exact .inr (.inl ⟨congrArg _ (Decidable.not_not.1 ha), rfl⟩)

theorem ends_calleeCode (e : Ends (calleeCode f) g () g') :
    (∃ n, builtinNumber? f = some n ∧ g' = g.push (.instruction Op.syscall (.int n))) ∨
      ∃ a, builtinNumber? f = none ∧ g.identifiers.get? (.text f) = some a ∧
        g' = g.push (.instruction Op.call (.int a)) := by
  unfold calleeCode at e
  split at e
  · exact .inl ⟨_, ‹_›, ends_emitInt.1 e⟩
  · simp only [ends_bind, ends_get] at e
    obtain ⟨_, _, ⟨rfl, rfl⟩, e⟩ := e
    split at e
    · exact .inr ⟨_, ‹_›, ‹_›, ends_emitInt.1 e⟩
    · exact absurd e ends_throw

theorem ends_call (e : Ends (generate (.call f xs o)) g () g') :
    ∃ h, Ends (generateReversed xs) g () h ∧ (o.isObject h.objects ∧ g' = h ∨
      o.isObject h.objects = false ∧ ∃ k, Ends (receiverCode o) h () k ∧
        Ends (calleeCode f) k () g') := by
  simp only [generate_call, ends_bind, ends_get] at e
  obtain ⟨_, _, e₁, _, h, ⟨rfl, rfl⟩, e⟩ := e
  refine ⟨h, e₁, ?_⟩
  split at e
  · rename_i ho
    obtain ⟨_, k, e₂, e₃⟩ := ends_bind.1 e
    exact .inr ⟨by simpa using ho, k, e₂, e₃⟩
  · rename_i ho
    exact .inl ⟨by simpa using ho, (ends_pure.1 e).2⟩

theorem ends_create {r : Atom} (e : Ends (generate (.create r xs)) g () g') :
    ∃ h info, Ends (generateFields r xs) g () h ∧ h.records.get? r = some info ∧
      g' = h.push (.instruction Op.new (.int info.position)) := by
  simp only [generate, ends_bind, ends_get] at e
  obtain ⟨_, _, e₁, _, h, ⟨rfl, rfl⟩, e⟩ := e
  split at e
  · exact ⟨h, _, e₁, ‹_›, ends_emitInt.1 e⟩
  · exact absurd e ends_throw

theorem ends_cast {t s : String} {x : Node} (e : Ends (generate (.cast t s x)) g () g') :
    ∃ h n, Ends (generate x) g () h ∧ castArgument s t = .ok n ∧
      g' = h.push (.instruction Op.cast (.int n)) := by
  simp only [generate, ends_bind, ends_lift, ends_emitInt] at e
  obtain ⟨_, _, e, n, h, ⟨hn, rfl⟩, rfl⟩ := e
  exact ⟨h, n, e, hn, rfl⟩

/-- The list of an access comes from the access that it stands on, or else is loaded where there is an
    index. -/
theorem ends_member {b : Operand} {i : Bool} (e : Ends (generate (.member o b i)) g () g') :
    ∃ h, (if i then Ends (indexCode Node.isUnary Op.listAccess b) h () g' else g' = h) ∧
      ((∃ o' a' i', o = .node (.member o' a' i') ∧ Ends (generate (.member o' a' i')) g () h) ∨
        (∀ o' a' i', o ≠ .node (.member o' a' i')) ∧
          if i then ∃ x, Ends (addressOf o) g x g ∧ h = g.push (.instruction Op.load (.int x))
          else h = g) := by
  by_cases ho : ∃ o' a' i', o = .node (.member o' a' i')
  · obtain ⟨o', a', i', rfl⟩ := ho
    simp only [generate_member_nested, ends_bind] at e
    obtain ⟨_, h, e₁, e⟩ := e
    refine ⟨h, ?_, .inl ⟨o', a', i', rfl, e₁⟩⟩
    cases i with
    | true => exact e
    | false => exact (ends_pure.1 e).2
  · have ho : ∀ o' a' i', o ≠ .node (.member o' a' i') := fun o' a' i' h => ho ⟨o', a', i', h⟩
    rw [generate_member_plain ho] at e
    cases i with
    | true =>
      simp only [if_true, ends_bind, ends_emitInt] at e
      obtain ⟨x, h, ex, _, _, rfl, e⟩ := e
      obtain rfl := ends_addressOf ex
      exact ⟨_, e, .inr ⟨ho, x, ex, rfl⟩⟩
    | false => exact ⟨g, (ends_pure.1 e).2, .inr ⟨ho, rfl⟩⟩

/-- An element, a field, or a variable is assigned to. -/
theorem ends_assign {t : Operand} {v : Node} (e : Ends (generate (.assign t v)) g () g') :
    ∃ h, Ends (generate v) g () h ∧
      ((∃ o a x k, t = .node (.member o a true) ∧ Ends (addressOf (indexedBase o)) h x h ∧
          Ends (generateSetters o) (h.push (.instruction Op.load (.int x))) () k ∧
          Ends (indexCode isConstant Op.listSet a) k () g') ∨
        (∃ o a, t = .node (.member o a false) ∧ g' = h) ∨
        ∃ y x, t = .atom y ∧ h.identifiers.get? y = some x ∧
          g' = h.push (.instruction Op.storeMem (.int x))) := by
  by_cases ht : ∃ o a, t = .node (.member o a true)
  · obtain ⟨o, a, rfl⟩ := ht
    simp only [generate_assign_element, ends_bind, ends_emitInt] at e
    obtain ⟨_, h, e₁, x, _, ex, _, _, rfl, _, k, e₂, e⟩ := e
    obtain rfl := ends_addressOf ex
    exact ⟨_, e₁, .inl ⟨o, a, x, k, rfl, ex, e₂, e⟩⟩
  · unfold generate at e
    obtain ⟨_, h, e₁, e⟩ := ends_bind.1 e
    refine ⟨h, e₁, .inr ?_⟩
    split at e
    · exact absurd ⟨_, _, rfl⟩ ht
    · exact .inl ⟨_, _, rfl, (ends_pure.1 e).2⟩
    · simp only [ends_bind, ends_emitInt] at e
      obtain ⟨x, _, ex, rfl⟩ := e
      obtain ⟨y, rfl, ha⟩ := atom_of_addressOf ex
      obtain rfl := ends_addressOf ex
      exact .inr ⟨y, x, rfl, ha, rfl⟩

end Gen

/-! ### Nodes whose code has jumps -/

/-- The name that a loop counts with. -/
def Operand.counter? : Operand → Option Atom
  | .node (.declare n _ _) | .node (.function n _ _ _) | .node (.record n _)
  | .node (.plainDeclaration n) | .node (.assign (.atom n) _) => some n
  | .node (.call f _ _) => some (.text f)
  | .node (.parameter p) => some p.name
  | _ => none

/-- The address is that of the name that a loop counts with; other nodes count with none. -/
def Node.Counts : Node → Generator → (counter : Nat) → Prop
  | .forLoop v _ _, g, a => ∃ x, v.counter? = some x ∧ g.identifiers.get? x = some a
  | _, _, _ => True

/-- The slots that count a round of a loop whose counter lies at an address. -/
def Node.increment : Node → (counter : Nat) → List Slot
  | .forLoop .., a =>
    [.instruction Op.load (.int a), .instruction Op.store (.int 1), .instruction Op.add (.int 0),
      .instruction Op.storeMem (.int a)]
  | _, _ => []

namespace Generator

/-- The generator with slots at the end of its code. -/
def pushAll (g : Generator) (ss : List Slot) : Generator := ss.foldl push g

/-- The generator at the start of the body of a loop, its test being `g`'s last
    code. -/
def enterBody (g : Generator) : Generator :=
  (g.push (.instruction Op.not (.int 0))).push (.bare Op.jumpIf)

/-- The generator behind a loop, if its last instruction is still missing in `g`:
    control goes back to `start`, and the test and the waiting `break` come
    behind that. -/
def closed (g : Generator) (start test : Nat) : Generator :=
  let h := g.push (.instruction Op.jump (.int start))
  ((h.fill test Op.jumpIf h.length).settled .break).flag false

/-- The generator behind a loop whose body ends in `g`: the waiting `continue`
    comes here, then a round is counted. -/
def closeLoop (g : Generator) (increment : List Slot) (start test : Nat) : Generator :=
  ((g.settled .continue).pushAll increment).closed start test

/-- The generator of a function when its parameters are to be declared. -/
def enterFunction (g : Generator) (name : Atom) : Generator :=
  ((g.reserved name "").push (.instruction 0 (.int 0))).push (.instruction Op.storeMem (.int (-1)))

end Generator

namespace Gen

variable {g g' : Generator} {v : Operand} {c : Node} {body : List Node} {ps : List Parameter}
  {n : Node} {name : Atom}

/-- The steps of a loop, with those behind its body given. -/
def loopCode (v : Operand) (c : Node) (body : List Node) (tail : (start test : Nat) → Gen Unit) :
    Gen Unit := do
  modify fun g => { g with inLoop := true }
  generateOperand v
  let start ← here
  generate c
  emitInt Op.not 0
  let test ← here
  append (.bare Op.jumpIf)
  generateAll body
  tail start test

/-- The last steps of a loop. -/
def closeCode (start test : Nat) : Gen Unit := do
  emitInt Op.jump start
  patch test Op.jumpIf (← here)
  settle .break
  modify fun g => { g with inLoop := false }

/-- The steps that count a round, and what follows them. -/
def countCode (v : Operand) (rest : Gen Unit) : Gen Unit := do
  let counter ← address (← counterName v)
  emitInt Op.load counter
  emitInt Op.store 1
  emitInt Op.add 0
  emitInt Op.storeMem counter
  rest

theorem generate_whileLoop (c : Node) (body : List Node) :
    generate (.whileLoop c body) =
      loopCode (.atom .nothing) c body (fun start test => do
        settle .continue
        closeCode start test) := by
  rw [generate, loopCode, generateOperand, pure_bind]
  rfl

theorem generate_forLoop (v : Operand) (c : Node) (body : List Node) :
    generate (.forLoop v c body) =
      loopCode v c body (fun start test => do
        settle .continue
        countCode v (closeCode start test)) := by
  rw [generate]
  rfl

theorem ends_flag {b : Bool} {u : Unit} :
    Ends (modify fun g => { g with inLoop := b } : Gen Unit) g u g' ↔ g' = g.flag b :=
  ends_modify

theorem ends_loopCode {tail : Nat → Nat → Gen Unit} (e : Ends (loopCode v c body tail) g () g') :
    ∃ g₁ g₂ g₃, Ends (generateOperand v) (g.flag true) () g₁ ∧ Ends (generate c) g₁ () g₂ ∧
      Ends (generateAll body) g₂.enterBody () g₃ ∧
      Ends (tail g₁.length (g₂.length + 1)) g₃ () g' := by
  simp only [loopCode, ends_bind, ends_flag, ends_here, ends_emitInt, ends_append] at e
  obtain ⟨_, _, rfl, _, g₁, ev, _, _, ⟨rfl, rfl⟩, _, g₂, ec, _, _, rfl, _, _, ⟨rfl, rfl⟩, _, _,
    rfl, _, g₃, eb, ez⟩ := e
  exact ⟨_, g₂, g₃, ev, ec, eb, ez⟩

theorem ends_closeCode {start test : Nat} (e : Ends (closeCode start test) g () g') :
    g' = g.closed start test := by
  simp only [closeCode, ends_bind, ends_flag, ends_here, ends_emitInt, ends_patch,
    ends_settle] at e
  obtain ⟨_, _, rfl, _, _, ⟨rfl, rfl⟩, _, _, rfl, _, _, rfl, rfl⟩ := e
  rfl

theorem ends_counterName {x : Atom} (e : Ends (counterName v) g x g') :
    v.counter? = some x ∧ g' = g := by
  unfold counterName at e
  split at e
  case h_8 => exact absurd e ends_throw
  all_goals
    obtain ⟨rfl, rfl⟩ := ends_pure.1 e
    exact ⟨rfl, rfl⟩

theorem after_loopHead (e : Ends (generate c) g () g') : after (loopHead c) g = g'.enterBody := by
  refine Ends.after_eq (x := ()) ?_
  simp only [loopHead, ends_bind, ends_emitInt, ends_append]
  exact ⟨(), g', e, (), _, rfl, rfl⟩

theorem ends_countCode {rest : Gen Unit} (e : Ends (countCode v rest) g () g') :
    ∃ counter, (Node.forLoop v c body).Counts g counter ∧
      Ends rest (g.pushAll ((Node.forLoop v c body).increment counter)) () g' := by
  simp only [countCode, ends_bind, ends_emitInt, ends_address] at e
  obtain ⟨x, _, en, counter, _, ⟨ha, rfl⟩, _, _, rfl, _, _, rfl, _, _, rfl, _, _, rfl, e⟩ := e
  obtain ⟨hx, rfl⟩ := ends_counterName en
  exact ⟨counter, ⟨x, hx, ha⟩, e⟩

theorem ends_loop (hn : n.isLoop) (e : Ends (generate n) g () g') :
    ∃ v c body counter g₁ g₂ g₃,
      Ends (generateOperand v) (g.flag true) () g₁ ∧ Ends (generate c) g₁ () g₂ ∧
      Ends (generateAll body) g₂.enterBody () g₃ ∧ n.Counts (g₃.settled .continue) counter ∧
      g' = g₃.closeLoop (n.increment counter) g₁.length (g₂.length + 1) ∧
      tasksOf n g =
        operandTasks v (g.flag true) ++ ⟨c, g₁⟩ :: allTasks body g₂.enterBody := by
  cases n with
  | whileLoop c body =>
    rw [generate_whileLoop] at e
    obtain ⟨g₁, g₂, g₃, ev, ec, eb, e⟩ := ends_loopCode e
    simp only [ends_bind, ends_settle] at e
    obtain ⟨_, _, rfl, ez⟩ := e
    refine ⟨_, c, body, 0, g₁, g₂, g₃, ev, ec, eb, trivial, ends_closeCode ez, ?_⟩
    obtain ⟨-, rfl⟩ := ends_pure.1 ev
    rw [tasksOf, after_loopHead ec]
    rfl
  | forLoop v c body =>
    rw [generate_forLoop] at e
    obtain ⟨g₁, g₂, g₃, ev, ec, eb, e⟩ := ends_loopCode e
    simp only [ends_bind, ends_settle] at e
    obtain ⟨_, _, rfl, e⟩ := e
    obtain ⟨counter, hcounts, ez⟩ := ends_countCode e
    refine ⟨v, c, body, counter, g₁, g₂, g₃, ev, ec, eb, hcounts, ends_closeCode ez, ?_⟩
    rw [tasksOf, ev.after_eq, after_loopHead ec]
  | _ => simp [Node.isLoop] at hn

theorem after_functionHead {g₁ g₂ : Generator}
    (e₁ : Ends (declareParameters name ps) (g.enterFunction name) () g₁)
    (e₂ : Ends (storeParameters name ps)
      ((g₁.push (.instruction 0 (.int 0))).fill g.length Op.store (g₁.length + 1)) () g₂) :
    after (functionHead name ps) g = g₂ := by
  refine Ends.after_eq (x := ()) ?_
  simp only [functionHead, ends_bind, ends_here, ends_reserve, ends_emitInt, ends_patch]
  exact ⟨_, _, ⟨rfl, rfl⟩, (), _, rfl, (), _, rfl, (), _, rfl, (), _, e₁, (), _, rfl, _, _,
    ⟨rfl, rfl⟩, (), _, rfl, e₂⟩

/-- The first parameter is declared, and then the others. -/
theorem ends_declareParameters_cons {f : Atom} {p : Parameter}
    (e : Ends (declareParameters f (p :: ps)) g () g') :
    ∃ objects, Ends (declareParameters f ps)
      (((Generator.reserved { g with objects } (f.parameter p) p.type).push
        (.instruction Op.store (.int 0))).push (.instruction Op.storeMem (.int (-1)))) () g' := by
  simp only [declareParameters, ends_bind, ends_get] at e
  obtain ⟨_, g, ⟨rfl, rfl⟩, e⟩ := e
  split at e
  · simp only [ends_bind, ends_modify, ends_reserve, ends_emitInt] at e
    obtain ⟨_, _, rfl, _, _, rfl, _, _, rfl, _, _, rfl, e⟩ := e
    exact ⟨_, e⟩
  · simp only [ends_bind, ends_reserve, ends_emitInt] at e
    obtain ⟨_, _, rfl, _, _, rfl, _, _, rfl, e⟩ := e
    exact ⟨g.objects, e⟩

theorem ends_function {r : String} (e : Ends (generate (.function name r ps body)) g () g') :
    ∃ g₁ g₂ g₃ g₄, Ends (declareParameters name ps) (g.enterFunction name) () g₁ ∧
      Ends (storeParameters name ps)
        ((g₁.push (.instruction 0 (.int 0))).fill g.length Op.store (g₁.length + 1)) () g₂ ∧
      Ends (generateAll body) g₂ () g₃ ∧ Ends closeFunction g₃ () g₄ ∧
      g' = g₄.fill g₁.length Op.jump g₄.length ∧
      tasksOf (.function name r ps body) g = allTasks body g₂ := by
  simp only [generate, ends_bind, ends_here, ends_reserve, ends_emitInt, ends_patch] at e
  obtain ⟨_, g, ⟨rfl, rfl⟩, _, _, rfl, _, _, rfl, _, _, rfl, _, g₁, e₁, _, _, ⟨rfl, rfl⟩, _, _,
    rfl, _, _, ⟨rfl, rfl⟩, _, _, rfl, _, g₂, e₂, _, g₃, e₃, _, g₄, e₄, _, _, ⟨rfl, rfl⟩, rfl⟩ := e
  refine ⟨_, g₂, g₃, _, e₁, e₂, e₃, e₄, rfl, ?_⟩
  rw [tasksOf, after_functionHead e₁ e₂]

/-- The steps of a conditional behind its last block. -/
def closeConditional (test : Nat) (thenBlock : List Node) (bs : List Branch) (tests : List Nat) :
    Gen Unit := do
  append (.label "To replace ELSE")
  let last := (← here) - 1
  let ends ← generateBranches bs tests
  patch test Op.jumpIf (← here)
  generateAll thenBlock
  let finish ← here
  patch last Op.jump finish
  ends.forM fun e => patch e Op.jump finish

theorem generate_conditional (c : Node) (thenBlock : List Node) (bs : List Branch)
    (elseBlock : Option (List Node)) :
    generate (.conditional c thenBlock bs elseBlock) = (do
      generate c
      let test ← here
      append (.label "To replace IF")
      let tests ← generateTests bs
      elseCode elseBlock
      closeConditional test thenBlock bs tests) := by
  cases elseBlock with
  | none =>
    simp only [elseCode, pure_bind]
    rw [generate]
    rfl
  | some ss =>
    rw [generate]
    rfl

theorem ends_conditional {thenBlock : List Node} {bs : List Branch} {elseBlock : Option (List Node)}
    (e : Ends (generate (.conditional c thenBlock bs elseBlock)) g () g') :
    ∃ g₁ tests g₂ g₃ ends g₄ g₅, Ends (generate c) g () g₁ ∧
      Ends (generateTests bs) (g₁.push (.label "To replace IF")) tests g₂ ∧
      Ends (elseCode elseBlock) g₂ () g₃ ∧
      Ends (generateBranches bs tests) (g₃.push (.label "To replace ELSE")) ends g₄ ∧
      Ends (generateAll thenBlock) (g₄.fill g₁.length Op.jumpIf g₄.length) () g₅ ∧
      Ends (ends.forM fun i => patch i Op.jump g₅.length) (g₅.fill g₃.length Op.jump g₅.length)
        () g' ∧
      tasksOf (.conditional c thenBlock bs elseBlock) g =
        ⟨c, g⟩ :: testTasks bs (g₁.push (.label "To replace IF")) ++ elseTasks elseBlock g₂ ++
          branchTasks bs tests (g₃.push (.label "To replace ELSE")) ++
          allTasks thenBlock (g₄.fill g₁.length Op.jumpIf g₄.length) := by
  simp only [generate_conditional, closeConditional, ends_bind, ends_here, ends_append,
    ends_patch] at e
  obtain ⟨_, g₁, e₁, _, _, ⟨rfl, rfl⟩, _, _, rfl, tests, g₂, e₂, _, g₃, e₃, _, _, rfl, _, _,
    ⟨rfl, rfl⟩, ends, g₄, e₄, _, _, ⟨rfl, rfl⟩, _, _, rfl, _, g₅, e₅, _, _, ⟨rfl, rfl⟩, _, _, rfl,
    e₆⟩ := e
  refine ⟨_, tests, g₂, g₃, ends, _, _, e₁, e₂, e₃, e₄, e₅, e₆, ?_⟩
  simp only [tasksOf, e₁.after_eq, e₂.after_eq, e₂.result_eq, e₃.after_eq, e₄.after_eq,
    Option.getD_some]

/-- The tasks of a node that comes to its end are those of the nodes it turns to. -/
theorem map_tasksOf (e : Ends (generate n) g () g') : (tasksOf n g).map Task.node = n.turns := by
  cases n with
  | conditional c thenBlock bs elseBlock =>
    obtain ⟨g₁, tests, g₂, g₃, ends, g₄, g₅, -, e₂, -, -, -, -, ht⟩ := ends_conditional e
    rw [ht]
    simp [Node.turns, length_of_generateTests e₂]
  | _ => exact map_tasksOf_of_ne (by simp)

end Gen

end StackLang
