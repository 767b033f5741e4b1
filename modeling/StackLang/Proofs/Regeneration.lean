import StackLang.Proofs.Task

/-!
# Generating again

Generation changes the tree it is given: the fields of a record declaration get the types that are
stored for them. It changes the declarations that it comes to, and it comes to no more of them once
a fault has stopped it. A type and the type that is stored for it have the same number, and nothing
else of a field's type goes into the code.

* `Node.generated`: a node as generation leaves it, if it comes there with a certain generator;
* `Gen.generate_generated`: a node has the same code as what generation leaves of it;
* `generation_repeats`: a second generator does with the changed program what the first one has done
  with the program, be it code or a fault.
-/

namespace StackLang

open Operand

/-- The type that is stored for the type of a field. -/
def storedType (type : String) : String :=
  if type = "BOOL" then "INT"
  else if type = "STRING" ∨ holds "[]" type then "ARRAY"
  else if type ∈ ["INT", "FLOAT", "ARRAY", "OBJ"] then type
  else "OBJ"

/-- A field with the type that is stored for it. -/
def Parameter.stored (p : Parameter) : Parameter := { p with type := storedType p.type }

namespace Gen

/-- Where a step leads. There is no such generator if generation has stopped before the step or
    stops in it. -/
def past {α : Type} (a : Gen α) (g : Option Generator) : Option Generator :=
  g.bind fun g => (result? a g).map fun _ => after a g

/-- What comes before the index of an access. -/
def objectCode : Operand → Gen Unit
  | .node (.member o a i) => generate (.member o a i)
  | o => do emitInt Op.load (← addressOf o)

end Gen

open Gen

mutual

/-- The node as generation leaves it that comes to it with this generator, or does not come to it.
    Each part is changed from where the steps before it lead. -/
def Node.generated : Node → Option Generator → Node
  | .binary op a b, g => .binary op (a.generated g) (generatedOption b (past (generate a) g))
  | .listLiteral k xs, g => .listLiteral k (if holds "[]" k then generatedReversed xs g else xs)
  | .call f xs o, g =>
    .call f (generatedReversed xs g) (o.generated (past (generateReversed xs) g))
  | .create r xs, g => .create r (generatedFields r xs g)
  | .member o a indexed, g =>
    .member (o.generatedObject g)
      (if indexed then a.generatedIndex Node.isUnary (past (objectCode o) g) else a) indexed
  | .cast t s x, g => .cast t s (x.generated g)
  | .declare n t v, g =>
    .declare n t (generatedOption v (past (do reserve n t; noteObject n v) g))
  | .function name r ps body, g =>
    .function name r ps (generatedAll body (past (functionHead name ps) g))
  | .record n fs, g => .record n (if g.isSome then fs.map Parameter.stored else fs)
  | .assign t v, g => .assign (t.generatedTarget (past (generate v) g)) (v.generated g)
  | .conditional c thenBlock bs elseBlock, g =>
    let test := (past (generate c) g).elim 0 Generator.length
    let g₁ := past (do generate c; append (.label "To replace IF")) g
    let tests := (g₁.bind (result? (generateTests bs))).getD []
    let g₂ := past (generateTests bs) g₁
    let g₃ := past (do elseCode elseBlock; append (.label "To replace ELSE")) g₂
    let g₄ := past (do let _ ← generateBranches bs tests; patch test Op.jumpIf (← here)) g₃
    .conditional (c.generated g) (generatedAll thenBlock g₄) (generatedBranches bs tests g₁ g₃)
      (match elseBlock with
        | none => none
        | some ss => some (generatedAll ss g₂))
  | .whileLoop c body, g =>
    let g₁ := g.map (Generator.flag · true)
    .whileLoop (c.generated g₁) (generatedAll body (past (loopHead c) g₁))
  | .forLoop v c body, g =>
    let g₁ := g.map (Generator.flag · true)
    let g₂ := past (generateOperand v) g₁
    .forLoop (v.generated g₁) (c.generated g₂) (generatedAll body (past (loopHead c) g₂))
  | .giveBack v, g => .giveBack (generatedOption v g)
  | n, _ => n

def generatedOption : Option Node → Option Generator → Option Node
  | none, _ => none
  | some n, g => some (n.generated g)

def Operand.generated : Operand → Option Generator → Operand
  | .atom a, _ => .atom a
  | .node n, g => .node (n.generated g)

/-- The object of an access. -/
def Operand.generatedObject : Operand → Option Generator → Operand
  | .node (.member o a i), g => .node ((Node.member o a i).generated g)
  | o, _ => o

/-- An index, unless it stands in the instruction itself. -/
def Operand.generatedIndex (inPlace : Node → Bool) : Operand → Option Generator → Operand
  | .atom a, _ => .atom a
  | .node n, g => .node (if inPlace n then n else n.generated g)

/-- The way to an assigned element. -/
def Operand.generatedSteps : Operand → Option Generator → Operand
  | .node (.member o a true), g =>
    .node (.member (o.generatedSteps (past (indexCode isConstant Op.listAccess a) g))
      (a.generatedIndex isConstant g) true)
  | o, _ => o

/-- The target of an assignment. -/
def Operand.generatedTarget : Operand → Option Generator → Operand
  | .node (.member o a true), g =>
    let h := past (do emitInt Op.load (← addressOf (indexedBase o))) g
    .node (.member (o.generatedSteps h)
      (a.generatedIndex isConstant (past (generateSetters o) h)) true)
  | o, _ => o

/-- Statements, as generation leaves them. -/
def generatedAll : List Node → Option Generator → List Node
  | [], _ => []
  | n :: ns, g => n.generated g :: generatedAll ns (past (generate n) g)

/-- Nodes that generation comes to from the last to the first. -/
def generatedReversed : List Node → Option Generator → List Node
  | [], _ => []
  | n :: ns, g => n.generated (past (generateReversed ns) g) :: generatedReversed ns g

/-- The values of a new record. -/
def generatedFields (record : Atom) : List Node → Option Generator → List Node
  | [], _ => []
  | n :: ns, g =>
    n.generated (g.map fun g => { g with heap := g.heap ++ ["DATA-" ++ record.shown] }) ::
      generatedFields record ns (past (generateFields record [n]) g)

/-- The further conditions: generation comes to their tests with `g`, and to their blocks with
    `h`. -/
def generatedBranches : List Branch → (tests : List Nat) → (g h : Option Generator) → List Branch
  | [], _, _, _ => []
  | .mk c body :: bs, tests, g, h =>
    .mk (c.generated g) (generatedAll body h) ::
      generatedBranches bs tests.tail (past (generateTests [.mk c body]) g)
        (past (generateBranches [.mk c body] tests) h)

end

/-! ### Records -/

/-- A type has the number of the type that is stored for it. -/
theorem fieldNumber_storedType (type : String) :
    fieldNumber (storedType type) = fieldNumber type := by
  by_cases hbool : type = "BOOL"
  · subst hbool
    decide
  by_cases harray : type = "STRING" ∨ holds "[]" type
  · rw [storedType, if_neg hbool, if_pos harray, fieldNumber.eq_def type, if_neg hbool,
      if_pos harray]
    decide
  rw [storedType, if_neg hbool, if_neg harray]
  split
  · rfl
  · -- no type with a number of its own is left
    rename_i hother
    simp only [List.mem_cons, List.not_mem_nil, or_false, not_or] at hother
    obtain ⟨hint, hfloat, hlist, -⟩ := hother
    rw [fieldNumber.eq_def type, if_neg hbool, if_neg harray, if_neg hint, if_neg hfloat,
      if_neg hlist]
    decide

namespace Gen

theorem recordCode_stored (name : Atom) (fs : List Parameter) :
    recordCode name (fs.map Parameter.stored) = recordCode name fs := by
  have hfields : fieldCode name (fs.map Parameter.stored) = fieldCode name fs := by
    induction fs with
    | nil => rfl
    | cons p fs ih =>
      simp only [List.map_cons, fieldCode, ih, Parameter.stored, fieldNumber_storedType]
  have hnames : (fs.map Parameter.stored).map Parameter.name = fs.map Parameter.name := by
    rw [List.map_map]
    rfl
  rw [recordCode, recordCode, hfields, List.length_map, hnames]

/-! ### What generation asks of a tree -/

section

variable {g : Option Generator}

theorem isUnary_generated (n : Node) : (n.generated g).isUnary = n.isUnary := by
  cases n <;> simp only [Node.generated, Node.isUnary]

theorem isConstant_generated (n : Node) : isConstant (n.generated g) = isConstant n := by
  cases n <;> simp only [Node.generated, isConstant]

theorem indexedBase_generatedSteps (o : Operand) :
    indexedBase (o.generatedSteps g) = indexedBase o := by
  fun_induction indexedBase o generalizing g with
  | case1 o a ih => rw [generatedSteps, indexedBase, ih]
  | case2 o h =>
    rw [generatedSteps]
    · rw [indexedBase]
      exact h
    · exact h

theorem length_generatedReversed (ns : List Node) :
    (generatedReversed ns g).length = ns.length := by
  induction ns with
  | nil => simp only [generatedReversed, List.length_nil]
  | cons n ns ih => simp only [generatedReversed, List.length_cons, ih]

theorem noteObject_generated (x : Atom) (v : Option Node) :
    noteObject x (generatedOption v g) = noteObject x v := by
  cases v with
  | none => simp only [generatedOption]
  | some n => cases n <;> simp only [generatedOption, Node.generated, noteObject]

theorem counterName_generated (o : Operand) : counterName (o.generated g) = counterName o := by
  cases o with
  | atom a => simp only [generated]
  | node n =>
    cases n with
    | assign t v =>
      cases t with
      | atom a =>
        simp only [generated, Node.generated, generatedTarget, counterName]
      | node m =>
        -- a target that is a node stays one
        obtain ⟨m', hm⟩ :
            ∃ m', (node m).generatedTarget (past (generate v) g) = .node m' := by
          unfold generatedTarget
          split
          · exact ⟨_, rfl⟩
          · exact ⟨m, rfl⟩
        rw [generated, Node.generated, hm]
        rfl
    | _ => simp only [generated, Node.generated, counterName]

end

/-! ### The same code -/

mutual

/-- What generation leaves of a node has the code of the node. -/
theorem generate_generated (n : Node) (g : Option Generator) :
    generate (n.generated g) = generate n := by
  cases n with
  | binary op a b =>
    simp only [Node.generated, generate, generate_generated a, generateOption_generated b]
  | listLiteral k xs =>
    rw [Node.generated]
    split
    · rename_i hk
      rw [generate_list hk, generate_list hk, generateReversed_generated xs,
        length_generatedReversed]
    · rfl
  | call f xs o =>
    cases o with
    | atom a =>
      simp only [Node.generated, generated, generate, generateReversed_generated xs]
    | node m =>
      simp only [Node.generated, generated, generate, generateReversed_generated xs,
        generate_generated m]
  | create r xs => simp only [Node.generated, generate, generateFields_generated r xs]
  | member o a indexed =>
    have hindex := indexCode_generated isUnary_generated Op.listAccess a (past (objectCode o) g)
    have hplain (ho : ∀ o' a' i', o ≠ .node (.member o' a' i')) :
        generate ((Node.member o a indexed).generated g) = generate (.member o a indexed) := by
      rw [Node.generated, generatedObject, generate_member_plain ho,
        generate_member_plain ho]
      · split
        · rw [hindex]
        · rfl
      · exact ho
    cases o with
    | atom x => exact hplain (by simp)
    | node m =>
      cases m with
      | member o' a' i' =>
        have hobject := generate_generated (.member o' a' i') g
        rw [Node.generated] at hobject
        rw [Node.generated, generatedObject, Node.generated, generate_member_nested,
          generate_member_nested, hobject]
        split
        · rw [hindex]
        · rfl
      | _ => exact hplain (by simp)
  | cast t s x => simp only [Node.generated, generate, generate_generated x]
  | declare x t v =>
    rw [Node.generated, generate_declare, generate_declare, noteObject_generated]
    cases v with
    | none => simp only [generatedOption]
    | some m => simp only [generatedOption, initialCode, generate_generated m]
  | function f r ps body => simp only [Node.generated, generate, generateAll_generated body]
  | record x fs =>
    rw [Node.generated]
    split
    · simp only [generate, recordCode_stored]
    · rfl
  | assign t v =>
    -- only the way to an element has nodes that are generated
    cases t with
    | atom a => simp only [Node.generated, generatedTarget, generate, generate_generated v]
    | node m =>
      cases m with
      | member o a i =>
        cases i with
        | true =>
          rw [Node.generated, generatedTarget, generate_assign_element,
            generate_assign_element, generate_generated v, indexedBase_generatedSteps,
            generateSetters_generated o, indexCode_generated isConstant_generated _ a]
        | false =>
          simp only [Node.generated, generatedTarget, generate, generate_generated v]
      | _ => simp only [Node.generated, generatedTarget, generate, generate_generated v]
  | conditional c thenBlock bs elseBlock =>
    cases elseBlock with
    | none =>
      simp only [Node.generated, generate, generate_generated c, generateTests_generated bs,
        generateBranches_generated bs, generateAll_generated thenBlock]
    | some ss =>
      simp only [Node.generated, generate, generate_generated c, generateTests_generated bs,
        generateAll_generated ss, generateBranches_generated bs, generateAll_generated thenBlock]
  | whileLoop c body =>
    simp only [Node.generated, generate, generate_generated c, generateAll_generated body]
  | forLoop v c body =>
    simp only [Node.generated, generate, generateOperand_generated v, counterName_generated,
      generate_generated c, generateAll_generated body]
  | giveBack v => simp only [Node.generated, generate, generateOption_generated v]
  | _ => simp only [Node.generated]

theorem generateOption_generated (v : Option Node) (g : Option Generator) :
    generateOption (generatedOption v g) = generateOption v := by
  cases v with
  | none => simp only [generatedOption]
  | some n => simp only [generatedOption, generateOption, generate_generated n]

theorem generateOperand_generated (o : Operand) (g : Option Generator) :
    generateOperand (o.generated g) = generateOperand o := by
  cases o with
  | atom a => simp only [generated]
  | node n => simp only [generated, generateOperand, generate_generated n]

theorem indexCode_generated {p : Node → Bool} (hp : ∀ {g} (n : Node), p (n.generated g) = p n)
    (code : Nat) (o : Operand) (g : Option Generator) :
    indexCode p code (o.generatedIndex p g) = indexCode p code o := by
  cases o with
  | atom a => simp only [generatedIndex]
  | node n =>
    rw [generatedIndex]
    split
    · rfl
    · rename_i hn
      simp only [indexCode, hp, if_neg hn, generate_generated n]

theorem generateSetters_generated (o : Operand) (g : Option Generator) :
    generateSetters (o.generatedSteps g) = generateSetters o := by
  cases o with
  | atom a => simp only [generatedSteps]
  | node n =>
    cases n with
    | member o a i =>
      cases i with
      | true =>
        rw [generatedSteps, generateSetters_member, generateSetters_member,
          generateSetters_generated o, indexCode_generated isConstant_generated _ a]
      | false => simp only [generatedSteps]
    | _ => simp only [generatedSteps]

theorem generateAll_generated (ns : List Node) (g : Option Generator) :
    generateAll (generatedAll ns g) = generateAll ns := by
  cases ns with
  | nil => simp only [generatedAll]
  | cons n ns =>
    simp only [generatedAll, generateAll, generate_generated n, generateAll_generated ns]

theorem generateReversed_generated (ns : List Node) (g : Option Generator) :
    generateReversed (generatedReversed ns g) = generateReversed ns := by
  cases ns with
  | nil => simp only [generatedReversed]
  | cons n ns =>
    simp only [generatedReversed, generateReversed, generate_generated n,
      generateReversed_generated ns]

theorem generateFields_generated (r : Atom) (ns : List Node) (g : Option Generator) :
    generateFields r (generatedFields r ns g) = generateFields r ns := by
  cases ns with
  | nil => simp only [generatedFields]
  | cons n ns =>
    simp only [generatedFields, generateFields, generate_generated n, generateFields_generated r ns]

theorem generateTests_generated (bs : List Branch) (tests : List Nat) (g h : Option Generator) :
    generateTests (generatedBranches bs tests g h) = generateTests bs := by
  cases bs with
  | nil => simp only [generatedBranches]
  | cons b bs =>
    cases b with
    | mk c body =>
      simp only [generatedBranches, generateTests, generate_generated c, generateTests_generated bs]

theorem generateBranches_generated (bs : List Branch) (tests places : List Nat)
    (g h : Option Generator) :
    generateBranches (generatedBranches bs tests g h) places = generateBranches bs places := by
  cases bs with
  | nil => simp only [generatedBranches]
  | cons b bs =>
    cases b with
    | mk c body =>
      cases places <;>
        simp only [generatedBranches, generateBranches, generateAll_generated body,
          generateBranches_generated bs]

end

end Gen

/-- A new generator, given the program that another one has changed, comes to the same end as that
    one: it has the same code, addresses, memory, heap entries and records, and the same fault if
    there was one. -/
theorem generation_repeats (program : List Node) :
    ({} : Generator).run (generateAll (generatedAll program (some {}))) =
      ({} : Generator).run (generateAll program) := by
  rw [generateAll_generated]

-- the name is not known, so the declaration behind it stays as it was
example : let unknown := Node.literal "VARIABLE" (.text "x")
    generatedAll [.record (.text "A") [⟨"BOOL", .text "b"⟩], unknown,
      .record (.text "B") [⟨"BOOL", .text "b"⟩]] (some {}) =
    [.record (.text "A") [⟨"INT", .text "b"⟩], unknown,
      .record (.text "B") [⟨"BOOL", .text "b"⟩]] := rfl

end StackLang
