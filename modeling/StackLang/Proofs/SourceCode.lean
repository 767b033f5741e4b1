import StackLang.Proofs.Loop
import StackLang.Proofs.Source

/-!
# The code of integer programs

The code of an integer program in closed form. Variables lie four bytes apart in the order
of their declarations (`Source.address`), and every jump goes to a place that the sizes of
the parts determine, so nothing is left to fill in.

The generator writes a conditional with places kept open and fills them in later, so the
statements here speak of the slots behind a generator before and after a step
(`Source.Lays`).

* `Source.Stmt.lays`: the generator writes this code for a statement;
* `Source.Top.ends`: it does so for a statement outside of blocks, and knows the variable
  that it declares;
* `Source.generateProgram_of_wellScoped`: a program in which every name is declared before
  it is used has this code.
-/

namespace StackLang

open Gen Generator

namespace Source

/-! ### Code -/

/-- Instructions with integer arguments. -/
abbrev Code := List (Nat × Int)

/-- The slots of the instructions. -/
def slots (c : Code) : List Slot := c.map fun i => .instruction i.1 (.int i.2)

@[simp] theorem slots_nil : slots [] = [] := rfl

@[simp] theorem slots_cons (i : Nat × Int) (c : Code) :
    slots (i :: c) = .instruction i.1 (.int i.2) :: slots c := rfl

@[simp] theorem slots_append (c d : Code) : slots (c ++ d) = slots c ++ slots d :=
  List.map_append

@[simp] theorem length_slots (c : Code) : (slots c).length = c.length := List.length_map ..

/-- The address of a variable, if these are the names in the order of their
    declarations. -/
def address (names : List String) (v : String) : Nat := 4 * names.idxOf v

/-- The instruction of an operator. -/
def Arithmetic.code : Arithmetic → Nat
  | add => 0x01
  | sub => 0x02
  | mul => 0x03
  | eq => 0x09
  | ne => 0x0A
  | lt => 0x0B
  | gt => 0x0C
  | le => 0x0D
  | ge => 0x0E

theorem Arithmetic.operatorCode?_symbol (op : Arithmetic) :
    operatorCode? op.symbol = some op.code := by
  cases op <;> rfl

/-- The instruction of an operator. -/
def Junction.code : Junction → Nat
  | and => 0x06
  | or => 0x07

theorem Junction.operatorCode?_symbol (op : Junction) :
    operatorCode? op.symbol = some op.code := by
  cases op <;> rfl

namespace Expr

variable {l : Bool}

/-- The code of an expression: its operands, then its operator. -/
def code (names : List String) : Expr l → Code
  | number _ n _ => [(Op.store, n.toInt)]
  | name v => [(Op.load, (address names v : Int))]
  | arithmetic op a b => a.code names ++ b.code names ++ [(op.code, 0)]
  | junction _ op a b => a.code names ++ b.code names ++ [(op.code, 0)]
  | negation _ a => a.code names ++ [(Op.not, 0)]

/-- How many instructions an expression has. -/
def size : Expr l → Nat
  | number .. => 1
  | name _ => 1
  | arithmetic _ a b => a.size + b.size + 1
  | junction _ _ a b => a.size + b.size + 1
  | negation _ a => a.size + 1

@[simp] theorem length_code (names : List String) (e : Expr l) : (e.code names).length = e.size := by
  induction e with
  | number | name => rfl
  | arithmetic _ a b iha ihb | junction _ _ a b iha ihb =>
    simp [code, size, iha, ihb]
    omega
  | negation _ a ih => simp [code, size, ih]

end Expr

mutual

/-- How many instructions a statement has. -/
def Stmt.size : Stmt → Nat
  | .assign _ e => e.size + 1
  | .conditional c b rest =>
    c.size + 1 + rest.testSize + rest.lastSize + 1 + rest.blockSize + b.size
  | .whileLoop c b => c.size + 2 + b.size + 1

/-- How many instructions a block has. -/
def Block.size : Block → Nat
  | .nil => 0
  | .cons s b => s.size + b.size

/-- How many instructions the further tests have. -/
def Chain.testSize : Chain → Nat
  | .further c _ rest => c.size + 1 + rest.testSize
  | _ => 0

/-- How many instructions the last block has. -/
def Chain.lastSize : Chain → Nat
  | .absent => 0
  | .otherwise b => b.size
  | .further _ _ rest => rest.lastSize

/-- How many instructions the blocks of the further conditions have. -/
def Chain.blockSize : Chain → Nat
  | .further _ b rest => b.size + 1 + rest.blockSize
  | _ => 0

end

mutual

/-- The code of a statement at a place. A conditional has its tests first, then the last
    block, the blocks of the further conditions, and the first block. -/
def Stmt.code (names : List String) (start : Nat) : Stmt → Code
  | .assign v e => e.code names ++ [(Op.storeMem, (address names v : Int))]
  | .conditional c b rest =>
    let last := start + c.size + 1 + rest.testSize
    let blocks := last + rest.lastSize + 1
    let first := blocks + rest.blockSize
    c.code names ++ (Op.jumpIf, (first : Int)) :: rest.testCode names blocks ++
      rest.lastCode names last ++ (Op.jump, ((first + b.size : Nat) : Int)) ::
      rest.blockCode names (first + b.size) blocks ++ b.code names first
  | .whileLoop c b =>
    let body := start + c.size + 2
    c.code names ++ (Op.not, 0) :: (Op.jumpIf, ((body + b.size + 1 : Nat) : Int)) ::
      b.code names body ++ [(Op.jump, (start : Int))]

/-- The code of a block at a place. -/
def Block.code (names : List String) (start : Nat) : Block → Code
  | .nil => []
  | .cons s b => s.code names start ++ b.code names (start + s.size)

/-- The code of the further tests, if their blocks are at a given place. The jump of a
    test goes behind its block. -/
def Chain.testCode (names : List String) (blocks : Nat) : Chain → Code
  | .further c b rest =>
    c.code names ++ (Op.jumpIf, ((blocks + b.size : Nat) : Int)) ::
      rest.testCode names (blocks + b.size + 1)
  | _ => []

/-- The code of the last block at a place. -/
def Chain.lastCode (names : List String) (start : Nat) : Chain → Code
  | .absent => []
  | .otherwise b => b.code names start
  | .further _ _ rest => rest.lastCode names start

/-- The code of the blocks of the further conditions at a place, if the conditional ends at
    `finish`. -/
def Chain.blockCode (names : List String) (finish start : Nat) : Chain → Code
  | .further _ b rest =>
    b.code names start ++ (Op.jump, (finish : Int)) ::
      rest.blockCode names finish (start + b.size + 1)
  | _ => []

end

mutual

@[simp] theorem Stmt.length_code (names : List String) (start : Nat) :
    (s : Stmt) → (s.code names start).length = s.size
  | .assign v e => by simp [Stmt.code, Stmt.size]
  | .conditional c b rest => by
    have hb := b.length_code names
    have ht := rest.length_testCode names
    have hl := rest.length_lastCode names
    have hk := rest.length_blockCode names
    simp [Stmt.code, Stmt.size, hb, ht, hl, hk]
    omega
  | .whileLoop c b => by
    have hb := b.length_code names
    simp [Stmt.code, Stmt.size, hb]
    omega

@[simp] theorem Block.length_code (names : List String) (start : Nat) :
    (b : Block) → (b.code names start).length = b.size
  | .nil => rfl
  | .cons s b => by
    have hs := s.length_code names
    have hb := b.length_code names
    simp [Block.code, Block.size, hs, hb]

@[simp] theorem Chain.length_testCode (names : List String) (blocks : Nat) :
    (r : Chain) → (r.testCode names blocks).length = r.testSize
  | .absent | .otherwise _ => rfl
  | .further c b rest => by
    have hr := rest.length_testCode names
    simp [Chain.testCode, Chain.testSize, hr]
    omega

@[simp] theorem Chain.length_lastCode (names : List String) (start : Nat) :
    (r : Chain) → (r.lastCode names start).length = r.lastSize
  | .absent => rfl
  | .otherwise b => b.length_code names start
  | .further _ _ rest => rest.length_lastCode names start

@[simp] theorem Chain.length_blockCode (names : List String) (finish start : Nat) :
    (r : Chain) → (r.blockCode names finish start).length = r.blockSize
  | .absent | .otherwise _ => rfl
  | .further _ b rest => by
    have hb := b.length_code names
    have hr := rest.length_blockCode names finish
    simp [Chain.blockCode, Chain.blockSize, hb, hr]
    omega

end

/-! ### Statements outside of blocks -/

namespace Top

/-- How many instructions a statement has. -/
def size : Top → Nat
  | stmt s => s.size
  | declare _ none => 2
  | declare _ (some e) => e.size + 1
  | forLoop _ e c b => e.size + 1 + (c.size + 2 + b.size + 5)

/-- The code of a statement at a place. A loop that counts has the declaration of its
    counter first, and counts behind its body. -/
def code (names : List String) (start : Nat) : Top → Code
  | stmt s => s.code names start
  | declare _ none => [(Op.store, 0), (Op.storeMem, -1)]
  | declare _ (some e) => e.code names ++ [(Op.storeMem, -1)]
  | forLoop v e c b =>
    let names' := names ++ [v]
    let test := start + e.size + 1
    let body := test + c.size + 2
    e.code names ++ (Op.storeMem, -1) :: c.code names' ++ (Op.not, 0) ::
      (Op.jumpIf, ((body + b.size + 5 : Nat) : Int)) :: b.code names' body ++
      [(Op.load, (address names' v : Int)), (Op.store, 1), (Op.add, 0),
        (Op.storeMem, (address names' v : Int)), (Op.jump, (test : Int))]

@[simp] theorem length_code (names : List String) (start : Nat) (t : Top) :
    (t.code names start).length = t.size := by
  cases t with
  | stmt s => exact s.length_code names start
  | declare v e => cases e <;> simp [code, size]
  | forLoop v e c b =>
    simp [code, size]
    omega

end Top

/-- The code of a program at a place, if these names are declared before it. -/
def programCode (names : List String) (start : Nat) : List Top → Code
  | [] => []
  | t :: ts => t.code names start ++ programCode (names ++ t.names) (start + t.size) ts

end Source

/-! ### Slots that are written and filled -/

namespace Generator

variable (g : Generator)

@[simp] theorem flag_identifiers (b : Bool) : (g.flag b).identifiers = g.identifiers := rfl

@[simp] theorem push_flag (b : Bool) (s : Slot) : (g.flag b).push s = (g.push s).flag b := rfl

@[simp] theorem fill_flag (b : Bool) (i c t : Nat) :
    (g.flag b).fill i c t = (g.fill i c t).flag b := rfl

/-- Writing slots changes nothing but the code and its length. -/
theorem pushAll_eq (ss : List Slot) :
    g.pushAll ss = { g with code := g.code ++ ss.toArray, length := g.length + ss.length } := by
  induction ss generalizing g with
  | nil => simp
  | cons s ss ih =>
    rw [pushAll_cons, ih]
    simp [push]
    omega

@[simp] theorem pushAll_flag (b : Bool) (ss : List Slot) :
    (g.flag b).pushAll ss = (g.pushAll ss).flag b := by
  simp only [pushAll_eq, flag]

@[simp] theorem pushAll_identifiers (ss : List Slot) :
    (g.pushAll ss).identifiers = g.identifiers := by
  rw [pushAll_eq]

@[simp] theorem pushAll_memory (ss : List Slot) : (g.pushAll ss).memory = g.memory := by
  rw [pushAll_eq]

theorem pushAll_push (ss : List Slot) (s : Slot) :
    (g.pushAll ss).push s = g.pushAll (ss ++ [s]) := by
  rw [pushAll_append]
  rfl

variable {g}

/-- A slot among those written last gets its instruction. -/
theorem fill_pushAll (hg : g.code.size = g.length) (ss ss' : List Slot) (s : Slot) (c t : Nat) :
    (g.pushAll (ss ++ s :: ss')).fill (g.length + ss.length) c t =
      g.pushAll (ss ++ .instruction c (.int t) :: ss') := by
  simp only [pushAll_eq, fill, ← hg, Array.setIfInBounds_append_right (Nat.le_add_right _ _)]
  simp

end Generator

namespace Source

variable {g : Generator} {names : List String}

/-- The generator knows these variables and no other ones that take room, no exit waits, and
    the length is the number of slots. -/
structure Knows (g : Generator) (names : List String) : Prop where
  address : ∀ v ∈ names, g.identifiers.get? (.text v) = some (address names v)
  memory : g.memory = 4 * names.length
  idle : g.pending.2 = .none
  size : g.code.size = g.length

namespace Knows

variable {g : Generator} {names : List String}

theorem initial : Knows {} [] := ⟨by simp, rfl, rfl, rfl⟩

theorem flag (h : Knows g names) (b : Bool) : Knows (g.flag b) names :=
  ⟨h.address, h.memory, h.idle, h.size⟩

theorem pushAll (h : Knows g names) (ss : List Slot) : Knows (g.pushAll ss) names := by
  refine ⟨?_, ?_, ?_, ?_⟩
  · simpa using h.address
  · simpa using h.memory
  · simpa using h.idle
  · simp [pushAll_eq, h.size]

/-- A new variable gets the next address. -/
theorem reserved (h : Knows g names) {v : String} (hv : v ∉ names) :
    Knows (g.reserved (.text v) "INT") (names ++ [v]) := by
  refine ⟨fun w hw => ?_, ?_, h.idle, h.size⟩
  · rw [Generator.reserved, Table.get?_put]
    by_cases hwv : v = w
    · subst hwv
      rw [if_pos (by simp [Atom.same]), h.memory, Source.address, List.idxOf_append, if_neg hv]
      simp
    · have hmem : w ∈ names := by simpa [Ne.symm hwv] using hw
      rw [if_neg (by simpa [Atom.same, Atom.key] using hwv), h.address w hmem, Source.address,
        Source.address, List.idxOf_append, if_pos hmem]
  · simp [Generator.reserved, h.memory]
    omega

theorem settled_eq (h : Knows g names) {e : Exit} (he : e ≠ .none) : g.settled e = g := by
  rw [settled, if_neg]
  rw [h.idle]
  exact he.symm

end Knows

theorem literalCode_variable (a : Atom) :
    literalCode "VARIABLE" a = (do emitInt Op.load (← Gen.address a)) := rfl

/-- The generator writes the code of an expression. -/
theorem Expr.ends {l : Bool} (e : Expr l) (h : Knows g names) (hu : e.uses names = true) :
    Ends (generate e.node) g () (g.pushAll (slots (e.code names))) := by
  induction e generalizing g with
  | number a n ha =>
    simp only [node, generate, literalCode, ends_bind, ends_lift, ends_emitInt]
    exact ⟨_, _, ⟨ha, rfl⟩, rfl⟩
  | name v =>
    have hv : v ∈ names := by simpa [uses] using hu
    simp only [node, generate, literalCode_variable, ends_bind, ends_address, ends_emitInt]
    exact ⟨_, _, ⟨h.address v hv, rfl⟩, rfl⟩
  | arithmetic op a b iha ihb | junction _ op a b iha ihb =>
    obtain ⟨ha, hb⟩ := Bool.and_eq_true_iff.1 hu
    simp only [node, generate, generateOption, op.operatorCode?_symbol, ends_bind, ends_emitInt]
    refine ⟨(), _, iha h ha, (), _, ihb (h.pushAll _) hb, ?_⟩
    simp [code, pushAll_append]
  | negation _ a ih =>
    have hop : operatorCode? "not" = some Op.not := rfl
    simp only [node, generate, generateOption, hop, ends_bind, ends_pure, ends_emitInt]
    refine ⟨(), _, ih h hu, (), _, ⟨trivial, rfl⟩, ?_⟩
    simp [code, pushAll_append]

/-! ### Steps behind a generator -/

/-- Behind `g` and the slots `xs`, the step `a` ends with the result `x` and leaves the slots
    `ys`; the flag for loops does not matter. -/
def Lays {α : Type} (g : Generator) (a : Gen α) (xs : List Slot) (x : α) (ys : List Slot) : Prop :=
  ∀ b, ∃ b', Ends a ((g.pushAll xs).flag b) x ((g.pushAll ys).flag b')

section Lays

variable {α β : Type} {g : Generator} {names : List String} {u v w : List Slot}

theorem Lays.bind {a : Gen α} {f : α → Gen β} {x : α} {y : β} (ha : Lays g a u x v)
    (hf : Lays g (f x) v y w) : Lays g (a >>= f) u y w := by
  intro b
  obtain ⟨b₁, h₁⟩ := ha b
  obtain ⟨b₂, h₂⟩ := hf b₁
  exact ⟨b₂, ends_bind.2 ⟨x, _, h₁, h₂⟩⟩

theorem Lays.cast {a : Gen α} {x y : α} (h : Lays g a u x v) (hx : x = y) (hy : v = w) :
    Lays g a u y w :=
  hx ▸ hy ▸ h

theorem Lays.source {a : Gen α} {x : α} (h : Lays g a u x v) (hx : w = u) : Lays g a w x v :=
  hx ▸ h

theorem lays_pure (x : α) : Lays g (pure x) u x u := fun b => ⟨b, ends_pure.2 ⟨rfl, rfl⟩⟩

theorem lays_flag (b : Bool) :
    Lays g (modify fun g => { g with inLoop := b } : Gen Unit) u () u :=
  fun _ => ⟨b, ends_flag.2 rfl⟩

theorem lays_append (s : Slot) : Lays g (append s) u () (u ++ [s]) := by
  intro b
  refine ⟨b, ends_append.2 ?_⟩
  rw [push_flag, pushAll_push]

theorem lays_emitInt (c : Nat) (n : Int) :
    Lays g (emitInt c n) u () (u ++ [.instruction c (.int n)]) :=
  lays_append _

theorem lays_here {n : Nat} (hn : n = g.length + u.length) : Lays g here u n u :=
  fun b => ⟨b, ends_here.2 ⟨by simpa using hn, rfl⟩⟩

theorem Knows.lays_patch (h : Knows g names) (s : Slot) (c t : Nat) {i : Nat}
    (hi : i = g.length + u.length) :
    Lays g (patch i c t) (u ++ s :: v) () (u ++ .instruction c (.int t) :: v) := by
  intro b
  refine ⟨b, ends_patch.2 ?_⟩
  rw [hi, fill_flag, fill_pushAll h.size]

theorem Knows.lays_settle (h : Knows g names) {e : Exit} (he : e ≠ .none) :
    Lays g (settle e) u () u :=
  fun b => ⟨b, ends_settle.2 (((h.pushAll u).flag b).settled_eq he).symm⟩

theorem Knows.lays_address (h : Knows g names) {s : String} (hs : s ∈ names) :
    Lays g (Gen.address (.text s)) u (Source.address names s) u :=
  fun b => ⟨b, ends_address.2 ⟨by simpa using h.address s hs, rfl⟩⟩

/-- The last steps of a loop put the jump back to its start, and fill in the jump of its
    test. -/
theorem Knows.lays_close (h : Knows g names) {s t : Nat} (ht : t = g.length + u.length) :
    Lays g (closeCode s t) (u ++ .bare Op.jumpIf :: v) ()
      (u ++ .instruction Op.jumpIf (.int (t + v.length + 2 : Nat)) ::
        (v ++ [.jumping s])) := by
  have hjump := h.lays_patch (v := v ++ [.jumping s]) (.bare Op.jumpIf)
    Op.jumpIf (t + v.length + 2) ht
  refine (lays_emitInt _ _).bind ((lays_here ?_).bind ((hjump.source ?_).bind
    ((h.lays_settle (by decide)).bind (lays_flag false))))
  · simp
    omega
  · simp

theorem Knows.lays_expr (h : Knows g names) {l : Bool} {e : Expr l} (hu : e.uses names = true) :
    Lays g (generate e.node) u () (u ++ slots (e.code names)) := by
  intro b
  refine ⟨b, ?_⟩
  have := e.ends ((h.pushAll u).flag b) hu
  rwa [pushAll_flag, ← pushAll_append] at this

end Lays

/-! ### The branches of a conditional -/

namespace Chain

variable {g : Generator} {names : List String}

/-- The further tests without the targets of their jumps. -/
def openTests (names : List String) : Chain → List Slot
  | further c _ rest =>
    slots (c.code names) ++ .label "To replace ELIF START" :: rest.openTests names
  | _ => []

/-- Where the jumps of the further tests are, if they start at a place. -/
def places (start : Nat) : Chain → List Nat
  | further c _ rest => (start + c.size) :: rest.places (start + c.size + 1)
  | _ => []

/-- The blocks of the further conditions without the targets of the jumps behind them. -/
def openBlocks (names : List String) (start : Nat) : Chain → List Slot
  | further _ b rest =>
    slots (b.code names start) ++
      .label "To replace ELIF END" :: rest.openBlocks names (start + b.size + 1)
  | _ => []

/-- Where the jumps behind the blocks are, if the blocks start at a place. -/
def ends (start : Nat) : Chain → List Nat
  | further _ b rest => (start + b.size) :: rest.ends (start + b.size + 1)
  | _ => []

@[simp] theorem length_openTests (names : List String) :
    (r : Chain) → (r.openTests names).length = r.testSize
  | absent | otherwise _ => rfl
  | further c b rest => by
    have hr := rest.length_openTests names
    simp [openTests, testSize, hr]
    omega

@[simp] theorem length_openBlocks (names : List String) (start : Nat) :
    (r : Chain) → (r.openBlocks names start).length = r.blockSize
  | absent | otherwise _ => rfl
  | further c b rest => by
    have hr := rest.length_openBlocks names
    simp [openBlocks, blockSize, hr]
    omega

/-- The generator writes the further tests. -/
theorem lays_tests (h : Knows g names) : (r : Chain) → r.uses names = true → {u : List Slot} →
    {n : Nat} → n = g.length + u.length →
      Lays g (generateTests r.branches) u (r.places n) (u ++ r.openTests names)
  | absent, _, xs, _, _ | otherwise _, _, xs, _, _ => (lays_pure []).cast rfl (by simp [openTests])
  | further c b rest, hu, xs, start, hs => by
    obtain ⟨⟨hc, -⟩, hr⟩ := Chain.uses_further.1 hu
    rw [branches, generateTests]
    refine (h.lays_expr hc).bind ((lays_here (n := start + c.size) ?_).bind ((lays_append _).bind
      ((rest.lays_tests h hr (n := start + c.size + 1) ?_).bind ((lays_pure _).cast rfl ?_))))
    · simp
      omega
    · simp
      omega
    · simp [openTests]

/-- The jumps behind the blocks get their target. -/
theorem lays_ends (h : Knows g names) (finish : Nat) :
    (r : Chain) → {u v : List Slot} → {n : Nat} → n = g.length + u.length →
      Lays g ((r.ends n).forM fun e => patch e Op.jump finish)
        (u ++ (r.openBlocks names n ++ v)) ()
        (u ++ (slots (r.blockCode names finish n) ++ v))
  | absent, _, _, _, _ | otherwise _, _, _, _, _ => lays_pure ()
  | further c b rest, xs, ys, start, hs => by
    have hfirst := h.lays_patch (u := xs ++ slots (b.code names start))
      (v := rest.openBlocks names (start + b.size + 1) ++ ys) (.label "To replace ELIF END")
      Op.jump finish (i := start + b.size) (by simp; omega)
    have hrest := rest.lays_ends h finish (v := ys) (n := start + b.size + 1)
      (u := xs ++ slots (b.code names start) ++ [.jumping finish])
      (by simp; omega)
    rw [ends, List.forM]
    exact (hfirst.source (by simp [openBlocks])).bind
      ((hrest.source (by simp)).cast rfl (by simp [blockCode]))

end Chain

theorem generate_assign_atom (a : Atom) (v : Node) :
    generate (.assign (.atom a) v) = (do
      generate v
      emitInt Op.storeMem (← Gen.address a)) := by
  rw [generate]
  · rfl
  all_goals
    intros
    contradiction

mutual

/-- The generator writes the code of a statement. -/
theorem Stmt.lays (h : Knows g names) :
    (s : Stmt) → s.uses names = true → {u : List Slot} → {n : Nat} → n = g.length + u.length →
      Lays g (generate s.node) u () (u ++ slots (s.code names n))
  | .assign v e, hu, xs, _, _ => by
    obtain ⟨hv, he⟩ := Stmt.uses_assign.1 hu
    rw [Stmt.node, generate_assign_atom]
    refine (h.lays_expr he).bind ((h.lays_address hv).bind ((lays_emitInt _ _).cast rfl ?_))
    simp [Stmt.code]
  | .conditional c b rest, hu, xs, start, hs => by
    obtain ⟨⟨hc, hb⟩, hr⟩ := Stmt.uses_conditional.1 hu
    -- where the parts start
    obtain ⟨last, hlast⟩ : ∃ n, n = start + c.size + 1 + rest.testSize := ⟨_, rfl⟩
    obtain ⟨blocks, hblocks⟩ : ∃ n, n = last + rest.lastSize + 1 := ⟨_, rfl⟩
    obtain ⟨first, hfirst⟩ : ∃ n, n = blocks + rest.blockSize := ⟨_, rfl⟩
    have hbranches := rest.lays_branches h hr (n := start + c.size + 1) (k := blocks)
      (u := xs ++ slots (c.code names) ++ [.label "To replace IF"])
      (v := slots (rest.lastCode names last) ++ [.label "To replace ELSE"])
      (by simp; omega) (by simp; omega)
    have hif := h.lays_patch (u := xs ++ slots (c.code names))
      (v := slots (rest.testCode names blocks) ++ (slots (rest.lastCode names last) ++
        .label "To replace ELSE" :: rest.openBlocks names blocks))
      (.label "To replace IF") Op.jumpIf first (i := start + c.size) (by simp; omega)
    have helse := h.lays_patch (u := xs ++ slots (c.code names) ++
        [.instruction Op.jumpIf (.int first)] ++ slots (rest.testCode names blocks) ++
        slots (rest.lastCode names last))
      (v := rest.openBlocks names blocks ++ slots (b.code names first))
      (.label "To replace ELSE") Op.jump (first + b.size) (i := blocks - 1) (by simp; omega)
    have hends := rest.lays_ends h (first + b.size) (n := blocks)
      (u := xs ++ slots (c.code names) ++ [.instruction Op.jumpIf (.int first)] ++
        slots (rest.testCode names blocks) ++ slots (rest.lastCode names last) ++
        [.jumping (first + b.size : Nat)])
      (v := slots (b.code names first)) (by simp; omega)
    rw [Stmt.node, generate_conditional]
    refine (h.lays_expr hc).bind ((lays_here (n := start + c.size) ?_).bind ((lays_append _).bind
      ((rest.lays_tests h hr (n := start + c.size + 1) ?_).bind
      ((rest.lays_last h hr (n := last) ?_).bind ?_))))
    · simp
      omega
    · simp
      omega
    · simp
      omega
    refine (lays_append _).bind ((lays_here (n := blocks) ?_).bind ((hbranches.source ?_).bind
      ((lays_here (n := first) ?_).bind ((hif.source ?_).bind
      ((b.lays h hb (n := first) ?_).bind ((lays_here (n := first + b.size) ?_).bind
      ((helse.source ?_).bind ((hends.source ?_).cast rfl ?_))))))))
    · simp
      omega
    · simp
    · simp
      omega
    · simp
    · simp
      omega
    · simp
      omega
    · simp
    · simp
    · simp [Stmt.code, ← hlast, ← hblocks, ← hfirst]
  | .whileLoop c b, hu, xs, start, hs => by
    obtain ⟨hc, hb⟩ := Bool.and_eq_true_iff.1 hu
    have hclose := h.lays_close (s := start) (t := start + c.size + 1)
      (u := xs ++ slots (c.code names) ++ [.instruction Op.not (.int 0)])
      (v := slots (b.code names (start + c.size + 2))) (by simp; omega)
    rw [Stmt.node, generate_whileLoop, loopCode]
    refine (lays_flag true).bind ((lays_pure ()).bind ((lays_here hs).bind ((h.lays_expr hc).bind
      ((lays_emitInt _ _).bind ((lays_here ?_).bind ((lays_append _).bind
      ((b.lays h hb (n := start + c.size + 2) ?_).bind ((h.lays_settle (by decide)).bind
      ((hclose.source ?_).cast rfl ?_)))))))))
    · simp
      omega
    · simp
      omega
    · simp
    · simp [Stmt.code]
      omega

/-- The generator writes the code of a block. -/
theorem Block.lays (h : Knows g names) :
    (b : Block) → b.uses names = true → {u : List Slot} → {n : Nat} → n = g.length + u.length →
      Lays g (generateAll b.nodes) u () (u ++ slots (b.code names n))
  | .nil, _, xs, _, _ => (lays_pure ()).cast rfl (by simp [Block.code])
  | .cons s b, hu, xs, start, hs => by
    obtain ⟨hus, hub⟩ := Bool.and_eq_true_iff.1 hu
    rw [Block.nodes, generateAll]
    refine (s.lays h hus hs).bind ((b.lays h hub (n := start + s.size) ?_).cast rfl ?_)
    · simp
      omega
    · simp [Block.code]

/-- The generator writes the code of the last block. -/
theorem Chain.lays_last (h : Knows g names) :
    (r : Chain) → r.uses names = true → {u : List Slot} → {n : Nat} → n = g.length + u.length →
      Lays g (elseCode r.last) u () (u ++ slots (r.lastCode names n))
  | .absent, _, xs, _, _ => (lays_pure ()).cast rfl (by simp [Chain.lastCode])
  | .otherwise b, hu, xs, _, hs => b.lays h hu hs
  | .further c b rest, hu, xs, _, hs => by
    obtain ⟨-, hr⟩ := Chain.uses_further.1 hu
    exact rest.lays_last h hr hs

/-- The generator writes the blocks of the further conditions, and fills in the jumps of the
    tests. -/
theorem Chain.lays_branches (h : Knows g names) :
    (r : Chain) → r.uses names = true → {u v : List Slot} → {n k : Nat} →
      n = g.length + u.length → k = n + r.testSize + v.length →
      Lays g (generateBranches r.branches (r.places n)) (u ++ (r.openTests names ++ v)) (r.ends k)
        (u ++ (slots (r.testCode names k) ++ (v ++ r.openBlocks names k)))
  | .absent, _, xs, ys, start, blocks, _, _ | .otherwise _, _, xs, ys, start, blocks, _, _ =>
    (lays_pure []).cast rfl (by simp [Chain.testCode, Chain.openTests, Chain.openBlocks])
  | .further c b rest, hu, xs, ys, start, blocks, hs, hk => by
    obtain ⟨⟨-, hb⟩, hr⟩ := Chain.uses_further.1 hu
    rw [Chain.testSize] at hk
    have hjump := h.lays_patch (u := xs ++ slots (c.code names))
      (v := rest.openTests names ++ ys ++ slots (b.code names blocks))
      (.label "To replace ELIF START") Op.jumpIf (blocks + b.size) (i := start + c.size)
      (by simp; omega)
    -- what the block leaves behind stands between the tests that remain and their blocks
    have hrest := rest.lays_branches h hr (n := start + c.size + 1)
      (k := blocks + b.size + 1)
      (u := xs ++ slots (c.code names) ++ [.instruction Op.jumpIf (.int (blocks + b.size : Nat))])
      (v := ys ++ slots (b.code names blocks) ++ [.label "To replace ELIF END"])
      (by simp; omega) (by simp; omega)
    rw [Chain.branches, Chain.places, generateBranches]
    refine (b.lays h hb (n := blocks) ?_).bind ((lays_here ?_).bind ((hjump.source ?_).bind
      ((lays_append _).bind ((hrest.source ?_).bind ((lays_pure _).cast ?_ ?_)))))
    · simp [Chain.openTests]
      omega
    · simp [Chain.openTests]
      omega
    · simp [Chain.openTests]
    · simp
    · simp [Chain.ends]
    · simp [Chain.testCode, Chain.openBlocks]

end

/-! ### Programs -/

namespace Expr

variable {l : Bool} {names : List String}

/-- Names that are declared later make no difference to an expression. -/
theorem code_append (more : List String) (e : Expr l) (hu : e.uses names = true) :
    e.uses (names ++ more) = true ∧ e.code (names ++ more) = e.code names := by
  induction e with
  | number => exact ⟨rfl, rfl⟩
  | name v =>
    have hv : v ∈ names := by simpa [uses] using hu
    simp [uses, code, address, List.idxOf_append, hv]
  | arithmetic op a b iha ihb | junction _ op a b iha ihb =>
    obtain ⟨ha, hb⟩ := Bool.and_eq_true_iff.1 hu
    simp [uses, code, iha ha, ihb hb]
  | negation _ a ih => simp [uses, code, ih hu]

end Expr

theorem noteObject_node {l : Bool} (n : Atom) (e : Expr l) : noteObject n (some e.node) = pure () := by
  cases e <;> rfl

section Top

variable {g : Generator} {names : List String}

theorem Lays.ends {α : Type} {a : Gen α} {x : α} {ys : List Slot} (h : Lays g a [] x ys) :
    ∃ b, Ends a g x ((g.pushAll ys).flag b) :=
  h g.inLoop

/-- A declaration writes its value, and the store that makes room for it. -/
theorem Knows.ends_declare (h : Knows g names) {v : String} (hv : v ∉ names)
    {e : Option (Expr false)} (he : e.all (Expr.uses names) = true) (b : Bool) :
    ∃ b', Ends (generate (Top.declare v e).node) (g.flag b) ()
      (((g.reserved (.text v) "INT").pushAll
        (slots ((Top.declare v e).code names g.length))).flag b') := by
  have h' := h.reserved hv
  have hvalue : Lays (g.reserved (.text v) "INT") (do
      noteObject (.text v) (e.map Expr.node)
      initialCode "INT" (e.map Expr.node)
      emitInt Op.storeMem (-1)) [] () (slots ((Top.declare v e).code names g.length)) := by
    cases e with
    | none => exact (lays_pure ()).bind ((lays_emitInt Op.store 0).bind (lays_emitInt _ _))
    | some e =>
      obtain ⟨hu, hc⟩ := e.code_append [v] he
      rw [Option.map_some, noteObject_node]
      refine (lays_pure ()).bind ((h'.lays_expr hu).bind ((lays_emitInt _ _).cast rfl ?_))
      simp [Top.code, hc]
  obtain ⟨b', hb⟩ := hvalue b
  refine ⟨b', ?_⟩
  rw [Top.node, generate_declare]
  exact ends_bind.2 ⟨(), _, ends_reserve.2 rfl, hb⟩

/-- The generator that knows the name that a statement declares, too. -/
def Top.reserve (g : Generator) : Top → Generator
  | stmt _ => g
  | declare v _ => g.reserved (.text v) "INT"
  | forLoop v _ _ _ => g.reserved (.text v) "INT"

theorem Knows.reserve (h : Knows g names) {t : Top} (ht : t.fits names = true) :
    Knows (t.reserve g) (names ++ t.names) := by
  cases t with
  | stmt s => simpa [Top.names, Top.reserve] using h
  | declare v e | forLoop v e c b => exact h.reserved (by simp_all [Top.fits])

/-- The generator writes the code of a statement outside of blocks. -/
theorem Top.ends (t : Top) (h : Knows g names) (ht : t.fits names = true) :
    ∃ b, Ends (generate t.node) g () (((t.reserve g).pushAll (slots (t.code names g.length))).flag b) := by
  cases t with
  | stmt s => exact (s.lays h ht rfl).ends
  | declare v e =>
    obtain ⟨hv, he⟩ : v ∉ names ∧ e.all (Expr.uses names) = true := by simpa [Top.fits] using ht
    exact h.ends_declare hv he g.inLoop
  | forLoop v e c b =>
    obtain ⟨⟨⟨hv, he⟩, hc⟩, hb⟩ := Top.fits_forLoop.1 ht
    obtain ⟨b₁, hdeclare⟩ := h.ends_declare hv (e := some e) he true
    -- the counter is known from here on
    have h' := h.reserved hv
    have hmem : v ∈ names ++ [v] := by simp
    let value := slots ((Top.declare v (some e)).code names g.length)
    have hvalue : value.length = e.size + 1 := by simp [value, size]
    have hclose := h'.lays_close (s := g.length + e.size + 1) (t := g.length + e.size + 1 + c.size + 1)
      (u := value ++ slots (c.code (names ++ [v])) ++ [.instruction Op.not (.int 0)])
      (v := slots (b.code (names ++ [v]) (g.length + e.size + 1 + c.size + 2)) ++
        slots [(Op.load, (address (names ++ [v]) v : Int)), (Op.store, 1), (Op.add, 0),
          (Op.storeMem, (address (names ++ [v]) v : Int))])
      (by simp [hvalue]; omega)
    have hloop : Lays (g.reserved (.text v) "INT") (do
        let start ← here
        generate c.node
        emitInt Op.not 0
        let test ← here
        append (.bare Op.jumpIf)
        generateAll b.nodes
        settle .continue
        countCode (.node (.declare (.text v) "INT" (some e.node))) (closeCode start test))
        value () (slots ((Top.forLoop v e c b).code names g.length)) := by
      refine (lays_here (n := g.length + e.size + 1) ?_).bind ((h'.lays_expr hc).bind
        ((lays_emitInt _ _).bind ((lays_here (n := g.length + e.size + 1 + c.size + 1) ?_).bind
        ((lays_append _).bind ((b.lays h' hb (n := g.length + e.size + 1 + c.size + 2) ?_).bind
        ((h'.lays_settle (by decide)).bind ?_))))))
      · simp [hvalue]
        omega
      · simp [hvalue]
        omega
      · simp [hvalue]
        omega
      refine (lays_pure _).bind ((h'.lays_address hmem).bind ((lays_emitInt _ _).bind
        ((lays_emitInt _ _).bind ((lays_emitInt _ _).bind ((lays_emitInt _ _).bind
        ((hclose.source ?_).cast rfl ?_))))))
      · simp
      · simp [code, value]
        omega
    obtain ⟨b₂, hrest⟩ := hloop b₁
    refine ⟨b₂, ?_⟩
    rw [Top.node, generate_forLoop]
    exact ends_bind.2 ⟨(), _, ends_flag.2 rfl, ends_bind.2 ⟨(), _, hdeclare, hrest⟩⟩

/-- The generator writes the code of a program. -/
theorem ends_program (ts : List Top) (h : Knows g names) (hts : wellScoped names ts = true) :
    ∃ g', Ends (generateAll (ts.map Top.node)) g () g' ∧
      Knows g' (names ++ ts.flatMap Top.names) ∧
      g'.code = g.code ++ (slots (programCode names g.length ts)).toArray := by
  induction ts generalizing g names with
  | nil => exact ⟨g, ends_pure.2 ⟨rfl, rfl⟩, by simpa using h, by simp [programCode]⟩
  | cons t ts ih =>
    obtain ⟨ht, hrest⟩ := Bool.and_eq_true_iff.1 hts
    obtain ⟨b, het⟩ := t.ends h ht
    obtain ⟨g', hets, hknows, hcode⟩ :=
      ih (((h.reserve ht).pushAll (slots (t.code names g.length))).flag b) hrest
    have hlen : (t.reserve g).length = g.length := by cases t <;> rfl
    have hpre : (t.reserve g).code = g.code := by cases t <;> rfl
    refine ⟨g', ends_bind.2 ⟨(), _, het, hets⟩, by simpa using hknows, ?_⟩
    rw [hcode]
    simp [programCode, pushAll_eq, hlen, hpre]

end Top

/-- A program in which every name is declared before it is used has its code. -/
theorem generateProgram_of_wellScoped {ts : List Top} (hts : wellScoped [] ts = true) :
    ∃ g, generateProgram (ts.map Top.node) = .ok g ∧ Knows g (ts.flatMap Top.names) ∧
      g.code = (slots (programCode [] 0 ts)).toArray := by
  obtain ⟨g, he, hknows, hcode⟩ := ends_program ts Knows.initial hts
  refine ⟨g, ?_, by simpa using hknows, by simpa using hcode⟩
  have hrun : (generateAll (ts.map Top.node)).run.run {} = (.ok (), g) := he
  simp [generateProgram, run, hrun]

end Source

end StackLang
