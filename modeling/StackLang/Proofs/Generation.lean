import StackLang.Code.Generate

/-!
# Steps of generation

What a step of generation does to the generator, said without the monad that it
is written in. `Gen.Ends a g x g'` says that the step `a` taken from `g` ends in
`g'` with the result `x`; a step that stops with a fault ends nowhere. Every
primitive of `Gen` has one equivalence that says where it ends, so a `do` block
falls apart into its steps (`Gen.ends_bind`).

The primitives are functions of the generator:

* `Generator.push` puts a slot at the end of the code;
* `Generator.fill` puts a jump into a slot that is there already;
* `Generator.settled` gives the waiting exit its target;
* `Generator.reserved` gives a name the next free bytes.
-/

namespace StackLang

namespace Table

variable {α : Type}

/-- A table has the value that was put there last. -/
theorem get?_put (t : Table α) (a b : Atom) (x : α) :
    (t.put a x).get? b = if a.same b then some x else t.get? b := by
  induction t with
  | nil => by_cases h : a.same b <;> simp [put, get?, h]
  | cons p r ih =>
    have hkey : p.1.same a = true → p.1.same b = a.same b := fun h => by
      simp only [Atom.same, beq_iff_eq] at h ⊢
      rw [h]
    by_cases h : p.1.same a
    · rw [put, if_pos h]
      by_cases hb : a.same b <;> simp [get?, hkey h, hb]
    · rw [put, if_neg h]
      by_cases hp : p.1.same b
      · -- the first name is `b`, so `a` is another one
        have hab : ¬a.same b := fun hab => h (by
          simp only [Atom.same, beq_iff_eq] at hp hab ⊢
          rw [hp, hab])
        simp [get?, hp, hab]
      · have := ih
        simp only [get?] at this
        simp [get?, hp, this]

end Table

namespace Generator

/-- The generator with one more slot. -/
def push (g : Generator) (s : Slot) : Generator :=
  { g with code := g.code.push s, length := g.length + 1 }

/-- The generator with an instruction in place of a slot. -/
def fill (g : Generator) (place code target : Nat) : Generator :=
  { g with code := g.code.setIfInBounds place (.instruction code (.int target)) }

/-- The generator after the waiting exit, if it is of the given sort, has got the
    next place as its target. -/
def settled (g : Generator) (e : Exit) : Generator :=
  if g.pending.2 = e then
    { g.fill g.pending.1 Op.jump g.length with pending := (0, .none) }
  else g

/-- The generator after a name has got the next free bytes. -/
def reserved (g : Generator) (name : Atom) (type : String) : Generator :=
  { g with
    identifiers := g.identifiers.put name g.memory
    memory := g.memory + if type = "BOOL" ∨ type = "CHAR" then 1 else 4 }

/-- The generator with an exit at the end of its code, which now waits. -/
def waitFor (g : Generator) (e : Exit) : Generator :=
  { g with
    code := g.code.push (.bare 0)
    length := g.length + 1
    pending := (g.length, e) }

/-- The generator with the flag for loops set. -/
def flag (g : Generator) (b : Bool) : Generator := { g with inLoop := b }

variable (g : Generator)

@[simp] theorem push_length (s : Slot) : (g.push s).length = g.length + 1 := rfl

@[simp] theorem push_memory (s : Slot) : (g.push s).memory = g.memory := rfl

@[simp] theorem push_identifiers (s : Slot) : (g.push s).identifiers = g.identifiers := rfl

@[simp] theorem push_pending (s : Slot) : (g.push s).pending = g.pending := rfl

@[simp] theorem fill_length (i c t : Nat) : (g.fill i c t).length = g.length := rfl

@[simp] theorem fill_pending (i c t : Nat) : (g.fill i c t).pending = g.pending := rfl

@[simp] theorem reserved_length (n : Atom) (t : String) :
    (g.reserved n t).length = g.length := rfl

@[simp] theorem reserved_code (n : Atom) (t : String) : (g.reserved n t).code = g.code := rfl

@[simp] theorem flag_length (b : Bool) : (g.flag b).length = g.length := rfl

@[simp] theorem flag_code (b : Bool) : (g.flag b).code = g.code := rfl

@[simp] theorem flag_pending (b : Bool) : (g.flag b).pending = g.pending := rfl

@[simp] theorem settled_length (e : Exit) : (g.settled e).length = g.length := by
  unfold settled; split <;> rfl

@[simp] theorem settled_memory (e : Exit) : (g.settled e).memory = g.memory := by
  unfold settled; split <;> rfl

@[simp] theorem settled_identifiers (e : Exit) :
    (g.settled e).identifiers = g.identifiers := by
  unfold settled; split <;> rfl

end Generator

namespace Gen

variable {α β : Type} {g g' : Generator} {u : Unit} {c x : Nat} {n : Atom} {o : Operand} {e : Exit}

/-- Where a step taken from `g` leads, with its result or the fault that stopped
    it. -/
def outcome (a : Gen α) (g : Generator) : Except Fault α × Generator := a.run.run g

/-- The generator that a step taken from `g` leads to. -/
def after (a : Gen α) (g : Generator) : Generator := (outcome a g).2

/-- The result of a step, if it has one. -/
def result? (a : Gen α) (g : Generator) : Option α := (outcome a g).1.toOption

/-- The step `a` taken from `g` ends in `g'` with the result `x`. -/
def Ends (a : Gen α) (g : Generator) (x : α) (g' : Generator) : Prop :=
  outcome a g = (.ok x, g')

theorem Ends.after_eq {a : Gen α} {x : α} (h : Ends a g x g') : after a g = g' := by
  rw [after, h]

theorem Ends.result_eq {a : Gen α} {x : α} (h : Ends a g x g') : result? a g = some x := by
  rw [result?, h]; rfl

theorem outcome_bind (a : Gen α) (f : α → Gen β) :
    outcome (a >>= f) g =
      match outcome a g with
      | (.ok x, h) => outcome (f x) h
      | (.error e, h) => (.error e, h) := by
  change (ExceptT.bindCont f (outcome a g).1).run (outcome a g).2 = _
  rcases outcome a g with ⟨_ | x, h⟩ <;> rfl

theorem ends_bind {a : Gen α} {f : α → Gen β} {y : β} :
    Ends (a >>= f) g y g' ↔ ∃ x h, Ends a g x h ∧ Ends (f x) h y g' := by
  rw [Ends, outcome_bind]
  constructor
  · intro h
    rcases ha : outcome a g with ⟨_ | x, k⟩
    · rw [ha] at h; cases h
    · rw [ha] at h; exact ⟨x, k, ha, h⟩
  · rintro ⟨x, k, ha, hf⟩
    rw [ha]; exact hf

@[simp] theorem ends_pure {x y : α} : Ends (pure x) g y g' ↔ y = x ∧ g' = g := by
  constructor
  · rintro ⟨⟩; exact ⟨rfl, rfl⟩
  · rintro ⟨rfl, rfl⟩; rfl

@[simp] theorem ends_throw {f : Fault} {y : α} : ¬Ends (throw f : Gen α) g y g' := by
  rintro ⟨⟩

@[simp] theorem ends_get {x : Generator} :
    Ends (get : Gen Generator) g x g' ↔ x = g ∧ g' = g := by
  constructor
  · rintro ⟨⟩; exact ⟨rfl, rfl⟩
  · rintro ⟨rfl, rfl⟩; rfl

@[simp] theorem ends_set {x : Generator} : Ends (set x : Gen Unit) g u g' ↔ g' = x := by
  constructor
  · rintro ⟨⟩; rfl
  · rintro rfl; rfl

@[simp] theorem ends_modify {f : Generator → Generator} :
    Ends (modify f : Gen Unit) g u g' ↔ g' = f g := by
  constructor
  · rintro ⟨⟩; rfl
  · rintro rfl; rfl

@[simp] theorem ends_lift {e : Except Fault α} {x : α} :
    Ends (liftM e : Gen α) g x g' ↔ e = .ok x ∧ g' = g := by
  cases e with
  | error f => exact ⟨by rintro ⟨⟩, by rintro ⟨⟨⟩, _⟩⟩
  | ok y =>
    constructor
    · rintro ⟨⟩; exact ⟨rfl, rfl⟩
    · rintro ⟨⟨⟩, rfl⟩; rfl

/-! ### The primitives -/

@[simp] theorem ends_append {s : Slot} : Ends (append s) g u g' ↔ g' = g.push s :=
  ends_modify

@[simp] theorem ends_emit {a : Argument} :
    Ends (emit c a) g u g' ↔ g' = g.push (.instruction c a) :=
  ends_modify

@[simp] theorem ends_emitInt {n : Int} :
    Ends (emitInt c n) g u g' ↔ g' = g.push (.instruction c (.int n)) :=
  ends_modify

@[simp] theorem ends_here : Ends here g x g' ↔ x = g.length ∧ g' = g := by
  simp only [here, ends_bind, ends_get, ends_pure]
  constructor
  · rintro ⟨_, _, ⟨rfl, rfl⟩, rfl, rfl⟩; exact ⟨rfl, rfl⟩
  · rintro ⟨rfl, rfl⟩; exact ⟨_, _, ⟨rfl, rfl⟩, rfl, rfl⟩

@[simp] theorem ends_patch {i t : Nat} : Ends (patch i c t) g u g' ↔ g' = g.fill i c t :=
  ends_modify

@[simp] theorem ends_reserve {t : String} : Ends (reserve n t) g u g' ↔ g' = g.reserved n t :=
  ends_modify

@[simp] theorem ends_address :
    Ends (address n) g x g' ↔ g.identifiers.get? n = some x ∧ g' = g := by
  simp only [address, ends_bind, ends_get]
  constructor
  · rintro ⟨_, _, ⟨rfl, rfl⟩, h⟩
    split at h
    · rename_i a ha
      obtain ⟨rfl, rfl⟩ := ends_pure.1 h
      exact ⟨ha, rfl⟩
    · exact absurd h ends_throw
  · rintro ⟨ha, rfl⟩
    exact ⟨_, _, ⟨rfl, rfl⟩, by rw [ha]; exact ends_pure.2 ⟨rfl, rfl⟩⟩

theorem ends_addressOf (h : Ends (addressOf o) g x g') : g' = g := by
  cases o with
  | atom a => exact (ends_address.1 h).2
  | node n => exact absurd h ends_throw

/-- Only names have addresses. -/
theorem atom_of_addressOf (h : Ends (addressOf o) g x g') :
    ∃ a, o = .atom a ∧ g.identifiers.get? a = some x := by
  cases o with
  | atom a => exact ⟨a, rfl, (ends_address.1 h).1⟩
  | node n => exact absurd h ends_throw

@[simp] theorem ends_settle : Ends (settle e) g u g' ↔ g' = g.settled e := by
  simp only [settle, ends_bind, ends_get, Generator.settled]
  constructor
  · rintro ⟨_, _, ⟨rfl, rfl⟩, h⟩
    split at h
    · rename_i hp
      obtain ⟨_, _, h₁, h₂⟩ := ends_bind.1 h
      rw [ends_patch] at h₁
      rw [ends_modify] at h₂
      rw [h₂, h₁, if_pos hp]
    · rename_i hp
      rw [if_neg hp]
      exact (ends_pure.1 h).2
  · rintro rfl
    refine ⟨_, _, ⟨rfl, rfl⟩, ?_⟩
    split
    · exact ends_bind.2 ⟨(), _, ends_patch.2 rfl, ends_modify.2 rfl⟩
    · exact ends_pure.2 ⟨rfl, rfl⟩

@[simp] theorem ends_exitCode :
    Ends (exitCode e) g u g' ↔ g' = if g.inLoop then g.waitFor e else g := by
  simp only [exitCode, ends_bind, ends_get]
  constructor
  · rintro ⟨_, _, ⟨rfl, rfl⟩, h⟩
    split at h
    · rename_i hl
      obtain ⟨_, _, h₁, h₂⟩ := ends_bind.1 h
      rw [ends_set] at h₁
      rw [ends_append] at h₂
      rw [h₂, h₁, if_pos hl]
      rfl
    · rename_i hl
      rw [if_neg hl]
      exact (ends_pure.1 h).2
  · rintro rfl
    refine ⟨_, _, ⟨rfl, rfl⟩, ?_⟩
    split
    · exact ends_bind.2 ⟨(), _, ends_set.2 rfl, ends_append.2 rfl⟩
    · exact ends_pure.2 ⟨rfl, rfl⟩

/-- The items of a list come before the list is built. -/
theorem generate_list {k : String} (hk : holds "[]" k) (xs : List Node) :
    generate (.listLiteral k xs) = (do
      generateReversed xs
      emitInt Op.buildList xs.length) := by
  rw [generate, if_pos hk]
  -- the other kinds show no brackets
  all_goals
    rintro rfl
    exact absurd hk (by decide)

end Gen

/-- What is computed from the code of a program holds of it. -/
theorem exists_of_toOption {α : Type} {p : List Node} {f : Generator → α} {x : α}
    (h : (generateProgram p).toOption.map f = some x) :
    ∃ g, generateProgram p = .ok g ∧ f g = x := by
  cases hg : generateProgram p with
  | error e =>
    rw [hg] at h
    cases h
  | ok g =>
    rw [hg] at h
    exact ⟨g, rfl, Option.some.inj h⟩

end StackLang
