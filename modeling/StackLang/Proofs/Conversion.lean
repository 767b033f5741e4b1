import StackLang.CommandLine
import StackLang.Proofs.RoundTrip
import StackLang.Proofs.ScalarExpression
import StackLang.Proofs.Spelling
import StackLang.Proofs.Storage
import StackLang.Proofs.Task
import StackLang.Tree.Rename

/-!
# Conversions and how their source is written

A declaration `T x = e;` converts the value of `e` to the type `T`. How it does so depends on how
`e` is written. A literal is folded when the tree is built. A variable counts as a literal there,
whose value is its name: as a byte the name is read as a numeral, which fails, and as a truth value
it is always true. Any other expression is computed and cast by the machine, which keeps the lowest
byte.

* `Machine.Runs.unique`: the code of an expression comes to its end in one way;
* `Site.stores_iff`: what a declaration stores for an integer or a truth value, for each way to
  write it (`Datum.converted`);
* `conversion_uniform_iff`: which values are stored alike however they are written.
-/

namespace StackLang

open List Scope

/-! ### Runs of a piece of code -/

namespace Machine

variable {P : Program} {m m₁ m₂ : Machine} {a b : Nat}

/-- The machine runs the code from its place up to `b`: it comes there in the frame it is in, and
    until then it leaves that code only into calls. -/
def Runs (P : Program) (m : Machine) (b : Nat) (m' : Machine) : Prop :=
  ∃ n, Steps P n m m' ∧ m'.pc = b ∧ m'.frames = m.frames ∧
    ∀ k < n, ∀ s, Steps P k m s → s.frames = m.frames → m.pc ≤ s.pc ∧ s.pc < b

namespace Runs

theorem unique (h₁ : m.Runs P b m₁) (h₂ : m.Runs P b m₂) : m₁ = m₂ := by
  obtain ⟨n, hs, hpc, hframes, hin⟩ := h₁
  obtain ⟨n', hs', hpc', hframes', hin'⟩ := h₂
  rcases Nat.lt_trichotomy n n' with hlt | rfl | hlt
  · have := (hin' n hlt m₁ hs hframes).2
    omega
  · exact hs.unique hs'
  · have := (hin n' hlt m₂ hs' hframes').2
    omega

theorem refl (P : Program) (m : Machine) : m.Runs P m.pc m :=
  ⟨0, .refl m, rfl, rfl, fun _ hk => absurd hk (Nat.not_lt_zero _)⟩

/-- An instruction that leads to the next one. -/
theorem single (h : m.step P = some (.next m₁)) (hpc : m₁.pc = m.pc + 1)
    (hframes : m₁.frames = m.frames) : m.Runs P (m.pc + 1) m₁ := by
  refine ⟨1, .single h, hpc, hframes, fun k hk s hs _ => ?_⟩
  obtain rfl : k = 0 := by omega
  cases hs
  exact ⟨Nat.le_refl _, Nat.lt_succ_self _⟩

/-- Two pieces of code one after the other. -/
theorem trans (h₁ : m.Runs P a m₁) (h₂ : m₁.Runs P b m₂) (ha : m.pc ≤ a) (hb : a ≤ b) :
    m.Runs P b m₂ := by
  obtain ⟨n, hs, rfl, hframes, hin⟩ := h₁
  obtain ⟨n', hs', hpc', hframes', hin'⟩ := h₂
  refine ⟨n + n', hs.trans hs', hpc', hframes'.trans hframes, fun k hk s hks hsf => ?_⟩
  by_cases hkn : k < n
  · have := hin k hkn s hks hsf
    omega
  · obtain ⟨j, rfl⟩ := Nat.exists_eq_add_of_le (Nat.le_of_not_lt hkn)
    obtain ⟨s₁, hs₁, hj⟩ := hks.split
    obtain rfl := hs₁.unique hs
    have := hin' j (by omega) s hj (hsf.trans hframes.symm)
    omega

end Runs

/-! ### Single instructions -/

section

variable {w : UInt32} {x y : Item} {rest : List Item}

theorem Pushes.runs (h : m.Pushes P x) (hroom : m.stack.length < stackLimit) :
    m.Runs P (m.pc + 1) { m with pc := m.pc + 1, stack := x :: m.stack } :=
  .single (h.step hroom) rfl rfl

/-- What a cast of an item to a byte or an integer leaves. -/
def castItem (target : Tag) (x : Item) : Item :=
  if target = .int then ⟨.int, x.real.truncateWord⟩ else ⟨.byte, extendByte x.word⟩

/-- A cast of a scalar to a byte or an integer. -/
theorem runs_cast (hi : m.fetch P = some ⟨0x1E, w⟩) (hs : m.stack = x :: rest)
    (hlen : rest.length < stackLimit) {t : Tag} (ht : t = .int ∨ t = .byte)
    (htag : Tag.ofCode (Act.castFields w).target = t) (hdepth : (Act.castFields w).depth = 0) :
    m.Runs P (m.pc + 1) { m with pc := m.pc + 1, stack := castItem t x :: rest } := by
  refine .single (step_of_perform hi rfl ?_) rfl rfl
  change Act.cast w _ = _
  unfold Act.cast
  rw [Act.run_bind_ok (Act.run_pop (m := m.onward) hs), htag, hdepth]
  rcases ht with rfl | rfl <;> exact Act.run_push hlen

end

end Machine

/-! ### Names and numerals -/

/-- A text that can be the name of a variable. -/
def isName (s : String) : Prop :=
  ∃ c cs, s.toList = c :: cs ∧ isWordStart c ∧ ∀ d ∈ cs, isWordRest d

theorem wordStart_plain {c : Char} (h : isWordStart c) : isBlank c = false ∧ c ≠ '+' := by
  have hcode : 65 ≤ c.toNat ∧ c.toNat < 128 := by
    delta isWordStart Char.isAlpha Char.isUpper Char.isLower at h
    simp only [Bool.or_eq_true, Bool.and_eq_true, decide_eq_true_eq, beq_iff_eq, ge_iff_le,
      UInt32.le_iff_toNat_le] at h
    rcases h with (⟨h₁, h₂⟩ | ⟨h₁, h₂⟩) | rfl
    · exact ⟨h₁, Nat.lt_of_le_of_lt h₂ (by decide)⟩
    · exact ⟨Nat.le_trans (by decide) h₁, Nat.lt_of_le_of_lt h₂ (by decide)⟩
    · decide
  refine ⟨?_, ?_⟩
  · simp only [isBlank, Bool.or_eq_false_iff, Bool.and_eq_false_iff, decide_eq_false_iff_not,
      beq_eq_false_iff_ne]
    omega
  · rintro rfl
    exact absurd hcode.1 (by decide)

/-- What does not begin with a blank keeps its beginning when it is trimmed. -/
theorem head_trimBlanks {c : Char} (hc : isBlank c = false) (cs : List Char) :
    ∃ ds, trimBlanks (c :: cs) = c :: ds := by
  rw [trimBlanks, dropWhile_cons_of_neg (by simp [hc])]
  exact exists_reverse_dropWhile hc cs

/-- A name is no numeral. -/
theorem toInt_name {s : String} (h : isName s) : Atom.toInt (.text s) = .error .malformedNumber := by
  obtain ⟨c, cs, hs, hc, -⟩ := h
  obtain ⟨hdigit, hminus, -, -⟩ := wordStart_spec hc
  obtain ⟨hblank, hplus⟩ := wordStart_plain hc
  obtain ⟨ds, hds⟩ := head_trimBlanks hblank cs
  have hsign : splitSign (c :: ds) = (false, c :: ds) := by
    unfold splitSign
    split
    · simp_all
    · simp_all
    · rfl
  have hread : readInt s = .error .malformed := by
    simp [readInt, hs, hds, hsign, takeDigits, takeGroups, hdigit]
  rw [Atom.toInt, hread]

theorem truthy_name {s : String} (h : isName s) : Atom.truthy (.text s) = true := by
  obtain ⟨c, cs, hs, -⟩ := h
  rw [Atom.truthy, bne_iff_ne]
  rintro rfl
  cases hs

/-! ### Values and the ways to write them -/

/-- An integer or a truth value. -/
inductive Datum where
  | int (w : UInt32)
  | bool (b : Bool)
  deriving DecidableEq, Repr

/-- The ways to write a value. -/
inductive Form where
  | literal
  | named
  | compound
  deriving DecidableEq, Repr

namespace Datum

/-- The type of a value. -/
def type : Datum → String
  | int _ => "INT"
  | bool _ => "BOOL"

/-- A value on the stack and in memory. -/
def item : Datum → Item
  | int w => ⟨.int, w⟩
  | bool b => .ofBool b

/-- A value as it is written. -/
def literal : Datum → Node
  | int w => .literal "INT_LITERAL" (.int (wordInt w))
  | bool b => .literal "BOOL_LITERAL" (.bool b)

/-- The literal that a literal becomes when it is converted. -/
def folded (type : String) : Datum → Node
  | int w =>
    if type = "BYTE" then .literal "INT_LITERAL" (.int (clipInt (wordInt w)))
    else .literal "BOOL_LITERAL" (.bool (wordInt w != 0))
  | bool b => .literal "BOOL_LITERAL" (.bool b)

/-- What a variable becomes that is converted, with its name. -/
def misread (type name : String) : Datum → Except Fault Node
  | int _ =>
    if type = "BYTE" then .error .malformedNumber else .ok (.literal "BOOL_LITERAL" (.bool true))
  | bool _ => .ok (.literal "VARIABLE" (.text name))

/-- What is stored for a value that is converted to another type, by how it is written; nothing
    where the conversion does not compile. -/
def converted (type : String) : Form → Datum → Option Item
  | .literal, int w =>
    some (if type = "BYTE" then ⟨.int, intWord (clipInt (wordInt w))⟩ else .ofBool (w ≠ 0))
  | .named, int _ => if type = "BYTE" then none else some (.ofBool true)
  | .compound, int w => some ⟨.byte, extendByte w⟩
  | .literal, bool b => some (.ofBool b)
  | .named, bool b => some (.ofBool b)
  | .compound, bool b => some (if type = "INT" then ⟨.int, if b then 1 else 0⟩ else .ofBool b)

/-- The value is stored alike however it is written: each truth value is, and as a truth value
    each integer whose lowest byte is one. -/
def Uniform (type : String) : Datum → Prop
  | int w => type = "BOOL" ∧ w.toUInt8 = 1
  | bool _ => True

theorem type_mem (v : Datum) : v.type ∈ ["INT", "BOOL"] := by
  cases v <;> simp [type]

end Datum

/-! ### Places of declarations -/

/-- A place where a variable is declared with a value: its name and its type, the function around
    it with its parameters (none at the top), and the scope, the generator and the machine that
    have come there. -/
structure Site where
  name : String
  type : String
  function : String
  parameters : List String
  scope : Scope
  code : Generator
  machine : Machine
  typed : scope.typeOfName (.text name) = .ok type
  sound : code.Sound
  here : machine.pc = code.length
  room : machine.stack.length < stackLimit

namespace Site

open Gen Machine

variable (p : Site) {n : Int}

/-- The generator once the variable has its address. -/
def start : Generator := p.code.reserved (.text p.name) p.type

/-- A node with the parameters of the function around it qualified. -/
def renamed (n : Node) : Node := n.rename p.function (p.parameters.map .text)

theorem renamed_literal (k : String) (a : Atom) :
    p.renamed (.literal k a) = .literal k (qualify p.function (p.parameters.map .text) a) := by
  rw [renamed, Node.rename]

theorem renamed_cast (t u : String) (e : Node) :
    p.renamed (.cast t u e) = .cast t u (p.renamed e) := by
  rw [renamed, Node.rename, renamed]

/-- The declaration with the value `e` compiles, and the generator is `g` behind it. -/
def Compiles (e : Node) (g : Generator) : Prop :=
  ∃ value, p.scope.checkAssignment (.atom (.text p.name)) (some e) = .ok (some value) ∧
    Ends (generate (p.renamed (.declare (.text p.name) p.type (some value)))) p.code () g

/-- A program with the code of the declaration, if it compiles. -/
def Stands (P : Program) (e : Node) : Prop :=
  ∀ g, p.Compiles e g → P.Carries g p.code.length

/-- The declaration with the value `e` compiles, and its code runs and stores the item at the end
    of memory. -/
def Stores (P : Program) (e : Node) (x : Item) : Prop :=
  ∃ g k m memory, p.Compiles e g ∧ g.length = k + 1 ∧ p.machine.Runs P k m ∧
    m.stack = x :: p.machine.stack ∧ m.memory.store endAddress x = .ok memory ∧
    m.step P = some (.next { m with pc := k + 1, stack := p.machine.stack, memory })

/-- An expression of the type of a value that has the value at this place. -/
inductive Denotes (P : Program) (v : Datum) : Form → Node → Prop
  | literal : Denotes P v .literal v.literal
  | named {y : String} {a : Nat} (hname : isName y)
    (htype : p.scope.typeOfName (.text y) = .ok v.type)
    (haddress : p.start.identifiers.get?
      (qualify p.function (p.parameters.map .text) (.text y)) = some a)
    (hload : p.machine.memory.load (intWord a) = .ok v.item) :
    Denotes P v .named (.literal "VARIABLE" (.text y))
  | compound {e : Node} {h : Generator} {m : Machine} (hform : Scope.isLiteral e = false)
    (htype : p.scope.typeOf e = .ok (.text v.type)) (hgen : Ends (generate (p.renamed e)) p.start () h)
    (hrun : p.machine.Runs P h.length m) (hstack : m.stack = v.item :: p.machine.stack) :
    Denotes P v .compound e

/-! ### What is checked -/

section

variable {s : Scope} {x T U y : String} {e : Node} {v : Datum}

/-- Between different types without lists, a value is converted. -/
theorem checkAssignment_eq (hT : T ∈ ["INT", "BYTE", "BOOL"]) (hU : U ∈ ["INT", "BOOL"])
    (hne : T ≠ U) (hx : s.typeOfName (.text x) = .ok T) (he : s.typeOf e = .ok (.text U)) :
    s.checkAssignment (.atom (.text x)) (some e) = (s.convertPrimitive e U T).map some := by
  have hsame : (Atom.text T).same (.text U) = false := by
    simp [Atom.same, Atom.key, hne]
  have htypes : ∀ t ∈ ["INT", "BYTE", "BOOL"], levels (.text t) = .ok 0 ∧
      isPrimitive (.text t) = true := by
    decide
  obtain ⟨hlT, hpT⟩ := htypes T hT
  obtain ⟨hlU, hpU⟩ := htypes U (by revert hU; simp; grind)
  simp only [checkAssignment, targetType, typeOfOption, hx, he, hlT, hlU, bind,
    Except.bind, pure, Except.pure, hsame, hpT, hpU, Bool.false_eq_true, if_false, ne_eq,
    not_true_eq_false, if_true, Bool.not_true, Bool.or_self, Option.getD_some, Atom.shown]
  cases s.convertPrimitive e U T <;> rfl

/-- A literal is folded. -/
theorem convertPrimitive_literal (hT : T ∈ ["INT", "BYTE", "BOOL"]) (hne : T ≠ v.type) :
    s.convertPrimitive v.literal v.type T = .ok (v.folded T) := by
  simp only [mem_cons, not_mem_nil, or_false] at hT
  cases v with
  | int w =>
    rcases hT with rfl | rfl | rfl
    · exact absurd rfl hne
    all_goals rfl
  | bool b =>
    rcases hT with rfl | rfl | rfl
    · rfl
    · rfl
    · exact absurd rfl hne

/-- A variable counts as a literal with its name for a value. -/
theorem convertPrimitive_variable (hT : T ∈ ["INT", "BYTE", "BOOL"]) (hne : T ≠ v.type)
    (hy : isName y) :
    s.convertPrimitive (.literal "VARIABLE" (.text y)) v.type T = v.misread T y := by
  simp only [mem_cons, not_mem_nil, or_false] at hT
  cases v with
  | int w =>
    rcases hT with rfl | rfl | rfl
    · exact absurd rfl hne
    · simp [convertPrimitive, Datum.type, isLiteral, Datum.misread, literalInt,
        toInt_name hy, bind, Except.bind]
    · simp [convertPrimitive, Datum.type, isLiteral, Datum.misread,
        literalTruth, truthy_name hy]
  | bool b =>
    rcases hT with rfl | rfl | rfl
    · rfl
    · rfl
    · exact absurd rfl hne

theorem convertPrimitive_compound (he : isLiteral e = false) :
    s.convertPrimitive e U T = .ok (.cast T U e) := by
  simp [convertPrimitive, he]

end

/-! ### What is generated -/

theorem ends_declare {g g' : Generator} {n : Atom} {t : String}
    (hvalue : ∀ r xs, value ≠ .create r xs) :
    Ends (generate (.declare n t (some value))) g () g' ↔
      ∃ h, Ends (generate value) (g.reserved n t) () h ∧
        g' = h.push (.instruction Op.storeMem (.int (-1))) := by
  have hnote : noteObject n (some value) = pure () := by
    unfold noteObject
    split
    · rename_i r xs heq
      exact absurd (Option.some.inj heq) (hvalue r xs)
    · rfl
  simp only [generate_declare, hnote, initialCode, ends_bind, ends_reserve, ends_pure, ends_emitInt]
  constructor
  · rintro ⟨_, _, rfl, _, _, ⟨-, rfl⟩, _, h, hgen, rfl⟩
    exact ⟨h, hgen, rfl⟩
  · rintro ⟨h, hgen, rfl⟩
    exact ⟨(), _, rfl, (), _, ⟨trivial, rfl⟩, (), h, hgen, rfl⟩

theorem word_of_int {w : UInt32} (h : Image.argumentWord? (.int n) = .ok (some w)) :
    w = intWord n := by
  by_cases hfits : fitsWord n
  · have hword : Image.argumentWord? (.int n) = .ok (some (intWord n)) := if_pos hfits
    rw [hword] at h
    exact (Option.some.inj (Except.ok.inj h)).symm
  · have hfault : Image.argumentWord? (.int n) = .error .wordRange := if_neg hfits
    rw [hfault] at h
    cases h

theorem exists_store (m : Memory) (x : Item) : ∃ m', m.store endAddress x = .ok m' := by
  have hpos := x.tag.width_pos
  have hle := x.tag.width_le
  rw [Memory.store, Segment.write, if_neg (by omega), if_pos rfl, if_pos rfl,
    if_neg (by simp [Segment.grow])]
  exact ⟨_, rfl⟩

variable {p : Site} {P : Program} {e value : Node} {x y : Item}

/-- The code of a checked value up to `h`, which the declaration then stores. -/
structure Values (p : Site) (e value : Node) (h : Generator) : Prop where
  checked : p.scope.checkAssignment (.atom (.text p.name)) (some e) = .ok (some value)
  notCreate : ∀ r xs, p.renamed value ≠ .create r xs
  ends : Ends (generate (p.renamed value)) p.start () h

namespace Values

variable {h : Generator} (hv : p.Values e value h)

include hv

theorem compiles_iff {g : Generator} :
    p.Compiles e g ↔ g = h.push (.instruction Op.storeMem (.int (-1))) := by
  have hrename : p.renamed (.declare (.text p.name) p.type (some value)) =
      .declare (.text p.name) p.type (some (p.renamed value)) := by
    simp [renamed, Node.rename, renameOption]
  constructor
  · rintro ⟨value', hcheck', hends⟩
    cases hv.checked.symm.trans hcheck'
    rw [hrename, ends_declare hv.notCreate] at hends
    obtain ⟨h', hgen', rfl⟩ := hends
    rw [show h' = h from hgen'.after_eq.symm.trans hv.ends.after_eq]
  · rintro rfl
    refine ⟨value, hv.checked, ?_⟩
    rw [hrename, ends_declare hv.notCreate]
    exact ⟨h, hv.ends, rfl⟩

theorem built : Built p.start h := built_of_ends (p.sound.reserved _ _) hv.ends

theorem length_le : p.code.length ≤ h.length := hv.built.keeps.length_le

theorem carries (hP : p.Stands P e) : P.Carries h p.code.length :=
  (hP _ (hv.compiles_iff.2 rfl)).of_keeps hv.built.sound (.push hv.built.sound _ (Nat.le_refl _))

/-- If the code of the value leaves an item, then the declaration stores that item and no other. -/
theorem stores_iff (hP : p.Stands P e) {m : Machine} (hrun : p.machine.Runs P h.length m)
    (hstack : m.stack = x :: p.machine.stack) : p.Stores P e y ↔ y = x := by
  have hpc : m.pc = h.length := hrun.choose_spec.2.1
  constructor
  · -- the code comes to its end in one way, so with one item on top
    rintro ⟨g, k, m', memory, hcompiles, hk, hrun', hstack', -⟩
    obtain rfl := hv.compiles_iff.1 hcompiles
    obtain rfl : h.length = k := Nat.succ.inj hk
    obtain rfl := hrun.unique hrun'
    exact (List.cons.inj (hstack'.symm.trans hstack)).1
  · rintro rfl
    have hcompiles := hv.compiles_iff.2 rfl
    -- the last instruction of the declaration is the one that stores
    obtain ⟨w, hw, hi⟩ := (hP _ hcompiles).last hv.built.sound hv.length_le
    obtain rfl := word_of_int hw
    obtain ⟨memory, hmemory⟩ := exists_store m.memory y
    rw [← hpc] at hi
    refine ⟨_, h.length, m, memory, hcompiles, rfl, hrun, hstack, hmemory, ?_⟩
    rw [← hpc]
    exact step_storeMem hi hstack hmemory

end Values

/-- A value whose code is one instruction that pushes its argument. -/
theorem stores_pushed {c : Nat} {t : Tag} (hP : p.Stands P e)
    (hv : p.Values e value (p.start.push (.instruction c (.int n))))
    (hop : Operation.ofCode? c.toUInt8.toNat = some (.push t)) :
    p.Stores P e y ↔ y = ⟨t, intWord n⟩ := by
  obtain ⟨w, hw, hi⟩ := (hv.carries hP).last (p.sound.reserved _ _) (Nat.le_refl _)
  obtain rfl := word_of_int hw
  have hpush : p.machine.Pushes P ⟨t, intWord n⟩ := by
    refine pushes_of_push (i := ⟨c.toUInt8, intWord n⟩) ?_ hop
    rw [fetch, p.here]
    exact hi
  have hrun := hpush.runs p.room
  rw [p.here] at hrun
  exact hv.stores_iff hP hrun rfl

/-! ### The three ways -/

theorem qualify_of_key {f : String} {ps : List String} {a : Atom} (h : ∀ s, a.key ≠ .text s) :
    qualify f (ps.map .text) a = a := by
  rw [qualify, if_neg]
  simp only [any_map, any_eq_true, Function.comp_apply, Atom.same, beq_iff_eq, not_exists,
    not_and]
  exact fun s _ hs => h s hs.symm

theorem ends_int (n : Int) : Ends (generate (p.renamed (.literal "INT_LITERAL" (.int n)))) p.start ()
    (p.start.push (.instruction Op.store (.int n))) := by
  rw [renamed_literal, qualify_of_key (by simp [Atom.key])]
  rfl

theorem ends_bool (b : Bool) :
    Ends (generate (p.renamed (.literal "BOOL_LITERAL" (.bool b)))) p.start ()
      (p.start.push (.instruction Op.storeByte (.int (if b then 1 else 0)))) := by
  rw [renamed_literal, qualify_of_key (by simp [Atom.key])]
  rfl

section

variable {v : Datum} (hT : p.type ∈ ["INT", "BYTE", "BOOL"]) (hne : p.type ≠ v.type)
  (htype : p.scope.typeOf e = .ok (.text v.type))

include hT hne htype

theorem checkAssignment_of_type :
    p.scope.checkAssignment (.atom (.text p.name)) (some e) =
      (p.scope.convertPrimitive e v.type p.type).map some :=
  checkAssignment_eq hT v.type_mem hne p.typed htype

theorem values_literal {k : String} {a : Atom} {h : Generator}
    (hvalue : p.scope.convertPrimitive e v.type p.type = .ok (.literal k a))
    (hgen : Ends (generate (p.renamed (.literal k a))) p.start () h) :
    p.Values e (.literal k a) h where
  checked := by
    rw [checkAssignment_of_type hT hne htype, hvalue]
    rfl
  notCreate := by simp [renamed_literal]
  ends := hgen

theorem stores_int (hP : p.Stands P e) {n : Int}
    (hvalue : p.scope.convertPrimitive e v.type p.type = .ok (.literal "INT_LITERAL" (.int n))) :
    p.Stores P e y ↔ y = ⟨.int, intWord n⟩ :=
  stores_pushed hP (values_literal hT hne htype hvalue (ends_int n)) rfl

theorem stores_bool (hP : p.Stands P e) {b : Bool}
    (hvalue : p.scope.convertPrimitive e v.type p.type = .ok (.literal "BOOL_LITERAL" (.bool b))) :
    p.Stores P e y ↔ y = .ofBool b := by
  have hitem : (⟨.byte, intWord (if b then 1 else 0)⟩ : Item) = .ofBool b := by
    cases b <;> rfl
  rw [← hitem]
  exact stores_pushed hP (values_literal hT hne htype hvalue (ends_bool b)) rfl

end

section

variable {v : Datum} (hT : p.type ∈ ["INT", "BYTE", "BOOL"]) (hne : p.type ≠ v.type)

include hT hne

theorem stores_literal (hP : p.Stands P v.literal) :
    p.Stores P v.literal y ↔ v.converted p.type .literal = some y := by
  have hvalue := convertPrimitive_literal (s := p.scope) hT hne
  have htype : p.scope.typeOf v.literal = .ok (.text v.type) := by
    cases v <;> rfl
  cases v with
  | int w =>
    by_cases hbyte : p.type = "BYTE"
    · rw [Datum.folded, if_pos hbyte] at hvalue
      rw [stores_int hT hne htype hP hvalue, Datum.converted, if_pos hbyte, Option.some_inj, eq_comm]
    · have hzero : (wordInt w != 0) = decide (w ≠ 0) := by
        rw [Bool.eq_iff_iff, bne_iff_ne, decide_eq_true_iff, Ne, Ne, not_iff_not]
        exact ⟨fun h => by rw [← intWord_wordInt w, h]; rfl, fun h => by rw [h]; rfl⟩
      rw [Datum.folded, if_neg hbyte, hzero] at hvalue
      rw [stores_bool hT hne htype hP hvalue, Datum.converted, if_neg hbyte, Option.some_inj, eq_comm]
  | bool b =>
    rw [stores_bool hT hne htype hP hvalue, Datum.converted, Option.some_inj, eq_comm]

theorem stores_variable {n : String} {a : Nat} (hname : isName n)
    (htype : p.scope.typeOfName (.text n) = .ok v.type)
    (haddress : p.start.identifiers.get?
      (qualify p.function (p.parameters.map .text) (.text n)) = some a)
    (hload : p.machine.memory.load (intWord a) = .ok v.item)
    (hP : p.Stands P (.literal "VARIABLE" (.text n))) :
    p.Stores P (.literal "VARIABLE" (.text n)) y ↔ v.converted p.type .named = some y := by
  have hvalue := convertPrimitive_variable (s := p.scope) hT hne hname
  have htype' : p.scope.typeOf (.literal "VARIABLE" (.text n)) = .ok (.text v.type) := by
    rw [typeOf, if_pos rfl, htype]
    rfl
  cases v with
  | int w =>
    by_cases hbyte : p.type = "BYTE"
    · -- the name is no numeral, so there is no code
      rw [Datum.misread, if_pos hbyte] at hvalue
      rw [Datum.converted, if_pos hbyte]
      refine iff_of_false ?_ (by simp)
      rintro ⟨g, -, -, -, ⟨value, hcheck, -⟩, -⟩
      rw [checkAssignment_of_type hT hne htype', hvalue] at hcheck
      cases hcheck
    · rw [Datum.misread, if_neg hbyte] at hvalue
      rw [stores_bool hT hne htype' hP hvalue, Datum.converted, if_neg hbyte, Option.some_inj,
        eq_comm]
  | bool b =>
    have hv := values_literal hT hne htype' hvalue
      (h := p.start.push (.instruction Op.load (.int a))) (by
        rw [renamed_literal, generate]
        exact ends_bind.2 ⟨a, _, ends_address.2 ⟨haddress, rfl⟩, ends_emitInt.2 rfl⟩)
    obtain ⟨w, hw, hi⟩ := (hv.carries hP).last (p.sound.reserved _ _) (Nat.le_refl _)
    obtain rfl := word_of_int hw
    have hfetch : p.machine.fetch P = some ⟨0x14, intWord a⟩ := by
      rw [fetch, p.here]
      exact hi
    have hrun := (pushes_of_load hfetch hload).runs p.room
    rw [p.here] at hrun
    rw [hv.stores_iff hP hrun rfl, Datum.converted, Option.some_inj, eq_comm]
    rfl

/-- The argument of a cast to a type says its tag, and that there is no list. -/
theorem castArgument_eq : ∃ n : Nat, castArgument v.type p.type = .ok n ∧
    Tag.ofCode (Act.castFields (intWord n)).target = (if p.type = "INT" then .int else .byte) ∧
    (Act.castFields (intWord n)).depth = 0 := by
  have hcast : ∀ t ∈ ["INT", "BYTE", "BOOL"], ∀ u ∈ ["INT", "BOOL"], t ≠ u →
      ∃ n ∈ (castArgument u t).toOption, Tag.ofCode (Act.castFields (intWord (n : Nat))).target =
        (if t = "INT" then .int else .byte) ∧ (Act.castFields (intWord (n : Nat))).depth = 0 := by
    decide
  obtain ⟨n, hn, htag⟩ := hcast _ hT _ v.type_mem hne
  refine ⟨n, ?_, htag⟩
  cases harg : castArgument v.type p.type with
  | error f => simp [harg, Except.toOption] at hn
  | ok k => simpa [harg, Except.toOption] using hn

omit hT in
theorem castItem_item :
    v.converted p.type .compound = some (castItem (if p.type = "INT" then .int else .byte) v.item) := by
  cases v with
  | int w =>
    rw [if_neg (show ¬p.type = "INT" from hne)]
    rfl
  | bool b =>
    rw [Datum.converted]
    split <;> cases b <;> rfl

theorem stores_compound {h : Generator} {m : Machine} (hform : isLiteral e = false)
    (htype : p.scope.typeOf e = .ok (.text v.type)) (hgen : Ends (generate (p.renamed e)) p.start () h)
    (hrun : p.machine.Runs P h.length m) (hstack : m.stack = v.item :: p.machine.stack)
    (hP : p.Stands P e) :
    p.Stores P e y ↔ v.converted p.type .compound = some y := by
  obtain ⟨n, hn, htag, hdepth⟩ := castArgument_eq hT hne
  have hv : p.Values e (.cast p.type v.type e) (h.push (.instruction Op.cast (.int n))) := by
    refine ⟨?_, by simp [renamed_cast], ?_⟩
    · rw [checkAssignment_of_type hT hne htype, convertPrimitive_compound hform]
      rfl
    · rw [renamed_cast, generate]
      refine ends_bind.2 ⟨(), h, hgen, ends_bind.2 ⟨n, h, ends_lift.2 ⟨hn, rfl⟩, ?_⟩⟩
      exact ends_emitInt.2 rfl
  have hbuilt := built_of_ends (p.sound.reserved _ _) hgen
  have hle : p.code.length ≤ h.length := hbuilt.keeps.length_le
  obtain ⟨w, hw, hi⟩ := (hv.carries hP).last hbuilt.sound hle
  obtain rfl := word_of_int hw
  have hpc : m.pc = h.length := hrun.choose_spec.2.1
  have hfetch : m.fetch P = some ⟨0x1E, intWord n⟩ := by
    rw [fetch, hpc]
    exact hi
  have hcast := runs_cast hfetch hstack p.room (by split <;> simp) htag hdepth
  have hall := hrun.trans hcast (by rw [p.here]; exact hle) (by omega)
  rw [hpc] at hall
  rw [hv.stores_iff hP hall rfl, castItem_item hne, Option.some_inj, eq_comm]

/-- What a declaration stores for a value, by how the value is written. -/
theorem stores_iff {f : Form} (hd : p.Denotes P v f e) (hP : p.Stands P e) :
    p.Stores P e y ↔ v.converted p.type f = some y := by
  cases hd with
  | literal => exact stores_literal hT hne hP
  | named hname htype haddress hload =>
    exact stores_variable hT hne hname htype haddress hload hP
  | compound hform htype hgen hrun hstack =>
    exact stores_compound hT hne hform htype hgen hrun hstack hP

end

end Site

/-! ### Which values are stored alike -/

theorem extendByte_eq_one_iff (w : UInt32) : extendByte w = 1 ↔ w.toUInt8 = 1 := by
  constructor
  · intro h
    -- the lowest byte is not changed
    have hbyte : (extendByte w).toUInt8 = w.toUInt8 := by
      apply UInt8.toBitVec_inj.1
      apply BitVec.eq_of_getLsbD_eq
      intro i hi
      have hi' : i < 32 := by omega
      simp [extendByte, BitVec.getElem_signExtend, hi, hi']
    rw [← hbyte, h]
    rfl
  · intro h
    rw [extendByte, h]
    rfl

namespace Datum

theorem forall_form {q : Form → Prop} : (∀ f, q f) ↔ q .literal ∧ q .named ∧ q .compound := by
  constructor
  · exact fun h => ⟨h _, h _, h _⟩
  · rintro ⟨hl, hn, hc⟩ f
    cases f with
    | literal => exact hl
    | named => exact hn
    | compound => exact hc

variable {T : String} {v : Datum} (hT : T ∈ ["INT", "BYTE", "BOOL"]) (hne : T ≠ v.type)

include hT hne

theorem uniform_iff_word :
    (∃ w, ∀ f, ∃ x, v.converted T f = some x ∧ x.word = w) ↔ v.Uniform T := by
  simp only [mem_cons, not_mem_nil, or_false] at hT
  cases v with
  | int w =>
    rcases hT with rfl | rfl | rfl
    · exact absurd rfl hne
    · simp [forall_form, converted, Uniform]
    · rw [Uniform, ← extendByte_eq_one_iff]
      constructor
      · rintro ⟨c, hc⟩
        obtain ⟨x, hx, hword⟩ := hc .named
        obtain ⟨y, hy, hword'⟩ := hc .compound
        cases hx
        cases hy
        exact ⟨rfl, hword'.trans hword.symm⟩
      · rintro ⟨-, hone⟩
        have hw : w ≠ 0 := by
          rintro rfl
          exact absurd hone (by decide)
        refine ⟨1, forall_form.2 ⟨⟨_, rfl, ?_⟩, ⟨_, rfl, rfl⟩, ⟨_, rfl, hone⟩⟩⟩
        simp [Item.ofBool, hw]
  | bool b =>
    refine iff_of_true ⟨(Item.ofBool b).word, ?_⟩ trivial
    refine forall_form.2 ⟨⟨_, rfl, rfl⟩, ⟨_, rfl, rfl⟩, ⟨_, rfl, ?_⟩⟩
    split <;> rfl

/-- With their tags, truth values are not stored alike as integers. -/
theorem uniform_iff_item :
    (∃ x, ∀ f, v.converted T f = some x) ↔ v.Uniform T ∧ T ≠ "INT" := by
  rw [← uniform_iff_word hT hne]
  constructor
  · rintro ⟨x, hx⟩
    refine ⟨⟨x.word, fun f => ⟨x, hx f, rfl⟩⟩, ?_⟩
    rintro rfl
    cases v with
    | int w => exact hne rfl
    | bool b =>
      have h := (hx .literal).trans (hx .compound).symm
      simp [converted, Item.ofBool] at h
  · rintro ⟨⟨c, hc⟩, hint⟩
    have hbyte : ∀ f x, v.converted T f = some x → x.tag = .byte := by
      intro f x hx
      cases v with
      | int w =>
        obtain ⟨y, hy, -⟩ := hc .named
        have hT : T ≠ "BYTE" := by
          rintro rfl
          cases hy
        cases f <;>
        · simp only [converted, if_neg hT, Option.some_inj] at hx
          subst hx
          rfl
      | bool b =>
        cases f <;>
        · simp only [converted, if_neg hint, Option.some_inj] at hx
          subst hx
          rfl
    refine ⟨⟨.byte, c⟩, fun f => ?_⟩
    obtain ⟨x, hx, rfl⟩ := hc f
    rw [hx, ← hbyte f x hx]

end Datum

/-- However a value is written, its declaration in another type compiles and stores the same
    number just if the value is a truth value, or an integer with the lowest byte one that becomes
    a truth value. It stores the same item just if moreover the type is not that of integers. -/
theorem conversion_uniform_iff (p : Site) (v : Datum) (hT : p.type ∈ ["INT", "BYTE", "BOOL"])
    (hne : p.type ≠ v.type) (e : Form → Node) (P : Form → Program)
    (hd : ∀ f, p.Denotes (P f) v f (e f)) (hP : ∀ f, p.Stands (P f) (e f)) :
    ((∃ w, ∀ f, ∃ x, p.Stores (P f) (e f) x ∧ x.word = w) ↔ v.Uniform p.type) ∧
      ((∃ x, ∀ f, p.Stores (P f) (e f) x) ↔ v.Uniform p.type ∧ p.type ≠ "INT") := by
  have hstores : ∀ f x, p.Stores (P f) (e f) x ↔ v.converted p.type f = some x :=
    fun f x => Site.stores_iff hT hne (hd f) (hP f)
  simp only [hstores]
  exact ⟨Datum.uniform_iff_word hT hne, Datum.uniform_iff_item hT hne⟩

/-- The generator behind a declaration that compiles. -/
def Site.declared (p : Site) (e : Node) : Option Generator :=
  ((p.scope.checkAssignment (.atom (.text p.name)) (some e)).toOption.bind id).map fun value =>
    Gen.after (Gen.generate (p.renamed (.declare (.text p.name) p.type (some value)))) p.code

theorem Site.stands_of_whole {p : Site} {e : Node} {g : Generator} (hg : p.declared e = some g)
    (hw : g.Whole) : p.Stands g.program e := by
  rintro g' ⟨value, hcheck, hends⟩
  rw [Site.declared, hcheck] at hg
  obtain rfl : g' = g := hends.after_eq.symm.trans (Option.some.inj hg)
  exact .of_whole hw _

/-- At the top, the declaration of a truth value where an integer `y` holds 257. -/
def truthSite : Site where
  name := "x"
  type := "BOOL"
  function := ""
  parameters := []
  scope := { table := [(.text "y", "INT"), (.text "x", "BOOL")] }
  code := { identifiers := [(.text "y", 0)], memory := 4 }
  machine := { memory := { cells := ⟨4, #[1, 1]⟩, tags := #[.int] } }
  typed := rfl
  sound := ⟨rfl, fun h => absurd rfl h.2⟩
  here := rfl
  room := by decide

/-- The numeral 257, the variable `y`, and the sum of the variable and zero. -/
def spelled257 : Form → Node
  | .literal => (Datum.int 257).literal
  | .named => .literal "VARIABLE" (.text "y")
  | .compound => .binary "+" (.literal "VARIABLE" (.text "y")) (some (.literal "INT_LITERAL" (.int 0)))

/-- The code of the declaration with each of them. -/
def declared257 (f : Form) : Generator := (truthSite.declared (spelled257 f)).getD {}

theorem denotes257 : ∀ f, truthSite.Denotes (declared257 f).program (.int 257) f (spelled257 f) := by
  refine Datum.forall_form.2 ⟨.literal, ?_, ?_⟩
  · exact .named (a := 0) ⟨'y', [], rfl, by decide, by simp⟩ rfl rfl rfl
  · refine .compound (h := Gen.after (Gen.generate (spelled257 .compound)) truthSite.start)
      (m := { truthSite.machine with pc := 3, stack := [⟨.int, 257⟩] }) rfl rfl rfl ?_ rfl
    have hload : truthSite.machine.Runs (declared257 .compound).program 1
        { truthSite.machine with pc := 1, stack := [⟨.int, 257⟩] } :=
      .single (Machine.step_load (w := 0) rfl rfl (by decide)) rfl rfl
    have hzero : Machine.Runs (declared257 .compound).program
        { truthSite.machine with pc := 1, stack := [⟨.int, 257⟩] } 2
        { truthSite.machine with pc := 2, stack := [⟨.int, 0⟩, ⟨.int, 257⟩] } :=
      .single (Machine.step_push (w := 0) rfl (by decide)) rfl rfl
    have hsum : Machine.Runs (declared257 .compound).program
        { truthSite.machine with pc := 2, stack := [⟨.int, 0⟩, ⟨.int, 257⟩] } 3
        { truthSite.machine with pc := 3, stack := [⟨.int, 257⟩] } :=
      .single (Machine.step_compute .add (i := ⟨1, 0⟩) rfl rfl fun m hm =>
        Act.run_compute_items rfl rfl hm (by decide)) rfl rfl
    exact (hload.trans hzero (by decide) (by decide)).trans hsum (by decide) (by decide)

/-- The lowest byte of 257 is one, so however it is written it becomes true. -/
theorem conversion_uniform_257 :
    ∃ x, ∀ f, truthSite.Stores (declared257 f).program (spelled257 f) x := by
  have hwhole : ∀ f, truthSite.Stands (declared257 f).program (spelled257 f) := by
    refine Datum.forall_form.2 ⟨?_, ?_, ?_⟩
    · exact Site.stands_of_whole rfl (by decide)
    · exact Site.stands_of_whole rfl (by decide)
    · exact Site.stands_of_whole rfl (by decide)
  exact (conversion_uniform_iff truthSite (.int 257) (by decide) (by decide) spelled257
    (fun f => (declared257 f).program) denotes257 hwhole).2.2 ⟨⟨rfl, rfl⟩, by decide⟩

/-- The item at an address after a run of a source text. -/
def itemAfter (source : String) (address : UInt32) : Option Item :=
  (Compilation.codeOf source).toOption.bind fun g =>
    ((Machine.runFrom g.program 0 100 {}).machine.memory.load address).toOption

/-- As a truth value, zero is false if it is written as a numeral or a sum, and true if it is
    written as a variable. -/
theorem conversion_differs_zero :
    itemAfter "int v = 0; bool x = 0;" 4 = some (.ofBool false) ∧
      itemAfter "int v = 0; bool x = v + 0;" 4 = some (.ofBool false) ∧
      itemAfter "int v = 0; bool x = v;" 4 = some (.ofBool true) := by
  decide +kernel

end StackLang
