import StackLang.CommandLine
import StackLang.Proofs.Address
import StackLang.Proofs.Origin
import StackLang.Proofs.Parsing
import StackLang.Proofs.RoundTrip

/-!
# Images that say what was compiled

The image of a program says what was compiled if the machine loads one instruction for each
slot, with the number of the slot and the pattern of its argument. It does so unless an
argument is no number, which makes the rest of the image move up without a fault. Such
arguments come from indices that stand in an instruction themselves.

* `Image.length_eq_iff`: an image that is written to its end is whole just if all arguments are
  numbers;
* `numbers_iff`: the arguments of a program are numbers just if the values that its nodes put
  into instructions are;
* `image_faithful_iff`: for a source text, just if no index in an instruction is a variable, a
  string or a list.
-/

namespace StackLang

open Gen List

/-! ### Numbers as arguments -/

namespace Image

theorem isSome_of_argumentWord? {a : Argument} {w : Option UInt32} (h : argumentWord? a = .ok w) :
    w.isSome = a.isNumber := by
  revert h
  fun_cases argumentWord? a with
  | case1 | case3 | case4 =>
    intro h
    cases h
    rfl
  | case2 =>
    intro h
    cases h
  | case5 a hint hbool hreal =>
    intro h
    cases h
    cases a with
    | nodes xs => rfl
    | atom x =>
      cases x with
      | int n => exact absurd rfl (hint n)
      | bool b => exact absurd rfl (hbool b)
      | real x => exact absurd rfl (hreal x)
      | nothing | text => rfl

/-- An image without a fault has five bytes for each slot just if all arguments are numbers. -/
theorem length_eq_iff {ss : List Slot} (hf : (writeSlots ss).fault = none) :
    (writeSlots ss).bytes.length = 5 * ss.length ↔
      ∀ c a, .instruction c a ∈ ss → a.isNumber := by
  induction ss with
  | nil => simp [writeSlots]
  | cons s ss ih =>
    cases s with
    | bare n | label text => cases hf
    | instruction c a =>
      cases ha : argumentWord? a with
      | error f => simp [writeSlots, ha] at hf
      | ok word =>
        simp only [writeSlots, ha] at hf ⊢
        have hword := isSome_of_argumentWord? ha
        simp only [mem_cons, Slot.instruction.injEq, length_cons]
        cases word with
        | none =>
          -- four bytes are missing, and the rest has at most its share
          have hle := length_writeSlots_le ss
          constructor
          · intro h
            simp at h
            omega
          · intro h
            rw [h c a (.inl ⟨rfl, rfl⟩)] at hword
            cases hword
        | some w =>
          have hlen : ((some w).map wordBytes).getD [] ++ (writeSlots ss).bytes =
              wordBytes w ++ (writeSlots ss).bytes := rfl
          rw [hlen, length_append, show (wordBytes w).length = 4 from rfl]
          constructor
          · intro h c' a' hmem
            rcases hmem with ⟨rfl, rfl⟩ | hmem
            · exact hword.symm
            · exact (ih hf).1 (by omega) c' a' hmem
          · intro h
            have := (ih hf).2 fun c' a' hmem => h c' a' (.inr hmem)
            omega

end Image

/-! ### Values that stand in instructions -/

namespace Gen

variable {g h k : Generator} {m : Node} {a c : Nat} {x : Argument} {o : Operand}

/-- The value of the node stands in an instruction at a place from `a` to the end of `k`. -/
def Stands (m : Node) (a : Nat) (k : Generator) : Prop :=
  ∃ x c i, m.argument? = some x ∧ a ≤ i ∧ k.code[i]? = some (.instruction c x)

theorem Stands.of_push (hg : g.Sound) (hx : m.argument? = some x) (ha : a ≤ g.length) :
    Stands m a (g.push (.instruction c x)) :=
  ⟨x, c, g.length, hx, ha, hg.push_code_length _⟩

theorem Stands.keeps (hs : Stands m a g) (hg : g.Sound) (hk : Keeps 0 g.length g h) :
    Stands m a h := by
  obtain ⟨x, c, i, hx, ha, hi⟩ := hs
  exact ⟨x, c, i, hx, ha, hk.instruction hg (Nat.zero_le _) (hg.lt_of_code hi) hi⟩

theorem Stands.mono {b : Nat} (hs : Stands m a g) (hb : b ≤ a) : Stands m b g := by
  obtain ⟨x, c, i, hx, ha, hi⟩ := hs
  exact ⟨x, c, i, hx, Nat.le_trans hb ha, hi⟩

theorem Stands.of_emit (hg : g.Sound) (hx : m.argument? = some x) (e : Ends (emit c x) g () h) :
    Stands m g.length h := by
  rw [ends_emit.1 e]
  exact .of_push hg hx (Nat.le_refl _)

/-- An index in place is written into its instruction, behind all other code. -/
theorem stands_of_indexCode {p : Node → Bool} {code : Nat} (hg : g.Sound) (hm : m ∈ o.inPlace p)
    (e : Ends (indexCode p code o) g () h) : Stands m g.length h := by
  obtain ⟨hm, hp⟩ := mem_filter.1 hm
  cases o with
  | atom x => cases hm
  | node m' =>
    obtain rfl := mem_singleton.1 hm
    simp only [indexCode, if_pos hp, ends_bind] at e
    obtain ⟨x, _, es, e⟩ := e
    obtain ⟨hx, rfl⟩ := Course.selector es
    exact .of_emit hg hx e

/-- So are the indices on the way to an assigned element. -/
theorem stands_of_generateSetters (hg : g.Sound) (hm : m ∈ o.stepsInPlace)
    (e : Ends (generateSetters o) g () h) : Stands m g.length h := by
  fun_induction Operand.stepsInPlace o generalizing g with
  | case1 o a ih =>
    rw [generateSetters_member] at e
    obtain ⟨_, k, e₁, e₂⟩ := ends_bind.1 e
    have c₁ := (Course.start (n := .assign (.node (.member (.atom .nothing) a true)) .plain)).index
      rfl (fun _ => id) e₁
    have c₂ := (Course.start (n := .assign (.node (.member o (.atom .nothing) true)) .plain)).setters
      (fun _ => mem_append_left _) e₂
    have hk := (c₁.laid hg).sound
    rcases mem_append.1 hm with hm | hm
    · exact (stands_of_indexCode hg hm e₁).keeps hk (c₂.laid hk).keeps
    · exact (ih hk hm e₂).mono c₁.length_le
  | case2 => cases hm

theorem stands_of_member {a : Operand} (hg : g.Sound) (hm : m ∈ a.inPlace Node.isUnary)
    (e : Ends (generate (.member o a true)) g () h) : Stands m g.length h := by
  obtain ⟨k, e₂, ⟨o', a', i', rfl, e₁⟩ | ⟨-, x, -, rfl⟩⟩ := ends_member e
  · exact (stands_of_indexCode (built_of_ends hg e₁).sound hm e₂).mono (length_le e₁)
  · exact (stands_of_indexCode (hg.push _) hm e₂).mono (Nat.le_succ _)

theorem stands_of_assign {a : Operand} {v : Node} (hg : g.Sound)
    (hm : m ∈ o.stepsInPlace ++ a.inPlace isConstant)
    (e : Ends (generate (.assign (.node (.member o a true)) v)) g () h) : Stands m g.length h := by
  simp only [generate_assign_element, ends_bind, ends_emitInt] at e
  obtain ⟨_, _, e₁, x, g₁, ex, _, _, rfl, _, k, e₂, e₃⟩ := e
  obtain rfl := ends_addressOf ex
  have hg₁ := (built_of_ends hg e₁).sound.push (.instruction Op.load (.int x))
  have hle : g.length ≤ (g₁.push (.instruction Op.load (.int x))).length :=
    Nat.le_succ_of_le (length_le e₁)
  have c₂ := (Course.start (n := .assign (.node (.member o (.atom .nothing) true)) .plain)).setters
    (fun _ => mem_append_left _) e₂
  have c₃ := (Course.start (n := .assign (.node (.member (.atom .nothing) a true)) .plain)).index
    rfl (fun _ => id) e₃
  have hk := (c₂.laid hg₁).sound
  rcases mem_append.1 hm with hm | hm
  · exact ((stands_of_generateSetters hg₁ hm e₂).keeps hk (c₃.laid hk).keeps).mono hle
  · exact (stands_of_indexCode hk hm e₃).mono (Nat.le_trans hle c₂.length_le)

end Gen

/-- Every value that a node puts into instructions stands in its code. -/
theorem Task.Done.stands {t : Task} (ht : t.Done) {m : Node} (hm : m ∈ t.node.verbatim) :
    Stands m t.start.length t.finish := by
  have e := ht.ends
  cases hn : t.node with
  | literal k v | listLiteral k xs =>
    rw [hn] at hm e
    simp only [Node.verbatim] at hm
    split at hm
    · rename_i hk
      obtain rfl := mem_singleton.1 hm
      rcases hk with rfl | rfl <;> rw [generate] at e
      · exact .of_emit ht.sound rfl e
      · exact .of_emit ht.sound rfl e
    · cases hm
  | member o a i =>
    rw [hn] at hm e
    cases i with
    | false => cases hm
    | true => exact stands_of_member ht.sound hm e
  | assign o v =>
    rw [hn] at hm e
    change m ∈ Node.inPlace (.assign o v) at hm
    unfold Node.inPlace at hm
    split at hm
    · contradiction
    · rename_i heq
      cases heq
      exact stands_of_assign ht.sound hm e
    · cases hm
  | _ =>
    rw [hn] at hm
    cases hm

/-- All arguments of a program are numbers just if the values are that its nodes put into
    instructions. -/
theorem numbers_iff {p : List Node} {g : Generator} (h : generateProgram p = .ok g) :
    (∀ c a, .instruction c a ∈ g.code → a.isNumber) ↔
      ∀ n ∈ p.flatMap Node.reached, ∀ m ∈ n.verbatim, ∃ a, m.argument? = some a ∧ a.isNumber := by
  constructor
  · intro hall n hn m hm
    rw [← map_programTasks h] at hn
    obtain ⟨t, ht, rfl⟩ := mem_map.1 hn
    have hin := inside_of_mem_programTasks h ht
    obtain ⟨a, c, i, ha, hi, hs⟩ := hin.done.stands hm
    have hs' := hin.keeps.instruction hin.done.built.sound hi
      (hin.done.built.sound.lt_of_code hs) hs
    exact ⟨a, ha, hall c a (Array.mem_of_getElem? hs')⟩
  · intro hall c a hmem
    obtain ⟨i, hi⟩ := Array.getElem?_of_mem hmem
    have isNumber_int : ∀ {a : Argument}, (∃ x : Int, a = .int x) → a.isNumber := by
      rintro _ ⟨x, rfl⟩
      rfl
    rcases origin_of_generateProgram h hi with hf | ⟨u, hu, -, _, _, _, _, -, -, hp⟩
    · exact isNumber_int hf.number
    · rcases hp.argument with hx | ⟨m, hm, ha⟩
      · exact isNumber_int hx
      · have hreached : u.node ∈ p.flatMap Node.reached := by
          rw [← map_programTasks h]
          exact mem_map_of_mem hu
        obtain ⟨a', ha', hnum⟩ := hall _ hreached m hm
        rw [ha] at ha'
        cases ha'
        exact hnum

/-! ### Indices of a parsed program -/

namespace Operand

variable {o : Operand} {m : Node}

theorem mem_nodes_of_inPlace {p : Node → Bool} (h : m ∈ o.inPlace p) : m ∈ o.nodes := (mem_filter.1 h).1

theorem mem_indices_of_stepsInPlace (h : m ∈ o.stepsInPlace) : m ∈ o.indices := by
  fun_induction stepsInPlace o with
  | case1 o a ih =>
    rw [indices]
    rcases mem_append.1 h with h | h
    · exact mem_append_left _ (mem_nodes_of_inPlace h)
    · exact mem_append_right _ (ih h)
  | case2 => cases h

end Operand

namespace Node

variable {n m : Node}

/-- Whether the node is a numeral or a truth value. -/
def isNumeral : Node → Bool
  | .literal k _ => ["INT_LITERAL", "FLOAT_LITERAL", "BOOL_LITERAL"].contains k
  | _ => false

theorem Read.inPlace (hn : n.Read) (hm : m ∈ n.inPlace) : m.Read := by
  unfold Node.inPlace at hm
  split at hm
  · exact hn.child (mem_append_right _ (Operand.mem_nodes_of_inPlace hm))
  · rename_i o a v
    refine Throughout.indices (o := .node (.member o a true))
      (fun x hx => hn.child (mem_cons_of_mem _ hx)) ?_
    rw [Operand.indices]
    rcases mem_append.1 hm with hm | hm
    · exact mem_append_right _ (Operand.mem_indices_of_stepsInPlace hm)
    · exact mem_append_left _ (Operand.mem_nodes_of_inPlace hm)
  · cases hm

/-- As an argument, a literal is a number just if it is a numeral or a truth value. -/
theorem Read.isNumeral_iff (hm : m.Read) :
    (∃ a, m.argument? = some a ∧ a.isNumber) ↔ m.isNumeral := by
  cases m with
  | literal k v =>
    have hv : Lexeme k v := hm.self
    simp only [argument?, Option.some.injEq, exists_eq_left', isNumeral]
    cases hv <;> simp [Argument.isNumber]
  | listLiteral k xs => simp [argument?, isNumeral, Argument.isNumber]
  | _ => simp [argument?, isNumeral]

/-- Of the values that a node puts into instructions only its indices can fail to be numbers. -/
theorem Read.verbatim_iff (hn : n.Read) :
    (∀ m ∈ n.verbatim, ∃ a, m.argument? = some a ∧ a.isNumber) ↔
      ∀ m ∈ n.inPlace, m.isNumeral := by
  cases n with
  | literal k v =>
    have hv : Lexeme k v := hn.self
    refine iff_of_true (fun m hm => ?_) (forall_mem_nil _)
    cases hv with
    | real x =>
      obtain rfl : m = .literal "FLOAT_LITERAL" (.real x) := by simpa [verbatim] using hm
      exact ⟨_, rfl, rfl⟩
    | _ => simp [verbatim] at hm
  | listLiteral k xs =>
    obtain ⟨base, rfl⟩ : ∃ base, k = base ++ "[]" := hn.self
    -- a kind of lists ends with a bracket, and those two do not
    have hends : ∀ s : String, s.toList.getLast? ≠ some ']' → base ++ "[]" ≠ s := by
      rintro _ hs rfl
      simp at hs
    have hkind : ¬(base ++ "[]" = "FLOAT_LITERAL" ∨ base ++ "[]" = "BYTE_LITERAL") :=
      not_or.2 ⟨hends _ (by decide), hends _ (by decide)⟩
    refine iff_of_true (fun m hm => ?_) (forall_mem_nil _)
    rw [verbatim, if_neg hkind] at hm
    cases hm
  | _ =>
    refine forall₂_congr fun m hm => ?_
    exact (hn.inPlace hm).isNumeral_iff

end Node

/-- The machine loads what was compiled: there are five bytes for each slot, as many
    instructions as slots, and each has the number of its slot and the pattern of its
    argument. -/
structure Generator.Faithful (g : Generator) : Prop where
  length : (Image.write g).bytes.length = 5 * g.code.size
  size : g.program.size = g.code.size
  each : ∀ i < g.code.size, ∃ c a j, g.code[i]? = some (.instruction c a) ∧
    g.program[i]? = some j ∧ j.code.toNat = c ∧ a.Pattern j.arg

theorem Generator.Whole.faithful {g : Generator} (hw : g.Whole) (hr : g.Regular) : g.Faithful where
  length := hw.words
  size := hw.size
  each i hi := by
    have hs := Array.getElem?_eq_getElem hi
    obtain ⟨c, a, w, hslot, ha, hfetch⟩ := hw.fetch hs
    have hreg : (Slot.instruction c a).Regular := hslot ▸ hr _ (Array.getElem_mem hi)
    refine ⟨c, a, _, hslot ▸ hs, hfetch, ?_, Image.argumentWord?_eq_some_iff.1 ha⟩
    simpa using hreg.1

/-- The image of a source text that is written without a fault says what was compiled if and
    only if, at every access and every assigned element that generation comes to, the index is a
    numeral or a truth value wherever it stands in the instruction itself: for an access, wherever
    it is a literal or a variable, for an assigned element only where it is a literal. -/
theorem image_faithful_iff {source : String} {program : List Node} {scope : Scope} {g : Generator}
    (hp : parse (scan source) = .ok (program, scope)) (hg : generateProgram program = .ok g)
    (hw : (Image.write g).fault = none) :
    g.Faithful ↔ ∀ n ∈ program.flatMap Node.reached, ∀ m ∈ n.inPlace, m.isNumeral := by
  have hread : ∀ n ∈ program.flatMap Node.reached, n.Read := by
    intro n hn
    obtain ⟨x, hx, hn⟩ := List.mem_flatMap.1 hn
    exact (read_of_parse hp x hx).reached hn
  have hnumbers : g.Faithful ↔ ∀ c a, .instruction c a ∈ g.code → a.isNumber := by
    have hlength : (Image.write g).bytes.length = 5 * g.code.size ↔
        ∀ c a, .instruction c a ∈ g.code → a.isNumber := by
      simpa [Image.write] using Image.length_eq_iff hw
    rw [← hlength]
    refine ⟨Generator.Faithful.length, fun h => ?_⟩
    exact Generator.Whole.faithful ⟨hw, h⟩ (regular_of_generateProgram hg)
  rw [hnumbers, numbers_iff hg]
  exact forall₂_congr fun n hn => (hread n hn).verbatim_iff

/-- What is computed from the code of a source text holds of it. -/
theorem exists_of_codeOf {α : Type} (source : String) {f : Generator → α} {x : α}
    (h : (Compilation.codeOf source).toOption.map f = some x) :
    ∃ program scope g, parse (scan source) = .ok (program, scope) ∧
      generateProgram program = .ok g ∧ f g = x := by
  cases hc : Compilation.codeOf source with
  | error e =>
    rw [hc] at h
    cases h
  | ok g =>
    rw [hc] at h
    obtain ⟨⟨program, scope⟩, hp, hg⟩ := ok_of_bind hc
    exact ⟨program, scope, g, hp, hg, Option.some.inj h⟩

/-- A variable as the index of an assigned element has code of its own, and a numeral is a good
    argument. -/
theorem image_faithful_assigned : ∃ program scope g,
    parse (scan "int[] a = [1, 2];\nint i = 1;\na[i] = a[0];\n") = .ok (program, scope) ∧
    generateProgram program = .ok g ∧ (Image.write g).fault = none ∧ g.Faithful ∧
    ∀ n ∈ program.flatMap Node.reached, ∀ m ∈ n.inPlace, m.isNumeral := by
  obtain ⟨program, scope, g, hp, hg, hf⟩ := exists_of_codeOf
    "int[] a = [1, 2];\nint i = 1;\na[i] = a[0];\n"
    (f := fun g => ((Image.write g).fault, (Image.write g).bytes.length == 5 * g.code.size))
    (x := (none, true)) (by decide +kernel)
  obtain ⟨hw, hlen⟩ := Prod.mk.inj hf
  have hfaithful : g.Faithful :=
    Generator.Whole.faithful ⟨hw, eq_of_beq hlen⟩ (regular_of_generateProgram hg)
  exact ⟨program, scope, g, hp, hg, hw, hfaithful, (image_faithful_iff hp hg hw).1 hfaithful⟩

/-- A variable as the index of an access stands in the instruction, which then has no word: the
    nine slots have forty-one bytes. -/
theorem image_unfaithful_access : ∃ program scope g,
    parse (scan "int[] a = [1, 2];\nint i = 0;\nint x = a[i];\n") = .ok (program, scope) ∧
    generateProgram program = .ok g ∧ (Image.write g).fault = none ∧ g.code.size = 9 ∧
    (Image.write g).bytes.length = 41 ∧ ¬g.Faithful := by
  obtain ⟨program, scope, g, hp, hg, hf⟩ := exists_of_codeOf
    "int[] a = [1, 2];\nint i = 0;\nint x = a[i];\n"
    (f := fun g => ((Image.write g).fault, g.code.size, (Image.write g).bytes.length))
    (x := (none, 9, 41)) (by decide +kernel)
  obtain ⟨hw, hrest⟩ := Prod.mk.inj hf
  obtain ⟨hsize, hlen⟩ := Prod.mk.inj hrest
  refine ⟨program, scope, g, hp, hg, hw, hsize, hlen, fun h => ?_⟩
  have := h.length
  omega

end StackLang
