import StackLang.Proofs.Faithful
import StackLang.Proofs.FunctionEnd

/-!
# Blocks among statements

A block can stand where a statement can, but generation has no code for it. So a
block is as good as the statements in it only if they have no code either.

`Node.isSilent` says of a tree when this is so: for a block, for an exit while no
loop is open, for a field of a record, for the assignment of a silent value to one,
and for a call on a record with silent arguments. The two halves of this are

* `Gen.ends_of_isSilent`: a silent node leaves the generator as it is;
* `Gen.length_lt_of_ends`: any other node that comes to its end has written
  something.
-/

namespace StackLang

open List Node Generator Course

mutual

/-- Generation from `g` writes nothing for the node. -/
def Node.isSilent (g : Generator) : Node → Bool
  | .block _ | .parameter _ | .plain | .plainExpression => true
  | .breakLoop | .continueLoop => !g.inLoop
  | .call _ xs (.atom a) => g.objects.has a && areSilent g xs
  | .member (.node (.member o a i)) _ indexed => !indexed && isSilent g (.member o a i)
  | .member _ _ indexed => !indexed
  | .assign (.node (.member _ _ false)) v => isSilent g v
  | _ => false

/-- Generation from `g` writes nothing for any of the nodes. -/
def Node.areSilent (g : Generator) : List Node → Bool
  | [] => true
  | n :: ns => isSilent g n && areSilent g ns

end

namespace Node

variable {g : Generator}

theorem areSilent_iff {ns : List Node} : areSilent g ns = true ↔ ∀ n ∈ ns, n.isSilent g := by
  induction ns with
  | nil => simp [areSilent]
  | cons n ns ih => simp [areSilent, ih]

theorem isSilent_member_plain {o a : Operand} {i : Bool}
    (ho : ∀ o' a' i', o ≠ .node (.member o' a' i')) : (member o a i).isSilent g = !i := by
  unfold isSilent
  split <;> simp_all

end Node

section

variable {n : Node} {g h : Generator} {ts : List Task} {ks fs : List Nat}
  (c : Course n g ts ks fs h)

include c

/-- Along a course there is a slot more for each place more, if it is so along its parts. -/
theorem Course.size_of_parts (hts : ∀ t ∈ ts, ∀ k, Gen.Ends (Gen.generate t.node) t.start () k →
      k.code.size + t.start.length = t.start.code.size + k.length) :
    h.code.size + g.length = g.code.size + h.length := by
  induction c with
  | start => rfl
  | part c e ih =>
    have h₁ := ih fun t ht => hts t (mem_append_left _ ht)
    have h₂ := hts _ mem_concat_self _ e
    dsimp only at h₂
    omega
  | write c _ ih | declare c _ ih | keep c _ ih | back c _ _ ih =>
    have := ih hts
    simp only [push, Array.size_push]
    omega
  | wait c _ _ ih =>
    have := ih hts
    simp only [waitFor, Array.size_push]
    omega
  | fill c _ _ _ ih =>
    simpa [Generator.fill] using ih hts
  | settle e c _ _ ih =>
    have := ih hts
    unfold settled
    split <;> simpa [Generator.fill] using this
  | _ => apply_assumption; exact hts

/-- The places that a course has kept lie in its code. -/
theorem Course.kept_within {i : Nat} (hi : i ∈ ks) : g.length ≤ i ∧ i < h.length := by
  induction c with
  | start => cases hi
  | keep c _ ih =>
    rcases mem_cons.1 hi with rfl | hi
    · exact ⟨c.length_le, Nat.lt_succ_self _⟩
    · exact ⟨(ih hi).1, Nat.lt_succ_of_lt (ih hi).2⟩
  | part c e ih => exact ⟨(ih hi).1, Nat.lt_of_lt_of_le (ih hi).2 (Gen.length_le e)⟩
  | settle e c _ _ ih => exact (settled_length _ e).symm ▸ ih hi
  | write c _ ih | declare c _ ih | back c _ _ ih | wait c _ _ ih =>
    exact ⟨(ih hi).1, Nat.lt_succ_of_lt (ih hi).2⟩
  | _ => apply_assumption; exact hi

end

namespace Gen

variable {g g' : Generator} {ns xs : List Node} {n : Node} {k : String} {ps : List Parameter}
  {ms : List Node}

/-! ### Silent nodes -/

theorem ends_all_self (h : ∀ n ∈ ns, Ends (generate n) g () g) :
    Ends (generateReversed ns) g () g ∧ Ends (generateAll ns) g () g := by
  induction ns with
  | nil => exact ⟨ends_pure.2 ⟨rfl, rfl⟩, ends_pure.2 ⟨rfl, rfl⟩⟩
  | cons n ns ih =>
    obtain ⟨hn, hns⟩ := forall_mem_cons.1 h
    obtain ⟨h₁, h₂⟩ := ih hns
    exact ⟨ends_bind.2 ⟨(), g, h₁, hn⟩, ends_bind.2 ⟨(), g, hn, h₂⟩⟩

/-- Generation of a silent node changes nothing. -/
theorem ends_of_isSilent (h : n.isSilent g) : Ends (generate n) g () g := by
  induction n using childInduction with
  | h n ih =>
    cases n with
    | call f xs o =>
      cases o with
      | node m => simp [isSilent] at h
      | atom a =>
        simp only [isSilent, Bool.and_eq_true, areSilent_iff] at h
        obtain ⟨ha, hxs⟩ := h
        have hargs := (ends_all_self fun x hx => ih x (by simp [children, hx]) (hxs x hx)).1
        simp only [generate_call, ends_bind, ends_get]
        exact ⟨(), g, hargs, g, g, ⟨rfl, rfl⟩, by simp [Operand.isObject, ha]⟩
    | member o a i =>
      by_cases ho : ∃ o' a' i', o = .node (.member o' a' i')
      · obtain ⟨o', a', i', rfl⟩ := ho
        obtain ⟨rfl, h⟩ : i = false ∧ (member o' a' i').isSilent g := by
          simpa [isSilent] using h
        rw [generate_member_nested, ends_bind]
        exact ⟨(), g, ih _ (by simp [children, Operand.nodes]) h, ends_pure.2 ⟨rfl, rfl⟩⟩
      · have ho : ∀ o' a' i', o ≠ .node (.member o' a' i') := fun o' a' i' h => ho ⟨o', a', i', h⟩
        rw [isSilent_member_plain ho] at h
        obtain rfl : i = false := by simpa using h
        rw [generate_member_plain ho]
        exact ends_pure.2 ⟨rfl, rfl⟩
    | assign t v =>
      unfold isSilent at h
      split at h <;> try contradiction
      rename_i heq
      cases heq
      unfold generate
      exact ends_bind.2 ⟨(), g, ih _ (by simp [children]) h, ends_pure.2 ⟨rfl, rfl⟩⟩
    | breakLoop | continueLoop =>
      rw [generate, ends_exitCode]
      simp_all [isSilent]
    | block _ | parameter _ | plain | plainExpression =>
      rw [generate]
      exact ends_pure.2 ⟨rfl, rfl⟩
    | _ => simp [isSilent] at h

theorem ends_reversed_of_areSilent (hs : areSilent g xs = true)
    (e : Ends (generateReversed xs) g () g') : g' = g := by
  have hself := (ends_all_self fun x hx => ends_of_isSilent (areSilent_iff.1 hs x hx)).1
  rw [← e.after_eq, hself.after_eq]

/-! ### Nodes that write -/

theorem length_lt_of_indexCode {p : Node → Bool} {code : Nat} {a : Operand}
    (e : Ends (indexCode p code a) g () g') : g.length < g'.length := by
  cases a with
  | atom x => simp [ends_emitInt.1 e]
  | node m =>
    simp only [indexCode] at e
    split at e
    · simp only [ends_bind, ends_emit] at e
      obtain ⟨x, _, es, rfl⟩ := e
      obtain ⟨-, rfl⟩ := selector es
      simp
    · simp only [ends_bind, ends_emitInt] at e
      obtain ⟨_, h, em, rfl⟩ := e
      exact Nat.lt_succ_of_le (length_le em)

theorem length_lt_of_literalCode {v : Atom} (e : Ends (literalCode k v) g () g') :
    g.length < g'.length := by
  rcases ends_literalCode e with ⟨_, _, -, rfl⟩ | ⟨s, -, -, rfl⟩ | ⟨s, h, -, -, ec, rfl⟩
  · simp
  · simp
  · exact Nat.lt_succ_of_le (start.chars (n := .plain) ec).length_le

theorem length_lt_of_list (e : Ends (generate (.listLiteral k xs)) g () g') :
    g.length < g'.length := by
  rcases ends_list e with ⟨_, _, -, rfl⟩ | ⟨h, -, e₁, rfl⟩
  · simp
  · exact Nat.lt_succ_of_le (start.reversed (n := .plain) e₁).length_le

theorem length_le_of_fieldCode {r : Atom} (e : Ends (fieldCode r ps) g () g') :
    g.length ≤ g'.length := by
  induction ps generalizing g with
  | nil =>
    obtain ⟨-, rfl⟩ := ends_pure.1 e
    exact Nat.le_refl _
  | cons p ps ih =>
    simp only [fieldCode, ends_bind, ends_modify, ends_emitInt] at e
    obtain ⟨_, _, rfl, _, _, rfl, e⟩ := e
    exact Nat.le_trans (Nat.le_succ _) (ih e)

theorem length_lt_of_function {name : Atom} {r : String} {body : List Node}
    (e : Ends (generate (.function name r ps body)) g () g') : g.length < g'.length := by
  obtain ⟨g₁, g₂, g₃, g₄, e₁, e₂, e₃, e₄, rfl, -⟩ := ends_function e
  have h₁ := length_declareParameters e₁
  have h₂ := (start.stores (n := .plain) (fun _ _ _ _ _ => trivial) e₂).length_le
  have h₃ := (start.all (n := .plain) e₃).length_le
  have h₄ := (start.close (n := .plain) rfl e₄).length_le
  simp only [enterFunction, push_length, reserved_length,
    fill_length] at h₁ h₂ ⊢
  omega

theorem length_lt_of_loop (hn : n.isLoop) (e : Ends (generate n) g () g') :
    g.length < g'.length := by
  obtain ⟨v, c, body, counter, g₁, g₂, g₃, ev, ec, eb, -, rfl, -⟩ := ends_loop hn e
  have h₁ := (start.operand (n := .plain) ev).length_le
  have h₂ := length_le ec
  have h₃ := (start.all (n := .plain) eb).length_le
  simp only [enterBody, closeLoop, closed, push_length,
    flag_length, settled_length, fill_length,
    pushAll_length] at h₁ h₃ ⊢
  omega

theorem length_lt_of_conditional {c : Node} {thenBlock : List Node} {bs : List Branch}
    {elseBlock : Option (List Node)}
    (e : Ends (generate (.conditional c thenBlock bs elseBlock)) g () g') :
    g.length < g'.length := by
  obtain ⟨last, ends, ks, fs, k, c, hlast, hends, -, e⟩ := course_blocks e
  have c' := (c.fill rfl hlast (.inl rfl)).fillAll rfl hends e
  obtain ⟨h₁, h₂⟩ := c'.kept_within hlast
  omega

section

variable
  (hxs : ∀ x ∈ xs, ∀ g g', Ends (generate x) g () g' → x.isSilent g = false → g.length < g'.length)

include hxs

/-- One argument that writes is enough, wherever it stands. -/
theorem length_lt_of_reversed (e : Ends (generateReversed xs) g () g')
    (hs : areSilent g xs = false) : g.length < g'.length := by
  induction xs generalizing g' with
  | nil => simp [areSilent] at hs
  | cons x xs ih =>
    obtain ⟨hx, hxs⟩ := forall_mem_cons.1 hxs
    obtain ⟨_, h, e₁, e₂⟩ := ends_bind.1 e
    cases hall : areSilent g xs with
    | false => exact Nat.lt_of_lt_of_le (ih hxs e₁ hall) (length_le e₂)
    | true =>
      obtain rfl := ends_reversed_of_areSilent hall e₁
      exact hx _ _ e₂ (by simpa [areSilent, hall] using hs)

theorem length_lt_of_call {f : String} {o : Operand} (e : Ends (generate (.call f xs o)) g () g')
    (hs : (call f xs o).isSilent g = false) : g.length < g'.length := by
  obtain ⟨h, e₁, hcall⟩ := ends_call e
  have hle := (start.reversed (n := .plain) e₁).length_le
  rcases hcall with ⟨ho, rfl⟩ | ⟨-, k, e₂, e₃⟩
  · cases hall : areSilent g xs with
    | false => exact length_lt_of_reversed hxs e₁ hall
    | true =>
      -- then the record is as known before the arguments as it is behind them
      obtain rfl := ends_reversed_of_areSilent hall e₁
      cases o <;> simp_all [isSilent, Operand.isObject]
  · have hk : h.length ≤ k.length := by
      rcases ends_receiverCode e₂ with ⟨m, -, em⟩ | ⟨-, rfl⟩ | ⟨a, x, -, -, rfl⟩
      · exact length_le em
      · exact Nat.le_refl _
      · exact Nat.le_succ _
    rcases ends_calleeCode e₃ with ⟨n, -, rfl⟩ | ⟨a, -, -, rfl⟩
    all_goals exact Nat.lt_succ_of_le (Nat.le_trans hle hk)

end

/-- A node that is not silent has written something when it comes to its end. -/
theorem length_lt_of_ends (e : Ends (generate n) g () g') (hs : n.isSilent g = false) :
    g.length < g'.length := by
  induction n using childInduction generalizing g g' with
  | h n ih =>
    cases n with
    | binary op a b =>
      obtain ⟨h, k, c, e₁, e₂, -, rfl⟩ := ends_binary e
      exact Nat.lt_succ_of_le ((start.part (n := .plain) e₁).option e₂).length_le
    | literal k v =>
      rw [generate] at e
      exact length_lt_of_literalCode e
    | listLiteral k xs => exact length_lt_of_list e
    | call f xs o =>
      refine length_lt_of_call (fun x hx g g' e hs => ih x ?_ e hs) e hs
      simp [children, hx]
    | create r xs =>
      obtain ⟨h, info, e₁, -, rfl⟩ := ends_create e
      exact Nat.lt_succ_of_le (start.fields (n := .plain) e₁).length_le
    | member o a i =>
      obtain ⟨h, e₂, ⟨o', a', i', rfl, e₁⟩ | ⟨ho, hload⟩⟩ := ends_member e
      · cases i with
        | true => exact Nat.lt_of_le_of_lt (length_le e₁) (length_lt_of_indexCode e₂)
        | false =>
          obtain rfl : g' = h := e₂
          exact ih _ (by simp [children, Operand.nodes]) e₁ (by simpa [isSilent] using hs)
      · rw [isSilent_member_plain ho] at hs
        obtain rfl : i = true := by simpa using hs
        obtain ⟨x, -, rfl⟩ := hload
        exact Nat.lt_of_succ_lt (length_lt_of_indexCode e₂)
    | cast t s x =>
      obtain ⟨h, c, e₁, -, rfl⟩ := ends_cast e
      exact Nat.lt_succ_of_le (length_le e₁)
    | declare name t v =>
      obtain ⟨k, c, rfl⟩ := (start.reserve (n := .declare name t v) name t rfl).value
        (by rintro rfl _; rfl) e
      exact Nat.lt_succ_of_le c.length_le
    | function name r ps body => exact length_lt_of_function e
    | record name ps =>
      simp only [generate, recordCode, ends_bind, ends_modify, ends_emitInt] at e
      obtain ⟨_, _, rfl, _, h₁, e, rfl⟩ := e
      have hle := length_le_of_fieldCode e
      exact Nat.lt_succ_of_le hle
    | assign t v =>
      obtain ⟨h, e₁, ht⟩ := ends_assign e
      rcases ht with ⟨o, a, x, k, rfl, -, e₂, e₃⟩ | ⟨o, a, rfl, rfl⟩ | ⟨y, x, -, -, rfl⟩
      · have hle := (((start (n := .assign (.node (.member o a true)) v).part e₁).write
          (.of_code (c := Op.load) (x := x) rfl)).setters
          (fun _ => mem_append_left _) e₂).length_le
        exact Nat.lt_of_le_of_lt hle (length_lt_of_indexCode e₃)
      · exact ih _ (by simp [children]) e₁ (by simpa [isSilent] using hs)
      · exact Nat.lt_succ_of_le (length_le e₁)
    | conditional c thenBlock bs elseBlock => exact length_lt_of_conditional e
    | whileLoop c body | forLoop v c body => exact length_lt_of_loop rfl e
    | giveBack v =>
      simp only [generate, ends_bind, ends_emitInt] at e
      obtain ⟨_, h, e₁, rfl⟩ := e
      exact Nat.lt_succ_of_le (start.option (n := .plain) e₁).length_le
    | breakLoop | continueLoop =>
      obtain hl : g.inLoop = true := by simpa [isSilent] using hs
      rw [generate, ends_exitCode, if_pos hl] at e
      exact e ▸ Nat.lt_succ_self _
    | plainUnary | plainDeclaration _ =>
      rw [generate] at e
      exact absurd e ends_throw
    | _ => simp [isSilent] at hs

/-! ### Blocks in place of their statements -/

/-- Code has as many slots more as it is longer. -/
theorem size_of_ends : Ends (generate n) g () g' → g'.code.size + g.length = g.code.size + g'.length :=
  ends_induction (P := fun _ g k => k.code.size + g.length = g.code.size + k.length) fun c _ ih =>
    c.size_of_parts ih

theorem generateAll_append (ns ms : List Node) :
    generateAll (ns ++ ms) = generateAll ns >>= fun _ => generateAll ms := by
  induction ns with
  | nil => rw [generateAll, pure_bind, nil_append]
  | cons n ns ih => rw [cons_append, generateAll, generateAll, ih, bind_assoc]

theorem after_generateAll_append (e : Ends (generateAll ns) g () g') :
    after (generateAll (ns ++ ms)) g = after (generateAll ms) g' := by
  rw [generateAll_append, after, outcome_bind, e]
  rfl

/-- Behind a fault, nothing is generated any more. -/
theorem after_generateAll_of_fault (h : ∀ g', ¬Ends (generateAll ns) g () g') :
    after (generateAll (ns ++ ms)) g = after (generateAll ns) g := by
  rw [generateAll_append, after, after, outcome_bind]
  rcases ho : outcome (generateAll ns) g with ⟨_ | _, k⟩
  · rfl
  · exact absurd ho (h k)

theorem after_block (ss post : List Node) :
    after (generateAll (.block ss :: post)) g = after (generateAll post) g := by
  rw [generateAll, generate, pure_bind]

/-- Statements that write nothing are silent. -/
theorem isSilent_of_length_eq (e : Ends (generateAll ns) g () g') (hlen : g'.length = g.length) :
    ∀ n ∈ ns, n.isSilent g := by
  induction ns with
  | nil => exact forall_mem_nil _
  | cons n ns ih =>
    obtain ⟨_, h, e₁, e₂⟩ := ends_bind.1 e
    have h₁ := length_le e₁
    have h₂ := (start.all (n := .plain) e₂).length_le
    have hn : n.isSilent g := by
      by_contra hn
      have := length_lt_of_ends e₁ (by simpa using hn)
      omega
    obtain rfl : h = g := by rw [← e₁.after_eq, (ends_of_isSilent hn).after_eq]
    exact forall_mem_cons.2 ⟨hn, ih e₂⟩

end Gen

section

open Gen

/-- A block among statements has the same code as its own statements in its place, whatever
    follows, if and only if generation does not come to it or its statements are silent when it
    does. -/
theorem block_in_place_iff (pre ss : List Node) (g : Generator) :
    (∀ post, (after (generateAll (pre ++ .block ss :: post)) g).code =
        (after (generateAll (pre ++ (ss ++ post))) g).code) ↔
      ∀ h, Ends (generateAll pre) g () h → ∀ n ∈ ss, n.isSilent h := by
  by_cases hpre : ∃ h, Ends (generateAll pre) g () h
  · obtain ⟨h, hpre⟩ := hpre
    have hcome : (∀ k, Ends (generateAll pre) g () k → ∀ n ∈ ss, n.isSilent k) ↔
        ∀ n ∈ ss, n.isSilent h :=
      ⟨fun hk => hk h hpre, fun hss k hk => hk.after_eq ▸ hpre.after_eq.symm ▸ hss⟩
    simp only [hcome, after_generateAll_append hpre, after_block]
    constructor
    · intro hsame
      by_cases hss : ∃ k, Ends (generateAll ss) h () k
      · obtain ⟨k, hss⟩ := hss
        have hcode : h.code = k.code := by
          have hnil := hsame []
          rwa [after_generateAll_append hss] at hnil
        have hsize := (Course.start.all (n := .plain) hss).size_of_parts fun _ _ _ => size_of_ends
        refine isSilent_of_length_eq hss ?_
        rw [hcode] at hsize
        omega
      · -- what was written up to the fault cannot depend on what follows
        have hss : ∀ k, ¬Ends (generateAll ss) h () k := fun k hk => hss ⟨k, hk⟩
        simp only [after_generateAll_of_fault hss] at hsame
        have hone : h.code.push (.instruction Op.defineType (.int 0)) = h.code :=
          (hsame [.record .nothing []]).trans (hsame []).symm
        simpa using congrArg Array.size hone
    · intro hss post
      rw [after_generateAll_append (ends_all_self fun n hn => ends_of_isSilent (hss n hn)).2]
  · have hpre : ∀ k, ¬Ends (generateAll pre) g () k := fun k hk => hpre ⟨k, hk⟩
    simp only [after_generateAll_of_fault hpre]
    exact iff_of_true (fun _ => trivial) fun h hk => absurd hk (hpre h)

end

/-- The assignment has two slots where it stands alone, and none where it stands in a block. -/
theorem block_left_out : ∃ block plain scope scope' g g',
    parse (scan "int x = 0;\n\x7b x = 1; \x7d\n") = .ok (block, scope) ∧
    parse (scan "int x = 0;\nx = 1;\n") = .ok (plain, scope') ∧
    generateProgram block = .ok g ∧ generateProgram plain = .ok g' ∧
    g.code.size = 2 ∧ g'.code.size = 4 := by
  obtain ⟨block, scope, g, hb, hg, hsize⟩ := exists_of_codeOf
    "int x = 0;\n\x7b x = 1; \x7d\n" (f := fun g => g.code.size) (x := 2) (by decide +kernel)
  obtain ⟨plain, scope', g', hp, hg', hsize'⟩ := exists_of_codeOf
    "int x = 0;\nx = 1;\n" (f := fun g => g.code.size) (x := 4) (by decide +kernel)
  exact ⟨block, plain, scope, scope', g, g', hb, hp, hg, hg', hsize, hsize'⟩

end StackLang
