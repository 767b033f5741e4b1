import StackLang.Tree.Parse

/-!
# Reading back printed expressions

A *phrase* is a tree of binary operators over literals and variables, perhaps with a `not` over the
whole. Printed, an operand stands in parentheses exactly where the groups of operators ask for
them: on the left when its own operator is weaker than the one above it, on the right also when it
is of the same group. Read back, the printed tokens give the tree.

The parser descends through the groups, one *level* for each, and comes to the operands at the level
after the last group. `ReadAt` and `ReadOnAt` say that a tree, printed for a level, is read back at
that level: to the end, or as what the operators of the level have gathered so far. A tree is read
on at the level of its own operator, from there read at the weaker levels, from the weakest one read
between parentheses, and so read at the stronger levels.
-/

namespace StackLang

open List Parse

/-! ### Phrases and how they are printed -/

/-- A kind of token and the value that the token carries. -/
abbrev Sign := Kind × Atom

/-- What a token is, without its place. -/
def Token.sign (t : Token) : Sign := (t.kind, t.value)

/-- The operators between two operands. -/
inductive BinaryOperator where
  | and | or
  | eq | neq | lt | gt | le | ge
  | add | sub
  | mul | div | mod
  | pow

namespace BinaryOperator

/-- How strongly an operator binds. -/
def group : BinaryOperator → Nat
  | .and | .or => 0
  | .eq | .neq | .lt | .gt | .le | .ge => 1
  | .add | .sub => 2
  | .mul | .div | .mod => 3
  | .pow => 4

/-- How an operator is written. -/
def symbol : BinaryOperator → String
  | .and => "and"
  | .or => "or"
  | .eq => "=="
  | .neq => "!="
  | .lt => "<"
  | .gt => ">"
  | .le => "<="
  | .ge => ">="
  | .add => "+"
  | .sub => "-"
  | .mul => "*"
  | .div => "/"
  | .mod => "%"
  | .pow => "^"

/-- The kind of the token of an operator. -/
def kind : BinaryOperator → Kind
  | .and => .andWord
  | .or => .orWord
  | .eq => .eq
  | .neq => .neq
  | .lt => .lt
  | .gt => .gt
  | .le => .le
  | .ge => .ge
  | .add => .plus
  | .sub => .minus
  | .mul => .multiply
  | .div => .divide
  | .mod => .mod
  | .pow => .pow

/-- The token of an operator. -/
def sign (o : BinaryOperator) : Sign := (o.kind, .text o.symbol)

theorem group_lt (o : BinaryOperator) : o.group < groups.length := by
  cases o <;> decide

/-- The parser puts every operator into its own group and no other. -/
theorem kind_mem_groups (o : BinaryOperator) (g : Nat) :
    o.kind ∈ groups.getD g [] ↔ o.group = g := by
  rcases g with _ | _ | _ | _ | _ | g <;> cases o <;> simp [groups, kind, group]

end BinaryOperator

/-- What stands without operators: a literal, or a variable by its name. -/
inductive Leaf where
  | int (n : Int)
  | real (x : Real64)
  | text (s : String)
  | truth (b : Bool)
  | name (x : String)

namespace Leaf

/-- The token of a leaf. -/
def sign : Leaf → Sign
  | .int n => (.intLiteral, .int n)
  | .real x => (.floatLiteral, .real x)
  | .text s => (.stringLiteral, .text s)
  | .truth b => (.boolLiteral, .bool b)
  | .name x => (.identifier, .text x)

/-- The node of a leaf. -/
def node : Leaf → Node
  | .int n => .literal "INT_LITERAL" (.int n)
  | .real x => .literal "FLOAT_LITERAL" (.real x)
  | .text s => .literal "STRING_LITERAL" (.text s)
  | .truth b => .literal "BOOL_LITERAL" (.bool b)
  | .name x => .literal "VARIABLE" (.text x)

/-- The variables that a leaf names. -/
def names : Leaf → List String
  | .name x => [x]
  | _ => []

end Leaf

/-- A tree of operators over leaves. -/
inductive OperatorTree where
  | leaf (l : Leaf)
  | binary (operator : BinaryOperator) (first second : OperatorTree)

/-- Tokens in parentheses. -/
def enclosed (signs : List Sign) : List Sign :=
  (.lparen, .text "(") :: (signs ++ [(.rparen, .text ")")])

namespace OperatorTree

/-- The node of a tree of operators. -/
def node : OperatorTree → Node
  | .leaf l => l.node
  | .binary o a b => .binary o.symbol a.node (some b.node)

/-- How a tree of operators is described: its first operand is the one called right. -/
def described : OperatorTree → Doc
  | .leaf l => l.node.describe
  | .binary o a b => .dict
    [("type", .text "BinaryExpression"), ("operator", .text o.symbol), ("left", b.described),
     ("right", a.described)]

theorem describe_node (e : OperatorTree) : e.node.describe = e.described := by
  induction e with
  | leaf l => rfl
  | binary o a b iha ihb => simp only [node, described, Node.describe, describeOption, iha, ihb]

/-- The variables that a tree of operators names. -/
def names : OperatorTree → List String
  | .leaf l => l.names
  | .binary _ a b => a.names ++ b.names

/-- The tokens of a tree, as an operand that only operators of the level and stronger ones may stand
    in without parentheses. -/
def printed : OperatorTree → (level : Nat) → List Sign
  | .leaf l, _ => [l.sign]
  | .binary o a b, level =>
    let bare := a.printed o.group ++ o.sign :: b.printed (o.group + 1)
    if o.group < level then enclosed bare else bare

/-- Every variable of the tree is declared. -/
def DeclaredIn (e : OperatorTree) (s : Scope) : Prop :=
  ∀ x ∈ e.names, ∃ type, s.typeOfName (.text x) = .ok type

end OperatorTree

/-- A tree of operators, negated as a whole or not. -/
structure Phrase where
  negated : Bool
  body : OperatorTree

namespace Phrase

/-- The tokens of a phrase. -/
def printed (p : Phrase) : List Sign :=
  if p.negated then (.notWord, .text "not") :: p.body.printed 0 else p.body.printed 0

/-- The node of a phrase. -/
def node (p : Phrase) : Node :=
  if p.negated then .binary "not" p.body.node none else p.body.node

/-- How a phrase is described. What a negation negates is called right, and nothing left. -/
def described (p : Phrase) : Doc :=
  if p.negated then .dict
    [("type", .text "BinaryExpression"), ("operator", .text "not"), ("left", Doc.none),
     ("right", p.body.described)]
  else p.body.described

theorem describe_node (p : Phrase) : p.node.describe = p.described := by
  obtain ⟨negated, body⟩ := p
  cases negated
  · exact body.describe_node
  · simp only [node, described, if_true, Node.describe, describeOption, body.describe_node]

end Phrase

/-! ### Single steps of the parser -/

namespace Parse

/-- The rest of a parser goes on where its first step ends. -/
theorem bind_ok {α β : Type} {a : Parse α} {f : α → Parse β} {s s' : ParseState} {x : α}
    (h : a s = .ok (x, s')) : (a >>= f) s = f x s' := by
  change (a s >>= fun p => f p.1 p.2) = _
  rw [h]
  rfl

variable (t u : Token) (rest : List Token) (fault : Option Fault) (scope : Scope)

theorem current_cons : current ⟨t :: rest, fault, scope⟩ = .ok (t, ⟨t :: rest, fault, scope⟩) := rfl

theorem current?_cons :
    current? ⟨t :: rest, fault, scope⟩ = .ok (some t, ⟨t :: rest, fault, scope⟩) := rfl

theorem kind_cons : kind ⟨t :: rest, fault, scope⟩ = .ok (t.kind, ⟨t :: rest, fault, scope⟩) := rfl

theorem advance_cons :
    advance ⟨t :: u :: rest, fault, scope⟩ = .ok ((), ⟨u :: rest, fault, scope⟩) := rfl

theorem advance_append (front : List Token) :
    advance ⟨t :: (front ++ u :: rest), fault, scope⟩ =
      .ok ((), ⟨front ++ u :: rest, fault, scope⟩) := by
  cases front <;> rfl

theorem markLine_cons : markLine ⟨t :: rest, fault, scope⟩ =
    .ok ((), ⟨t :: rest, fault, { scope with line := t.line }⟩) := rfl

theorem atOperator_cons (g : Nat) : atOperator g ⟨t :: rest, fault, scope⟩ =
    .ok ((groups.getD g []).contains t.kind, ⟨t :: rest, fault, scope⟩) := rfl

theorem ask_ok {α : Type} {f : Scope → Except Fault α} {x : α} (h : f scope = .ok x) :
    ask f ⟨rest, fault, scope⟩ = .ok (x, ⟨rest, fault, scope⟩) := by
  change (f scope >>= fun x => Except.ok (x, _)) = _
  rw [h]
  rfl

/-- What does not begin with a negation is read by the groups of operators. -/
theorem expression_cons {t : Token} (n : Nat) (h : t.kind ≠ .notWord) :
    expression (n + 1) ⟨t :: rest, fault, scope⟩ = operators n 0 ⟨t :: rest, fault, scope⟩ := by
  rw [expression, bind_ok (current?_cons ..)]
  refine (?_ : ∀ a : Parse Node, a = _ → a _ = _) _ rfl
  intro a ha
  split at ha
  · rename_i ht
    cases ht
    exact absurd rfl h
  · rw [ha]

end Parse

/-- The line that faults are reported on does not matter to the type of a declared variable. -/
theorem typeOfName_at_line {s : Scope} {x type : String} (line : Int)
    (h : s.typeOfName (.text x) = .ok type) : { s with line }.typeOfName (.text x) = .ok type := by
  unfold Scope.typeOfName at h ⊢
  -- The look-ups go by the table and the context alone; only the fault of a failed one has a line.
  cases ht : s.table.get? (.text x) with
  | some t => simpa only [ht] using h
  | none =>
    cases hc : s.table.get? (.text (s.context ++ "." ++ x)) with
    | some t => simpa only [ht, hc] using h
    | none =>
      cases ho : Scope.searchOutwards s.table (cutAt '.' s.context.toList).reverse
          (s.context ++ "." ++ x).toList with
      | some t => simpa only [ht, hc, ho] using h
      | none => simp only [ht, hc, ho, Scope.fail, reduceCtorEq] at h

namespace OperatorTree

theorem DeclaredIn.at_line {e : OperatorTree} {s : Scope} (h : e.DeclaredIn s) (line : Int) :
    e.DeclaredIn { s with line } := by
  intro x hx
  obtain ⟨type, ht⟩ := h x hx
  exact ⟨type, typeOfName_at_line line ht⟩

/-! ### Levels -/

/-- The token goes on with no operator of the level or a stronger one, and makes no call, index or
    member of the name before it. -/
def Stops (level : Nat) (t : Token) : Prop :=
  (∀ g, level ≤ g → t.kind ∉ Parse.groups.getD g []) ∧ t.kind ∉ [.lparen, .startList, .point]

/-- Printed for the level, the tree is read back at the level, up to a token that stops it. -/
def ReadAt (e : OperatorTree) (level : Nat) : Prop :=
  ∀ (n : Nat) (tokens : List Token) (t : Token) (rest : List Token) (fault : Option Fault)
    (s : Scope), tokens.map Token.sign = e.printed level → Stops level t → e.DeclaredIn s →
    8 * tokens.length + 6 ≤ n + level →
    ∃ line, Parse.operators n level ⟨tokens ++ t :: rest, fault, s⟩ =
      .ok (e.node, ⟨t :: rest, fault, { s with line }⟩)

/-- Printed for the level, the tree is what the operators of the level have gathered when they come
    to a token that stops the stronger ones. -/
def ReadOnAt (e : OperatorTree) (level : Nat) : Prop :=
  ∀ (n : Nat) (tokens : List Token) (t : Token) (rest : List Token) (fault : Option Fault)
    (s : Scope), tokens.map Token.sign = e.printed level → Stops (level + 1) t → e.DeclaredIn s →
    8 * tokens.length + 6 ≤ n + level →
    ∃ m line, n ≤ m + 8 * tokens.length ∧
      Parse.operators n level ⟨tokens ++ t :: rest, fault, s⟩ =
        Parse.operatorsAfter m level e.node ⟨t :: rest, fault, { s with line }⟩

variable {e : OperatorTree} {level : Nat} {o : BinaryOperator} {a b : OperatorTree}

theorem Stops.mono {t : Token} {high : Nat} (h : Stops level t) (hle : level ≤ high) :
    Stops high t :=
  ⟨fun g hg => h.1 g (Nat.le_trans hle hg), h.2⟩

/-- No expression goes on with a closing parenthesis or a semicolon. -/
theorem stops_of_closing {t : Token} (h : t.kind = .rparen ∨ t.kind = .semicolon) : Stops 0 t := by
  refine ⟨fun g _ => ?_, ?_⟩
  · rcases g with _ | _ | _ | _ | _ | g <;> rcases h with h | h <;> simp [h, groups]
  · rcases h with h | h <;> simp [h]

/-- A printed tree begins with a token, and not with a negation. -/
theorem printed_eq_cons (e : OperatorTree) (level : Nat) :
    ∃ first others, e.printed level = first :: others ∧ first.1 ≠ .notWord := by
  induction e generalizing level with
  | leaf l => exact ⟨l.sign, [], rfl, by cases l <;> simp [Leaf.sign]⟩
  | binary o a b iha _ =>
    by_cases h : o.group < level
    · exact ⟨_, _, by rw [printed, if_pos h, enclosed], by decide⟩
    · obtain ⟨first, others, hp, hfirst⟩ := iha o.group
      exact ⟨first, _, by rw [printed, if_neg h, hp, cons_append], hfirst⟩

/-- Where the operators of the level have nothing to go on with, what they gathered is the result. -/
theorem ReadOnAt.readAt (h : ReadOnAt e level) (hlevel : level < groups.length) :
    ReadAt e level := by
  intro n tokens t rest fault s hp ht hd hn
  obtain ⟨m, line, hm, hr⟩ := h n tokens t rest fault s hp (ht.mono (Nat.le_succ _)) hd hn
  have hlength : groups.length = 5 := rfl
  obtain ⟨m, rfl⟩ : ∃ k, m = k + 1 := ⟨m - 1, by omega⟩
  refine ⟨line, ?_⟩
  rw [hr, operatorsAfter, bind_ok (atOperator_cons ..), if_neg]
  · rfl
  · simpa using ht.1 level (Nat.le_refl _)

/-- A tree that is printed alike for a level and the next one is read on at the weaker level, as it
    is read at the stronger one. -/
theorem ReadAt.readOnAt (h : ReadAt e (level + 1)) (hlevel : level < groups.length)
    (hsame : e.printed level = e.printed (level + 1)) : ReadOnAt e level := by
  intro n tokens t rest fault s hp ht hd hn
  have hlength : groups.length = 5 := rfl
  obtain ⟨first, others, hprinted, -⟩ := e.printed_eq_cons level
  have hpos : tokens.length = others.length + 1 := by
    rw [← length_map Token.sign, hp, hprinted, length_cons]
  obtain ⟨n, rfl⟩ : ∃ k, n = k + 1 := ⟨n - 1, by omega⟩
  obtain ⟨line, hr⟩ := h n tokens t rest fault s (hp.trans hsame) ht hd (by omega)
  refine ⟨n, line, by omega, ?_⟩
  rw [operators, if_neg (by omega), bind_ok hr]

/-- Down the levels, as long as the tree is printed alike. -/
theorem ReadAt.weaken {low high : Nat} (h : ReadAt e high) (hle : low ≤ high)
    (hhigh : high ≤ groups.length)
    (hsame : ∀ level, low ≤ level → level < high → e.printed level = e.printed (level + 1)) :
    ReadAt e low := by
  obtain ⟨d, rfl⟩ := Nat.exists_eq_add_of_le hle
  induction d generalizing low with
  | zero => exact h
  | succ d ih =>
    have hnext : ReadAt e (low + 1) := by
      apply ih
      · rwa [Nat.add_right_comm]
      · omega
      · omega
      · exact fun level hl hd => hsame level (by omega) (by omega)
    exact (hnext.readOnAt (by omega) (hsame low (Nat.le_refl _) (by omega))).readAt (by omega)

/-! ### Leaves, operators and parentheses -/

theorem readAt_leaf (l : Leaf) : ReadAt (.leaf l) groups.length := by
  intro n tokens t rest fault s hp ht hd hn
  obtain ⟨⟨k, v, line, offset⟩, rfl, hl⟩ : ∃ u, tokens = [u] ∧ u.sign = l.sign := by
    simpa [printed, map_eq_cons_iff] using hp
  have hlength : groups.length = 5 := rfl
  obtain ⟨n, rfl⟩ : ∃ k, n = k + 2 := ⟨n - 2, by simp at hn; omega⟩
  rw [operators, if_pos rfl, unary, singleton_append]
  cases l with
  | int _ | real _ | text _ | truth _ =>
    cases hl
    exact ⟨line, rfl⟩
  | name x =>
    cases hl
    obtain ⟨type, htype⟩ := hd x (by simp [names, Leaf.names])
    refine ⟨t.line, ?_⟩
    rw [bind_ok (kind_cons ..), if_neg (by simp), bind_ok (markLine_cons ..),
      bind_ok (kind_cons ..)]
    dsimp only
    rw [bind_ok (current_cons ..), bind_ok (advance_cons ..),
      if_neg (by decide), bind_ok (kind_cons ..)]
    have hkind := ht.2
    simp only [mem_cons, not_mem_nil, or_false, not_or] at hkind
    refine (?_ : ∀ a : Parse Node, a = _ → a _ = _) _ rfl
    intro a ha
    split at ha
    · exact absurd ‹_› hkind.1
    · exact absurd ‹_› hkind.2.2
    · rw [ha, bind_ok (markLine_cons ..),
        bind_ok (ask_ok _ _ _ (typeOfName_at_line _ (typeOfName_at_line _ htype))),
        bind_ok (kind_cons ..), if_neg hkind.2.1]
      rfl

/-- An operator goes on with its second operand where the operators of its group have gathered the
    first one. -/
theorem readOnAt_binary (ha : ReadOnAt a o.group) (hb : ReadAt b (o.group + 1)) :
    ReadOnAt (.binary o a b) o.group := by
  intro n tokens t rest fault s hp ht hd hn
  simp only [printed, Nat.lt_irrefl, if_false] at hp
  obtain ⟨first, others, rfl, hfirst, hothers⟩ := map_eq_append_iff.1 hp
  obtain ⟨u, second, rfl, hu, hsecond⟩ := map_eq_cons_iff.1 hothers
  have hkind : u.kind = o.kind := congrArg Prod.fst hu
  have hvalue : u.value = .text o.symbol := congrArg Prod.snd hu
  have hstops : Stops (o.group + 1) u := by
    refine ⟨fun g hg hmem => ?_, ?_⟩
    · rw [hkind, o.kind_mem_groups] at hmem
      omega
    · rw [hkind]
      cases o <;> decide
  simp only [length_append, length_cons] at hn ⊢
  obtain ⟨m, line, hm, hr⟩ := ha n first u (second ++ t :: rest) fault s hfirst hstops
    (fun x hx => hd x (mem_append_left _ hx)) (by omega)
  have hlength : groups.length = 5 := rfl
  have hgroup := o.group_lt
  obtain ⟨m, rfl⟩ : ∃ k, m = k + 1 := ⟨m - 1, by omega⟩
  have hdb : b.DeclaredIn { s with line } :=
    DeclaredIn.at_line (fun x hx => hd x (mem_append_right _ hx)) line
  obtain ⟨line', hs⟩ := hb m second t rest fault _ hsecond ht hdb (by omega)
  refine ⟨m, line', by omega, ?_⟩
  have hat : (groups.getD o.group []).contains u.kind = true := by
    rw [hkind, contains_iff_mem, o.kind_mem_groups]
  rw [append_assoc, cons_append, hr, operatorsAfter,
    bind_ok (atOperator_cons ..), if_pos hat, bind_ok (current_cons ..),
    bind_ok (advance_append ..), bind_ok hs, hvalue]
  rfl

/-- In parentheses the groups start over with the weakest. -/
theorem ReadAt.enclosed (h : ReadAt (.binary o a b) 0) :
    ReadAt (.binary o a b) groups.length := by
  intro n tokens t rest fault s hp ht hd hn
  have hprinted : (OperatorTree.binary o a b).printed groups.length =
      StackLang.enclosed ((OperatorTree.binary o a b).printed 0) := by
    simp only [printed, o.group_lt, if_true, Nat.not_lt_zero, if_false]
  rw [hprinted] at hp
  obtain ⟨opening, others, rfl, hopening, hothers⟩ := map_eq_cons_iff.1 hp
  obtain ⟨inner, closing, rfl, hinner, hclosing⟩ := map_eq_append_iff.1 hothers
  obtain ⟨close, none, rfl, hclose, hnone⟩ := map_eq_cons_iff.1 hclosing
  obtain rfl := map_eq_nil_iff.1 hnone
  have hlength : groups.length = 5 := rfl
  simp only [length_append, length_cons, length_nil] at hn
  obtain ⟨n, rfl⟩ : ∃ k, n = k + 2 := ⟨n - 2, by omega⟩
  obtain ⟨k, v, line, offset⟩ := opening
  cases hopening
  have hkind : close.kind = .rparen := congrArg Prod.fst hclose
  obtain ⟨line', hr⟩ := h n inner close (t :: rest) fault _ hinner (stops_of_closing (.inl hkind))
    (hd.at_line line) (by omega)
  refine ⟨line', ?_⟩
  rw [cons_append, append_assoc, singleton_append, operators, if_pos rfl,
    unary, bind_ok (kind_cons ..), if_neg (by simp),
    bind_ok (markLine_cons ..), bind_ok (kind_cons ..)]
  dsimp only
  rw [bind_ok (advance_append ..), bind_ok hr,
    bind_ok (current?_cons ..), if_neg (by simp [hkind]),
    bind_ok (advance_cons ..)]
  rfl

/-! ### Every tree at every level -/

theorem printed_eq_succ (h : level ≠ o.group) :
    (OperatorTree.binary o a b).printed level = (OperatorTree.binary o a b).printed (level + 1) := by
  have hiff : o.group < level ↔ o.group < level + 1 := by omega
  simp only [printed, hiff]

theorem readOnAt_and_readAt (e : OperatorTree) :
    (∀ level < groups.length, ReadOnAt e level) ∧
      ∀ level ≤ groups.length, ReadAt e level := by
  induction e with
  | leaf l =>
    have hat (level : Nat) (hle : level ≤ groups.length) : ReadAt (.leaf l) level :=
      (readAt_leaf l).weaken hle (Nat.le_refl _) fun _ _ _ => rfl
    exact ⟨fun level hlt => (hat (level + 1) hlt).readOnAt hlt rfl, hat⟩
  | binary o a b iha ihb =>
    have hown : ReadOnAt (.binary o a b) o.group :=
      readOnAt_binary (iha.1 _ o.group_lt) (ihb.2 _ o.group_lt)
    have hbelow (level : Nat) (hle : level ≤ o.group) : ReadAt (.binary o a b) level :=
      (hown.readAt o.group_lt).weaken hle (Nat.le_of_lt o.group_lt)
        fun _ _ hlt => printed_eq_succ (Nat.ne_of_lt hlt)
    have habove (level : Nat) (hlt : o.group < level) (hle : level ≤ groups.length) :
        ReadAt (.binary o a b) level :=
      (hbelow 0 (Nat.zero_le _)).enclosed.weaken hle (Nat.le_refl _)
        fun _ hl _ => printed_eq_succ (Nat.ne_of_gt (Nat.lt_of_lt_of_le hlt hl))
    have hat (level : Nat) (hle : level ≤ groups.length) : ReadAt (.binary o a b) level :=
      (Nat.lt_or_ge o.group level).elim (habove level · hle) (hbelow level)
    refine ⟨fun level hlt => ?_, hat⟩
    by_cases hl : level = o.group
    · rw [hl]
      exact hown
    · exact (hat (level + 1) hlt).readOnAt hlt (printed_eq_succ hl)

end OperatorTree

/-- A printed phrase over declared variables is read back as its tree, up to the semicolon after it.
    What is known about names stays as it was, apart from the line that faults are reported on. -/
theorem expression_printed (p : Phrase) {tokens : List Token} {stop : Token} (rest : List Token)
    (fault : Option Fault) {s : Scope} {n : Nat} (hprinted : tokens.map Token.sign = p.printed)
    (hstop : stop.kind = .semicolon) (hdeclared : p.body.DeclaredIn s)
    (hn : Parse.fuelFor tokens.length ≤ n) :
    (∃ line, Parse.expression n ⟨tokens ++ stop :: rest, fault, s⟩ =
      .ok (p.node, ⟨stop :: rest, fault, { s with line }⟩)) ∧ p.node.describe = p.described := by
  refine ⟨?_, p.describe_node⟩
  have hstops : OperatorTree.Stops 0 stop := OperatorTree.stops_of_closing (.inr hstop)
  have hread := p.body.readOnAt_and_readAt.2 0 (Nat.zero_le _)
  unfold Parse.fuelFor at hn
  obtain ⟨n, rfl⟩ : ∃ k, n = k + 1 := ⟨n - 1, by omega⟩
  obtain ⟨negated, body⟩ := p
  cases negated with
  | true =>
    obtain ⟨⟨k, v, line, offset⟩, tokens, rfl, hsign, hbody⟩ := List.map_eq_cons_iff.1 hprinted
    cases hsign
    rw [List.length_cons] at hn
    obtain ⟨line, hr⟩ := hread n tokens stop rest fault s hbody hstops hdeclared (by omega)
    refine ⟨line, ?_⟩
    rw [Parse.expression, List.cons_append, Parse.bind_ok (Parse.current?_cons ..)]
    dsimp only
    rw [Parse.bind_ok (Parse.advance_append ..), Parse.bind_ok hr]
    rfl
  | false =>
    obtain ⟨line, hr⟩ := hread n tokens stop rest fault s hprinted hstops hdeclared (by omega)
    obtain ⟨first, others, heq, hfirst⟩ := body.printed_eq_cons 0
    obtain ⟨t, tokens, rfl, ht, -⟩ := List.map_eq_cons_iff.1 (hprinted.trans heq)
    refine ⟨line, ?_⟩
    rw [List.cons_append, Parse.expression_cons _ _ _ _ (by rw [← ht] at hfirst; exact hfirst)]
    exact hr

/-- `not (1 + x) * 2 >= x - (3 - 4)` is read back in a scope that knows `x`. -/
theorem expression_printed_negated :
    ∃ line, Parse.expression 400
      ⟨[(.notWord, .text "not"), (.lparen, .text "("), (.intLiteral, .int 1), (.plus, .text "+"),
        (.identifier, .text "x"), (.rparen, .text ")"), (.multiply, .text "*"),
        (.intLiteral, .int 2), (.ge, .text ">="), (.identifier, .text "x"), (.minus, .text "-"),
        (.lparen, .text "("), (.intLiteral, .int 3), (.minus, .text "-"), (.intLiteral, .int 4),
        (.rparen, .text ")")].map (fun s : Sign => (⟨s.1, s.2, 1, 0⟩ : Token)) ++
          [⟨.semicolon, .text ";", 1, 0⟩], none, { table := [(.text "x", "INT")] }⟩ =
      .ok (.binary "not"
          (.binary ">="
            (.binary "*"
              (.binary "+" (.literal "INT_LITERAL" (.int 1)) (some (.literal "VARIABLE" (.text "x"))))
              (some (.literal "INT_LITERAL" (.int 2))))
            (some (.binary "-" (.literal "VARIABLE" (.text "x"))
              (some (.binary "-" (.literal "INT_LITERAL" (.int 3))
                (some (.literal "INT_LITERAL" (.int 4))))))))
          none,
        ⟨[⟨.semicolon, .text ";", 1, 0⟩], none, { table := [(.text "x", "INT")], line }⟩) :=
  (expression_printed
    ⟨true, .binary .ge
      (.binary .mul (.binary .add (.leaf (.int 1)) (.leaf (.name "x"))) (.leaf (.int 2)))
      (.binary .sub (.leaf (.name "x")) (.binary .sub (.leaf (.int 3)) (.leaf (.int 4))))⟩
    [] none rfl rfl
    (fun x hx => ⟨"INT", by
      have hx : x = "x" := by simpa [OperatorTree.names, Leaf.names] using hx
      rw [hx]
      rfl⟩)
    (by decide)).1

end StackLang
