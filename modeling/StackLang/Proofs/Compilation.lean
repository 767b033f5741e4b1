import StackLang.Proofs.Simulation

/-!
# Compiled integer programs

What the machine computes with the image of an integer program, against what the program
means. The machine does what the program does as it is compiled, so it computes the store
that the program means if and only if the two readings agree on it.

* `Source.computed_of_exec` and `Source.exec_of_computed`: the machine ends with a store if
  and only if the compiled program does.
* `Source.exec_compiled`: without further conditions, and with expressions that the stack has
  room for, both readings are the same.
-/

namespace StackLang

open List Image Option

namespace Source

open Machine

variable {n : Nat} {r : Reading} {s s' : Store}

/-! ### Images -/

/-- The arguments of the instructions fit into words. -/
def Fits (c : Code) : Prop := ∀ x ∈ c, fitsWord x.2 = true

/-- Code with integer arguments is written to its end if and only if they fit into words. -/
theorem fault_writeSlots (c : Code) : (writeSlots (slots c)).fault = none ↔ Fits c := by
  induction c with
  | nil => simp [writeSlots, Fits]
  | cons x c ih =>
    rw [slots_cons, writeSlots, argumentWord?, Fits, forall_mem_cons, ← Fits, ← ih]
    by_cases hx : fitsWord x.2 = true
    · rw [if_pos hx]
      simp [hx]
    · rw [if_neg hx]
      simp [hx]

theorem length_writeSlots {c : Code} (h : Fits c) :
    (writeSlots (slots c)).bytes.length = 5 * c.length := by
  induction c with
  | nil => rfl
  | cons x c ih =>
    obtain ⟨hx, hc⟩ := forall_mem_cons.1 h
    rw [slots_cons, writeSlots, argumentWord?, if_pos hx]
    simp [wordBytes, ih hc]
    omega

section Image

variable {g : Generator} {c : Code}

theorem whole_of_slots (hg : g.code = (slots c).toArray) (h : (write g).fault = none) :
    g.Whole := by
  refine ⟨h, ?_⟩
  rw [write, hg] at h ⊢
  simpa [hg] using length_writeSlots ((fault_writeSlots c).1 h)

/-- The machine loads the code as it is. -/
theorem codeAt_of_slots (hg : g.code = (slots c).toArray) (h : (write g).fault = none) :
    CodeAt g.program 0 c := by
  intro i x hx
  have hslot : g.code[i]? = some (.instruction x.1 (.int x.2)) := by simp [hg, slots, hx]
  have hfits : fitsWord x.2 = true := by
    rw [write, hg] at h
    exact (fault_writeSlots c).1 h x (mem_of_getElem? hx)
  obtain ⟨k, a, w, hs, ha, hfetch⟩ := (whole_of_slots hg h).fetch hslot
  cases hs
  rw [argumentWord?, if_pos hfits] at ha
  cases ha
  exact ⟨hfits, by rwa [Nat.zero_add]⟩

end Image


/-! ### Programs that are small enough -/

section Fits

variable {c d : Code} {names : List String} {start : Nat}

theorem fits_nil : Fits [] := by simp [Fits]

theorem fits_cons {i : Nat} {n : Int} : Fits ((i, n) :: c) ↔ fitsWord n = true ∧ Fits c :=
  forall_mem_cons

theorem fits_append : Fits (c ++ d) ↔ Fits c ∧ Fits d := forall_mem_append

theorem fitsWord_nat (h : n < 0x80000000) : fitsWord n = true := by
  simp [fitsWord]
  omega

theorem fitsWord_address {v : String} (hv : v ∈ names) (hn : 4 * names.length ≤ 0x80000000) :
    fitsWord (address names v) = true := by
  have hlt := idxOf_lt_length_of_mem hv
  refine fitsWord_nat ?_
  rw [address]
  omega

theorem Expr.fits {l : Bool} (e : Expr l) (hu : e.uses names = true)
    (hn : 4 * names.length ≤ 0x80000000) : Fits (e.code names) := by
  induction e with
  | number a x ha =>
    have hle := x.le_toInt
    have hlt := x.toInt_lt
    refine fits_cons.2 ⟨?_, fits_nil⟩
    simp [fitsWord]
    omega
  | name v => exact fits_cons.2 ⟨fitsWord_address (by simpa [uses] using hu) hn, fits_nil⟩
  | arithmetic op a b iha ihb | junction _ op a b iha ihb =>
    obtain ⟨ha, hb⟩ := Bool.and_eq_true_iff.1 hu
    exact fits_append.2 ⟨fits_append.2 ⟨iha ha, ihb hb⟩, fits_cons.2 ⟨rfl, fits_nil⟩⟩
  | negation _ a ih => exact fits_append.2 ⟨ih hu, fits_cons.2 ⟨rfl, fits_nil⟩⟩

mutual

theorem Stmt.fits {names : List String} (hn : 4 * names.length ≤ 0x80000000) :
    (st : Stmt) → st.uses names = true → {start : Nat} → start + st.size < 0x80000000 →
      Fits (st.code names start)
  | .assign v e, hu, start, _ => by
    obtain ⟨hv, he⟩ := Stmt.uses_assign.1 hu
    exact fits_append.2 ⟨e.fits he hn, fits_cons.2 ⟨fitsWord_address hv hn, fits_nil⟩⟩
  | .conditional c b rest, hu, start, hs => by
    obtain ⟨⟨hc, hb⟩, hr⟩ := Stmt.uses_conditional.1 hu
    rw [Stmt.size] at hs
    refine fits_append.2 ⟨fits_append.2 ⟨fits_append.2 ⟨fits_append.2 ⟨c.fits hc hn,
      fits_cons.2 ⟨fitsWord_nat (by omega), rest.fits_tests hn hr (by omega)⟩⟩,
      rest.fits_last hn hr (by omega)⟩, fits_cons.2 ⟨fitsWord_nat (by omega),
      rest.fits_blocks hn hr (by omega) (by omega)⟩⟩, b.fits hn hb (by omega)⟩
  | .whileLoop c b, hu, start, hs => by
    obtain ⟨hc, hb⟩ := Bool.and_eq_true_iff.1 hu
    rw [Stmt.size] at hs
    exact fits_append.2 ⟨fits_append.2 ⟨c.fits hc hn, fits_cons.2 ⟨rfl,
      fits_cons.2 ⟨fitsWord_nat (by omega), b.fits hn hb (by omega)⟩⟩⟩,
      fits_cons.2 ⟨fitsWord_nat (by omega), fits_nil⟩⟩

theorem Block.fits {names : List String} (hn : 4 * names.length ≤ 0x80000000) :
    (b : Block) → b.uses names = true → {start : Nat} → start + b.size < 0x80000000 →
      Fits (b.code names start)
  | .nil, _, _, _ => fits_nil
  | .cons st b, hu, start, hs => by
    obtain ⟨hus, hub⟩ := Bool.and_eq_true_iff.1 hu
    rw [Block.size] at hs
    exact fits_append.2 ⟨st.fits hn hus (by omega), b.fits hn hub (by omega)⟩

theorem Chain.fits_tests {names : List String} (hn : 4 * names.length ≤ 0x80000000) :
    (r : Chain) → r.uses names = true → {blocks : Nat} → blocks + r.blockSize < 0x80000000 →
      Fits (r.testCode names blocks)
  | .absent, _, _, _ | .otherwise _, _, _, _ => fits_nil
  | .further c b rest, hu, blocks, hs => by
    obtain ⟨⟨hc, -⟩, hr⟩ := Chain.uses_further.1 hu
    rw [Chain.blockSize] at hs
    exact fits_append.2 ⟨c.fits hc hn, fits_cons.2 ⟨fitsWord_nat (by omega),
      rest.fits_tests hn hr (by omega)⟩⟩

theorem Chain.fits_last {names : List String} (hn : 4 * names.length ≤ 0x80000000) :
    (r : Chain) → r.uses names = true → {start : Nat} → start + r.lastSize < 0x80000000 →
      Fits (r.lastCode names start)
  | .absent, _, _, _ => fits_nil
  | .otherwise b, hu, _, hs => b.fits hn hu hs
  | .further c b rest, hu, start, hs => by
    obtain ⟨-, hr⟩ := Chain.uses_further.1 hu
    exact rest.fits_last hn hr hs

theorem Chain.fits_blocks {names : List String} (hn : 4 * names.length ≤ 0x80000000) :
    (r : Chain) → r.uses names = true → {finish start : Nat} → finish < 0x80000000 →
      start + r.blockSize < 0x80000000 → Fits (r.blockCode names finish start)
  | .absent, _, _, _, _, _ | .otherwise _, _, _, _, _, _ => fits_nil
  | .further c b rest, hu, finish, start, hf, hs => by
    obtain ⟨⟨-, hb⟩, hr⟩ := Chain.uses_further.1 hu
    rw [Chain.blockSize] at hs
    exact fits_append.2 ⟨b.fits hn hb (by omega), fits_cons.2 ⟨fitsWord_nat hf,
      rest.fits_blocks hn hr hf (by omega)⟩⟩

end

theorem Top.fits_code (t : Top) (ht : t.fits names = true)
    (hn : 4 * (names ++ t.names).length ≤ 0x80000000) (hs : start + t.size < 0x80000000) :
    Fits (t.code names start) := by
  cases t with
  | stmt st => exact st.fits (by simpa [Top.names] using hn) ht hs
  | declare v e =>
    cases e with
    | none => exact fits_cons.2 ⟨rfl, fits_cons.2 ⟨rfl, fits_nil⟩⟩
    | some e =>
      obtain ⟨-, hu⟩ : v ∉ names ∧ e.uses names = true := by simpa [Top.fits] using ht
      exact fits_append.2 ⟨e.fits hu (by simp at hn; omega), fits_cons.2 ⟨rfl, fits_nil⟩⟩
  | forLoop v e c b =>
    obtain ⟨⟨⟨hv, he⟩, hc⟩, hb⟩ := Top.fits_forLoop.1 ht
    have hcounter : fitsWord (address (names ++ [v]) v) = true := fitsWord_address (by simp) hn
    rw [Top.size] at hs
    exact fits_append.2 ⟨fits_append.2 ⟨fits_append.2 ⟨e.fits he (by simp at hn; omega),
      fits_cons.2 ⟨rfl, c.fits hc hn⟩⟩, fits_cons.2 ⟨rfl, fits_cons.2 ⟨fitsWord_nat (by omega),
      b.fits hn hb (by omega)⟩⟩⟩, fits_cons.2 ⟨hcounter, fits_cons.2 ⟨rfl, fits_cons.2 ⟨rfl,
      fits_cons.2 ⟨hcounter, fits_cons.2 ⟨fitsWord_nat (by omega), fits_nil⟩⟩⟩⟩⟩⟩

/-- With less than `0x80000000` instructions and bytes of variables, all arguments fit. -/
theorem fits_program (ts : List Top) (hts : wellScoped names ts = true)
    (hn : 4 * (names ++ ts.flatMap Top.names).length ≤ 0x80000000)
    (hs : start + (programCode names start ts).length < 0x80000000) :
    Fits (programCode names start ts) := by
  induction ts generalizing names start with
  | nil => exact fits_nil
  | cons t ts ih =>
    obtain ⟨ht, hrest⟩ := Bool.and_eq_true_iff.1 hts
    simp only [programCode, length_append, Top.length_code, flatMap_cons] at hs hn
    refine fits_append.2 ⟨t.fits_code ht ?_ (by omega), ih hrest ?_ (by omega)⟩
    · rw [length_append]
      omega
    · simp only [length_append]
      omega

end Fits

/-! ### Both readings -/

section Iterate

variable {n : Nat} {test : Store → Option Int32} {round : Store → Option Store}

/-- What every round keeps, the loop keeps. -/
theorem iterate_keeps {α : Type} (f : Store → α)
    (hround : ∀ s s', round s = some s' → f s' = f s) {s s' : Store}
    (h : iterate test round n s = some s') : f s' = f s := by
  induction n generalizing s with
  | zero => cases h
  | succ n ih =>
    rw [iterate] at h
    obtain ⟨x, -, h⟩ := bind_eq_some_iff.1 h
    split at h
    · obtain ⟨s₁, h₁, h₂⟩ := bind_eq_some_iff.1 h
      rw [ih h₂, hround s s₁ h₁]
    · cases h
      rfl

end Iterate

mutual

/-- A statement declares nothing. -/
theorem Stmt.names_exec {r : Reading} {n : Nat} : (st : Stmt) → {s s' : Store} →
    st.exec r n s = some s' → s'.names = s.names
  | .assign v e, s, s', h => by
    obtain ⟨x, -, h⟩ := bind_eq_some_iff.1 h
    cases h
    exact Store.names_set s v x
  | .conditional c b rest, s, s', h => by
    obtain ⟨x, -, h⟩ := bind_eq_some_iff.1 h
    split at h
    · exact b.names_exec h
    · exact rest.names_exec h
  | .whileLoop c b, s, s', h => iterate_keeps Store.names (fun _ _ h => b.names_exec h) h

theorem Block.names_exec {r : Reading} {n : Nat} : (b : Block) → {s s' : Store} →
    b.exec r n s = some s' → s'.names = s.names
  | .nil, s, s', h => by
    cases h
    rfl
  | .cons st b, s, s', h => by
    obtain ⟨s₁, h₁, h₂⟩ := bind_eq_some_iff.1 h
    rw [b.names_exec h₂, st.names_exec h₁]

theorem Chain.names_exec {r : Reading} {n : Nat} : (c : Chain) → {s s' : Store} →
    c.exec r n s = some s' → s'.names = s.names
  | .absent, s, s', h => by
    cases h
    rfl
  | .otherwise b, s, s', h => b.names_exec h
  | .further c b rest, s, s', h => by
    obtain ⟨x, -, h⟩ := bind_eq_some_iff.1 h
    split at h
    · cases r with
      | meant => exact b.names_exec h
      | compiled =>
        cases h
        rfl
    · exact rest.names_exec h

end

theorem Top.names_exec (t : Top) (h : t.exec r n s = some s') : s'.names = s.names ++ t.names := by
  cases t with
  | stmt st => simpa [Top.names] using st.names_exec h
  | declare v e =>
    cases e with
    | none =>
      cases h
      simp [Top.names]
    | some e =>
      obtain ⟨x, -, h⟩ := bind_eq_some_iff.1 h
      cases h
      simp [Top.names]
  | forLoop v e c b =>
    obtain ⟨x, -, h⟩ := bind_eq_some_iff.1 h
    rw [iterate_keeps Store.names ?_ h]
    · simp [Top.names]
    · intro s s' h
      obtain ⟨s₁, h₁, h₂⟩ := bind_eq_some_iff.1 h
      obtain ⟨y, -, h₂⟩ := bind_eq_some_iff.1 h₂
      cases h₂
      rw [Store.names_set, b.names_exec h₁]

/-- The variables of the store are those that the program declares. -/
theorem names_exec (ts : List Top) (h : exec r n ts s = some s') :
    s'.names = s.names ++ ts.flatMap Top.names := by
  induction ts generalizing s with
  | nil =>
    cases h
    simp
  | cons t ts ih =>
    obtain ⟨s₁, h₁, h₂⟩ := bind_eq_some_iff.1 h
    rw [ih h₂, t.names_exec h₁]
    simp

/-- Whether the stack has room for an expression. -/
def Expr.shallow {l : Bool} (e : Expr l) : Bool := e.depth ≤ stackLimit

mutual

/-- Whether a statement has no further conditions, and the stack has room for all of its
    expressions. -/
def Stmt.plain : Stmt → Bool
  | .assign _ e => e.shallow
  | .conditional c b rest => c.shallow && b.plain && rest.plain
  | .whileLoop c b => c.shallow && b.plain

/-- Whether the statements of a block are plain. -/
def Block.plain : Block → Bool
  | .nil => true
  | .cons s b => s.plain && b.plain

/-- Whether a conditional goes on with a plain last block or none. -/
def Chain.plain : Chain → Bool
  | .absent => true
  | .otherwise b => b.plain
  | .further .. => false

end

/-- Whether a statement outside of blocks is plain. -/
def Top.plain : Top → Bool
  | stmt s => s.plain
  | declare _ e => e.all Expr.shallow
  | forLoop _ e c b => e.shallow && c.shallow && b.plain

/-- Both readings give an expression the same value if the stack has room for it. -/
theorem value_compiled {l : Bool} {e : Expr l} (he : e.shallow = true) :
    Reading.compiled.value e = Reading.meant.value e := by
  have hd : e.depth ≤ stackLimit := by simpa [Expr.shallow] using he
  funext s
  rw [Reading.value, Reading.value, if_neg (by omega), if_neg (by simp)]

mutual

theorem Stmt.exec_compiled {n : Nat} : (st : Stmt) → st.plain = true →
    st.exec .compiled n = st.exec .meant n
  | .assign v e, h => by
    funext s
    rw [Stmt.exec, Stmt.exec, value_compiled h]
  | .conditional c b rest, h => by
    obtain ⟨⟨hc, hb⟩, hr⟩ : (c.shallow = true ∧ b.plain = true) ∧ rest.plain = true := by
      simpa [Stmt.plain] using h
    funext s
    rw [Stmt.exec, Stmt.exec, value_compiled hc, b.exec_compiled hb, rest.exec_compiled hr]
  | .whileLoop c b, h => by
    obtain ⟨hc, hb⟩ : c.shallow = true ∧ b.plain = true := by simpa [Stmt.plain] using h
    funext s
    rw [Stmt.exec, Stmt.exec, value_compiled hc, b.exec_compiled hb]

theorem Block.exec_compiled {n : Nat} : (b : Block) → b.plain = true →
    b.exec .compiled n = b.exec .meant n
  | .nil, _ => rfl
  | .cons st b, h => by
    obtain ⟨hs, hb⟩ : st.plain = true ∧ b.plain = true := by simpa [Block.plain] using h
    funext s
    rw [Block.exec, Block.exec, st.exec_compiled hs, b.exec_compiled hb]

theorem Chain.exec_compiled {n : Nat} : (c : Chain) → c.plain = true →
    c.exec .compiled n = c.exec .meant n
  | .absent, _ => rfl
  | .otherwise b, h => b.exec_compiled h

end

theorem Top.exec_compiled (t : Top) (h : t.plain = true) :
    t.exec .compiled n = t.exec .meant n := by
  cases t with
  | stmt st => exact st.exec_compiled h
  | declare v e =>
    cases e with
    | none => rfl
    | some e =>
      funext s
      rw [Top.exec, Top.exec, value_compiled h]
  | forLoop v e c b =>
    obtain ⟨⟨he, hc⟩, hb⟩ : (e.shallow = true ∧ c.shallow = true) ∧ b.plain = true := by
      simpa [Top.plain] using h
    have hround : countRound .compiled n v b = countRound .meant n v b := by
      funext s
      rw [countRound, countRound, b.exec_compiled hb]
    funext s
    rw [Top.exec, Top.exec, value_compiled he, value_compiled hc, hround]

/-- Both readings of a plain program are the same. -/
theorem exec_compiled {ts : List Top} (h : ts.all Top.plain = true) :
    exec .compiled n ts = exec .meant n ts := by
  induction ts with
  | nil => rfl
  | cons t ts ih =>
    obtain ⟨ht, hts⟩ : t.plain = true ∧ ts.all Top.plain = true := by simpa using h
    funext s
    rw [exec, exec, t.exec_compiled ht, ih hts]

/-! ### Results of the machine -/

/-- A run has ended with an empty stack and an empty heap, and the bytes at the address of
    each of these variables are those of its value. -/
structure Computed (g : Generator) (names : List String) (s : Store) (r : Result) : Prop where
  ended : r.finish = .ended
  stack : r.machine.stack = []
  heap : r.machine.heap = {}
  bytes : ∀ v ∈ names, ∃ a x, g.identifiers.get? (.text v) = some a ∧ s.lookup v = some x ∧
    a + 4 ≤ r.machine.memory.cells.size ∧
    r.machine.memory.cells.slice a 4 = wordBytes x.toUInt32

section Results

variable {src : List Top} {g : Generator} {input : List UInt8} {files : Files} {s s' : Store}
  {names : List String} {m : Machine}

/-- No name is declared twice. -/
theorem nodup_of_wellScoped (hn : names.Nodup) {ts : List Top} (h : wellScoped names ts = true) :
    (names ++ ts.flatMap Top.names).Nodup := by
  induction ts generalizing names with
  | nil => simpa using hn
  | cons t ts ih =>
    obtain ⟨ht, hts⟩ : t.fits names = true ∧ wellScoped (names ++ t.names) ts = true := by
      simpa [wellScoped] using h
    have hnew : (names ++ t.names).Nodup := by
      cases t with
      | stmt st => simpa [Top.names] using hn
      | declare v e | forLoop v e c b =>
        have hv : v ∉ names := by simp_all [Top.fits]
        simpa [Top.names, nodup_append] using ⟨hn, fun a ha => by rintro rfl; exact hv ha⟩
    simpa using ih hnew hts

/-- A store is determined by the values of its variables, if no two have the same name. -/
theorem Store.eq_of_lookup (hnames : s.names = s'.names) (hn : s.names.Nodup)
    (h : ∀ v ∈ s.names, s.lookup v = s'.lookup v) : s = s' := by
  induction s generalizing s' with
  | nil => simpa using hnames.symm
  | cons p s ih =>
    obtain ⟨v, x⟩ := p
    cases s' with
    | nil => simp at hnames
    | cons q s' =>
      obtain ⟨w, y⟩ := q
      obtain ⟨rfl, hrest⟩ : v = w ∧ Store.names s = Store.names s' := by simpa using hnames
      obtain ⟨hv, hn⟩ : v ∉ Store.names s ∧ (Store.names s).Nodup := nodup_cons.1 hn
      have hx : x = y := by simpa using h v (by simp)
      have hs : s = s' := ih hrest hn fun u hu => by
        have huv : (u == v) = false := by
          simp only [beq_eq_false_iff_ne]
          rintro rfl
          exact hv hu
        simpa [lookup_cons, huv] using h u (mem_cons_of_mem _ hu)
      rw [hx, hs]

/-- The machine runs a program as it is compiled. -/
theorem runs_compiled (hsrc : wellScoped [] src = true)
    (hg : generateProgram (src.map Top.node) = .ok g) (hw : (write g).fault = none)
    (input : List UInt8) (files : Files) (n : Nat) :
    Runs g.program n { input, files } (exec .compiled n src []) fun s m =>
      At (src.flatMap Top.names) s g.program.size m := by
  obtain ⟨g', hg', -, hcode⟩ := generateProgram_of_wellScoped hsrc
  obtain rfl : g = g' := by rwa [hg, Except.ok.injEq] at hg'
  have hstart : At [] [] 0 { input, files } := ⟨rfl, rfl, rfl, rfl, .initial⟩
  have hrun := runs_program (n := n) src hsrc (codeAt_of_slots hcode hw) hstart
  have hsize : g.program.size = (programCode [] 0 src).length := by
    rw [(whole_of_slots hcode hw).size, hcode]
    simp
  simpa [hsize] using hrun

theorem At.fetch_end {P : Program} (h : At names s P.size m) : m.fetch P = none := by
  rw [fetch, h.pc]
  exact Array.getElem?_eq_none (Nat.le_refl _)

/-- Where a machine has come to with a store, the bytes of its variables are at their
    addresses. -/
theorem At.bytes {pc : Nat} {m : Machine} (h : At names s pc m) (hg : Knows g names) {v : String}
    (hv : v ∈ names) :
    ∃ a x, g.identifiers.get? (.text v) = some a ∧ s.lookup v = some x ∧
      a + 4 ≤ m.memory.cells.size ∧ m.memory.cells.slice a 4 = wordBytes x.toUInt32 := by
  obtain ⟨x, hx, hw⟩ := Store.exists_lookup (s := s) (v := v) (by rwa [h.names])
  rw [h.names] at hw
  have hlt := (List.getElem?_eq_some_iff.1 hw).1
  refine ⟨_, x, hg.address v hv, hx, ?_, h.memory.bytes hw⟩
  rw [h.memory.size, address]
  omega

section

variable (hsrc : wellScoped [] src = true) (hg : generateProgram (src.map Top.node) = .ok g)
  (hw : (Image.write g).fault = none)

include hsrc hg hw

/-- If the compiled program ends with a store, the machine computes it. -/
theorem computed_of_exec (input : List UInt8) (files : Files) (h : exec .compiled n src [] = some s) :
    ∃ limit, Computed g (src.flatMap Top.names) s (run g.program limit { input, files }) := by
  have hrun := runs_compiled hsrc hg hw input files n
  rw [h] at hrun
  obtain ⟨k, m, hsteps, hm⟩ := hrun
  obtain ⟨g', hg', hknows, -⟩ := generateProgram_of_wellScoped hsrc
  obtain rfl : g = g' := by rwa [hg, Except.ok.injEq] at hg'
  refine ⟨k, ?_⟩
  rw [run, (hsteps.ended hm.fetch_end 0 k).1 (Nat.le_refl k)]
  exact ⟨rfl, hm.stack, hm.heap, fun v hv => hm.bytes hknows hv⟩

/-- If the machine computes a store, the compiled program ends with it. -/
theorem exec_of_computed (hs : s.names = src.flatMap Top.names) {limit : Nat}
    (h : Computed g (src.flatMap Top.names) s (run g.program limit { input, files })) :
    exec .compiled limit src [] = some s := by
  have hrun := runs_compiled hsrc hg hw input files limit
  cases he : exec .compiled limit src [] with
  | none =>
    rw [he] at hrun
    exact absurd h.ended (hrun 0 limit (Nat.le_refl limit))
  | some s' =>
    rw [he] at hrun
    obtain ⟨k, m, hsteps, hm⟩ := hrun
    obtain ⟨hend, hbefore⟩ := hsteps.ended hm.fetch_end 0 limit
    obtain ⟨g', hg', hknows, -⟩ := generateProgram_of_wellScoped hsrc
    obtain rfl : g = g' := by rwa [hg, Except.ok.injEq] at hg'
    by_cases hk : k ≤ limit
    · rw [run, hend hk] at h
      have hnodup : s'.names.Nodup := by
        rw [hm.names]
        exact nodup_of_wellScoped .nil hsrc
      refine congrArg some (Store.eq_of_lookup (by rw [hm.names, hs]) hnodup fun v hv => ?_)
      rw [hm.names] at hv
      -- the same bytes are those of both values
      obtain ⟨a, x, ha, hx, -, hbytes⟩ := h.bytes v hv
      obtain ⟨a', y, ha', hy, -, hbytes'⟩ := hm.bytes hknows hv
      obtain rfl : a = a' := by rwa [ha, some.injEq] at ha'
      rw [hx, hy, toUInt32_inj.1 (wordBytes_inj (hbytes'.symm.trans hbytes))]
    · exact absurd h.ended (hbefore (by omega))

end

/-- An integer program in which every name is declared once, before it is used, is compiled.
    If it has less than `0x80000000` instructions and bytes of variables, its image is written.
    If the image is written, and the program ends with a store, then the machine ends with
    that store, with an empty stack and an empty heap, if and only if the program ends with
    it as it is compiled: the blocks of further conditions are not entered, and expressions
    need room on the stack. So it does for plain programs. -/
theorem machine_right_iff (hsrc : wellScoped [] src = true) :
    ∃ g, generateProgram (src.map Top.node) = .ok g ∧
      (g.code.size < 0x80000000 → g.memory ≤ 0x80000000 → (Image.write g).fault = none) ∧
      ((Image.write g).fault = none → ∀ (input : List UInt8) (files : Files) (n : Nat) (s : Store),
        exec .meant n src [] = some s →
          ((∃ limit, Computed g (src.flatMap Top.names) s
              (run g.program limit { input, files })) ↔
            ∃ k, exec .compiled k src [] = some s) ∧
          (src.all Top.plain = true → ∃ limit, Computed g (src.flatMap Top.names) s
            (run g.program limit { input, files }))) := by
  obtain ⟨g, hg, hknows, hcode⟩ := generateProgram_of_wellScoped hsrc
  refine ⟨g, hg, fun hsize hmemory => ?_, fun hw input files n s hs => ⟨⟨?_, ?_⟩, fun hplain => ?_⟩⟩
  · rw [Image.write, hcode, fault_writeSlots]
    rw [hknows.memory] at hmemory
    exact fits_program src hsrc (by simpa using hmemory) (by simpa [hcode] using hsize)
  · rintro ⟨limit, h⟩
    exact ⟨limit, exec_of_computed hsrc hg hw (by simpa using names_exec src hs) h⟩
  · rintro ⟨k, h⟩
    exact computed_of_exec hsrc hg hw input files h
  · exact computed_of_exec hsrc hg hw input files ((exec_compiled hplain).symm ▸ hs)

/-- A number as it is. -/
def literal {l : Bool} (n : Int32) : Expr l := .number (.int n.toInt) n rfl

/-- Sums in two loops, the first of which decides what to add:
    `int x = 3; int y; int z;`,
    `while (x > 0) { if (x == 2) { y = y + 10; } elif (x == 7) { y = 1; } else { y = y + x; }`
    `x = x - 1; }`, and `for (int i = 0; i < 3) { z = z + i * 2; }`. -/
def sums : List Top :=
  [.declare "x" (some (literal 3)), .declare "y" none, .declare "z" none,
    .stmt (.whileLoop (.arithmetic .gt (.name "x") (literal 0))
      (.cons (.conditional (.arithmetic .eq (.name "x") (literal 2))
          (.cons (.assign "y" (.arithmetic .add (.name "y") (literal 10))) .nil)
          (.further (.arithmetic .eq (.name "x") (literal 7))
            (.cons (.assign "y" (literal 1)) .nil)
            (.otherwise (.cons (.assign "y" (.arithmetic .add (.name "y") (.name "x"))) .nil))))
        (.cons (.assign "x" (.arithmetic .sub (.name "x") (literal 1))) .nil))),
    .forLoop "i" (literal 0) (.arithmetic .lt (.name "i") (literal 3))
      (.cons (.assign "z" (.arithmetic .add (.name "z")
        (.arithmetic .mul (.name "i") (literal 2)))) .nil)]

/-- The further condition never holds, so the machine computes both sums. -/
theorem machine_right_sums : wellScoped [] sums = true ∧
    ∃ g, generateProgram (sums.map Top.node) = .ok g ∧ (Image.write g).fault = none ∧
      ∃ s, exec .meant 4 sums [] = some s ∧ exec .compiled 4 sums [] = some s ∧
        s = [("x", 0), ("y", 14), ("z", 6), ("i", 3)] ∧
        ∃ limit, Computed g ["x", "y", "z", "i"] s (run g.program limit {}) := by
  have hsrc : wellScoped [] sums = true := by decide
  have hmeant : exec .meant 4 sums [] = some [("x", 0), ("y", 14), ("z", 6), ("i", 3)] := by
    decide +kernel
  have hcompiled : exec .compiled 4 sums [] = some [("x", 0), ("y", 14), ("z", 6), ("i", 3)] := by
    decide +kernel
  obtain ⟨g, hg, hsmall, hright⟩ := machine_right_iff hsrc
  obtain ⟨g', hg', hsize⟩ := exists_of_toOption (p := sums.map Top.node)
    (f := fun g => (g.code.size, g.memory)) (x := (54, 16)) (by decide +kernel)
  obtain rfl : g = g' := by rwa [hg, Except.ok.injEq] at hg'
  obtain ⟨hcode, hmemory⟩ := Prod.mk.inj hsize
  have hw := hsmall (by rw [hcode]; decide) (by rw [hmemory]; decide)
  exact ⟨hsrc, g, hg, hw, _, hmeant, hcompiled, rfl,
    (hright hw [] [] 4 _ hmeant).1.2 ⟨4, hcompiled⟩⟩

/-- A further condition that holds: `int x = 0;` and
    `if (x == 1) { x = 1; } elif (x == 0) { x = 2; }`. -/
def furtherCondition : List Top :=
  [.declare "x" (some (literal 0)),
    .stmt (.conditional (.arithmetic .eq (.name "x") (literal 1))
      (.cons (.assign "x" (literal 1)) .nil)
      (.further (.arithmetic .eq (.name "x") (literal 0))
        (.cons (.assign "x" (literal 2)) .nil) .absent))]

/-- The program means that the variable becomes two, but on the machine it stays zero. -/
theorem machine_wrong_further : wellScoped [] furtherCondition = true ∧
    exec .meant 1 furtherCondition [] = some [("x", 2)] ∧
    ∃ g, generateProgram (furtherCondition.map Top.node) = .ok g ∧
      (Image.write g).fault = none ∧
      (∃ limit, Computed g ["x"] [("x", 0)] (run g.program limit {})) ∧
      ¬∃ limit, Computed g ["x"] [("x", 2)] (run g.program limit {}) := by
  have hsrc : wellScoped [] furtherCondition = true := by decide
  have hcompiled (n : Nat) : exec .compiled n furtherCondition [] = some [("x", 0)] := rfl
  obtain ⟨g, hg, hw⟩ := exists_of_toOption (p := furtherCondition.map Top.node)
    (f := fun g => (Image.write g).fault) (x := none) (by decide +kernel)
  refine ⟨hsrc, by decide +kernel, g, hg, hw, computed_of_exec hsrc hg hw [] [] (hcompiled 0), ?_⟩
  rintro ⟨limit, h⟩
  have hexec := exec_of_computed hsrc hg hw rfl h
  rw [hcompiled] at hexec
  cases hexec

end Results

end Source

end StackLang
