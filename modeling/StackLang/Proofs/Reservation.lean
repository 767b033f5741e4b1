import StackLang.Proofs.Appending
import StackLang.Proofs.Naming

/-!
# Bytes of variables

A name gets the next free bytes each time that it is declared, and it then has these. So the bytes of
different names are different ones, also behind a node that was stopped by a fault.

A history lists the declarations, the latest one first. What was there at an earlier point is the end
of a history.

* `History.owned?`: the bytes that a name got at its latest declaration;
* `Generator.Declares`: what nodes declare that a generator is given one by one;
* `variable_bytes_disjoint`: whose bytes are where, at every point of every history.
-/

namespace StackLang

open List

/-- How many bytes a variable of the type gets. -/
def typeBytes (type : String) : Nat := if type = "BOOL" ∨ type = "CHAR" then 1 else 4

namespace History

/-- How many bytes were given out. -/
def total : History → Nat
  | [] => 0
  | r :: rs => total rs + typeBytes r.2

/-- Where the bytes begin that a name got at its latest declaration, and how many they are. -/
def owned? : History → Atom → Option (Nat × Nat)
  | [], _ => none
  | r :: rs, x => if r.1.same x then some (total rs, typeBytes r.2) else owned? rs x

variable {rs : History} {x y : Atom} {i j : Nat × Nat}

theorem total_le {ts : History} (h : ts <:+ rs) : total ts ≤ total rs := by
  obtain ⟨us, rfl⟩ := h
  induction us with
  | nil => exact Nat.le_refl _
  | cons u us ih => exact Nat.le_add_right_of_le ih

theorem bounds_of_owned (h : owned? rs x = some i) : (i.2 = 1 ∨ i.2 = 4) ∧ i.1 + i.2 ≤ total rs := by
  induction rs with
  | nil => cases h
  | cons r rs ih =>
    rw [owned?] at h
    split at h
    · obtain rfl := Option.some.inj h
      refine ⟨?_, Nat.le_refl _⟩
      dsimp only
      unfold typeBytes
      split
      · exact .inl rfl
      · exact .inr rfl
    · exact ⟨(ih h).1, Nat.le_add_right_of_le (ih h).2⟩

theorem disjoint_of_owned (hx : owned? rs x = some i) (hy : owned? rs y = some j)
    (hne : x.same y = false) : i.1 + i.2 ≤ j.1 ∨ j.1 + j.2 ≤ i.1 := by
  induction rs with
  | nil => cases hx
  | cons r rs ih =>
    rw [owned?] at hx hy
    split at hx
    · rename_i hrx
      split at hy
      · rename_i hry
        rw [Atom.same_trans (Atom.same_symm hrx) hry] at hne
        cases hne
      · -- the older bytes lie below
        obtain rfl := Option.some.inj hx
        exact .inr (bounds_of_owned hy).2
    · split at hy
      · obtain rfl := Option.some.inj hy
        exact .inl (bounds_of_owned hx).2
      · exact ih hx hy

end History

namespace Generator

/-- Names have the addresses that they got in the history, and the next free address is behind them. -/
structure Follows (g : Generator) (rs : History) : Prop where
  memory : g.memory = rs.total
  address : ∀ x, g.identifiers.get? x = (rs.owned? x).map Prod.fst

instance : Gen.Allows (fun rs g => g.Follows rs) fun _ => True where
  same a _ _ _ hi hm := ⟨hm.trans a.memory, hi ▸ a.address⟩
  push _ a := ⟨a.memory, a.address⟩
  fill _ _ a _ := ⟨a.memory, a.address⟩
  settled {_ g e} a _ := ⟨(g.settled_memory e).trans a.memory, g.settled_identifiers e ▸ a.address⟩
  waitFor _ a := ⟨a.memory, a.address⟩
  reserved x t a := by
    refine ⟨congrArg (· + typeBytes t) a.memory, fun y => ?_⟩
    rw [reserved, Table.get?_put, History.owned?]
    split
    · exact congrArg some a.memory
    · exact a.address y
  here _ := trivial

/-- The generator after nodes that it is given one by one, whatever becomes of each. -/
def runAll (g : Generator) (ns : List Node) : Generator :=
  ns.foldl (fun g n => (g.run (Gen.generate n)).1) g

/-- Given one by one, the nodes make these declarations, each node its own ones in their order, and all
    of them unless a fault stops it. -/
def Declares (g : Generator) : List Node → List History → Prop
  | [], tss => tss = []
  | n :: ns, tss => ∃ ts uss, tss = ts :: uss ∧ ts <+: n.declared ∧
      ((g.run (Gen.generate n)).2 = none → ts = n.declared) ∧ (g.run (Gen.generate n)).1.Declares ns uss

theorem follows_runAll (g : Generator) {rs : History} (h : g.Follows rs) (ns : List Node) :
    ∃ tss, g.Declares ns tss ∧
      ∀ k, (g.runAll (ns.take k)).Follows ((tss.take k).flatten.reverse ++ rs) := by
  induction ns generalizing g rs with
  | nil => exact ⟨[], rfl, fun k => by simpa [runAll] using h⟩
  | cons n ns ih =>
    obtain ⟨ts, hts, hn, hend⟩ := Gen.Gives.generate_declared (I := fun rs g => g.Follows rs) n rs g h
    rw [← run_fst] at hn
    obtain ⟨tss, htss, hns⟩ := ih _ hn
    refine ⟨ts :: tss, ⟨ts, tss, rfl, hts, fun hrun => (hend () (result_of_run hrun)).1, htss⟩, fun k => ?_⟩
    cases k with
    | zero => exact h
    | succ k => simpa [runAll] using hns k

end Generator

/-- Variables never overlap. Whatever nodes a generator is given, stopped by faults or not, it follows the
    history of their declarations from node to node. At every point of the history, within a node or behind
    it, a name that is known has the bytes that it got at its latest declaration, one or four below the next
    free address. The bytes of different names are apart, and the next free address never goes down. -/
theorem variable_bytes_disjoint (ns : List Node) : ∃ tss, Generator.Declares {} ns tss ∧
    (∀ k, (Generator.runAll {} (ns.take k)).Follows (tss.take k).flatten.reverse) ∧
    ∀ rs : History, rs <:+ tss.flatten.reverse → ∀ g : Generator, g.Follows rs →
      (∀ x a, g.identifiers.get? x = some a →
        ∃ n, rs.owned? x = some (a, n) ∧ (n = 1 ∨ n = 4) ∧ a + n ≤ g.memory) ∧
      (∀ x y i j, rs.owned? x = some i → rs.owned? y = some j → x.same y = false →
        i.1 + i.2 ≤ j.1 ∨ j.1 + j.2 ≤ i.1) ∧
      ∀ ts h, ts <:+ rs → Generator.Follows h ts → h.memory ≤ g.memory := by
  have hstart : Generator.Follows {} [] := ⟨rfl, fun _ => rfl⟩
  obtain ⟨tss, htss, hk⟩ := Generator.follows_runAll {} hstart ns
  refine ⟨tss, htss, fun k => by simpa using hk k, fun rs _ g hg => ⟨fun x a ha => ?_, ?_, ?_⟩⟩
  · rw [hg.address, Option.map_eq_some_iff] at ha
    obtain ⟨i, hi, rfl⟩ := ha
    exact ⟨i.2, hi, hg.memory ▸ History.bounds_of_owned hi⟩
  · exact fun x y i j => History.disjoint_of_owned
  · exact fun ts h hts hh => hh.memory ▸ hg.memory ▸ History.total_le hts

end StackLang
