import StackLang.Proofs.ItemText

/-!
# Parts of files

A built-in function reads bytes of a file into a new block. It goes through the file from a place on, and
a byte is taken from the file before its place is compared with the one to stop at. So the end of the
file is found before it is known whether a byte was wanted.

* `Act.run_readFrom`: the bytes that the loop has written, wherever the file or the part ends first;
* `Machine.reads_iff`: the part of the file that is pushed, and that it is the only one;
* `file_part_read_iff`: when this is the part that the places mean.
-/

namespace StackLang

open List

/-- The contents of the file whose name an item points to. The name ends before the first zero. -/
def Machine.fileAt? (m : Machine) (x : Item) : Option (List UInt8) :=
  m.files.lookup (Act.plainName ((m.heap.block x.block).cells.toList.takeWhile (· ≠ 0)))

/-- So many bytes of a file from a place on, or less if the file ends before. A negative place is counted
    from the end of the file. -/
def filePart (content : List UInt8) (start count : Int) : List UInt8 :=
  let place := (if start < 0 then content.length + start else start).toNat
  content.extract place (min (place + count.toNat) content.length)

/-- The place that is taken for a start. -/
def readPlace (content : List UInt8) (start : Int) : Int :=
  if start < 0 then content.length - (start + 1) else start

/-- The bytes that are read: so many of those behind that place. -/
def bytesRead (content : List UInt8) (start count : Int) : List UInt8 :=
  (content.drop (readPlace content start).toNat).take count.toNat

theorem length_bytesRead_le (content : List UInt8) (start count : Int) :
    (bytesRead content start count).length ≤ content.length := by
  rw [bytesRead, length_take, length_drop]
  omega

/-! ### The loop -/

namespace Act

variable {m : Machine} {c : Block} {i : Int} {left : List UInt8}

/-- The loop adds bytes to the newest block until the file ends or the place to stop at is reached. -/
theorem run_readFrom (m : Machine) (bs : Array Block) (start stop : Int) (hi : i = start + c.size)
    (hsize : c.size + left.length < 2 ^ 32) :
    readFrom bs.size start stop i left { m with heap := ⟨bs.push c⟩ } =
      (.ok (), { m with heap := ⟨bs.push (c.withText (left.take (stop - i).toNat))⟩ }) := by
  induction left generalizing i c with
  | nil => rw [take_nil]; rfl
  | cons w left ih =>
    rw [length_cons] at hsize
    unfold readFrom
    by_cases hstop : i < stop
    · -- the place of the byte in the block is the end of the block
      have hend : (i - start).toNat = c.size := by omega
      have hgrown : (c.extended w.toUInt32 1).size = c.size + 1 :=
        Block.size_extended (mt toUInt32_eq_endAddress_iff.1 (by omega))
      have hnew : (Heap.mk (bs.push c)).blocks[bs.size]? = some c := Array.getElem?_push_size
      have htake : (stop - i).toNat = (stop - (i + 1)).toNat + 1 := by omega
      rw [if_pos hstop, hend,
        run_bind_ok (run_writeBlock (Heap.write_end hnew Nat.one_pos (by decide))), Heap.set_newest,
        ih (by omega) (by omega), htake, take_succ_cons]
      rfl
    · have htake : (stop - i).toNat = 0 := by omega
      rw [if_neg hstop, htake]
      rfl

/-- What is read of a file is what the loop finds from the place on that the start is taken for. -/
theorem run_readFile {name first count : Item} {rest : List Item} {content : List UInt8}
    (hs : m.stack = name :: first :: count :: rest) (hlen : rest.length < stackLimit)
    (hfile : m.fileAt? name = some content) (hsize : content.length < 2 ^ 32) :
    readFile m = (.ok (),
      { m with
        stack := .ofBlock m.heap.size :: rest
        heap := ⟨m.heap.blocks.push (.withText { tag := .byte }
          (bytesRead content (wordInt first.word) (wordInt count.word)))⟩ }) := by
  have hname : fileName name.block { m with stack := first :: count :: rest } =
      (.ok (plainName ((m.heap.block name.block).cells.toList.takeWhile (· ≠ 0))),
        { m with stack := first :: count :: rest }) := rfl
  have hleft : (content.drop (readPlace content (wordInt first.word)).toNat).length < 2 ^ 32 := by
    rw [length_drop]
    omega
  have hfirst : pop { m with stack := first :: count :: rest } =
      (.ok first, { m with stack := count :: rest }) := run_pop rfl
  have hcount : pop { m with stack := count :: rest } = (.ok count, { m with stack := rest }) :=
    run_pop rfl
  have hloop := run_readFrom { m with stack := rest } m.heap.blocks (c := { tag := .byte })
    (readPlace content (wordInt first.word))
    (readPlace content (wordInt first.word) + wordInt count.word)
    (Int.add_zero _).symm (Nat.lt_of_le_of_lt (Nat.le_of_eq (Nat.zero_add _)) hleft)
  rw [add_sub_cancel_left] at hloop
  unfold readFile
  rw [run_bind_ok (run_pop hs), run_bind_ok hname, run_get_bind]
  dsimp only
  rw [Machine.fileAt?] at hfile
  rw [hfile]
  dsimp only
  rw [run_bind_ok hfirst, run_bind_ok hcount, run_bind_ok (run_addBlock _ _)]
  exact (run_bind_ok hloop).trans (run_push hlen)

end Act

/-! ### What is pushed -/

/-- The machine reads bytes of a file: it takes the name of the file and the two numbers from the stack, and
    pushes a pointer to a new block of just these bytes. Nothing else changes. -/
def Machine.Reads (m : Machine) (rest : List Item) (bytes : List UInt8) : Prop :=
  ∃ c : Block, c.tag = .byte ∧ c.cells.toList = bytes ∧
    m.execute ⟨0xFF, 6⟩ = .next
      { m with
        pc := m.pc + 1
        stack := .ofBlock m.heap.size :: rest
        heap := ⟨m.heap.blocks.push c⟩ }

theorem Machine.reads_iff {m : Machine} {name first count : Item} {rest : List Item}
    {content : List UInt8} (bytes : List UInt8) (hs : m.stack = name :: first :: count :: rest)
    (hlen : rest.length < stackLimit) (hfile : m.fileAt? name = some content)
    (hsize : content.length < 2 ^ 32) :
    m.Reads rest bytes ↔ bytesRead content (wordInt first.word) (wordInt count.word) = bytes := by
  have hcode : Operation.ofCode? (0xFF : UInt8).toNat = some .builtin := rfl
  have hexec := execute_of_perform (m := m) (i := ⟨0xFF, 6⟩) hcode
    (Act.run_readFile (m := m.onward) hs hlen hfile hsize)
  have hlist (start count : Int) : (Block.withText { tag := .byte }
      (bytesRead content start count)).cells.toList = bytesRead content start count := by
    refine Block.toList_withText (b := { tag := .byte }) ?_
    exact Nat.lt_of_le_of_lt (Nat.zero_add _ ▸ length_bytesRead_le _ _ _) hsize
  constructor
  · rintro ⟨c, -, rfl, hreads⟩
    rw [hexec, Transition.next.injEq, Machine.mk.injEq, Heap.mk.injEq, Array.push_eq_push] at hreads
    rw [← hreads.2.2.2.2.1.1]
    exact (hlist _ _).symm
  · rintro rfl
    exact ⟨_, Block.tag_withText _ _, hlist _ _, hexec⟩

/-- From a place in the file on, the part that is read is the part that is meant. -/
theorem bytesRead_of_nonneg {content : List UInt8} {start : Int} (count : Int) (hstart : 0 ≤ start)
    (hle : start ≤ content.length) : bytesRead content start count = filePart content start count := by
  have hlength : (content.drop start.toNat).length = content.length - start.toNat := length_drop
  rw [bytesRead, readPlace, if_neg (by omega), filePart, if_neg (by omega), extract_eq_take_drop]
  -- to take more than there is changes nothing
  rw [take_eq_take_iff]
  omega

/-- From a negative place on, nothing is read. -/
theorem bytesRead_of_neg {content : List UInt8} {start : Int} (count : Int) (hstart : start < 0) :
    bytesRead content start count = [] := by
  rw [bytesRead, readPlace, if_pos hstart, drop_eq_nil_of_le (by omega), take_nil]

/-- But there are bytes from there on, up to the end of the file. -/
theorem filePart_eq_nil_iff {content : List UInt8} {start count : Int} (hstart : start < 0)
    (hle : -(content.length : Int) ≤ start) (hcount : 0 ≤ count) :
    filePart content start count = [] ↔ count = 0 := by
  rw [filePart, if_pos hstart, ← length_eq_zero_iff, extract_eq_take_drop, length_take,
    length_drop]
  omega

/-- Of a file of less than `2 ^ 30` bytes, the part that is read is the one from the given place on, as many
    bytes as wanted or up to the end of the file, if and only if the place is not counted from the end, or no
    byte is wanted. -/
theorem file_part_read_iff {m : Machine} {name first count : Item} {rest : List Item}
    {content : List UInt8} (hs : m.stack = name :: first :: count :: rest)
    (hlen : rest.length + 3 ≤ stackLimit) (hfile : m.fileAt? name = some content)
    (hsize : content.length < 2 ^ 30)
    (hfirst : -(content.length : Int) ≤ wordInt first.word ∧ wordInt first.word ≤ content.length)
    (hcount : 0 ≤ wordInt count.word ∧ wordInt count.word < 2 ^ 30) :
    m.Reads rest (filePart content (wordInt first.word) (wordInt count.word)) ↔
      0 ≤ wordInt first.word ∨ wordInt count.word = 0 := by
  rw [Machine.reads_iff _ hs (by omega) hfile (by omega)]
  by_cases hneg : wordInt first.word < 0
  · rw [bytesRead_of_neg _ hneg, eq_comm, filePart_eq_nil_iff hneg hfirst.1 hcount.1]
    exact ⟨.inr, fun h => h.resolve_left (Int.not_le.2 hneg)⟩
  · have hnonneg := Int.not_lt.1 hneg
    exact ⟨fun _ => .inl hnonneg, fun _ => bytesRead_of_nonneg _ hnonneg hfirst.2⟩

/-- A machine with a file of five bytes, `hello`, whose name is the text of a block. -/
def fiveBytes : Machine where
  heap := ⟨#[⟨.char, ⟨1, #[102]⟩⟩]⟩
  files := [([102], [104, 101, 108, 108, 111])]

/-- Two bytes are left from the fourth place on, whatever is wanted. -/
theorem file_part_read_end :
    { fiveBytes with stack := [.ofBlock 0, ⟨.int, 3⟩, ⟨.int, 9⟩] }.Reads [] [108, 111] :=
  (file_part_read_iff (m := { fiveBytes with stack := [.ofBlock 0, ⟨.int, 3⟩, ⟨.int, 9⟩] }) rfl
    (by decide) rfl (by decide) (by decide) (by decide)).2 (.inl (by decide))

/-- The last byte is not read if it is counted from the end. -/
theorem file_part_missed_last :
    filePart [104, 101, 108, 108, 111] (-1) 5 = [111] ∧
    { fiveBytes with stack := [.ofBlock 0, ⟨.int, 0xffffffff⟩, ⟨.int, 5⟩] }.Reads [] [] ∧
    ¬{ fiveBytes with stack := [.ofBlock 0, ⟨.int, 0xffffffff⟩, ⟨.int, 5⟩] }.Reads [] [111] := by
  have hs : { fiveBytes with stack := [.ofBlock 0, ⟨.int, 0xffffffff⟩, ⟨.int, 5⟩] }.stack =
      [.ofBlock 0, ⟨.int, 0xffffffff⟩, ⟨.int, 5⟩] := rfl
  have hfile : { fiveBytes with stack := [.ofBlock 0, ⟨.int, 0xffffffff⟩, ⟨.int, 5⟩] }.fileAt?
      (.ofBlock 0) = some [104, 101, 108, 108, 111] := rfl
  have hreads (bytes : List UInt8) :=
    Machine.reads_iff bytes hs (by decide) hfile (by decide)
  exact ⟨by decide, (hreads []).2 (by decide), fun h => absurd ((hreads [111]).1 h) (by decide)⟩

end StackLang
