import StackLang.Machine.Trap

/-!
# Segments

A segment is a row of bytes of a given size. Bytes that were never written are
zero. A segment that shrinks keeps what it had behind its end, and shows it again
when it grows.

Words are read and written by one to four bytes, the lowest first. The address
`0xffffffff` stands for the end: a write there makes the segment grow.

`Memory` is a segment with a tag for each address, which is the tag of the item
last stored there; `Heap` is a row of blocks, which are segments with one tag for
all their elements.
-/

namespace StackLang

/-- A row of bytes. -/
structure Segment where
  /-- How many bytes there are. -/
  size : Nat := 0
  /-- The bytes that have been written. -/
  bytes : Array UInt8 := #[]
  deriving DecidableEq, Repr, Inhabited

/-- The address that stands for the end of a segment. -/
def endAddress : UInt32 := 0xffffffff

namespace Segment

/-- The byte at a place. -/
def byte (s : Segment) (i : Nat) : UInt8 := s.bytes.getD i 0

/-- Change the byte at a place. -/
def setByte (s : Segment) (i : Nat) (b : UInt8) : Segment :=
  { s with
    bytes :=
      if i < s.bytes.size then s.bytes.setIfInBounds i b
      else (s.bytes ++ Array.replicate (i - s.bytes.size) 0).push b }

/-- Make the segment at least as large as a given size. -/
def grow (s : Segment) (n : Nat) : Segment := { s with size := max s.size n }

/-- The bytes of a segment. -/
def toList (s : Segment) : List UInt8 := (List.range s.size).map s.byte

/-- The word of `width` bytes from a place on. -/
def word (s : Segment) (i width : Nat) : UInt32 :=
  match width with
  | 0 => 0
  | w + 1 => (s.byte i).toUInt32 ||| (s.word (i + 1) w <<< 8)

/-- Change `width` bytes from a place on to those of a word. -/
def setWord (s : Segment) (i : Nat) (w : UInt32) (width : Nat) : Segment :=
  match width with
  | 0 => s
  | n + 1 => (s.setByte i w.toUInt8).setWord (i + 1) (w >>> 8) n

/-- Read a word of `width` bytes at an address. -/
def read (s : Segment) (address : UInt32) (width : Nat) : Except Trap UInt32 :=
  if width = 0 ∨ 4 < width ∨ s.size < address.toNat + width then
    .error (.readOutside width (address.toNat + width) s.size)
  else .ok (s.word address.toNat width)

/-- Write a word of `width` bytes at an address; the address written to comes
    with the segment. -/
def write (s : Segment) (address word : UInt32) (width : Nat) : Except Trap (Segment × Nat) :=
  if width = 0 ∨ 4 < width then .error .outside
  else
    let s' := if address = endAddress then s.grow (s.size + width) else s
    let place := if address = endAddress then s.size else address.toNat
    if s'.size < place + width then .error .outside
    else .ok (s'.setWord place word width, place)

end Segment

/-! ### Memory -/

/-- The memory of the machine's variables. -/
structure Memory where
  cells : Segment := {}
  /-- The tags of the items last stored, by address. -/
  tags : Array Tag := #[]
  deriving DecidableEq, Repr, Inhabited

namespace Memory

/-- The tag at an address. -/
def tag (m : Memory) (i : Nat) : Tag := m.tags.getD i .unassigned

/-- Change the tag at an address. -/
def setTag (m : Memory) (i : Nat) (t : Tag) : Memory :=
  { m with
    tags :=
      if i < m.tags.size then m.tags.setIfInBounds i t
      else (m.tags ++ Array.replicate (i - m.tags.size) Tag.unassigned).push t }

/-- Store an item at an address. -/
def store (m : Memory) (address : UInt32) (x : Item) : Except Trap Memory := do
  let (cells, place) ← m.cells.write address x.word x.tag.width
  return { m with cells }.setTag place x.tag

/-- The item at an address, as its tag says. -/
def load (m : Memory) (address : UInt32) : Except Trap Item := do
  let t := m.tag address.toNat
  return ⟨t, ← m.cells.read address t.width⟩

/-- The addresses with a tag, and their tags. -/
def tagged (m : Memory) : List (Nat × Tag) :=
  (m.tags.toList.zipIdx.map fun p => (p.2, p.1)).filter fun p => p.2 ≠ .unassigned

end Memory

/-! ### The heap -/

/-- A list of elements of one tag. -/
structure Block where
  tag : Tag := .unassigned
  cells : Segment := {}
  deriving DecidableEq, Repr, Inhabited

namespace Block

/-- How many bytes a block has. -/
abbrev size (b : Block) : Nat := b.cells.size

/-- How many elements a block has. -/
def count (b : Block) : Nat := b.size / b.tag.width

end Block

/-- The blocks of the machine, by number. -/
structure Heap where
  blocks : Array Block := #[]
  deriving DecidableEq, Repr, Inhabited

namespace Heap

/-- How many blocks there are. -/
abbrev size (h : Heap) : Nat := h.blocks.size

/-- The block of a number. -/
def block (h : Heap) (n : Nat) : Block := h.blocks.getD n {}

/-- Add an empty block; its number is the old size. -/
def add (h : Heap) (t : Tag) : Heap := { blocks := h.blocks.push { tag := t } }

/-- Change the tag of a block. -/
def retag (h : Heap) (n : Nat) (t : Tag) : Heap :=
  { blocks := h.blocks.modify n fun b => { b with tag := t } }

/-- Read a word of a block. -/
def read (h : Heap) (n offset width : Nat) : Except Trap UInt32 :=
  match h.blocks[n]? with
  | none => .error .unknown
  | some b => b.cells.read offset.toUInt32 width

/-- Write a word into a block, which grows as needed. -/
def write (h : Heap) (n : Nat) (word : UInt32) (offset width : Nat) : Except Trap Heap :=
  match h.blocks[n]? with
  | none => .error .unknown
  | some b => do
    let (cells, _) ← (b.cells.grow (offset + width)).write offset.toUInt32 word width
    return { blocks := h.blocks.setIfInBounds n { b with cells } }

/-- Write a word at the end of a block. -/
def extend (h : Heap) (n : Nat) (word : UInt32) (width : Nat) : Except Trap Heap :=
  h.write n word (h.block n).size width

/-- Take an element of a given width out of a block: those behind it move up by
    one, and the block becomes one byte shorter. -/
def removeElement (h : Heap) (n i width : Nat) : Except Trap Heap :=
  match h.blocks[n]? with
  | none => .error .outside
  | some b =>
    let total := b.size / width
    if total ≤ i then .error .outside
    else
      let start := i * width
      let moved := (total - i - 1) * width
      let cells := (List.range moved).foldl
        (fun s k => s.setByte (start + k) (b.cells.byte (start + width + k))) b.cells
      .ok { blocks := h.blocks.setIfInBounds n
              { b with cells := { cells with size := b.size - 1 } } }

end Heap

end StackLang
