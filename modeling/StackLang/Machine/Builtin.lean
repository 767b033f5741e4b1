import StackLang.Machine
import StackLang.Machine.Input

/-!
# Built-in functions

The functions of the machine that programs call by number: output and input,
files, lists and texts. They take their arguments from the stack, the object of
a method first, and push their result.
-/

namespace StackLang

/-! ### The text of items -/

/-- What printing shows of an item that is no pointer. -/
def Item.printed (x : Item) : List UInt8 :=
  match x.tag with
  | .int => textBytes (signedText (wordInt x.word))
  | .byte =>
    if x.word = 1 then textBytes "True"
    else if x.word = 0 then textBytes "False"
    else textBytes (signedText (wordInt (extendByte x.word)))
  | .real => textBytes x.real.text
  | .char => [x.word.toUInt8]
  | _ => []

/-- What an item that is no pointer becomes as a text. -/
def Item.spelled (x : Item) : List UInt8 :=
  match x.tag with
  | .char => [x.word.toUInt8]
  | .int => textBytes (signedText (wordInt x.word))
  | .real => textBytes x.real.text
  | .byte =>
    if x.word = 1 then textBytes "True"
    else if x.word = 0 then textBytes "False"
    else textBytes (decimalText x.word.toNat)
  | _ => textBytes (decimalText x.word.toNat)

/-- The elements of a block. -/
def Block.items (b : Block) : List Item :=
  (List.range b.count).map fun i => ⟨b.tag, b.cells.word (i * b.tag.width) b.tag.width⟩

/-- The elements of a block as they are read one after the other. The offset of an element is cut to a
    word, so behind those that a word can reach the first ones come again. -/
def Block.itemsRead (b : Block) : List Item :=
  (List.range b.count).map fun i =>
    ⟨b.tag, b.cells.word (i * b.tag.width).toUInt32.toNat b.tag.width⟩

/-- Rows of bytes with commas between them. -/
def commaSeparated : List (List UInt8) → List UInt8
  | [] => []
  | [p] => p
  | p :: ps => p ++ textBytes ", " ++ commaSeparated ps

/-- What printing shows of an item: a block of characters as a text, another one
    as the list of its elements. There is no end to a block that holds itself, so
    lists are followed to a given depth. -/
def Heap.printed (h : Heap) (depth : Nat) (x : Item) : Option (List UInt8) :=
  if x.tag ≠ .pointer then some x.printed
  else
    match depth with
    | 0 => none
    | depth + 1 =>
      let b := h.block x.block
      if b.tag = .char then some b.cells.toList
      else
        (b.itemsRead.mapM (h.printed depth)).map fun parts =>
          textBytes "[" ++ commaSeparated parts ++ textBytes "]"

namespace Act

/-- Show the top of the stack. -/
def print : Act Unit := do
  let x ← pop
  let h := (← get).heap
  match h.printed (h.size + 1) x with
  | some bs => emit bs
  | none => throw .stuck

/-- Write the text of an item to the end of a block. All lists are written with
    brackets, also those of characters. -/
def spell (n : Nat) (depth : Nat) (x : Item) : Act Unit := do
  if x.tag ≠ .pointer then appendBytes n x.spelled
  else
    match depth with
    | 0 => throw .stuck
    | depth + 1 =>
      let b ← block x.block
      appendBytes n (textBytes "[")
      for i in List.range b.count do
        let w ← readBlock x.block (i * b.tag.width) b.tag.width
        spell n depth ⟨b.tag, w⟩
        if i + 1 ≠ b.count then appendBytes n (textBytes ", ")
      appendBytes n (textBytes "]")

/-- Push the text of an item. -/
def toText : Act Unit := do
  let x ← pop
  let n ← addBlock .char
  spell n ((← get).heap.size + 1) x
  push (.ofBlock n)

/-! ### Input -/

/-- Take something from the input. -/
def take {α : Type} (f : List UInt8 → α × List UInt8) : Act α := do
  let r := f (← get).input
  modify fun m => { m with input := r.2 }
  return r.1

/-- Read an integer; what is none counts as zero. -/
def readInt : Act Unit := do push ⟨.int, (← take Input.takeInt).getD 0⟩

/-- Read a real. -/
def readReal : Act Unit := do push ⟨.real, ((← take Input.takeReal).getD ⟨0⟩).bits⟩

/-- Read a word. -/
def readWord : Act Unit := do
  let word ← take Input.takeWord
  pushText (word.takeWhile (· ≠ 0))

/-- Push the name of a tag. -/
def tagName : Act Unit := do
  let x ← pop
  pushText (textBytes x.tag.name)

/-! ### Files -/

/-- The name of a file without the steps that stay in its folder. -/
def plainName : List UInt8 → List UInt8
  | 46 :: 47 :: rest => plainName rest
  | name => name

/-- The name that a block holds, up to its first zero. -/
def fileName (n : Nat) : Act (List UInt8) := do
  return plainName ((← block n).cells.toList.takeWhile (· ≠ 0))

/-- Copy what is left of a file from place `i` on to a block, byte by byte, as long as the place is
    before `stop`. The byte of the file at place `start` is the first one of the block. -/
def readFrom (n : Nat) (start stop i : Int) : (left : List UInt8) → Act Unit
  | [] => pure ()
  | b :: left => do
    if i < stop then
      writeBlock n b.toUInt32 (i - start).toNat 1
      readFrom n start stop (i + 1) left

/-- Push a part of a file. A negative start stands for a place at the end of the file or behind it. -/
def readFile : Act Unit := do
  let name ← fileName (← pop).block
  match (← get).files.lookup name with
  | none => fail .fileNotFound
  | some content =>
    let start := wordInt (← pop).word
    let count := wordInt (← pop).word
    let start := if start < 0 then (content.length : Int) - (start + 1) else start
    let n ← addBlock .byte
    readFrom n start (start + count) start (content.drop start.toNat)
    push (.ofBlock n)

/-- Whether a file of this name can be made. -/
def isFileName (name : List UInt8) : Bool :=
  name ≠ [] && name ≠ [46] && name ≠ [46, 46] && !name.contains 47

/-- Write bytes of a block to a file, from place `i` on. -/
def writeFrom (name : List UInt8) (n i : Nat) : (count : Nat) → Act Unit
  | 0 => pure ()
  | count + 1 => do
    let w ← readBlock n i 1
    modify fun m =>
      { m with files := m.files.put name ((m.files.lookup name).getD [] ++ [w.toUInt8]) }
    writeFrom name n (i + 1) count

/-- Write a block to a file, over its contents or behind them. -/
def writeFile : Act Unit := do
  let name ← fileName (← pop).block
  let n := (← pop).block
  let count := (← pop).word
  let replaces := (← pop).word ≠ 0
  if !isFileName name then fail .fileNotFound
  modify fun m =>
    { m with
      files := m.files.put name (if replaces then [] else (m.files.lookup name).getD []) }
  writeFrom name n 0 count.toNat
  push ⟨.int, count⟩

/-! ### Lists -/

/-- Push the number of elements. -/
def size : Act Unit := do
  let b ← block (← pop).block
  push ⟨.int, b.count.toUInt32⟩

/-- Add an item of the tag of a list at its end. How many bytes are written hangs
    on the tag of the reference. -/
def append : Act Unit := do
  let list ← pop
  let x ← pop
  let b ← block list.block
  if x.tag ≠ b.tag then fail .unknown
  writeBlock list.block x.word b.size list.tag.width

/-- Take an element out of a list. -/
def removeAt : Act Unit := do
  let list ← pop
  let i ← pop
  let b ← block list.block
  if b.size < i.word.toNat then fail .index
  let heap ← lift ((← get).heap.removeElement list.block i.word.toNat b.tag.width)
  modify fun m => { m with heap }

/-- Push whether a list is empty. -/
def isEmpty : Act Unit := do
  let b ← block (← pop).block
  push (.ofBool (b.size = 0))

/-- Copy elements of a list, one after the other up or down, to the end of
    another one. -/
def sliceFrom (source target width : Nat) (step place : UInt32) (j : Nat) :
    (count : Nat) → Act Unit
  | 0 => pure ()
  | count + 1 => do
    let w ← readBlock source (place * width.toUInt32).toNat width
    writeBlock target w (j * width) width
    sliceFrom source target width step (place + step) (j + 1) count

/-- Push the elements of a list between two places, both included. A negative
    place counts from the number of bytes of the list. -/
def slice : Act Unit := do
  let list ← pop
  let start ← pop
  let stop ← pop
  let b ← block list.block
  let place (w : UInt32) : UInt32 := if wordInt w < 0 then b.size.toUInt32 + w else w
  let first := place start.word
  let last := place stop.word
  let n ← addBlock b.tag
  if first < last then sliceFrom list.block n b.tag.width 1 first 0 (last + 1 - first).toNat
  else sliceFrom list.block n b.tag.width 0xffffffff first 0 (first - (last - 1)).toNat
  push (.ofBlock n)

/-- Leave a list as it is; the function to apply is dropped. -/
def keepList : Act Unit := do
  let list ← pop
  let _ ← pop
  push list

/-- Whether a word comes before another one: reals by their order, all else by
    the words without a sign. -/
def before (t : Tag) (x y : UInt32) : Bool :=
  match t with
  | .real => (⟨x⟩ : Real32).compare ⟨y⟩ = some .lt
  | _ => x < y

/-- Push the element of a list that no other one is better than. -/
def best (better : Tag → UInt32 → UInt32 → Bool) : Act Unit := do
  let n := (← pop).block
  let b ← block n
  let mut found ← readBlock n 0 b.tag.width
  for i in (List.range b.count).drop 1 do
    let w ← readBlock n (i * b.tag.width) b.tag.width
    if better b.tag w found then found := w
  push ⟨b.tag, found⟩

/-- Push a copy of a text with its bytes changed. -/
def mapText (f : UInt8 → UInt8) : Act Unit := do
  let n := (← pop).block
  if (← block n).tag ≠ .char then fail .unknown
  let copy ← duplicate n .char 1
  for i in List.range (← block copy).size do
    let w ← readBlock copy i 1
    writeBlock copy (f w.toUInt8).toUInt32 i 1
  push (.ofBlock copy)

/-- The lower case of a letter. -/
def lowerByte (b : UInt8) : UInt8 := if 65 ≤ b && b ≤ 90 then b + 32 else b

/-- The upper case of a letter. -/
def upperByte (b : UInt8) : UInt8 := if 97 ≤ b && b ≤ 122 then b - 32 else b

/-- The built-in function of a number. -/
def builtin (n : UInt32) : Act Unit :=
  match n.toNat with
  | 0 => throw .exited
  | 1 => print
  | 2 => readInt
  | 3 => readReal
  | 4 => readWord
  | 5 => tagName
  | 6 => readFile
  | 7 => writeFile
  | 8 => size
  | 9 => append
  | 10 => removeAt
  | 11 => isEmpty
  | 12 => slice
  | 13 => keepList
  | 14 => keepList
  | 15 => best before
  | 16 => best fun t x y => before t y x
  | 17 => mapText lowerByte
  | 18 => mapText upperByte
  | 19 => toText
  | _ => say ("Unknown syscall: " ++ signedText (wordInt n) ++ "\n")

end Act

end StackLang
