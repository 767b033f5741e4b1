/-!
# Parts of texts

Whether a text holds another one, the removal of its first occurrence, and the
cutting at a character.
-/

namespace StackLang

/-- What is left of a text after a given front, if it has that front. -/
def afterFront? : (front : List Char) → List Char → Option (List Char)
  | [], cs => some cs
  | _ :: _, [] => none
  | f :: fs, c :: cs => if f = c then afterFront? fs cs else none

/-- Whether the characters `part` stand somewhere in a text. -/
def holdsChars (part : List Char) : List Char → Bool
  | [] => part.isEmpty
  | c :: cs => (afterFront? part (c :: cs)).isSome || holdsChars part cs

/-- Whether a text holds another one. -/
def holds (part whole : String) : Bool := holdsChars part.toList whole.toList

/-- A text without the first occurrence of the characters `part`. -/
def removeFirst (part : List Char) : List Char → List Char
  | [] => []
  | c :: cs =>
    match afterFront? part (c :: cs) with
    | some rest => rest
    | none => c :: removeFirst part cs

/-- The parts of a text between the occurrences of a character. -/
def cutAt (sep : Char) : List Char → List (List Char)
  | [] => [[]]
  | c :: cs =>
    if c = sep then [] :: cutAt sep cs
    else
      match cutAt sep cs with
      | [] => [[c]]
      | p :: ps => (c :: p) :: ps

end StackLang
