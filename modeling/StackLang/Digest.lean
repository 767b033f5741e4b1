import StackLang.Text.Quoted

/-!
# Digests

The SHA-256 digest of a row of bytes. The bytes are padded to whole chunks of 64,
each chunk is spread to 64 words, and 64 rounds mix the words into a state of
eight words.
-/

namespace StackLang

namespace Digest

/-- The words of the rounds: the first 32 bits behind the point of the cube roots
    of the first 64 primes. -/
def roundWords : Array UInt32 :=
  #[0x428a2f98, 0x71374491, 0xb5c0fbcf, 0xe9b5dba5, 0x3956c25b, 0x59f111f1,
    0x923f82a4, 0xab1c5ed5, 0xd807aa98, 0x12835b01, 0x243185be, 0x550c7dc3,
    0x72be5d74, 0x80deb1fe, 0x9bdc06a7, 0xc19bf174, 0xe49b69c1, 0xefbe4786,
    0x0fc19dc6, 0x240ca1cc, 0x2de92c6f, 0x4a7484aa, 0x5cb0a9dc, 0x76f988da,
    0x983e5152, 0xa831c66d, 0xb00327c8, 0xbf597fc7, 0xc6e00bf3, 0xd5a79147,
    0x06ca6351, 0x14292967, 0x27b70a85, 0x2e1b2138, 0x4d2c6dfc, 0x53380d13,
    0x650a7354, 0x766a0abb, 0x81c2c92e, 0x92722c85, 0xa2bfe8a1, 0xa81a664b,
    0xc24b8b70, 0xc76c51a3, 0xd192e819, 0xd6990624, 0xf40e3585, 0x106aa070,
    0x19a4c116, 0x1e376c08, 0x2748774c, 0x34b0bcb5, 0x391c0cb3, 0x4ed8aa4a,
    0x5b9cca4f, 0x682e6ff3, 0x748f82ee, 0x78a5636f, 0x84c87814, 0x8cc70208,
    0x90befffa, 0xa4506ceb, 0xbef9a3f7, 0xc67178f2]

/-- The state at the start: the first 32 bits behind the point of the square
    roots of the first eight primes. -/
def start : Array UInt32 :=
  #[0x6a09e667, 0xbb67ae85, 0x3c6ef372, 0xa54ff53a, 0x510e527f, 0x9b05688c,
    0x1f83d9ab, 0x5be0cd19]

/-- A word turned to the right. -/
def rotate (w : UInt32) (n : UInt32) : UInt32 := (w >>> n) ||| (w <<< (32 - n))

/-- The bytes of a number, the highest first. -/
def bigEndian : (width : Nat) → Nat → List UInt8
  | 0, _ => []
  | w + 1, n => bigEndian w (n / 256) ++ [n.toUInt8]

/-- The bytes with the mark, zeros, and the number of their bits behind them. -/
def padded (bs : List UInt8) : List UInt8 :=
  let rest := (bs.length + 9) % 64
  bs ++ 0x80 :: List.replicate (if rest = 0 then 0 else 64 - rest) 0 ++ bigEndian 8 (8 * bs.length)

/-- The words of a row of bytes, four to a word. -/
def words : List UInt8 → List UInt32
  | a :: b :: c :: d :: r =>
    ((a.toUInt32 <<< 24) ||| (b.toUInt32 <<< 16) ||| (c.toUInt32 <<< 8) ||| d.toUInt32) :: words r
  | _ => []

/-- The 64 words that a chunk is spread to. -/
def schedule (chunk : Array UInt32) : Array UInt32 :=
  (List.range 48).foldl
    (fun w i =>
      let at_ (k : Nat) : UInt32 := w.getD (i + k) 0
      let s0 := rotate (at_ 1) 7 ^^^ rotate (at_ 1) 18 ^^^ (at_ 1 >>> 3)
      let s1 := rotate (at_ 14) 17 ^^^ rotate (at_ 14) 19 ^^^ (at_ 14 >>> 10)
      w.push (at_ 0 + s0 + at_ 9 + s1))
    chunk

/-- One round. -/
def round (s : Array UInt32) (k w : UInt32) : Array UInt32 :=
  let v (i : Nat) : UInt32 := s.getD i 0
  let s1 := rotate (v 4) 6 ^^^ rotate (v 4) 11 ^^^ rotate (v 4) 25
  let choice := (v 4 &&& v 5) ^^^ ((v 4 ^^^ 0xffffffff) &&& v 6)
  let t1 := v 7 + s1 + choice + k + w
  let s0 := rotate (v 0) 2 ^^^ rotate (v 0) 13 ^^^ rotate (v 0) 22
  let majority := (v 0 &&& v 1) ^^^ (v 0 &&& v 2) ^^^ (v 1 &&& v 2)
  #[t1 + s0 + majority, v 0, v 1, v 2, v 3 + t1, v 4, v 5, v 6]

/-- Mix a chunk of sixteen words into a state. -/
def mix (s : Array UInt32) (chunk : Array UInt32) : Array UInt32 :=
  let mixed := (roundWords.zip (schedule chunk)).foldl (fun t p => round t p.1 p.2) s
  Array.zipWith (· + ·) s mixed

/-- The words of all chunks, mixed into a state one chunk after the other. -/
def mixAll (s : Array UInt32) (ws : Array UInt32) : Array UInt32 :=
  (List.range (ws.size / 16)).foldl (fun t i => mix t (ws.extract (16 * i) (16 * i + 16))) s

/-- The digest of a row of bytes, as a text of 64 hexadecimal digits. -/
def sha256 (bs : List UInt8) : String :=
  let s := mixAll start (words (padded bs)).toArray
  String.ofList (s.toList.flatMap fun w => hexDigits 8 w.toNat)

end Digest

end StackLang
