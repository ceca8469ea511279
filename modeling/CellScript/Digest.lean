import CellScript.Program

/-!
# Program digests

A program is identified by a hash over all that a run starts from: the code and
the used part of the heap, each behind its length so that no byte can move from
one to the other unnoticed.
-/

namespace CellScript

namespace Sha256

def constants : Array UInt32 := #[
  0x428a2f98, 0x71374491, 0xb5c0fbcf, 0xe9b5dba5, 0x3956c25b, 0x59f111f1, 0x923f82a4, 0xab1c5ed5,
  0xd807aa98, 0x12835b01, 0x243185be, 0x550c7dc3, 0x72be5d74, 0x80deb1fe, 0x9bdc06a7, 0xc19bf174,
  0xe49b69c1, 0xefbe4786, 0x0fc19dc6, 0x240ca1cc, 0x2de92c6f, 0x4a7484aa, 0x5cb0a9dc, 0x76f988da,
  0x983e5152, 0xa831c66d, 0xb00327c8, 0xbf597fc7, 0xc6e00bf3, 0xd5a79147, 0x06ca6351, 0x14292967,
  0x27b70a85, 0x2e1b2138, 0x4d2c6dfc, 0x53380d13, 0x650a7354, 0x766a0abb, 0x81c2c92e, 0x92722c85,
  0xa2bfe8a1, 0xa81a664b, 0xc24b8b70, 0xc76c51a3, 0xd192e819, 0xd6990624, 0xf40e3585, 0x106aa070,
  0x19a4c116, 0x1e376c08, 0x2748774c, 0x34b0bcb5, 0x391c0cb3, 0x4ed8aa4a, 0x5b9cca4f, 0x682e6ff3,
  0x748f82ee, 0x78a5636f, 0x84c87814, 0x8cc70208, 0x90befffa, 0xa4506ceb, 0xbef9a3f7, 0xc67178f2]

structure State where
  a : UInt32
  b : UInt32
  c : UInt32
  d : UInt32
  e : UInt32
  f : UInt32
  g : UInt32
  h : UInt32

def initial : State :=
  ⟨0x6a09e667, 0xbb67ae85, 0x3c6ef372, 0xa54ff53a,
   0x510e527f, 0x9b05688c, 0x1f83d9ab, 0x5be0cd19⟩

def rotr (x n : UInt32) : UInt32 := (x >>> n) ||| (x <<< (32 - n))

def round (s : State) (k w : UInt32) : State :=
  let s1 := rotr s.e 6 ^^^ rotr s.e 11 ^^^ rotr s.e 25
  let ch := (s.e &&& s.f) ^^^ (~~~s.e &&& s.g)
  let t1 := s.h + s1 + ch + k + w
  let s0 := rotr s.a 2 ^^^ rotr s.a 13 ^^^ rotr s.a 22
  let maj := (s.a &&& s.b) ^^^ (s.a &&& s.c) ^^^ (s.b &&& s.c)
  ⟨t1 + (s0 + maj), s.a, s.b, s.c, s.d + t1, s.e, s.f, s.g⟩

def extend (w : Array UInt32) : Array UInt32 :=
  let n := w.size
  let x := w.getD (n - 15) 0
  let y := w.getD (n - 2) 0
  let s0 := rotr x 7 ^^^ rotr x 18 ^^^ (x >>> 3)
  let s1 := rotr y 17 ^^^ rotr y 19 ^^^ (y >>> 10)
  w.push (w.getD (n - 16) 0 + s0 + w.getD (n - 7) 0 + s1)

def wordAt (m : Array UInt8) (i : Nat) : UInt32 :=
  ((m.getD i 0).toUInt32 <<< 24) ||| ((m.getD (i + 1) 0).toUInt32 <<< 16)
    ||| ((m.getD (i + 2) 0).toUInt32 <<< 8) ||| (m.getD (i + 3) 0).toUInt32

/-- Takes in the block of sixty-four bytes at an offset. -/
def compress (m : Array UInt8) (s : State) (offset : Nat) : State :=
  let words := (List.range 16).foldl (fun w i => w.push (wordAt m (offset + 4 * i))) #[]
  let schedule := (List.range 48).foldl (fun w _ => extend w) words
  let t := (List.range 64).foldl
    (fun s i => round s (constants.getD i 0) (schedule.getD i 0)) s
  ⟨s.a + t.a, s.b + t.b, s.c + t.c, s.d + t.d, s.e + t.e, s.f + t.f, s.g + t.g, s.h + t.h⟩

def bigEndian : (count n : Nat) → List UInt8
  | 0, _ => []
  | count + 1, n => UInt8.ofNat (n / Nat.pow 256 count) :: bigEndian count n

/-- The message with a one bit, zeros and its length in bits behind it, a whole
number of blocks. -/
def padded (message : List UInt8) : Array UInt8 :=
  let n := message.length
  (message ++ 0x80 :: List.replicate ((119 - n % 64) % 64) 0 ++ bigEndian 8 (8 * n)).toArray

def hash (message : List UInt8) : List UInt8 :=
  let m := padded message
  let s := (List.range (m.size / 64)).foldl (fun s i => compress m s (64 * i)) initial
  [s.a, s.b, s.c, s.d, s.e, s.f, s.g, s.h].flatMap fun w => bigEndian 4 w.toNat

end Sha256

namespace Program

def measured (bytes : List UInt8) : List UInt8 := Sha256.bigEndian 4 bytes.length ++ bytes

/-- All that a run starts from, as one byte sequence. -/
def image (p : Program) : List UInt8 := measured p.code.toList ++ measured p.heap.usedBytes

def digest (p : Program) : String := Hex.ofBytes (Sha256.hash p.image)

end Program

end CellScript
