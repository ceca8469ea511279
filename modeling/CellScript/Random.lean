/-!
# Pseudo-random numbers

`rnd` draws from a stream cipher: twelve rounds of add, rotate and exclusive-or
on sixteen words, keyed by the seed and counting blocks. Each draw takes the next
word of the stream.
-/

namespace CellScript

structure Random where
  key : Array UInt32
  drawn : Nat
  deriving DecidableEq, Inhabited

namespace Random

def rotateRight (x : UInt32) (n : UInt32) : UInt32 :=
  if n = 0 then x else (x >>> n) ||| (x <<< (32 - n))

def rotateLeft (x : UInt32) (n : UInt32) : UInt32 := (x <<< n) ||| (x >>> (32 - n))

/-- The first `count` words of a key by a permuted congruential generator. -/
def keyWords : (count : Nat) → (state : UInt64) → List UInt32
  | 0, _ => []
  | count + 1, state =>
    let state := state * 6364136223846793005 + 11634580027462260723
    let x := (((state >>> 18) ^^^ state) >>> 27).toUInt32
    rotateRight x (state >>> 59).toUInt32 :: keyWords count state

def ofSeed (seed : UInt64) : Random := ⟨(keyWords 8 seed).toArray, 0⟩

def quarterRound (a b c d : Nat) (s : Array UInt32) : Array UInt32 :=
  let half (x y z : Nat) (turn : UInt32) (s : Array UInt32) : Array UInt32 :=
    let s := s.setIfInBounds x (s.getD x 0 + s.getD y 0)
    s.setIfInBounds z (rotateLeft (s.getD z 0 ^^^ s.getD x 0) turn)
  let s := half a b d 16 s
  let s := half c d b 12 s
  let s := half a b d 8 s
  half c d b 7 s

def doubleRound (s : Array UInt32) : Array UInt32 :=
  let s := quarterRound 0 4 8 12 s
  let s := quarterRound 1 5 9 13 s
  let s := quarterRound 2 6 10 14 s
  let s := quarterRound 3 7 11 15 s
  let s := quarterRound 0 5 10 15 s
  let s := quarterRound 1 6 11 12 s
  let s := quarterRound 2 7 8 13 s
  quarterRound 3 4 9 14 s

def initial (key : Array UInt32) (block : UInt64) : Array UInt32 :=
  let constants : Array UInt32 := #[0x61707865, 0x3320646e, 0x79622d32, 0x6b206574]
  constants ++ key ++ #[block.toUInt32, (block >>> 32).toUInt32, 0, 0]

/-- Six double rounds, added to the block they started from. -/
def block (key : Array UInt32) (n : UInt64) : Array UInt32 :=
  let start := initial key n
  let mixed := (List.range 6).foldl (fun s _ => doubleRound s) start
  Array.zipWith (· + ·) mixed start

def word (key : Array UInt32) (n : Nat) : UInt32 :=
  (block key (UInt64.ofNat (n / 16))).getD (n % 16) 0

def next (r : Random) : UInt16 × Random :=
  ((word r.key r.drawn).toUInt16, { r with drawn := r.drawn + 1 })

end Random

end CellScript
