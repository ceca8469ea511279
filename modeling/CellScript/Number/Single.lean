import CellScript.Number.Format

/-!
# Single-precision arithmetic

Programs store half-precision numbers and calculate in single precision. Each
operation below is the exact result on units, rounded once by `Format.round`.
The sign of a zero and the meaning of infinities follow the usual conventions;
every undefined result is the one quiet pattern `nan`.
-/

namespace CellScript

structure Single where
  bits : UInt32
  deriving Repr, DecidableEq, Inhabited

namespace Single

def nan : Single := ⟨0x7fc00000⟩

def ofPattern (negative : Bool) (pattern : Nat) : Single :=
  ⟨UInt32.ofNat (Format.single.signed negative pattern)⟩

def infinite (negative : Bool) : Single := ofPattern negative Format.single.infinity

def ofUnits (negative : Bool) (num den : Nat) : Single :=
  ofPattern negative (Format.single.round num den)

def read (x : Single) : Magnitude := Format.single.read x.bits.toNat

def isNaN (x : Single) : Bool := x.read = .nan

def isInfinite (x : Single) : Bool := x.read matches .infinite _

def smallestHalf : Single := ⟨0x33800000⟩

/-- The number nearest to an integer; exact up to twenty-four bits. -/
def ofInt (n : Int) : Single :=
  ofUnits (n < 0) (n.natAbs * Format.single.scale) 1

def neg (x : Single) : Single := ⟨x.bits ^^^ 0x80000000⟩

def signedUnits (negative : Bool) (units : Nat) : Int :=
  if negative then -(units : Int) else units

/-- A sum that cancels is the positive zero, unless both terms were negative zeros. -/
def add (x y : Single) : Single :=
  match x.read, y.read with
  | .nan, _ | _, .nan => nan
  | .infinite s, .infinite t => if s = t then infinite s else nan
  | .infinite s, .finite .. | .finite .., .infinite s => infinite s
  | .finite s m, .finite t n =>
    let sum := signedUnits s m + signedUnits t n
    if sum = 0 then ofPattern (s && t) 0 else ofUnits (sum < 0) sum.natAbs 1

def sub (x y : Single) : Single := add x y.neg

def mul (x y : Single) : Single :=
  match x.read, y.read with
  | .nan, _ | _, .nan => nan
  | .infinite s, .infinite t => infinite (s != t)
  | .infinite s, .finite t n | .finite t n, .infinite s =>
    if n = 0 then nan else infinite (s != t)
  | .finite s m, .finite t n => ofUnits (s != t) (m * n) Format.single.scale

def div (x y : Single) : Single :=
  match x.read, y.read with
  | .nan, _ | _, .nan => nan
  | .infinite _, .infinite _ => nan
  | .infinite s, .finite t _ => infinite (s != t)
  | .finite s _, .infinite t => ofPattern (s != t) 0
  | .finite s m, .finite t n =>
    if n = 0 then (if m = 0 then nan else infinite (s != t))
    else ofUnits (s != t) (m * Format.single.scale) n

/-- The square root, rounded once. The floor of the root of `m` scaled units has
far more bits than a fraction, so an appended sticky bit decides the rounding. -/
def sqrt (x : Single) : Single :=
  match x.read with
  | .nan => nan
  | .infinite negative => if negative then nan else x
  | .finite negative m =>
    if m = 0 then x
    else if negative then nan
    else
      let square := m * Format.single.scale
      let root := floorSqrt square
      ofUnits false (2 * root + if root * root = square then 0 else 1) 2

/-- The order of two numbers; `none` if either is not a number. Zeros are equal. -/
def compare (x y : Single) : Option Ordering :=
  match x.read, y.read with
  | .nan, _ | _, .nan => none
  | .infinite s, .infinite t => some (Ord.compare t s)
  | .infinite s, .finite .. => some (if s then .lt else .gt)
  | .finite .., .infinite t => some (if t then .gt else .lt)
  | .finite s m, .finite t n => some (Ord.compare (signedUnits s m) (signedUnits t n))

def truncate (x : Single) : Option Int :=
  match x.read with
  | .finite negative m => some (signedUnits negative (m / Format.single.scale))
  | _ => none

end Single

end CellScript
