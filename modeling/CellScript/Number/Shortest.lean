import CellScript.Number.Single

/-!
# Shortest decimal text

A listing shows a number with the fewest digits that read back as the same
single-precision pattern and, of two such, the nearer one or on a tie the
greater; never with an exponent. Candidates on each decimal grid are the two neighbours of the exact
value, and "reads back" is literally `Format.round`.
-/

namespace CellScript

namespace Shortest

def ratio (digits : Nat) (scale : Int) : Nat × Nat :=
  match scale with
  | .ofNat n => (digits * Nat.pow 10 n * Format.single.scale, 1)
  | .negSucc n => (digits * Format.single.scale, Nat.pow 10 (n + 1))

def readsBack (pattern digits : Nat) (scale : Int) : Bool :=
  let (num, den) := ratio digits scale
  Format.single.round num den == pattern

/-- The neighbour below of `units` on the grid of `10 ^ scale`, and whether the
one above it is at least as near. -/
def below (units : Nat) (scale : Int) : Nat × Bool :=
  let (num, den) := match scale with
    | .ofNat n => (units, Format.single.scale * Nat.pow 10 n)
    | .negSucc n => (units * Nat.pow 10 (n + 1), Format.single.scale)
  (num / den, den ≤ 2 * (num % den))

/-- The nearest decimal on the grid that reads back, if there is one. -/
def onGrid? (pattern units : Nat) (scale : Int) : Option Nat :=
  let (low, upper) := below units scale
  let lowHit := readsBack pattern low scale
  let highHit := readsBack pattern (low + 1) scale
  if upper && highHit then some (low + 1)
  else if lowHit then some low
  else if highHit then some (low + 1)
  else none

def search (pattern units : Nat) : (tries : Nat) → (scale : Int) → Nat × Int
  | 0, scale => ((below units scale).1, scale)
  | tries + 1, scale =>
    match onGrid? pattern units scale with
    | some digits => (digits, scale)
    | none => search pattern units tries (scale - 1)

def trim : (fuel digits : Nat) → (scale : Int) → Nat × Int
  | 0, digits, scale => (digits, scale)
  | fuel + 1, digits, scale =>
    if scale < 0 && digits % 10 = 0 then trim fuel (digits / 10) (scale + 1)
    else (digits, scale)

def positional (digits : Nat) (scale : Int) : String :=
  match scale with
  | .ofNat n => toString digits ++ String.ofList (List.replicate n '0')
  | .negSucc n =>
    let places := n + 1
    let ds := (toString digits).toList
    let ds := List.replicate (places + 1 - ds.length) '0' ++ ds
    let whole := ds.length - places
    String.ofList (ds.take whole ++ '.' :: ds.drop whole)

end Shortest

namespace Single

/-- The shortest positional decimal that reads back as `x`. The coarsest grid
tried lies above every finite number. -/
def toText (x : Single) : String :=
  match x.read with
  | .nan => "NaN"
  | .infinite negative => if negative then "-inf" else "inf"
  | .finite negative units =>
    let sign := if negative then "-" else ""
    if units = 0 then sign ++ "0"
    else
      let pattern := x.bits.toNat % Format.single.signBit
      let (digits, scale) := Shortest.search pattern units 100 39
      let (digits, scale) := Shortest.trim 100 digits scale
      sign ++ Shortest.positional digits scale

end Single

end CellScript
