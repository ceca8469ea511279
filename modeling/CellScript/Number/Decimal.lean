import CellScript.Number.Half
import CellScript.Text.Ascii

/-!
# Decimal numbers

A decimal text denotes `± digits · 10 ^ scale` exactly. Rounding that value to
single precision is one call of `Format.round`; texts whose magnitude is
certainly out of range are settled by counting digits, so that a large exponent
costs nothing.
-/

namespace CellScript

/-- The exact value `± digits · 10 ^ scale`. -/
structure Decimal where
  negative : Bool
  digits : Nat
  scale : Int
  deriving Repr, DecidableEq

namespace Decimal

def splitSign : List UInt8 → List UInt8 × List UInt8
  | c :: cs => if c = 43 || c = 45 then ([c], cs) else ([], c :: cs)
  | [] => ([], [])

def readInt (text : List UInt8) : Int :=
  let (sign, digits) := splitSign text
  let n := Ascii.natOfDigits digits
  if sign = [45] then -(n : Int) else n

/-- Reads a text of the shape sign, digits with at most one point, and
optionally `e` with a signed exponent. -/
def read (text : List UInt8) : Decimal :=
  let (sign, body) := splitSign text
  let mantissa := body.takeWhile (· != 101)
  let exponent := (body.dropWhile (· != 101)).drop 1
  let whole := mantissa.takeWhile (· != 46)
  let part := (mantissa.dropWhile (· != 46)).drop 1
  { negative := sign = [45]
    digits := Ascii.natOfDigits (whole ++ part)
    scale := readInt exponent - part.length }

def countDigits : (fuel n : Nat) → Nat
  | 0, _ => 0
  | fuel + 1, n => if n = 0 then 0 else countDigits fuel (n / 10) + 1

/-- The nearest single-precision number. A decimal of `k` digits is below
`10 ^ (k + scale)`: past the fortieth power of ten it exceeds every finite
number and below the inverse of the fiftieth it rounds to zero. -/
def toSingle (d : Decimal) : Single :=
  let order := d.scale + countDigits (Nat.log2 d.digits + 1) d.digits
  if d.digits = 0 || order < -50 then .ofPattern d.negative 0
  else if 40 < order then .infinite d.negative
  else match d.scale with
    | .ofNat n => .ofUnits d.negative (d.digits * Nat.pow 10 n * Format.single.scale) 1
    | .negSucc n => .ofUnits d.negative (d.digits * Format.single.scale) (Nat.pow 10 (n + 1))

def toHalf (d : Decimal) : Half := .narrow d.toSingle

end Decimal

end CellScript
