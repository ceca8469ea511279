/-!
# Binary interchange formats

A binary floating-point format is fixed by two widths: the stored fraction and
the exponent field. Below infinity, every magnitude of the format is a whole
multiple of its smallest subnormal, so magnitudes are handled as natural
numbers of such *units*, and an exact result that is not representable is a
ratio of two naturals. Rounding then needs one definition, shared by
narrowing, by arithmetic and by reading decimals, and no case distinction
between normal and subnormal results.
-/

namespace CellScript

/-- The quotient `n / d` rounded to the nearest natural number, a tie going to the even one. -/
def roundDiv (n d : Nat) : Nat :=
  if 2 * (n % d) < d then n / d
  else if d < 2 * (n % d) then n / d + 1
  else n / d + n / d % 2

def floorSqrt (n : Nat) : Nat :=
  if h : n = 0 then 0
  else
    let r := 2 * floorSqrt (n / 4)
    if (r + 1) * (r + 1) ≤ n then r + 1 else r
termination_by n
decreasing_by omega

structure Format where
  fraction : Nat
  exponent : Nat

namespace Format

def half : Format := ⟨10, 5⟩

def single : Format := ⟨23, 8⟩

/-- The pattern of infinity without its sign; larger patterns are not numbers. -/
def infinity (F : Format) : Nat := (Nat.pow 2 F.exponent - 1) * Nat.pow 2 F.fraction

def signBit (F : Format) : Nat := Nat.pow 2 (F.fraction + F.exponent)

/-- The magnitude of a finite pattern, counted in smallest subnormals. -/
def units (F : Format) (pattern : Nat) : Nat :=
  let e := pattern / Nat.pow 2 F.fraction
  let f := pattern % Nat.pow 2 F.fraction
  if e = 0 then f else (Nat.pow 2 F.fraction + f) * Nat.pow 2 (e - 1)

/-- How many smallest subnormals make one: the value of a pattern is its units
divided by this scale. -/
def scale (F : Format) : Nat := Nat.pow 2 (Nat.pow 2 (F.exponent - 1) - 2 + F.fraction)

/-- The pattern nearest to `num / den` units, ties going to the even pattern and
magnitudes past the largest finite one to infinity.

The quotient is cut to one bit more than the fraction holds by dropping `s` low
bits. Its leading bit then counts as one step of the exponent field, so the
rounded quotient is added to the field instead of being masked into it, and a
carry out of the fraction needs no extra step. -/
def round (F : Format) (num den : Nat) : Nat :=
  let s := Nat.log2 (num / den) - F.fraction
  min F.infinity (s * Nat.pow 2 F.fraction + roundDiv num (den * Nat.pow 2 s))

end Format

inductive Magnitude where
  | nan
  | infinite (negative : Bool)
  | finite (negative : Bool) (units : Nat)
  deriving Repr, DecidableEq, Inhabited

namespace Format

def read (F : Format) (pattern : Nat) : Magnitude :=
  let negative := decide (F.signBit ≤ pattern)
  let p := pattern % F.signBit
  if p < F.infinity then .finite negative (F.units p)
  else if p = F.infinity then .infinite negative
  else .nan

def signed (F : Format) (negative : Bool) (pattern : Nat) : Nat :=
  if negative then F.signBit + pattern else pattern

end Format

end CellScript
