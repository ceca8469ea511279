import CellScript.Number.Single

/-!
# Half-precision numbers

The payload of a floating-point value is a half-precision pattern: a sign, five
bits of exponent and ten of fraction. Both directions work on the bits. `widen`
is exact on every number; `narrow` rounds to the nearest half, ties to even, and
sends everything that is not a number to one canonical pattern.
-/

namespace CellScript

structure Half where
  bits : UInt16
  deriving Repr, DecidableEq, Inhabited

namespace Half

/-- The one pattern that narrowing produces for what is not a number. -/
def nan : Half := ⟨0x7e00⟩

def signBit : UInt16 := 0x8000

def infinity : UInt16 := 0x7c00

def read (h : Half) : Magnitude := Format.half.read h.bits.toNat

def isNaN (h : Half) : Bool := h.bits &&& infinity == infinity && h.bits &&& 0x03ff != 0

/-- What rounding adds to the bits that are kept when `shift` bits, `rem`, are cut off. -/
def roundIncrement (rem shift kept : UInt32) : UInt32 :=
  let halfway := 1 <<< (shift - 1)
  if rem > halfway || (rem == halfway && kept &&& 1 == 1) then 1 else 0

def roundShift (m shift : UInt32) : UInt32 :=
  let kept := m >>> shift
  let rem := m &&& ((1 <<< shift) - 1)
  kept + roundIncrement rem shift kept

/-- The nearest half, ties to even. -/
def narrow (x : Single) : Half :=
  if x.isNaN then nan
  else
    let sign := (x.bits >>> 16).toUInt16 &&& signBit
    if x.isInfinite then ⟨sign ||| infinity⟩
    else
      let exp := ((x.bits >>> 23) &&& 0xff).toInt32 - 127 + 15
      let mant := x.bits &&& 0x007fffff
      if exp ≥ 31 then ⟨sign ||| infinity⟩
      else if exp ≤ 0 then
        -- Below the normal range the one that is not stored is shifted down with the fraction.
        let shift := (14 - exp).toUInt32
        if shift > 24 then ⟨sign⟩
        else ⟨sign ||| (roundShift (mant ||| 0x00800000) shift).toUInt16⟩
      else
        -- A carry out of the fraction goes on into the exponent.
        let base := (exp.toUInt32 <<< 10) ||| (mant >>> 13)
        let half := base + roundIncrement (mant &&& 0x1fff) 13 base
        if half ≥ infinity.toUInt32 then ⟨sign ||| infinity⟩
        else ⟨sign ||| half.toUInt16⟩

/-- The number itself in single precision. -/
def widen (h : Half) : Single :=
  let sign := h.bits &&& signBit != 0
  let exp := (h.bits >>> 10) &&& 0x1f
  let mant := (h.bits &&& 0x03ff).toUInt32
  let magnitude :=
    if exp = 0 then (Single.ofInt mant.toNat).mul Single.smallestHalf
    else if exp = 31 then if mant = 0 then Single.infinite false else Single.nan
    else ⟨((exp.toUInt32 + 112) <<< 23) ||| (mant <<< 13)⟩
  if sign then magnitude.neg else magnitude

def ofPattern (negative : Bool) (pattern : Nat) : Half :=
  ⟨UInt16.ofNat (Format.half.signed negative pattern)⟩

def abs (h : Half) : Half := ⟨h.bits &&& 0x7fff⟩

end Half

end CellScript
