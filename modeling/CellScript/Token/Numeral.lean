import CellScript.Number.Decimal

/-!
# Numerals

A numeral is an optional sign, digits with at most one point and at least one
digit, and optionally `e` with a signed exponent. With a point or an exponent it
denotes a half-precision number, otherwise an integer of sixteen bits.
-/

namespace CellScript

inductive Number where
  | int (n : Int16)
  | float (h : Half)
  deriving Repr, DecidableEq

namespace Numeral

/-- Digits with at most one point, as long as possible, and the rest. -/
def splitMantissa (pointAllowed : Bool) : List UInt8 → List UInt8 × List UInt8
  | [] => ([], [])
  | b :: bs =>
    if Ascii.isDigit b then
      let (m, rest) := splitMantissa pointAllowed bs
      (b :: m, rest)
    else if b = 46 && pointAllowed then
      let (m, rest) := splitMantissa false bs
      (b :: m, rest)
    else ([], b :: bs)

def splitDigits (bs : List UInt8) : List UInt8 × List UInt8 :=
  (bs.takeWhile Ascii.isDigit, bs.dropWhile Ascii.isDigit)

inductive Scan where
  | absent
  /-- The text of a mantissa and of an exponent mark without digits. -/
  | noExponent (text : List UInt8)
  | integer (text : List UInt8)
  | decimal (text : List UInt8)
  deriving Repr, DecidableEq

def scanExponent (sign mantissa : List UInt8) : List UInt8 → Scan
  | 101 :: bs =>
    let (expSign, bs) := Decimal.splitSign bs
    let (digits, _) := splitDigits bs
    let text := sign ++ mantissa ++ 101 :: expSign ++ digits
    if digits.isEmpty then .noExponent text else .decimal text
  | _ =>
    let text := sign ++ mantissa
    if mantissa.any (· == 46) then .decimal text else .integer text

/-- Reads the longest numeral at the front of the input. -/
def scan (input : List UInt8) : Scan :=
  let (sign, bs) := Decimal.splitSign input
  let (mantissa, bs) := splitMantissa true bs
  if mantissa.any Ascii.isDigit then scanExponent sign mantissa bs else .absent

def int16? (n : Int) : Option Int16 :=
  if -32768 ≤ n ∧ n ≤ 32767 then some (Int16.ofInt n) else none

end Numeral

end CellScript
