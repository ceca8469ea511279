import CellScript.Builtin.Text
import CellScript.Number.Decimal
import CellScript.Text.Utf8
import CellScript.Token.Numeral

/-!
# Conversions between numbers and text

`int` and `float` of a string accept a text only as a whole: no blanks, no
remainder. Their shapes are checked on the text itself, independently of how the
numerals of a program are read.
-/

namespace CellScript

namespace Builtin

def isDigits (t : List UInt8) : Bool := !t.isEmpty && t.all Ascii.isDigit

def unsigned (t : List UInt8) : List UInt8 := (Decimal.splitSign t).2

def isIntText (t : List UInt8) : Bool := isDigits (unsigned t)

def isMantissa (t : List UInt8) : Bool :=
  t.any Ascii.isDigit && t.all (fun b => Ascii.isDigit b || b == 46) && t.count 46 ≤ 1

/-- Optional sign, mantissa, and optionally `e` with a signed exponent. -/
def isFloatText (t : List UInt8) : Bool :=
  let body := unsigned t
  let mantissa := body.takeWhile (· != 101)
  isMantissa mantissa &&
    match body.dropWhile (· != 101) with
    | [] => true
    | _ :: exponent => isDigits (unsigned exponent)

def intOfText (t : List UInt8) : Except Fault Value :=
  if isIntText t then
    match Numeral.int16? (Decimal.readInt t) with
    | some n => .ok (.int n)
    | none => .error (.numberOutOfRange Opcode.int.name)
  else .error (.invalidNumber (Utf8.text t))

def floatOfText (t : List UInt8) : Except Fault Value :=
  if isFloatText t then .ok (.float (Decimal.read t).toHalf)
  else .error (.invalidNumber (Utf8.text t))

def intOfSingle (x : Single) : Except Fault Value :=
  match x.truncate.bind Numeral.int16? with
  | some n => .ok (.int n)
  | none => .error (.numberOutOfRange Opcode.int.name)

/-- A length as a value; the longest strings have none. -/
def ofLength (n : Nat) : Except Fault Value :=
  match Numeral.int16? n with
  | some n => .ok (.int n)
  | none => .error (.numberOutOfRange Opcode.len.name)

end Builtin

end CellScript
