import CellScript.Opcode
import CellScript.Text.Ascii

/-!
# Operators

Operators are read off a table from top to bottom, and where one spelling begins
another the longer one stands first. Symbols match exactly. A spelling in
letters matches in any case and only where no word byte follows it.
-/

namespace CellScript

/-- An operator; the greater its precedence, the closer it binds. -/
structure Operator where
  op : Opcode
  arity : Nat
  prec : Nat
  deriving Repr, DecidableEq

namespace Operator

def info (o : Operator) : Nat := o.arity * 16 + o.prec

structure Row where
  spelling : String
  operator : Operator
  deriving Repr

def unaryRow (spelling : String) (op : Opcode) : Row := ⟨spelling, op, 1, 11⟩

def binaryRow (spelling : String) (op : Opcode) (prec : Nat) : Row := ⟨spelling, op, 2, prec⟩

def unary : List Row := [
  unaryRow "-" .neg,
  unaryRow "~" .bnot,
  unaryRow "not" .lnot]

def binary : List Row := [
  binaryRow "*" .mul 10,
  binaryRow "/" .div 10,
  binaryRow "%" .mod 10,
  binaryRow "+" .add 9,
  binaryRow "-" .sub 9,
  binaryRow ">>>" .asr 8,
  binaryRow ">>" .lsr 8,
  binaryRow ">=" .ge 7,
  binaryRow ">" .gt 7,
  binaryRow "<<" .lsl 8,
  binaryRow "<=" .le 7,
  binaryRow "<>" .ne 6,
  binaryRow "<" .lt 7,
  binaryRow "==" .eq 6,
  binaryRow "&" .band 5,
  binaryRow "|" .bor 4,
  binaryRow "^" .beor 4,
  binaryRow "and" .land 3,
  binaryRow "or" .lor 2]

def afterSymbol : (spelling input : List UInt8) → Option (List UInt8)
  | [], input => some input
  | s :: ss, b :: bs => if s = b then afterSymbol ss bs else none
  | _ :: _, [] => none

def afterLetters : (spelling input : List UInt8) → Option (List UInt8)
  | [], input => if input.head?.any Ascii.isWordByte then none else some input
  | s :: ss, b :: bs =>
    if Ascii.toLower s = Ascii.toLower b then afterLetters ss bs else none
  | _ :: _, [] => none

def Row.fits (r : Row) (input : List UInt8) : Bool :=
  let spelling := Ascii.bytes r.spelling
  if spelling.head?.any Ascii.isLetter then (afterLetters spelling input).isSome
  else (afterSymbol spelling input).isSome

/-- The first row of a table that fits, and the length of its spelling. -/
def match? (table : List Row) (input : List UInt8) : Option (Operator × Nat) :=
  (table.find? (·.fits input)).map fun r => (r.operator, (Ascii.bytes r.spelling).length)

/-- Whether the input begins with a sign that belongs to a numeral. -/
def isSignedNumeral : List UInt8 → Bool
  | a :: b :: _ => (a == 43 || a == 45) && (Ascii.isDigit b || b == 46)
  | _ => false

end Operator

end CellScript
