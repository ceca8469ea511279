import CellScript.Diagnostic
import CellScript.Token.Keyword
import CellScript.Token.Numeral
import CellScript.Token.Operator
import CellScript.Token.StringLiteral

/-!
# The reading position

The compiler reads its text through a cursor: an offset and the bytes from there
on. A recognizer first skips blanks. It then either consumes what it found or
leaves the cursor there, and a numeral or string that is broken off is an error
that leaves it there too.
-/

namespace CellScript

structure Cursor where
  pos : Nat
  rest : List UInt8
  deriving Repr, DecidableEq, Inhabited

structure NumberToken where
  value : Number
  start : Nat
  stop : Nat
  deriving Repr, DecidableEq

/-- A string literal by the number of bytes it stands for. -/
inductive StringToken where
  | empty
  | char (c : UInt8)
  | long (start : Nat) (raw : List UInt8) (length : Nat)
  deriving Repr, DecidableEq

structure WordToken where
  bytes : List UInt8
  start : Nat
  deriving Repr, DecidableEq

namespace WordToken

def stop (w : WordToken) : Nat := w.start + w.bytes.length

def text (w : WordToken) : String := Ascii.text w.bytes

def error (w : WordToken) (cause : Cause) : CompileError := ⟨cause, w.start, w.stop⟩

end WordToken

structure OperatorToken where
  operator : Operator
  start : Nat
  stop : Nat
  deriving Repr, DecidableEq

namespace Cursor

abbrev Action (α : Type) := EStateM CompileError Cursor α

def ofSource (s : Source) : Cursor := ⟨0, s.bytes.toList⟩

def advance (c : Cursor) (n : Nat) : Cursor := ⟨c.pos + n, c.rest.drop n⟩

/-- Skips blanks in front of `bytes`, the first of which is at `pos`. -/
def skipBlankFrom (pos : Nat) : List UInt8 → Cursor
  | [] => ⟨pos, []⟩
  | b :: bs => if Ascii.isBlank b then skipBlankFrom (pos + 1) bs else ⟨pos, b :: bs⟩

def skipBlank (c : Cursor) : Cursor := skipBlankFrom c.pos c.rest

/-- The range of the next byte behind blanks; empty at the end of the text. -/
def here (c : Cursor) : Nat × Nat :=
  let c := c.skipBlank
  (c.pos, c.pos + min 1 c.rest.length)

def error (c : Cursor) (cause : Cause) : CompileError :=
  let (start, stop) := c.here
  ⟨cause, start, stop⟩

def symbol (b : UInt8) (c : Cursor) : Bool × Cursor :=
  let c := c.skipBlank
  if c.rest.head? = some b then (true, c.advance 1) else (false, c)

def atEnd (c : Cursor) : Bool × Cursor :=
  let c := c.skipBlank
  (c.rest.isEmpty, c)

def atStatementEnd (c : Cursor) : Bool × Cursor :=
  let c := c.skipBlank
  (c.rest.head?.all (· == 59), c)

def number : Action (Option NumberToken) := fun c =>
  let c := c.skipBlank
  let found (value : Number) (text : List UInt8) :=
    EStateM.Result.ok (some ⟨value, c.pos, c.pos + text.length⟩) (c.advance text.length)
  match Numeral.scan c.rest with
  | .absent => .ok none c
  | .noExponent text => .error ⟨.exponentWithoutDigits, c.pos, c.pos + text.length⟩ c
  | .decimal text => found (.float (Decimal.read text).toHalf) text
  | .integer text =>
    match Numeral.int16? (Decimal.readInt text) with
    | some n => found (.int n) text
    | none =>
      .error ⟨.integerOutOfRange (Ascii.text text), c.pos, c.pos + text.length⟩ c

def string : Action (Option StringToken) := fun c =>
  let c := c.skipBlank
  match c.rest with
  | 34 :: bs =>
    let start := c.pos + 1
    match StringLiteral.scan 0 0 bs with
    | .closed raw length last =>
      let token := match length with
        | 0 => StringToken.empty
        | 1 => .char last
        | _ => .long start raw length
      .ok (some token) (c.advance (raw.length + 2))
    | .unterminated consumed => .error ⟨.missingQuote, c.pos, start + consumed⟩ c
    | .invalidEscape offset e => .error ⟨.invalidEscape e, start + offset, start + offset + 2⟩ c
  | _ => .ok none c

/-- A word, if one comes next: a letter or underscore, then also digits. -/
def word (c : Cursor) : Option WordToken × Cursor :=
  let c := c.skipBlank
  if c.rest.head?.any Ascii.isWordStart then
    let bytes := c.rest.takeWhile Ascii.isWordByte
    (some ⟨bytes, c.pos⟩, c.advance bytes.length)
  else (none, c)

def operator (table : List Operator.Row) (c : Cursor) : Option OperatorToken × Cursor :=
  let c := c.skipBlank
  match Operator.match? table c.rest with
  | some (o, length) => (some ⟨o, c.pos, c.pos + length⟩, c.advance length)
  | none => (none, c)

/-- An operator in front of an operand. A sign directly before a digit or a point
is left to the numeral. -/
def unaryOperator (c : Cursor) : Option OperatorToken × Cursor :=
  let c := c.skipBlank
  if Operator.isSignedNumeral c.rest then (none, c) else c.operator Operator.unary

def binaryOperator (c : Cursor) : Option OperatorToken × Cursor := c.operator Operator.binary

end Cursor

end CellScript
