/-!
# String literals

A literal stands between double quotes, with the four escapes `\t`, `\n`, `\"`
and `\\`. The scanner counts the bytes it stands for and remembers the last one,
so that empty and one-byte literals need no second look; longer ones are kept
raw and unescaped when their record is made.
-/

namespace CellScript

namespace StringLiteral

def unescapeByte? (e : UInt8) : Option UInt8 :=
  if e = 116 then some 9
  else if e = 110 then some 10
  else if e = 34 then some 34
  else if e = 92 then some 92
  else none

/-- What follows an opening quote. Offsets count from the byte behind it. -/
inductive Scan where
  /-- The raw text up to the closing quote, the number of bytes it stands for and
  the last of them. -/
  | closed (raw : List UInt8) (length : Nat) (last : UInt8)
  | unterminated (consumed : Nat)
  | invalidEscape (offset : Nat) (escaped : UInt8)
  deriving Repr, DecidableEq

def Scan.prepend (bytes : List UInt8) : Scan → Scan
  | closed raw length last => closed (bytes ++ raw) length last
  | unterminated consumed => unterminated (bytes.length + consumed)
  | invalidEscape offset e => invalidEscape (bytes.length + offset) e

def scan (length : Nat) (last : UInt8) : List UInt8 → Scan
  | [] => .unterminated 0
  | 34 :: _ => .closed [] length last
  | [92] => .unterminated 1
  | 92 :: e :: bs =>
    match unescapeByte? e with
    | some b => (scan (length + 1) b bs).prepend [92, e]
    | none => .invalidEscape 0 e
  | b :: bs => (scan (length + 1) b bs).prepend [b]

/-- The bytes that a raw text stands for. A backslash that begins no escape stands
for itself. -/
def unescape : List UInt8 → List UInt8
  | [] => []
  | [b] => [b]
  | b :: e :: bs =>
    if b = 92 then
      match unescapeByte? e with
      | some c => c :: unescape bs
      | none => b :: unescape (e :: bs)
    else b :: unescape (e :: bs)

end StringLiteral

end CellScript
