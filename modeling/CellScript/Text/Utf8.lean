/-!
# Reading bytes as text

Strings of a program are byte sequences, and reports show them as text. The
decoder accepts exactly well-formed UTF-8 and is total: wherever a sequence
breaks off, the bytes read so far stand for one replacement character and
reading resumes at the byte that did not fit.
-/

namespace CellScript

namespace Utf8

/-- A sequence that has begun: the bits collected, how many bytes are still to
come, and the range in which the next one must lie. -/
structure Pending where
  bits : Nat
  missing : Nat
  least : UInt8
  most : UInt8

def replacement : Char := Char.ofNat 0xFFFD

/-- What a byte means at the start of a sequence: a whole character, the first
byte of a longer sequence, or nothing. The ranges of the second byte exclude
overlong forms, surrogates and numbers past the last code point. -/
inductive Lead where
  | whole (c : Char)
  | opens (p : Pending)
  | invalid

def lead (b : UInt8) : Lead :=
  let n := b.toNat
  if n < 0x80 then .whole (Char.ofNat n)
  else if n < 0xC2 then .invalid
  else if n < 0xE0 then .opens ⟨n - 0xC0, 1, 0x80, 0xBF⟩
  else if n = 0xE0 then .opens ⟨0, 2, 0xA0, 0xBF⟩
  else if n = 0xED then .opens ⟨0xD, 2, 0x80, 0x9F⟩
  else if n < 0xF0 then .opens ⟨n - 0xE0, 2, 0x80, 0xBF⟩
  else if n = 0xF0 then .opens ⟨0, 3, 0x90, 0xBF⟩
  else if n < 0xF4 then .opens ⟨n - 0xF0, 3, 0x80, 0xBF⟩
  else if n = 0xF4 then .opens ⟨4, 3, 0x80, 0x8F⟩
  else .invalid

def Pending.push (p : Pending) (b : UInt8) : Pending :=
  ⟨p.bits * 64 + (b.toNat - 0x80), p.missing - 1, 0x80, 0xBF⟩

/-- Reads bytes, `begun?` being the sequence begun before them. -/
def decodeFrom : (begun? : Option Pending) → List UInt8 → List Char
  | none, [] => []
  | some _, [] => [replacement]
  | none, b :: bs =>
    match lead b with
    | .whole c => c :: decodeFrom none bs
    | .opens p => decodeFrom (some p) bs
    | .invalid => replacement :: decodeFrom none bs
  | some p, b :: bs =>
    if p.least ≤ b && b ≤ p.most then
      let p := p.push b
      if p.missing = 0 then Char.ofNat p.bits :: decodeFrom none bs
      else decodeFrom (some p) bs
    else
      match lead b with
      | .whole c => replacement :: c :: decodeFrom none bs
      | .opens q => replacement :: decodeFrom (some q) bs
      | .invalid => replacement :: replacement :: decodeFrom none bs

def decode (bs : List UInt8) : List Char := decodeFrom none bs

def text (bs : List UInt8) : String := String.ofList (decode bs)

end Utf8

end CellScript
