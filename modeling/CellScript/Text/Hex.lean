/-!
# Hexadecimal text

Offsets in messages and listings are lower-case hexadecimal with a least width.
-/

namespace CellScript

namespace Hex

def digit (n : Nat) : Char :=
  if n < 10 then Char.ofNat (48 + n) else Char.ofNat (87 + n)

/-- Digits of `n`, most significant first, in front of `rest`; `fuel` bounds
their number and `n` itself always suffices. -/
def digitsOnto : (fuel n : Nat) → List Char → List Char
  | 0, _, rest => rest
  | fuel + 1, n, rest =>
    if n < 16 then digit n :: rest
    else digitsOnto fuel (n / 16) (digit (n % 16) :: rest)

def padded (width n : Nat) : String :=
  let ds := digitsOnto (n + 1) n []
  String.ofList (List.replicate (width - ds.length) '0' ++ ds)

/-- An address as messages show it: `0x` and at least `width` digits. -/
def address (width n : Nat) : String := "0x" ++ padded width n

def ofBytes (bs : List UInt8) : String :=
  String.ofList (bs.flatMap fun b => [digit (b.toNat / 16), digit (b.toNat % 16)])

end Hex

end CellScript
