import CellScript.Number.Half

/-!
# Six decimal places

Printed numbers show the exact value with six places, a tie going to the even
last digit, and keep the sign of a negative zero.
-/

namespace CellScript

/-- Zeros in front of a number up to `width` digits. -/
def zeroPadded (width n : Nat) : String :=
  let ds := toString n
  String.ofList (List.replicate (width - ds.length) '0') ++ ds

namespace Half

def places : Nat := 6

def toText (h : Half) : String :=
  match h.read with
  | .nan => "NaN"
  | .infinite negative => if negative then "-inf" else "inf"
  | .finite negative m =>
    let n := roundDiv (m * Nat.pow 10 places) Format.half.scale
    let sign := if negative then "-" else ""
    sign ++ toString (n / Nat.pow 10 places) ++ "." ++ zeroPadded places (n % Nat.pow 10 places)

end Half

end CellScript
