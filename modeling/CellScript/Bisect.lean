/-!
# Bisection

Both line tables and source maps ask for the last entry at or before some offset.
Narrowing is the same for both: the index range `0 .. n` is halved until one index
is left. What the range ends with is looked at once more, and an exact hit is told
from a miss where that matters.
-/

namespace CellScript

/-- Narrows a range of `size` indices from `base` on to the last index that
satisfies `p`; `fuel` bounds the number of halvings. -/
def bisectFrom (p : Nat → Bool) : (fuel base size : Nat) → Nat
  | 0, base, _ => base
  | fuel + 1, base, size =>
    if size ≤ 1 then base
    else
      let half := size / 2
      bisectFrom p fuel (if p (base + half) then base + half else base) (size - half)

def bisect (p : Nat → Bool) (n : Nat) : Nat :=
  if n = 0 then 0
  else
    let base := bisectFrom p n 0 n
    if p base then base + 1 else base

/-- The index of `target` among `n` keys in order, or the index where it would have to be
put in. -/
def binarySearch (key : Nat → Nat) (n target : Nat) : Except Nat Nat :=
  if n = 0 then .error 0
  else
    let base := bisectFrom (fun i => key i ≤ target) n 0 n
    if key base = target then .ok base
    else .error (if key base < target then base + 1 else base)

end CellScript
