/-!
# Classes of characters

A class of characters is listed by its code points, as closed ranges. A character
belongs to the class when some range holds it, so nothing depends on the order
of the list.
-/

namespace CellScript

structure CharClass where
  ranges : List (Nat × Nat)
  deriving Repr, DecidableEq

namespace CharClass

def contains (k : CharClass) (c : Char) : Bool :=
  k.ranges.any fun (first, last) => first ≤ c.toNat && c.toNat ≤ last

theorem contains_iff {k : CharClass} {c : Char} :
    k.contains c = true ↔ ∃ r ∈ k.ranges, r.1 ≤ c.toNat ∧ c.toNat ≤ r.2 := by
  simp [contains]

end CharClass

end CellScript
