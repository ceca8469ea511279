/-!
# Bounded stacks

The compiler's auxiliary stacks have a fixed capacity; a push beyond it is
refused and changes nothing.
-/

namespace CellScript

/-- A stack of at most `capacity` items, the top first. -/
structure BoundedStack (α : Type) where
  capacity : Nat
  items : List α
  deriving Repr, DecidableEq, Inhabited

namespace BoundedStack

variable {α : Type}

def ofCapacity (capacity : Nat) : BoundedStack α := ⟨capacity, []⟩

def size (s : BoundedStack α) : Nat := s.items.length

def isEmpty (s : BoundedStack α) : Bool := s.items.isEmpty

def top? (s : BoundedStack α) : Option α := s.items.head?

def push? (s : BoundedStack α) (a : α) : Option (BoundedStack α) :=
  if s.size ≥ s.capacity then none else some { s with items := a :: s.items }

def pop (s : BoundedStack α) : BoundedStack α := { s with items := s.items.tail }

def toList (s : BoundedStack α) : List α := s.items.reverse

theorem toList_of_push? {s t : BoundedStack α} {a : α} (h : s.push? a = some t) :
    t.toList = s.toList ++ [a] := by
  simp only [push?] at h
  split at h
  · simp at h
  · simp only [Option.some.injEq] at h
    subst h
    simp [toList]

theorem pop_of_push? {s t : BoundedStack α} {a : α} (h : s.push? a = some t) : t.pop = s := by
  simp only [push?] at h
  split at h
  · simp at h
  · simp only [Option.some.injEq] at h
    subst h
    rfl

end BoundedStack

end CellScript
