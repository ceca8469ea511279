/-!
# Order of byte sequences

Strings compare byte by byte; a proper beginning comes first. This is the order of lists
of bytes.
-/

namespace CellScript

/-- The lexicographic order of byte sequences. -/
def compareBytes : List UInt8 → List UInt8 → Ordering
  | [], [] => .eq
  | [], _ :: _ => .lt
  | _ :: _, [] => .gt
  | a :: as, b :: bs => if a < b then .lt else if b < a then .gt else compareBytes as bs

theorem compareBytes_cons (x y : UInt8) (s t : List UInt8) :
    x < y ∧ compareBytes (x :: s) (y :: t) = .lt ∨ y < x ∧ compareBytes (x :: s) (y :: t) = .gt ∨
      x = y ∧ compareBytes (x :: s) (y :: t) = compareBytes s t := by
  rw [compareBytes]
  by_cases heq : x = y
  · subst heq
    exact .inr (.inr ⟨rfl, by rw [if_neg (UInt8.lt_irrefl x), if_neg (UInt8.lt_irrefl x)]⟩)
  · obtain hlt | hgt := UInt8.lt_or_lt_of_ne heq
    · exact .inl ⟨hlt, if_pos hlt⟩
    · exact .inr (.inl ⟨hgt, by rw [if_neg (UInt8.lt_asymm hgt), if_pos hgt]⟩)

theorem compareBytes_cases (s t : List UInt8) :
    s < t ∧ compareBytes s t = .lt ∨ t < s ∧ compareBytes s t = .gt ∨
      s = t ∧ compareBytes s t = .eq := by
  induction s generalizing t with
  | nil =>
      cases t with
      | nil => exact .inr (.inr ⟨rfl, rfl⟩)
      | cons y t => exact .inl ⟨List.nil_lt_cons y t, rfl⟩
  | cons x s ih =>
      cases t with
      | nil => exact .inr (.inl ⟨List.nil_lt_cons x s, rfl⟩)
      | cons y t =>
          rw [List.cons_lt_cons_iff, List.cons_lt_cons_iff]
          obtain ⟨hlt, h⟩ | ⟨hgt, h⟩ | ⟨rfl, h⟩ := compareBytes_cons x y s t
          · exact .inl ⟨.inl hlt, h⟩
          · exact .inr (.inl ⟨.inl hgt, h⟩)
          · simpa [h] using ih t

theorem compareBytes_eq_lt_iff (s t : List UInt8) : compareBytes s t = .lt ↔ s < t := by
  obtain ⟨hlt, h⟩ | ⟨hgt, h⟩ | ⟨rfl, h⟩ := compareBytes_cases s t
  · simp [h, hlt]
  · simp [h, List.le_of_lt hgt]
  · simp [h]

theorem compareBytes_eq_gt_iff (s t : List UInt8) : compareBytes s t = .gt ↔ t < s := by
  obtain ⟨hlt, h⟩ | ⟨hgt, h⟩ | ⟨rfl, h⟩ := compareBytes_cases s t
  · simp [h, List.le_of_lt hlt]
  · simp [h, hgt]
  · simp [h]

theorem compareBytes_eq_eq_iff (s t : List UInt8) : compareBytes s t = .eq ↔ s = t := by
  obtain ⟨hlt, h⟩ | ⟨hgt, h⟩ | ⟨rfl, h⟩ := compareBytes_cases s t
  · have hne : s ≠ t := fun heq => List.lt_irrefl t (heq ▸ hlt)
    simp [h, hne]
  · have hne : s ≠ t := fun heq => List.lt_irrefl t (heq ▸ hgt)
    simp [h, hne]
  · simp [h]

end CellScript
