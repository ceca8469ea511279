import CellScript.Proofs.Patterns

/-!
Narrowing to half precision.

A half is the nearest one to the single that it is made of, sign and infinities included.
From this follows that narrowing keeps the order of numbers, and that a half which is widened
and narrowed again is the same, since the nearest number to a number is itself.
-/

namespace CellScript

/-! ### Numbers below zero -/

/-- The number of a negative sign and a magnitude; magnitudes end with infinity. -/
def opposite : WithTop ℚ → WithBot (WithTop ℚ)
  | none => ⊥
  | some q => ((-q : ℚ) : WithTop ℚ)

section

variable {a b : WithTop ℚ}

theorem opposite_top : opposite ⊤ = ⊥ := rfl

theorem opposite_coe (q : ℚ) : opposite q = ((-q : ℚ) : WithTop ℚ) := rfl

theorem opposite_le_opposite_iff : opposite a ≤ opposite b ↔ b ≤ a := by
  induction a using WithTop.recTopCoe with
  | top => simp [opposite_top]
  | coe p =>
      induction b using WithTop.recTopCoe with
      | top =>
          rw [opposite_top, opposite_coe]
          exact iff_of_false (not_le.2 (WithBot.bot_lt_coe _)) (not_le.2 (WithTop.coe_lt_top p))
      | coe q =>
          rw [opposite_coe, opposite_coe, WithBot.coe_le_coe, WithTop.coe_le_coe,
            WithTop.coe_le_coe, neg_le_neg_iff]

theorem opposite_le (ha : 0 ≤ a) (hb : 0 ≤ b) : opposite a ≤ b := by
  induction a using WithTop.recTopCoe with
  | top => exact bot_le
  | coe p =>
      have hp : 0 ≤ p := by exact_mod_cast ha
      rw [opposite_coe, WithBot.coe_le_coe]
      exact le_trans (by exact_mod_cast neg_nonpos.2 hp) hb

theorem le_opposite_iff (ha : 0 ≤ a) (hb : 0 ≤ b) : a ≤ opposite b ↔ a = 0 ∧ b = 0 := by
  induction b using WithTop.recTopCoe with
  | top => exact iff_of_false (not_le.2 (WithBot.bot_lt_coe a)) fun h => WithTop.top_ne_zero h.2
  | coe q =>
      have hq : 0 ≤ q := by exact_mod_cast hb
      rw [opposite_coe, WithBot.coe_le_coe]
      constructor
      · intro h
        have hneg : 0 ≤ -q := by exact_mod_cast ha.trans h
        obtain rfl : q = 0 := le_antisymm (neg_nonneg.1 hneg) hq
        exact ⟨le_antisymm (by simpa using h) ha, rfl⟩
      · rintro ⟨rfl, h⟩
        have hzero : q = 0 := by exact_mod_cast h
        simp [hzero]

end

namespace Format

variable {F : Format} {p : Nat} {negative : Bool}

/-! ### Patterns with a sign -/

/-- The magnitude of a number. -/
def size (F : Format) (p : Nat) : WithTop ℚ :=
  if F.unsigned p < F.infinity then (F.value (F.unsigned p) : ℚ) else ⊤

/-- A number with its sign. -/
def number (F : Format) (p : Nat) : WithBot (WithTop ℚ) :=
  if F.isNegative p then opposite (F.size p) else F.size p

theorem value_nonneg (hF : F.Proper) (p : Nat) : 0 ≤ F.value p := by
  rw [value_eq hF]
  exact div_nonneg (Nat.cast_nonneg _) F.scale_pos.le

theorem size_nonneg (hF : F.Proper) (p : Nat) : 0 ≤ F.size p := by
  rw [size]
  split
  · exact_mod_cast value_nonneg hF _
  · exact le_top

theorem size_mono (hF : F.Proper) {p' : Nat} (h : F.unsigned p ≤ F.unsigned p') :
    F.size p ≤ F.size p' := by
  rw [size, size]
  split
  · split
    · exact_mod_cast (strictMono_value hF).monotone h
    · exact le_top
  · rw [if_neg (by omega)]

theorem size_eq_zero_iff (hF : F.Proper) : F.size p = 0 ↔ F.unsigned p = 0 := by
  have hzero : F.value 0 = 0 := by simp [value]
  rw [size]
  split
  · rw [← WithTop.coe_zero, WithTop.coe_eq_coe, ← hzero, (strictMono_value hF).injective.eq_iff]
  · have := infinity_pos hF
    exact iff_of_false WithTop.top_ne_zero (by omega)

/-- Numbers are in the order of their sizes, and the other way round below zero. -/
theorem number_le_iff (hF : F.Proper) {p p' : Nat} : F.number p ≤ F.number p' ↔
    match F.isNegative p, F.isNegative p' with
    | false, false => F.size p ≤ F.size p'
    | true, true => F.size p' ≤ F.size p
    | true, false => True
    | false, true => F.size p = 0 ∧ F.size p' = 0 := by
  have hp := F.size_nonneg hF p
  have hp' := F.size_nonneg hF p'
  simp only [number]
  rcases F.isNegative p <;> rcases F.isNegative p'
  · exact WithBot.coe_le_coe
  · exact le_opposite_iff hp hp'
  · exact iff_of_true (opposite_le hp hp') trivial
  · exact opposite_le_opposite_iff

end Format

namespace Half

open Format (half single)

variable {x y : Single} {h : Half}

theorem bits_ofPattern {negative : Bool} {p : Nat} (hp : p ≤ half.infinity) :
    (ofPattern negative p).bits.toNat = half.signed negative p := by
  have hlt : half.signed negative p < 65536 := Format.signed_lt hp
  rw [ofPattern, UInt16.toNat_ofNat', Nat.mod_eq_of_lt hlt]

theorem bits_narrow (hx : single.IsNumber x.bits.toNat) : (narrow x).bits.toNat =
    half.signed (single.isNegative x.bits.toNat) (rounded x) := by
  rw [narrow_eq hx, bits_ofPattern (rounded_le x)]

theorem isNegative_narrow (hx : single.IsNumber x.bits.toNat) :
    half.isNegative (narrow x).bits.toNat = single.isNegative x.bits.toNat := by
  rw [bits_narrow hx, Format.isNegative_signed (rounded_le x)]

theorem unsigned_narrow (hx : single.IsNumber x.bits.toNat) :
    half.unsigned (narrow x).bits.toNat = rounded x := by
  rw [bits_narrow hx, Format.unsigned_signed (rounded_le x)]

/-- The units of both formats are fractions of the same whole. -/
theorem units_div (p : Nat) :
    (single.units p / unitRatio / half.scale : ℚ) = single.value p := by
  have hscale : unitRatio * half.scale = single.scale := by decide
  rw [Format.value_eq Format.proper_single, ← hscale, div_div]
  push_cast
  rfl

theorem unitRatio_pos : 0 < unitRatio := by decide

/-- The best choice for a finite single, unless it is too large for a half. -/
theorem rounded_nearest {q : ℚ} (hx : single.size x.bits.toNat = q) (hq : q < 65520) :
    half.Nearest q (rounded x) := by
  rw [Format.size] at hx
  split at hx
  · rename_i hfinite
    obtain rfl := WithTop.coe_injective hx
    rw [rounded, if_pos hfinite, ← units_div] at *
    refine Format.round_nearest Format.proper_half unitRatio_pos ?_
    rwa [Format.threshold_half]
  · exact absurd hx WithTop.top_ne_coe

theorem rounded_eq_infinity_iff : rounded x = half.infinity ↔
    ((65520 : ℚ) : WithTop ℚ) ≤ single.size x.bits.toNat := by
  rw [rounded, Format.size]
  split
  · rw [Format.round_eq_infinity_iff Format.proper_half unitRatio_pos, units_div,
      Format.threshold_half, WithTop.coe_le_coe]
  · simp

theorem rounded_mono (h : single.size x.bits.toNat ≤ single.size y.bits.toNat) :
    rounded x ≤ rounded y := by
  by_cases hy : single.unsigned y.bits.toNat < single.infinity
  · have hx : single.unsigned x.bits.toNat < single.infinity := by
      by_contra hx
      rw [Format.size, Format.size, if_neg hx, if_pos hy] at h
      exact absurd h (by simp)
    rw [Format.size, Format.size, if_pos hx, if_pos hy, WithTop.coe_le_coe] at h
    rw [rounded, rounded, if_pos hx, if_pos hy]
    refine Format.round_mono Format.proper_half unitRatio_pos unitRatio_pos ?_
    rwa [units_div, units_div]
  · rw [show rounded y = half.infinity from if_neg hy]
    exact rounded_le x

/-! ### Widening -/

/-- A finite half has the same units as a single, up to the ratio of the units. -/
theorem widen_finite (hh : half.unsigned h.bits.toNat < half.infinity) : ∃ r,
    r < single.infinity ∧
      (widen h).bits.toNat = single.signed (half.isNegative h.bits.toNat) r ∧
      single.units r = half.units (half.unsigned h.bits.toNat) * unitRatio := by
  obtain ⟨r, hr, hunits, hwiden⟩ := widen_eq hh
  rw [hwiden, Single.bits_ofPattern hr.le]
  exact ⟨r, hr, rfl, hunits⟩

theorem widen_infinite (hh : half.unsigned h.bits.toNat = half.infinity) :
    (widen h).bits.toNat =
      single.signed (half.isNegative h.bits.toNat) single.infinity := by
  rw [widen_of_infinity hh, Single.infinite, Single.bits_ofPattern le_rfl]

/-- A half that is widened and narrowed again is the same. -/
theorem narrow_widen_eq (hh : half.IsNumber h.bits.toNat) : narrow (widen h) = h := by
  have hbits : ofPattern (half.isNegative h.bits.toNat)
      (half.unsigned h.bits.toNat) = h := by
    refine congrArg Half.mk (UInt16.toNat_inj.1 ?_)
    exact (bits_ofPattern hh).trans (Format.signed_unsigned h.bits.toNat_lt)
  obtain hlt | heq := Nat.lt_or_eq_of_le hh
  · obtain ⟨r, hr, hwiden, hunits⟩ := widen_finite hlt
    rw [narrow_eq (hwiden ▸ Format.isNumber_signed hr.le), rounded, hwiden,
      Format.isNegative_signed hr.le, Format.unsigned_signed hr.le, if_pos hr, hunits,
      Format.round_units_mul Format.proper_half unitRatio_pos hlt, hbits]
  · have hwiden := widen_infinite heq
    rw [narrow_eq (hwiden ▸ Format.isNumber_signed le_rfl), rounded, hwiden,
      Format.isNegative_signed le_rfl, Format.unsigned_signed le_rfl, if_neg (lt_irrefl _), ← heq,
      hbits]

/-! ### The nearest half -/

/-- Narrowing keeps the order of numbers. -/
theorem number_narrow_mono (hx : single.IsNumber x.bits.toNat)
    (hy : single.IsNumber y.bits.toNat)
    (h : single.number x.bits.toNat ≤ single.number y.bits.toNat) :
    half.number (narrow x).bits.toNat ≤ half.number (narrow y).bits.toNat := by
  have hsize {x y : Single} (hx : single.IsNumber x.bits.toNat)
      (hy : single.IsNumber y.bits.toNat)
      (h : single.size x.bits.toNat ≤ single.size y.bits.toNat) :
      half.size (narrow x).bits.toNat ≤ half.size (narrow y).bits.toNat := by
    refine Format.size_mono Format.proper_half ?_
    rw [unsigned_narrow hx, unsigned_narrow hy]
    exact rounded_mono h
  have hzero {x : Single} (hx : single.IsNumber x.bits.toNat)
      (h : single.size x.bits.toNat = 0) : half.size (narrow x).bits.toNat = 0 := by
    rw [Format.size_eq_zero_iff Format.proper_single] at h
    rw [Format.size_eq_zero_iff Format.proper_half, unsigned_narrow hx, rounded, h]
    have hunits : single.units 0 = half.units 0 * unitRatio := by decide
    rw [if_pos (by decide), hunits]
    exact Format.round_units_mul Format.proper_half unitRatio_pos (by decide)
  rw [Format.number_le_iff Format.proper_single] at h
  rw [Format.number_le_iff Format.proper_half, isNegative_narrow hx, isNegative_narrow hy]
  cases hsx : single.isNegative x.bits.toNat <;>
    cases hsy : single.isNegative y.bits.toNat <;> simp only [hsx, hsy] at h ⊢
  · exact hsize hx hy h
  · exact ⟨hzero hx h.1, hzero hy h.2⟩
  · exact hsize hy hx h

/-- Narrowing is correctly rounded. What is no number becomes one pattern. The sign of a number
stays; its magnitude becomes infinite exactly from 65520 on, half a step past the largest half,
and before that it becomes the nearest half, the even one of two. So the order of numbers is
kept, and no half changes by being widened and narrowed. -/
theorem narrow_correct :
    (∀ x : Single, ¬ single.IsNumber x.bits.toNat → narrow x = ⟨0x7e00⟩) ∧
    (∀ x : Single, single.IsNumber x.bits.toNat →
      half.isNegative (narrow x).bits.toNat = single.isNegative x.bits.toNat ∧
      (half.unsigned (narrow x).bits.toNat = half.infinity ↔
        ((65520 : ℚ) : WithTop ℚ) ≤ single.size x.bits.toNat) ∧
      ∀ q : ℚ, single.size x.bits.toNat = q → q < 65520 →
        half.Nearest q (half.unsigned (narrow x).bits.toNat)) ∧
    (∀ x y : Single, single.IsNumber x.bits.toNat → single.IsNumber y.bits.toNat →
      single.number x.bits.toNat ≤ single.number y.bits.toNat →
      half.number (narrow x).bits.toNat ≤ half.number (narrow y).bits.toNat) ∧
    ∀ h : Half, half.IsNumber h.bits.toNat → narrow (widen h) = h := by
  refine ⟨fun x hx => narrow_of_not_isNumber hx,
    fun x hx => ⟨isNegative_narrow hx, ?_, fun q hq hlt => ?_⟩,
    fun x y hx hy h => number_narrow_mono hx hy h, fun h hh => narrow_widen_eq hh⟩
  · rw [unsigned_narrow hx]
    exact rounded_eq_infinity_iff
  · rw [unsigned_narrow hx]
    exact rounded_nearest hq hlt

/-- Between one and the next half the single in the middle goes to one, the even pattern. -/
theorem narrow_correct_at_tie :
    let x : Single := ⟨0x3f801000⟩
    single.IsNumber x.bits.toNat ∧ single.size x.bits.toNat = (2049 / 2048 : ℚ) ∧
      half.Nearest (2049 / 2048) 0x3c00 ∧
      |half.value 0x3c00 - 2049 / 2048| = |half.value 0x3c01 - 2049 / 2048| := by
  intro x
  have hx : single.IsNumber x.bits.toNat := by decide
  have hsize : single.size x.bits.toNat = (2049 / 2048 : ℚ) := by
    rw [Format.size, if_pos (by decide), show single.unsigned x.bits.toNat = 0x3f801000 from rfl]
    norm_num [Format.value, Format.bias, single]
  have hnarrow : half.unsigned (narrow x).bits.toNat = 0x3c00 := by decide
  refine ⟨hx, hsize, ?_, ?_⟩
  · rw [← hnarrow]
    exact (narrow_correct.2.1 x hx).2.2 _ hsize (by norm_num)
  · norm_num [Format.value, Format.bias, half]

end Half

end CellScript
