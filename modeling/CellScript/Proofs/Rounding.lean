import CellScript.Number.Half
import Mathlib.Algebra.Order.Field.Basic
import Mathlib.Algebra.Order.Field.Rat
import Mathlib.Algebra.Ring.Parity
import Mathlib.Order.WithBot
import Mathlib.Tactic.FieldSimp
import Mathlib.Tactic.Linarith
import Mathlib.Tactic.NormNum
import Mathlib.Tactic.Ring

/-!
Rounding to the nearest number of a format.

The definitions calculate in units, which are natural numbers, and never look at the fields
of a pattern when they round. Here the number of a pattern is given by its fields, as a
rational (`Format.value`), and rounding is shown to hit the nearest one (`Format.Nearest`),
for every format and every quotient.

Patterns and their numbers are in the same order, and the formula of the fields goes on past
infinity. So rounding is looked at without an upper end first: `unbounded` is the nearest of
all patterns, and cutting it off at infinity sends there exactly what lies half a step or
more past the largest finite number.
-/

namespace CellScript

/-- A quotient is rounded by half a step at most, and by half a step only to an even number. -/
theorem roundDiv_near {n d : Nat} (hd : 0 < d) :
    2 * (roundDiv n d * d) ≤ 2 * n + d ∧ 2 * n ≤ 2 * (roundDiv n d * d) + d ∧
      (2 * (roundDiv n d * d) = 2 * n + d ∨ 2 * n = 2 * (roundDiv n d * d) + d →
        Even (roundDiv n d)) := by
  have hn : n / d * d + n % d = n := Nat.div_add_mod' n d
  have hlt := Nat.mod_lt n hd
  unfold roundDiv
  generalize n / d = k at hn ⊢
  generalize n % d = r at hn hlt ⊢
  split
  · exact ⟨by omega, by omega, by omega⟩
  · split
    · rw [Nat.add_one_mul k]
      exact ⟨by omega, by omega, by omega⟩
    · -- The remainder is half of the divisor, and the even neighbour is taken.
      obtain hk | hk := Nat.mod_two_eq_zero_or_one k
      · rw [hk, Nat.add_zero]
        exact ⟨by omega, by omega, fun _ => Nat.even_iff.2 hk⟩
      · rw [hk, Nat.add_one_mul k]
        exact ⟨by omega, by omega, fun _ => Nat.even_iff.2 (by omega)⟩

/-- The same for the rational quotient. -/
theorem abs_roundDiv_sub_le {n d : Nat} (hd : 0 < d) :
    |(roundDiv n d : ℚ) - n / d| ≤ 1 / 2 ∧
      (|(roundDiv n d : ℚ) - n / d| = 1 / 2 → Even (roundDiv n d)) := by
  obtain ⟨hlow, hhigh, heven⟩ := roundDiv_near (n := n) hd
  have hd' : (0 : ℚ) < d := by exact_mod_cast hd
  have hlow' : (2 * (roundDiv n d * d) : ℚ) ≤ 2 * n + d := by exact_mod_cast hlow
  have hhigh' : (2 * n : ℚ) ≤ 2 * (roundDiv n d * d) + d := by exact_mod_cast hhigh
  have hsub : (roundDiv n d : ℚ) - n / d = (2 * (roundDiv n d * d) - 2 * n) / (2 * d) := by
    field_simp
  have hhalf : (1 / 2 : ℚ) = d / (2 * d) := by field_simp
  rw [hsub, hhalf, abs_div, abs_of_pos (by linarith : 0 < 2 * (d : ℚ)),
    div_le_div_iff_of_pos_right (by linarith), div_left_inj' (by linarith), abs_le]
  refine ⟨⟨by linarith, by linarith⟩, fun heq => heven ?_⟩
  rcases eq_or_eq_neg_of_abs_eq heq with h | h
  · refine .inl ?_
    have : (2 * (roundDiv n d * d) : ℚ) = 2 * n + d := by linarith
    exact_mod_cast this
  · refine .inr ?_
    have : (2 * n : ℚ) = 2 * (roundDiv n d * d) + d := by linarith
    exact_mod_cast this

namespace Format

variable {F : Format} {num den p r s t : Nat}

/-- There is a fraction, and there are exponents other than those of zero and infinity. -/
structure Proper (F : Format) : Prop where
  fraction : 0 < F.fraction
  exponent : 1 < F.exponent

theorem proper_half : half.Proper := ⟨by decide, by decide⟩

theorem proper_single : single.Proper := ⟨by decide, by decide⟩

/-! ### Units -/

/-- Between a power of two and the next one, patterns count multiples of the same step. -/
theorem units_shift (ht : t ≤ 2 ^ (F.fraction + 1)) (hs : s = 0 ∨ 2 ^ F.fraction ≤ t) :
    F.units (s * 2 ^ F.fraction + t) = t * 2 ^ s := by
  have hpos : 0 < 2 ^ F.fraction := Nat.two_pow_pos _
  have hfields {e f : Nat} (hf : f < 2 ^ F.fraction) :
      (e * 2 ^ F.fraction + f) / 2 ^ F.fraction = e ∧
        (e * 2 ^ F.fraction + f) % 2 ^ F.fraction = f := by
    rw [Nat.mul_comm, Nat.mul_add_div hpos, Nat.mul_add_mod, Nat.div_eq_of_lt hf,
      Nat.mod_eq_of_lt hf]
    exact ⟨rfl, rfl⟩
  simp only [units, Nat.pow_eq]
  rw [Nat.pow_succ] at ht
  obtain hsub | hnormal := Nat.lt_or_ge t (2 ^ F.fraction)
  · obtain rfl : s = 0 := by omega
    obtain ⟨hdiv, hmod⟩ := hfields (e := 0) hsub
    rw [hdiv, hmod, if_pos rfl, Nat.pow_zero, Nat.mul_one]
  · obtain ⟨f, rfl⟩ := Nat.exists_eq_add_of_le hnormal
    obtain hf | hf := Nat.lt_or_ge f (2 ^ F.fraction)
    · obtain ⟨hdiv, hmod⟩ := hfields (e := s + 1) hf
      rw [← Nat.add_assoc, ← Nat.succ_mul, Nat.succ_eq_add_one, hdiv, hmod, if_neg (by omega),
        Nat.add_sub_cancel]
    · -- The upper end is the first multiple of the next step.
      obtain rfl : f = 2 ^ F.fraction := by omega
      obtain ⟨hdiv, hmod⟩ := hfields (e := s + 2) hpos
      rw [show s * 2 ^ F.fraction + (2 ^ F.fraction + 2 ^ F.fraction) =
        (s + 2) * 2 ^ F.fraction + 0 by ring, hdiv, hmod, if_neg (by omega)]
      simp only [Nat.add_zero, show s + 2 - 1 = s + 1 by omega]
      ring

theorem exists_shift (p : Nat) : ∃ s t, p = s * 2 ^ F.fraction + t ∧ t < 2 ^ (F.fraction + 1) ∧
    (s = 0 ∨ 2 ^ F.fraction ≤ t) := by
  have hp := Nat.div_add_mod' p (2 ^ F.fraction)
  have hlt := Nat.mod_lt p (Nat.two_pow_pos F.fraction)
  rw [Nat.pow_succ]
  rcases hdiv : p / 2 ^ F.fraction with _ | s
  · rw [hdiv, Nat.zero_mul] at hp
    exact ⟨0, p, by omega, by omega, .inl rfl⟩
  · rw [hdiv, Nat.succ_mul] at hp
    exact ⟨s, 2 ^ F.fraction + p % 2 ^ F.fraction, by omega, by omega, .inr (by omega)⟩

/-- From a multiple of the step, the next pattern is at least a step away. -/
theorem units_add_step_le (ht : t ≤ 2 ^ (F.fraction + 1)) (hs : s = 0 ∨ 2 ^ F.fraction ≤ t) :
    F.units (s * 2 ^ F.fraction + t) + 2 ^ s ≤ F.units (s * 2 ^ F.fraction + t + 1) := by
  rw [units_shift ht hs, ← Nat.succ_mul]
  obtain hlt | rfl := Nat.lt_or_eq_of_le ht
  · rw [Nat.add_assoc, units_shift hlt (hs.imp_right Nat.le_succ_of_le)]
  · have hpos : 0 < 2 ^ F.fraction := Nat.two_pow_pos _
    have hle : 2 ^ F.fraction + 1 ≤ 2 ^ (F.fraction + 1) := by
      rw [Nat.pow_succ]
      omega
    rw [show s * 2 ^ F.fraction + 2 ^ (F.fraction + 1) + 1 =
      (s + 1) * 2 ^ F.fraction + (2 ^ F.fraction + 1) by ring,
      units_shift hle (.inr (Nat.le_succ _)), Nat.pow_succ 2 s, Nat.mul_comm (2 ^ s),
      ← Nat.mul_assoc]
    refine Nat.mul_le_mul_right _ ?_
    rw [Nat.pow_succ]
    omega

/-- To a multiple of the step, the pattern before is a step away, unless the step is smaller
there. -/
theorem units_pred_add_step (ht : t ≤ 2 ^ (F.fraction + 1)) (ht' : 0 < t)
    (hs : s = 0 ∨ 2 ^ F.fraction < t) :
    F.units (s * 2 ^ F.fraction + t - 1) + 2 ^ s = F.units (s * 2 ^ F.fraction + t) := by
  obtain ⟨t, rfl⟩ := Nat.exists_eq_add_one_of_ne_zero (Nat.ne_of_gt ht')
  rw [units_shift ht (hs.imp_right Nat.le_of_lt), ← Nat.add_assoc, Nat.add_sub_cancel,
    units_shift (Nat.le_of_succ_le ht) (hs.imp_right Nat.le_of_lt_succ), Nat.succ_mul]

theorem strictMono_units (F : Format) : StrictMono F.units := by
  refine strictMono_nat_of_lt_succ fun p => ?_
  obtain ⟨s, t, rfl, ht, hs⟩ := F.exists_shift p
  have := units_add_step_le (Nat.le_of_lt ht) hs
  have := Nat.two_pow_pos s
  omega

/-- A number with as many digits as the fraction holds has a pattern. -/
theorem exists_units (s t : Nat) (ht : t < 2 ^ (F.fraction + 1)) :
    ∃ r, r < (s + 2) * 2 ^ F.fraction ∧ F.units r = t * 2 ^ s := by
  induction s generalizing t with
  | zero => exact ⟨0 * 2 ^ F.fraction + t, by rw [Nat.pow_succ] at ht; omega,
      units_shift (Nat.le_of_lt ht) (.inl rfl)⟩
  | succ s ih =>
      rw [Nat.pow_succ] at ht
      obtain hsmall | hlarge := Nat.lt_or_ge t (2 ^ F.fraction)
      · obtain ⟨r, hr, hunits⟩ := ih (t * 2) (by rw [Nat.pow_succ]; omega)
        refine ⟨r, Nat.lt_of_lt_of_le hr (Nat.mul_le_mul_right _ (by omega)), ?_⟩
        rw [hunits, Nat.pow_succ]
        ring
      · have hle : t ≤ 2 ^ (F.fraction + 1) := by
          rw [Nat.pow_succ]
          omega
        refine ⟨(s + 1) * 2 ^ F.fraction + t, ?_, units_shift hle (.inr hlarge)⟩
        rw [Nat.add_mul (s + 1) 2]
        omega

/-! ### Numbers -/

/-- The exponent field of the number one. -/
def bias (F : Format) : Nat := 2 ^ (F.exponent - 1) - 1

/-- The number of an unsigned pattern, from its exponent and its fraction. -/
def value (F : Format) (p : Nat) : ℚ :=
  let e := p / 2 ^ F.fraction
  let f : ℚ := (p % 2 ^ F.fraction : Nat) / 2 ^ F.fraction
  if e = 0 then f * 2 ^ (1 - F.bias : ℤ) else (1 + f) * 2 ^ (e - F.bias : ℤ)

theorem scale_pos (F : Format) : (0 : ℚ) < F.scale := by
  rw [scale, Nat.pow_eq]
  exact_mod_cast Nat.two_pow_pos _

theorem value_eq (hF : F.Proper) (p : Nat) : F.value p = F.units p / F.scale := by
  -- The numbers of exponent zero and one count in steps of `2 ^ -(b + fraction)`.
  obtain ⟨b, hbias⟩ : ∃ b, F.bias = b + 1 := Nat.exists_eq_add_one_of_ne_zero <| by
    have : 2 ^ 1 ≤ 2 ^ (F.exponent - 1) :=
      Nat.pow_le_pow_right (by decide) (Nat.le_sub_one_of_lt hF.exponent)
    rw [bias]
    omega
  have hscale : (F.scale : ℚ) = 2 ^ b * 2 ^ F.fraction := by
    rw [bias] at hbias
    rw [scale, Nat.pow_eq, Nat.pow_eq, show 2 ^ (F.exponent - 1) - 2 = b by omega, ← pow_add]
    exact_mod_cast rfl
  simp only [value, units, Nat.pow_eq, hscale, hbias]
  split
  · push_cast
    rw [show (1 - ((b : ℤ) + 1)) = -b by ring, zpow_neg, zpow_natCast]
    field_simp
  · obtain ⟨e, he⟩ := Nat.exists_eq_add_one_of_ne_zero ‹_›
    rw [he]
    push_cast
    rw [show ((e : ℤ) + 1 - (b + 1)) = e - b by ring, zpow_sub₀ (by norm_num), zpow_natCast,
      zpow_natCast]
    field_simp

theorem strictMono_value (hF : F.Proper) : StrictMono F.value := by
  intro p p' hlt
  rw [value_eq hF, value_eq hF]
  exact div_lt_div_of_pos_right (by exact_mod_cast F.strictMono_units hlt) F.scale_pos

/-- The pattern `r` is a better choice for `q` than `p`: it is nearer, or it is as near and
even. -/
def Prefers (F : Format) (q : ℚ) (r p : Nat) : Prop :=
  |F.value r - q| < |F.value p - q| ∨ |F.value r - q| = |F.value p - q| ∧ Even r

/-- The finite pattern `r` is the best choice for `q`. -/
structure Nearest (F : Format) (q : ℚ) (r : Nat) : Prop where
  finite : r < F.infinity
  best : ∀ p < F.infinity, p ≠ r → F.Prefers q r p

/-- Half a step past the largest finite number. -/
def threshold (F : Format) : ℚ := (F.value (F.infinity - 1) + F.value F.infinity) / 2

theorem threshold_half : half.threshold = 65520 := by
  norm_num [threshold, value, infinity, bias, half]

/-! ### Rounding without an end -/

/-- What a quotient is rounded to before the result is cut off at infinity. -/
def unbounded (F : Format) (num den : Nat) : Nat :=
  let s := Nat.log2 (num / den) - F.fraction
  s * 2 ^ F.fraction + roundDiv num (den * 2 ^ s)

theorem round_eq_min (F : Format) (num den : Nat) :
    F.round num den = min F.infinity (F.unbounded num den) := rfl

/-- The steps that are counted are those around the quotient. -/
theorem unbounded_shape (F : Format) (num : Nat) (hden : 0 < den) : ∃ s t,
    F.unbounded num den = s * 2 ^ F.fraction + t ∧ t = roundDiv num (den * 2 ^ s) ∧
      t ≤ 2 ^ (F.fraction + 1) ∧
      (s = 0 ∨ 2 ^ F.fraction ≤ t ∧ 2 ^ F.fraction * (den * 2 ^ s) ≤ num) := by
  refine ⟨_, _, rfl, rfl, ?_⟩
  generalize hs : Nat.log2 (num / den) - F.fraction = s
  have hstep : 0 < den * 2 ^ s := Nat.mul_pos hden (Nat.two_pow_pos s)
  obtain ⟨hlow, hhigh, -⟩ := roundDiv_near (n := num) hstep
  constructor
  · have hlt : num / den < 2 ^ (s + (F.fraction + 1)) :=
      Nat.lt_of_lt_of_le Nat.lt_log2_self (Nat.pow_le_pow_right (by decide) (by omega))
    have hnum : num < 2 ^ (F.fraction + 1) * (den * 2 ^ s) := by
      rw [Nat.div_lt_iff_lt_mul hden, Nat.pow_add] at hlt
      linarith
    by_contra hgt
    have := Nat.mul_le_mul_right (den * 2 ^ s) (Nat.succ_le_of_lt (Nat.lt_of_not_le hgt))
    rw [Nat.succ_mul] at this
    omega
  · obtain rfl | hpos := Nat.eq_zero_or_pos s
    · exact .inl rfl
    · have hne : num / den ≠ 0 := by
        intro hzero
        rw [hzero, Nat.log2_zero] at hs
        omega
      have hle : 2 ^ (s + F.fraction) ≤ num / den := by
        rw [show s + F.fraction = Nat.log2 (num / den) by omega]
        exact Nat.log2_self_le hne
      have hnum : 2 ^ F.fraction * (den * 2 ^ s) ≤ num := by
        rw [Nat.le_div_iff_mul_le hden, Nat.pow_add] at hle
        linarith
      refine .inr ⟨?_, hnum⟩
      by_contra hlt
      have := Nat.mul_le_mul_right (den * 2 ^ s) (Nat.succ_le_of_lt (Nat.lt_of_not_le hlt))
      rw [Nat.succ_mul] at this
      omega

/-- Patterns between two powers of two are as even as the multiples that they count. -/
theorem even_shift (hF : F.Proper) (ht : Even t) : Even (s * 2 ^ F.fraction + t) := by
  refine Even.add (Even.mul_left ?_ s) ht
  exact (Nat.even_pow.2 ⟨even_two, Nat.ne_of_gt hF.fraction⟩)

/-- A choice within half a step is better than every one that is a step away from it. -/
theorem prefers_of_step {q d : ℚ} (hnear : |F.value r - q| ≤ d)
    (htie : |F.value r - q| = d → Even r)
    (hfar : F.value r + 2 * d ≤ F.value p ∨ F.value p + 2 * d ≤ F.value r) :
    F.Prefers q r p := by
  have hd : d ≤ |F.value p - q| := by
    obtain ⟨hlow, hhigh⟩ := abs_le.1 hnear
    rcases hfar with h | h
    · exact le_trans (by linarith) (le_abs_self _)
    · exact le_trans (by linarith) (neg_le_abs _)
  obtain hlt | heq := lt_or_eq_of_le hnear
  · exact .inl (hlt.trans_le hd)
  · obtain hlt | heq' := lt_or_eq_of_le hd
    · exact .inl (heq ▸ hlt)
    · exact .inr ⟨heq.trans heq', htie heq⟩

/-- Of all patterns, the one that a quotient of units is rounded to is the best choice. -/
theorem unbounded_prefers (hF : F.Proper) (hden : 0 < den) (hp : p ≠ F.unbounded num den) :
    F.Prefers (num / den / F.scale) (F.unbounded num den) p := by
  obtain ⟨s, t, hr, ht, hle, hs⟩ := F.unbounded_shape num hden
  have hs' : s = 0 ∨ 2 ^ F.fraction ≤ t := hs.imp_right And.left
  obtain ⟨hnear, heven⟩ := abs_roundDiv_sub_le (n := num) (Nat.mul_pos hden (Nat.two_pow_pos s))
  rw [← ht] at hnear heven
  have hden' : (0 : ℚ) < den := by exact_mod_cast hden
  -- The step as a number.
  obtain ⟨d, hd⟩ : ∃ d : ℚ, d = 2 ^ s / F.scale := ⟨_, rfl⟩
  have hpos : 0 < d := hd ▸ div_pos (by positivity) F.scale_pos
  have hvalue : F.value (s * 2 ^ F.fraction + t) = t * d := by
    rw [value_eq hF, units_shift hle hs', hd]
    push_cast
    ring
  have hquotient : (num / den / F.scale : ℚ) = num / (den * 2 ^ s : Nat) * d := by
    rw [hd]
    push_cast
    field_simp
  have hfar {p p' : Nat} (h : F.units p + 2 ^ s ≤ F.units p') : F.value p + d ≤ F.value p' := by
    rw [value_eq hF, value_eq hF, hd, ← add_div]
    refine div_le_div_of_nonneg_right ?_ F.scale_pos.le
    exact_mod_cast h
  rw [hr] at hp ⊢
  by_cases hpower : p < s * 2 ^ F.fraction + t ∧ 0 < s ∧ t = 2 ^ F.fraction
  · -- Below a power of two the steps are smaller, but the quotient lies above it.
    obtain ⟨hlt, hpositive, rfl⟩ := hpower
    obtain ⟨-, hnum⟩ := hs.resolve_left (Nat.ne_of_gt hpositive)
    have hge : F.value (s * 2 ^ F.fraction + 2 ^ F.fraction) ≤ num / den / F.scale := by
      rw [hvalue, hquotient]
      refine mul_le_mul_of_nonneg_right ?_ hpos.le
      rw [le_div_iff₀ (by positivity)]
      exact_mod_cast hnum
    have hless := strictMono_value hF hlt
    refine .inl ?_
    rw [abs_of_nonpos (by linarith), abs_of_nonpos (by linarith)]
    linarith
  · have habs : |F.value (s * 2 ^ F.fraction + t) - num / den / F.scale| =
        |(t : ℚ) - num / (den * 2 ^ s : Nat)| * d := by
      rw [hvalue, hquotient, ← sub_mul, abs_mul, abs_of_pos hpos]
    refine prefers_of_step (d := 1 / 2 * d) ?_ (fun heq => ?_) ?_
    · rw [habs]
      exact mul_le_mul_of_nonneg_right hnear hpos.le
    · rw [habs] at heq
      exact even_shift hF (heven (mul_right_cancel₀ hpos.ne' heq))
    · rw [← mul_assoc, mul_one_div_cancel two_ne_zero, one_mul]
      obtain hlt | hgt := Nat.lt_or_gt_of_ne hp
      · have hs'' : s = 0 ∨ 2 ^ F.fraction < t := by omega
        have ht' : 0 < t := by
          obtain rfl | hs'' := hs''
          · omega
          · exact Nat.zero_lt_of_lt hs''
        refine .inr (hfar ?_)
        rw [← units_pred_add_step hle ht' hs'']
        exact Nat.add_le_add_right (F.strictMono_units.monotone (Nat.le_sub_one_of_lt hlt)) _
      · exact .inl (hfar ((units_add_step_le hle hs').trans (F.strictMono_units.monotone hgt)))

/-! ### The best choice -/

theorem infinity_even (hF : F.Proper) : Even F.infinity := by
  rw [infinity, Nat.pow_eq, Nat.pow_eq]
  exact Even.mul_left (Nat.even_pow.2 ⟨even_two, Nat.ne_of_gt hF.fraction⟩) _

theorem infinity_pos (hF : F.Proper) : 0 < F.infinity := by
  have : 2 ^ 1 ≤ 2 ^ F.exponent := Nat.pow_le_pow_right (by decide) (Nat.le_of_lt hF.exponent)
  rw [infinity, Nat.pow_eq, Nat.pow_eq]
  exact Nat.mul_pos (by omega) (Nat.two_pow_pos _)

/-- What is preferred to a smaller number is not below the middle. -/
theorem Prefers.middle_le {q : ℚ} (hF : F.Proper) (h : F.Prefers q r p) (hlt : p < r) :
    F.value p + F.value r ≤ 2 * q ∧ (F.value p + F.value r = 2 * q → Even r) := by
  have hvalue := strictMono_value hF hlt
  have hle : |F.value r - q| ≤ |F.value p - q| := h.elim le_of_lt fun h => h.1.le
  constructor
  · by_contra hbelow
    have : |F.value p - q| < F.value r - q := abs_lt.2 ⟨by linarith, by linarith⟩
    exact absurd (le_abs_self (F.value r - q)) (by linarith)
  · intro hmiddle
    rcases h with hless | ⟨-, heven⟩
    · rw [show F.value r - q = -(F.value p - q) by linarith, abs_neg] at hless
      exact absurd hless (lt_irrefl _)
    · exact heven

/-- What is preferred to a larger number is not above the middle. -/
theorem Prefers.le_middle {q : ℚ} (hF : F.Proper) (h : F.Prefers q r p) (hlt : r < p) :
    2 * q ≤ F.value r + F.value p ∧ (2 * q = F.value r + F.value p → Even r) := by
  have hvalue := strictMono_value hF hlt
  have hle : |F.value r - q| ≤ |F.value p - q| := h.elim le_of_lt fun h => h.1.le
  constructor
  · by_contra habove
    have : |F.value p - q| < q - F.value r := abs_lt.2 ⟨by linarith, by linarith⟩
    exact absurd (neg_le_abs (F.value r - q)) (by linarith)
  · intro hmiddle
    rcases h with hless | ⟨-, heven⟩
    · rw [show F.value r - q = -(F.value p - q) by linarith, abs_neg] at hless
      exact absurd hless (lt_irrefl _)
    · exact heven

/-- From half a step past the largest finite number on, the best choice is not finite. -/
theorem unbounded_lt_infinity_iff (hF : F.Proper) (hden : 0 < den) :
    F.unbounded num den < F.infinity ↔ (num / den / F.scale : ℚ) < F.threshold := by
  have hpos := infinity_pos hF
  have hpred : F.infinity - 1 < F.infinity := Nat.sub_one_lt_of_lt hpos
  have hthreshold : F.value (F.infinity - 1) + F.value F.infinity = 2 * F.threshold := by
    rw [threshold]
    ring
  constructor
  · intro hlt
    obtain ⟨hle, htie⟩ := (unbounded_prefers hF hden (Nat.ne_of_gt hlt)).le_middle hF hlt
    obtain heq | hless := Nat.eq_or_lt_of_le (Nat.le_sub_one_of_lt hlt)
    · -- The largest finite pattern is odd, so a tie does not go to it.
      rw [heq, hthreshold] at hle htie
      refine lt_of_le_of_ne (by linarith) fun htied => ?_
      have hodd := htie (by rw [htied])
      have heven := infinity_even hF
      rw [Nat.even_iff] at hodd heven
      omega
    · have := strictMono_value hF hless
      linarith
  · intro hlt
    by_contra hge
    have hge : F.infinity ≤ F.unbounded num den := Nat.le_of_not_lt hge
    have hless : F.infinity - 1 < F.unbounded num den := by omega
    obtain ⟨hle, -⟩ := (unbounded_prefers hF hden (Nat.ne_of_lt hless)).middle_le hF hless
    have := (strictMono_value hF).monotone hge
    linarith

theorem round_eq_infinity_iff (hF : F.Proper) (hden : 0 < den) :
    F.round num den = F.infinity ↔ F.threshold ≤ (num / den / F.scale : ℚ) := by
  rw [round_eq_min, min_eq_left_iff, ← not_lt, ← not_lt, unbounded_lt_infinity_iff hF hden]

theorem round_le_infinity (F : Format) (num den : Nat) : F.round num den ≤ F.infinity :=
  Nat.min_le_left _ _

/-- Rounding finds the best choice among the finite numbers. -/
theorem round_nearest (hF : F.Proper) (hden : 0 < den)
    (hlt : (num / den / F.scale : ℚ) < F.threshold) :
    F.Nearest (num / den / F.scale) (F.round num den) := by
  have hfinite := (unbounded_lt_infinity_iff hF hden).2 hlt
  rw [round_eq_min, Nat.min_eq_right hfinite.le]
  exact ⟨hfinite, fun p _ hp => unbounded_prefers hF hden hp⟩

theorem round_mono (hF : F.Proper) {num' den' : Nat} (hden : 0 < den) (hden' : 0 < den')
    (h : (num / den / F.scale : ℚ) ≤ num' / den' / F.scale) :
    F.round num den ≤ F.round num' den' := by
  rw [round_eq_min, round_eq_min]
  refine min_le_min le_rfl ?_
  by_contra hlt
  have hlt : F.unbounded num' den' < F.unbounded num den := Nat.lt_of_not_le hlt
  obtain ⟨hge, heven⟩ := (unbounded_prefers hF hden hlt.ne).middle_le hF hlt
  obtain ⟨hle, heven'⟩ := (unbounded_prefers hF hden' hlt.ne').le_middle hF hlt
  -- Both quotients are in the middle of two even patterns, and the one between is nearer.
  have hne : F.unbounded num' den' + 1 ≠ F.unbounded num den := by
    have hparity := heven (by linarith)
    have hparity' := heven' (by linarith)
    rw [Nat.even_iff] at hparity hparity'
    omega
  have hbetween : F.unbounded num' den' + 1 < F.unbounded num den := by omega
  have := ((unbounded_prefers hF hden hne).middle_le hF hbetween).1
  have := strictMono_value hF (Nat.lt_succ_self (F.unbounded num' den'))
  linarith

/-- A number of the format is rounded to itself. -/
theorem round_units_mul (hF : F.Proper) (hden : 0 < den) (hr : r < F.infinity) :
    F.round (F.units r * den) den = r := by
  have hq : (F.units r * den : Nat) / den / (F.scale : ℚ) = F.value r := by
    have : (den : ℚ) ≠ 0 := by exact_mod_cast hden.ne'
    rw [value_eq hF]
    push_cast
    field_simp
  have heq : F.unbounded (F.units r * den) den = r := by
    by_contra hne
    have hbest := unbounded_prefers hF hden (Ne.symm hne)
    rw [hq, Prefers, sub_self, abs_zero] at hbest
    obtain hless | ⟨hzero, -⟩ := hbest
    · exact absurd hless (not_lt.2 (abs_nonneg _))
    · exact hne ((strictMono_value hF).injective (sub_eq_zero.1 (abs_eq_zero.1 hzero)))
  rw [round_eq_min, heq, Nat.min_eq_right hr.le]

end Format

end CellScript
