import CellScript.Proofs.Rounding
import Mathlib.Data.Nat.Bitwise

/-!
The bits of a pattern and what they stand for.

Narrowing and widening take patterns apart by masks and shifts. The fields that come out are
remainders and quotients of the pattern, and the shift that rounds is a rounded division by a
power of two. So both operations are the ones on units: narrowing is `Format.round`, whatever
branch it takes, and widening keeps the units.
-/

namespace CellScript

namespace Format

variable {F : Format} {p : Nat} {negative : Bool}

/-! ### Patterns with a sign -/

/-- The sign of a pattern. -/
def isNegative (F : Format) (p : Nat) : Bool := decide (F.signBit ≤ p)

/-- A pattern without its sign. -/
def unsigned (F : Format) (p : Nat) : Nat := p % F.signBit

/-- The patterns past infinity are no numbers. -/
def IsNumber (F : Format) (p : Nat) : Prop := F.unsigned p ≤ F.infinity

instance (p : Nat) : Decidable (F.IsNumber p) := inferInstanceAs (Decidable (_ ≤ _))

theorem infinity_lt_signBit (F : Format) : F.infinity < F.signBit := by
  rw [infinity, signBit, Nat.pow_eq, Nat.pow_eq, Nat.pow_eq, Nat.pow_add,
    Nat.mul_comm (2 ^ F.fraction)]
  refine Nat.mul_lt_mul_of_pos_right ?_ (Nat.two_pow_pos _)
  exact Nat.sub_one_lt (Nat.two_pow_pos _).ne'

@[simp] theorem signed_false : F.signed false p = p := rfl

@[simp] theorem signed_true : F.signed true p = F.signBit + p := rfl

theorem isNegative_signed (hp : p ≤ F.infinity) :
    F.isNegative (F.signed negative p) = negative := by
  have := F.infinity_lt_signBit
  cases negative
  · exact decide_eq_false (by rw [signed_false]; omega)
  · exact decide_eq_true (Nat.le_add_right _ _)

theorem unsigned_signed (hp : p ≤ F.infinity) : F.unsigned (F.signed negative p) = p := by
  have hlt : p < F.signBit := Nat.lt_of_le_of_lt hp F.infinity_lt_signBit
  cases negative
  · exact Nat.mod_eq_of_lt hlt
  · rw [unsigned, signed_true, Nat.add_mod_left, Nat.mod_eq_of_lt hlt]

theorem signed_lt (hp : p ≤ F.infinity) : F.signed negative p < 2 * F.signBit := by
  have := F.infinity_lt_signBit
  cases negative
  · rw [signed_false]
    omega
  · rw [signed_true]
    omega

/-- A pattern is its sign and what is left without it. -/
theorem signed_unsigned (hp : p < 2 * F.signBit) :
    F.signed (F.isNegative p) (F.unsigned p) = p := by
  by_cases hsign : F.signBit ≤ p
  · rw [isNegative, decide_eq_true hsign, signed, if_pos rfl, unsigned, Nat.mod_eq_sub_mod hsign,
      Nat.mod_eq_of_lt (by omega)]
    omega
  · rw [isNegative, decide_eq_false hsign, signed, if_neg Bool.false_ne_true, unsigned,
      Nat.mod_eq_of_lt (by omega)]

theorem read_finite (h : F.unsigned p < F.infinity) :
    F.read p = .finite (F.isNegative p) (F.units (F.unsigned p)) := by
  simp only [unsigned] at h
  simp only [read, isNegative, unsigned, if_pos h]

theorem read_infinite (h : F.unsigned p = F.infinity) :
    F.read p = .infinite (F.isNegative p) := by
  simp only [unsigned] at h
  simp only [read, isNegative, h, lt_irrefl, if_false, if_true]

theorem read_nan (h : ¬ F.IsNumber p) : F.read p = .nan := by
  simp only [IsNumber, unsigned, not_le] at h
  simp only [read, if_neg (not_lt.2 h.le), if_neg h.ne']

theorem isNumber_signed (hp : p ≤ F.infinity) : F.IsNumber (F.signed negative p) := by
  rwa [IsNumber, unsigned_signed hp]

end Format

namespace Single

theorem bits_ofPattern {negative : Bool} {p : Nat} (hp : p ≤ Format.single.infinity) :
    (ofPattern negative p).bits.toNat = Format.single.signed negative p := by
  have hlt : Format.single.signed negative p < 4294967296 := Format.signed_lt hp
  rw [ofPattern, UInt32.toNat_ofNat', Nat.mod_eq_of_lt hlt]

end Single

/-! ### Shifts that round -/

/-- Rounding adds one or nothing to the quotient. -/
theorem roundDiv_eq_add (n d : Nat) : roundDiv n d =
    n / d + if d < 2 * (n % d) ∨ 2 * (n % d) = d ∧ n / d % 2 = 1 then 1 else 0 := by
  unfold roundDiv
  have := Nat.mod_two_eq_zero_or_one (n / d)
  split_ifs <;> omega

theorem roundDiv_mul_right {n d c : Nat} (hc : 0 < c) :
    roundDiv (n * c) (d * c) = roundDiv n d := by
  have htwo : 2 * (n % d * c) = 2 * (n % d) * c := (Nat.mul_assoc ..).symm
  simp only [roundDiv, Nat.mul_div_mul_right _ _ hc, Nat.mul_mod_mul_right, htwo,
    Nat.mul_lt_mul_right hc]

/-- A remainder below half of the divisor is lost. -/
theorem roundDiv_eq_zero {n d : Nat} (h : 2 * n < d) : roundDiv n d = 0 := by
  have hlt : n < d := by omega
  rw [roundDiv, Nat.mod_eq_of_lt hlt, if_pos h, Nat.div_eq_of_lt hlt]

/-- A mask of the low bits leaves a remainder. -/
theorem toNat_and_mask {w mask : UInt32} {k : Nat} (h : mask.toNat = 2 ^ k - 1) :
    (w &&& mask).toNat = w.toNat % 2 ^ k := by
  rw [UInt32.toNat_and, h, Nat.and_two_pow_sub_one_eq_mod]

namespace Half

variable {m rem shift kept : UInt32}

theorem toNat_roundIncrement (hpos : 0 < shift.toNat) (hlt : shift.toNat < 32) :
    (roundIncrement rem shift kept).toNat =
      if 2 ^ shift.toNat < 2 * rem.toNat ∨ 2 * rem.toNat = 2 ^ shift.toNat ∧ kept.toNat % 2 = 1
      then 1 else 0 := by
  obtain ⟨k, hk⟩ := Nat.exists_eq_add_one_of_ne_zero (Nat.ne_of_gt hpos)
  have hshift : (shift - 1).toNat = k := by
    rw [UInt32.toNat_sub_of_le _ _ (by rw [UInt32.le_iff_toNat_le]; exact hpos), hk]
    rfl
  have hpow : 2 ^ k < 4294967296 :=
    Nat.pow_lt_pow_right (a := 2) (n := 32) (by decide) (by omega)
  have hhalfway : ((1 : UInt32) <<< (shift - 1)).toNat = 2 ^ k := by
    rw [UInt32.toNat_shiftLeft, hshift, Nat.mod_eq_of_lt (show k < 32 by omega), UInt32.toNat_one,
      Nat.one_shiftLeft, Nat.mod_eq_of_lt hpow]
  have hodd : (kept &&& 1 == 1) = decide (kept.toNat % 2 = 1) := by
    rw [Bool.eq_iff_iff, beq_iff_eq, decide_eq_true_iff, ← UInt32.toNat_inj, UInt32.toNat_and,
      UInt32.toNat_one, Nat.and_one_is_mod]
  simp only [roundIncrement, hodd, hk, Nat.pow_succ, Bool.or_eq_true, Bool.and_eq_true,
    decide_eq_true_iff, beq_iff_eq, gt_iff_lt, UInt32.lt_iff_toNat_lt, ← UInt32.toNat_inj, hhalfway]
  split <;> split <;> first | rfl | (exfalso; omega)

theorem toNat_roundShift (hpos : 0 < shift.toNat) (hlt : shift.toNat < 32) :
    (roundShift m shift).toNat = roundDiv m.toNat (2 ^ shift.toNat) := by
  have hpow : 2 ^ shift.toNat < 4294967296 :=
    Nat.pow_lt_pow_right (a := 2) (n := 32) (by decide) hlt
  have hkept : (m >>> shift).toNat = m.toNat / 2 ^ shift.toNat := by
    rw [UInt32.toNat_shiftRight, Nat.mod_eq_of_lt hlt, Nat.shiftRight_eq_div_pow]
  have hone : ((1 : UInt32) <<< shift).toNat = 2 ^ shift.toNat := by
    rw [UInt32.toNat_shiftLeft, Nat.mod_eq_of_lt hlt, UInt32.toNat_one, Nat.one_shiftLeft,
      Nat.mod_eq_of_lt hpow]
  have hrem : (m &&& ((1 <<< shift) - 1)).toNat = m.toNat % 2 ^ shift.toNat := by
    have hle : (1 : UInt32) ≤ 1 <<< shift := by
      rw [UInt32.le_iff_toNat_le, hone]
      exact Nat.two_pow_pos _
    refine toNat_and_mask ?_
    rw [UInt32.toNat_sub_of_le _ _ hle, hone, UInt32.toNat_one]
  -- The quotient has lost a bit at least, so there is room for the one that is added.
  have hroom : m.toNat / 2 ^ shift.toNat < 2147483648 := by
    have hle : m.toNat / 2 ^ shift.toNat ≤ m.toNat / 2 :=
      Nat.div_le_div_left (Nat.le_self_pow (Nat.ne_of_gt hpos) 2) Nat.two_pos
    have := m.toNat_lt
    omega
  rw [roundShift, UInt32.toNat_add, toNat_roundIncrement hpos hlt, hkept, hrem, roundDiv_eq_add]
  split <;> omega

end Half

/-! ### Fields -/

namespace Single

open Format (single)

variable {x y : Single}

theorem toNat_exponent (x : Single) :
    ((x.bits >>> 23) &&& 0xff).toNat = single.unsigned x.bits.toNat / 2 ^ 23 := by
  have hsign : single.signBit = 2147483648 := rfl
  rw [toNat_and_mask (show (0xff : UInt32).toNat = 2 ^ 8 - 1 from rfl), UInt32.toNat_shiftRight,
    show (23 : UInt32).toNat % 32 = 23 from rfl, Nat.shiftRight_eq_div_pow, Format.unsigned, hsign]
  omega

theorem toNat_fraction (x : Single) :
    (x.bits &&& 0x007fffff).toNat = single.unsigned x.bits.toNat % 2 ^ 23 := by
  have hsign : single.signBit = 2147483648 := rfl
  rw [toNat_and_mask (show (0x007fffff : UInt32).toNat = 2 ^ 23 - 1 from rfl), Format.unsigned,
    hsign]
  omega

theorem isNaN_iff : x.isNaN = true ↔ ¬ single.IsNumber x.bits.toNat := by
  rw [isNaN, decide_eq_true_iff, read]
  refine ⟨fun h hx => ?_, Format.read_nan⟩
  obtain hlt | heq := Nat.lt_or_eq_of_le hx
  · rw [Format.read_finite hlt] at h
    cases h
  · rw [Format.read_infinite heq] at h
    cases h

theorem isInfinite_of_eq (h : single.unsigned x.bits.toNat = single.infinity) :
    x.isInfinite = true := by
  rw [isInfinite, read, Format.read_infinite h]

theorem isInfinite_of_lt (h : single.unsigned x.bits.toNat < single.infinity) :
    x.isInfinite = false := by
  rw [isInfinite, read, Format.read_finite h]

/-! ### Exact operations -/

theorem read_of_eq {negative : Bool} {r : Nat} (hx : x = ofPattern negative r)
    (hr : r < single.infinity) : x.read = .finite negative (single.units r) := by
  have hunsigned : single.unsigned (single.signed negative r) = r := Format.unsigned_signed hr.le
  rw [hx, read, bits_ofPattern hr.le, Format.read_finite (by rwa [hunsigned]), hunsigned,
    Format.isNegative_signed hr.le]

/-- A number with units of its own is rounded to nothing else. -/
theorem ofUnits_units {r den : Nat} (negative : Bool) (hden : 0 < den) (hr : r < single.infinity) :
    ofUnits negative (single.units r * den) den = ofPattern negative r := by
  rw [ofUnits, Format.round_units_mul Format.proper_single hden hr]

/-- Twenty-four bits are enough for a natural number below their limit, times a power of two. -/
theorem exists_pattern {s t : Nat} (ht : t < 2 ^ 24) (hs : s < 253) :
    ∃ r, r < single.infinity ∧ single.units r = t * 2 ^ s := by
  obtain ⟨r, hr, hunits⟩ := Format.exists_units (F := single) s t ht
  refine ⟨r, Nat.lt_of_lt_of_le hr ?_, hunits⟩
  rw [show single.infinity = 255 * 2 ^ single.fraction from rfl]
  exact Nat.mul_le_mul_right _ (by omega)

theorem neg_ofPattern_false {r : Nat} (hr : r ≤ single.infinity) :
    (ofPattern false r).neg = ofPattern true r := by
  have hlt : r < 2 ^ 31 := Nat.lt_of_le_of_lt hr (by decide)
  have hxor : r ^^^ 2 ^ 31 = 2 ^ 31 * 1 + r := by
    rw [Nat.two_pow_add_eq_or_of_lt hlt, Nat.mul_one]
    refine Nat.eq_of_testBit_eq fun i => ?_
    rw [Nat.testBit_xor, Nat.testBit_or, Nat.testBit_two_pow]
    by_cases hi : 31 = i
    · rw [← hi, Nat.testBit_lt_two_pow hlt]
      rfl
    · rw [decide_eq_false hi, Bool.xor_false, Bool.false_or]
  have htrue : (ofPattern true r).bits.toNat = 2 ^ 31 * 1 + r := bits_ofPattern hr
  refine congrArg Single.mk (UInt32.toNat_inj.1 ?_)
  rw [UInt32.toNat_xor, bits_ofPattern hr, Format.signed_false]
  exact hxor.trans htrue.symm

theorem read_smallestHalf : smallestHalf.read = .finite false (2 ^ 125) := by
  have hpattern : smallestHalf = ofPattern false 0x33800000 := rfl
  have hunits : single.units 0x33800000 = 2 ^ 125 := by decide
  rw [read_of_eq hpattern (by decide), hunits]

theorem mul_finite {s t : Bool} {m n : Nat} (hx : x.read = .finite s m)
    (hy : y.read = .finite t n) : x.mul y = ofUnits (s != t) (m * n) single.scale := by
  simp only [mul, hx, hy]

/-- Whole numbers of twenty-four bits are exact, and so are their products with a power of two. -/
theorem mul_smallestHalf {t : Nat} (ht : t < 2 ^ 24) : ∃ r, r < single.infinity ∧
    single.units r = t * 2 ^ 125 ∧ (ofInt t).mul smallestHalf = ofPattern false r := by
  have hscale : single.scale = 2 ^ 149 := by decide
  obtain ⟨p, hp, hpunits⟩ := exists_pattern (s := 149) ht (by decide)
  obtain ⟨r, hr, hunits⟩ := exists_pattern (s := 125) ht (by decide)
  have hint : ofInt t = ofPattern false p := by
    rw [ofInt, Int.natAbs_natCast, hscale, ← hpunits, ← Nat.mul_one (single.units p),
      decide_eq_false (Int.not_lt.2 (Int.natCast_nonneg t)), ofUnits_units _ Nat.one_pos hp]
  refine ⟨r, hr, hunits, ?_⟩
  rw [mul_finite (read_of_eq hint hp) read_smallestHalf, bne_self_eq_false, hpunits,
    Nat.mul_right_comm, ← hunits, ← hscale,
    ofUnits_units _ (by rw [hscale]; exact Nat.two_pow_pos _) hr]

end Single

namespace Half

open Format (half single)

variable {x : Single} {h : Half} {e f : Nat}

/-- How many units of the single format make one unit of the half format. -/
def unitRatio : Nat := single.scale / half.scale

/-- The pattern that the magnitude of a single is rounded to. -/
def rounded (x : Single) : Nat :=
  let p := single.unsigned x.bits.toNat
  if p < single.infinity then half.round (single.units p) unitRatio
  else half.infinity

theorem rounded_le (x : Single) : rounded x ≤ half.infinity := by
  rw [rounded]
  split
  · exact Format.round_le_infinity ..
  · exact le_rfl

theorem unitRatio_eq : unitRatio = 2 ^ 125 := by decide

/-- Subnormal singles are far below the smallest half. -/
theorem round_of_zero (hf : f < 2 ^ 23) : half.round f unitRatio = 0 := by
  have hlt : 2 * f < 2 ^ 125 := Nat.lt_of_lt_of_le (m := 2 ^ 24) (by omega) (by decide)
  rw [Format.round, unitRatio_eq, Nat.div_eq_of_lt (by omega), Nat.log2_zero, Nat.zero_sub,
    Nat.pow_eq, Nat.pow_eq, Nat.pow_zero, Nat.mul_one, roundDiv_eq_zero hlt, Nat.zero_mul]
  exact Nat.min_eq_right (Nat.zero_le _)

/-- Below the normal range of the half all steps are the same, and so the lower the exponent
is, the more bits are cut off. -/
theorem round_of_le (hpos : 0 < e) (he : e ≤ 112) (hf : f < 2 ^ 23) :
    half.round ((2 ^ 23 + f) * 2 ^ (e - 1)) unitRatio =
      roundDiv (2 ^ 23 + f) (2 ^ (126 - e)) := by
  have hpow : 0 < 2 ^ (e - 1) := Nat.two_pow_pos _
  have hratio : unitRatio = 2 ^ (126 - e) * 2 ^ (e - 1) := by
    rw [unitRatio_eq, ← Nat.pow_add]
    congr 1
    omega
  have hquotient : (2 ^ 23 + f) / 2 ^ (126 - e) < 2 ^ 10 := by
    rw [Nat.div_lt_iff_lt_mul (Nat.two_pow_pos _)]
    have : 2 ^ 14 ≤ 2 ^ (126 - e) := Nat.pow_le_pow_right (by decide) (by omega)
    omega
  have hlog : Nat.log2 ((2 ^ 23 + f) / 2 ^ (126 - e)) - half.fraction = 0 := by
    rw [show half.fraction = 10 from rfl]
    obtain hzero | hne := eq_or_ne ((2 ^ 23 + f) / 2 ^ (126 - e)) 0
    · rw [hzero, Nat.log2_zero]
    · have := (Nat.log2_lt hne).2 hquotient
      omega
  have hle : roundDiv (2 ^ 23 + f) (2 ^ (126 - e)) ≤ half.infinity := by
    rw [roundDiv_eq_add, show half.infinity = 31744 from rfl]
    split <;> omega
  rw [Format.round, hratio, Nat.mul_div_mul_right _ _ hpow, hlog, Nat.pow_eq, Nat.pow_eq,
    Nat.zero_mul, Nat.zero_add, Nat.pow_zero, Nat.mul_one, roundDiv_mul_right hpow,
    Nat.min_eq_right hle]

/-- In the normal range the exponent counts how often the step doubles. -/
theorem round_of_lt (he : 112 < e) (hf : f < 2 ^ 23) :
    half.round ((2 ^ 23 + f) * 2 ^ (e - 1)) unitRatio =
      min half.infinity ((e - 113) * 2 ^ 10 + roundDiv (2 ^ 23 + f) (2 ^ 13)) := by
  obtain ⟨k, rfl⟩ := Nat.exists_eq_add_of_lt he
  rw [show 112 + k + 1 - 1 = 112 + k by omega, show 112 + k + 1 - 113 = k by omega]
  have hratio : unitRatio = 2 ^ 13 * 2 ^ 112 := by rw [unitRatio_eq, ← Nat.pow_add]
  have hnum : (2 ^ 23 + f) * 2 ^ (112 + k) = (2 ^ 23 + f) * 2 ^ k * 2 ^ 112 := by
    rw [Nat.mul_assoc, ← Nat.pow_add, Nat.add_comm k]
  have hquotient : (2 ^ 23 + f) * 2 ^ (112 + k) / unitRatio = (2 ^ 23 + f) * 2 ^ k / 2 ^ 13 := by
    rw [hratio, hnum, Nat.mul_div_mul_right _ _ (Nat.two_pow_pos _)]
  have hlog : Nat.log2 ((2 ^ 23 + f) * 2 ^ k / 2 ^ 13) = k + 10 := by
    have hpow : 0 < 2 ^ k := Nat.two_pow_pos k
    have hlow : 2 ^ (k + 10) ≤ (2 ^ 23 + f) * 2 ^ k / 2 ^ 13 := by
      rw [Nat.le_div_iff_mul_le (by decide), Nat.pow_add]
      nlinarith
    have hhigh : (2 ^ 23 + f) * 2 ^ k / 2 ^ 13 < 2 ^ (k + 10 + 1) := by
      rw [Nat.div_lt_iff_lt_mul (by decide), Nat.pow_add, Nat.pow_add]
      nlinarith
    exact (Nat.log2_eq_iff (by omega)).2 ⟨hlow, hhigh⟩
  rw [Format.round, hquotient, hlog, show half.fraction = 10 from rfl, Nat.add_sub_cancel,
    Nat.pow_eq, Nat.pow_eq, hratio, hnum, Nat.mul_assoc (2 ^ 13), Nat.mul_comm (2 ^ 112),
    Nat.mul_assoc (2 ^ 23 + f), roundDiv_mul_right (Nat.mul_pos (Nat.two_pow_pos _)
      (Nat.two_pow_pos _))]

/-- The exponent of a single as that of a half, in thirty-two bits with a sign. -/
theorem exponent_cases {E : UInt32} (h : E.toNat < 256) :
    (E.toInt32 - 127 + 15 ≥ 31 ↔ 143 ≤ E.toNat) ∧ (E.toInt32 - 127 + 15 ≤ 0 ↔ E.toNat ≤ 112) ∧
      (E.toNat ≤ 112 → (14 - (E.toInt32 - 127 + 15)).toUInt32.toNat = 126 - E.toNat) ∧
      (112 < E.toNat → (E.toInt32 - 127 + 15).toUInt32.toNat = E.toNat - 112) := by
  have hall : ∀ n < 256, let exp := (UInt32.ofNat n).toInt32 - 127 + 15
      (exp ≥ 31 ↔ 143 ≤ n) ∧ (exp ≤ 0 ↔ n ≤ 112) ∧
        (n ≤ 112 → (14 - exp).toUInt32.toNat = 126 - n) ∧
        (112 < n → exp.toUInt32.toNat = n - 112) := by
    decide +kernel
  simpa using hall E.toNat h

/-- The sign of a single in front of an unsigned half. -/
theorem sign_or (x : Single) {w : UInt16} (hw : w.toNat < 2 ^ 15) :
    (⟨(x.bits >>> 16).toUInt16 &&& signBit ||| w⟩ : Half) =
      ofPattern (single.isNegative x.bits.toNat) w.toNat := by
  have hbit : (x.bits.toNat >>> 16 % 2 ^ 16).testBit 15 = single.isNegative x.bits.toNat := by
    have := x.bits.toNat_lt
    rw [Nat.testBit_mod_two_pow, Nat.testBit_shiftRight, Nat.testBit_eq_decide_div_mod_eq,
      Format.isNegative, show single.signBit = 2147483648 from rfl]
    rw [Bool.eq_iff_iff, Bool.and_eq_true, decide_eq_true_iff, decide_eq_true_iff,
      decide_eq_true_iff]
    omega
  refine congrArg Half.mk (UInt16.toNat_inj.1 ?_)
  rw [UInt16.toNat_or, UInt16.toNat_and, UInt32.toNat_toUInt16, UInt32.toNat_shiftRight,
    show (16 : UInt32).toNat % 32 = 16 from rfl, show signBit.toNat = 2 ^ 15 from rfl,
    Nat.and_two_pow, hbit, UInt16.toNat_ofNat']
  cases single.isNegative x.bits.toNat
  · rw [Bool.toNat_false, Nat.zero_mul, Nat.zero_or, Format.signed_false]
    omega
  · rw [Bool.toNat_true, Nat.mul_comm, ← Nat.two_pow_add_eq_or_of_lt hw, Format.signed_true,
      show half.signBit = 2 ^ 15 from rfl]
    omega

section

variable {M q : UInt32} (hM : M.toNat < 2 ^ 23)

include hM

/-- The one that is not stored in front of the fraction. -/
theorem toNat_leading : (M ||| 0x00800000).toNat = 2 ^ 23 + M.toNat := by
  rw [UInt32.toNat_or, Nat.or_comm, show (0x00800000 : UInt32).toNat = 2 ^ 23 * 1 from rfl,
    ← Nat.two_pow_add_eq_or_of_lt hM, Nat.mul_one]

/-- An exponent in front of the upper bits of the fraction. -/
theorem toNat_base (hq : q.toNat < 2 ^ 5) :
    (q <<< 10 ||| M >>> 13).toNat = q.toNat * 2 ^ 10 + M.toNat / 2 ^ 13 := by
  have hM' : M.toNat / 2 ^ 13 < 2 ^ 10 := by omega
  rw [UInt32.toNat_or, UInt32.toNat_shiftLeft, UInt32.toNat_shiftRight,
    show (10 : UInt32).toNat % 32 = 10 from rfl, show (13 : UInt32).toNat % 32 = 13 from rfl,
    Nat.shiftLeft_eq, Nat.shiftRight_eq_div_pow, Nat.mod_eq_of_lt (by omega), Nat.mul_comm,
    Nat.two_pow_add_eq_or_of_lt hM']

/-- The upper bits of the fraction are rounded together with the exponent in front of them. -/
theorem toNat_rounded_base (hpos : 0 < q.toNat) (hq : q.toNat < 2 ^ 5) :
    ((q <<< 10 ||| M >>> 13) +
        roundIncrement (M &&& 0x1fff) 13 (q <<< 10 ||| M >>> 13)).toNat =
      (q.toNat - 1) * 2 ^ 10 + roundDiv (2 ^ 23 + M.toNat) (2 ^ 13) := by
  have hrem : (M &&& 0x1fff).toNat = M.toNat % 2 ^ 13 := toNat_and_mask rfl
  rw [UInt32.toNat_add, toNat_roundIncrement (by decide) (by decide), hrem, toNat_base hM hq,
    show (13 : UInt32).toNat = 13 from rfl, roundDiv_eq_add]
  split_ifs <;> omega

end

theorem narrow_of_not_isNumber (hx : ¬ single.IsNumber x.bits.toNat) : narrow x = nan := by
  rw [narrow, if_pos (Single.isNaN_iff.2 hx)]

theorem toNat_toUInt16 {w : UInt32} {n : Nat} (hw : w.toNat = n) (hn : n ≤ half.infinity) :
    w.toUInt16.toNat = n := by
  rw [UInt32.toNat_toUInt16, hw]
  exact Nat.mod_eq_of_lt (Nat.lt_of_le_of_lt hn (by decide))

/-! ### The branches of narrowing -/

/-- The fields of a finite single are those of its units. -/
theorem rounded_fields {E M : UInt32} (hE : x.bits >>> 23 &&& 0xff = E)
    (hM : x.bits &&& 0x007fffff = M) (hx : single.unsigned x.bits.toNat < single.infinity) :
    E.toNat < 255 ∧ M.toNat < 2 ^ 23 ∧ rounded x =
      half.round (if E.toNat = 0 then M.toNat else (2 ^ 23 + M.toNat) * 2 ^ (E.toNat - 1))
        unitRatio := by
  rw [← hE, ← hM, Single.toNat_exponent, Single.toNat_fraction, rounded, if_pos hx]
  refine ⟨?_, Nat.mod_lt _ (by decide), rfl⟩
  rw [Nat.div_lt_iff_lt_mul (by decide)]
  exact hx

section

variable {M q shift : UInt32} (hM : M.toNat < 2 ^ 23)

include hM

/-- The exponent alone is past the largest one of a half. -/
theorem round_large (he : 143 ≤ e) :
    half.round ((2 ^ 23 + M.toNat) * 2 ^ (e - 1)) unitRatio = half.infinity := by
  rw [round_of_lt (by omega) hM, Nat.min_eq_left]
  rw [roundDiv_eq_add, show half.infinity = 31 * 2 ^ 10 from rfl]
  omega

/-- Not even the leading one is left. -/
theorem round_tiny (he : e < 102) :
    half.round (if e = 0 then M.toNat else (2 ^ 23 + M.toNat) * 2 ^ (e - 1)) unitRatio = 0 := by
  split
  · exact round_of_zero hM
  · rw [round_of_le (by omega) (by omega) hM, roundDiv_eq_zero]
    have : 2 ^ 25 ≤ 2 ^ (126 - e) := Nat.pow_le_pow_right (by decide) (by omega)
    omega

theorem round_small (hlow : 102 ≤ e) (he : e ≤ 112) (hshift : shift.toNat = 126 - e) :
    half.round ((2 ^ 23 + M.toNat) * 2 ^ (e - 1)) unitRatio =
      (roundShift (M ||| 0x00800000) shift).toNat := by
  rw [round_of_le (by omega) he hM, toNat_roundShift (by omega) (by omega), hshift,
    toNat_leading hM]

theorem round_normal (hlow : 112 < e) (he : e < 143) (hq : q.toNat = e - 112) :
    half.round ((2 ^ 23 + M.toNat) * 2 ^ (e - 1)) unitRatio =
      min half.infinity ((q <<< 10 ||| M >>> 13) +
        roundIncrement (M &&& 0x1fff) 13 (q <<< 10 ||| M >>> 13)).toNat := by
  rw [round_of_lt hlow hM, show e - 113 = q.toNat - 1 by omega,
    ← toNat_rounded_base hM (by omega) (by omega)]

end

/-- Whichever branch it takes, narrowing rounds the units of the single. -/
theorem narrow_eq (hx : single.IsNumber x.bits.toNat) :
    narrow x = ofPattern (single.isNegative x.bits.toNat) (rounded x) := by
  have hnan : x.isNaN = false := by
    rw [← Bool.not_eq_true, Single.isNaN_iff, not_not]
    exact hx
  have hsigned {w : UInt16} (hw : w.toNat = rounded x) :
      (⟨(x.bits >>> 16).toUInt16 &&& signBit ||| w⟩ : Half) =
        ofPattern (single.isNegative x.bits.toNat) (rounded x) := by
    rw [← hw, sign_or]
    exact Nat.lt_of_le_of_lt (hw ▸ rounded_le x) (by decide)
  obtain hlt | heq := Nat.lt_or_eq_of_le hx
  · have hfinite := Single.isInfinite_of_lt hlt
    simp only [narrow, hnan, hfinite, Bool.false_eq_true, if_false]
    generalize hE : x.bits >>> 23 &&& 0xff = E
    generalize hM : x.bits &&& 0x007fffff = M
    obtain ⟨he, hf, hround⟩ := rounded_fields hE hM hlt
    obtain ⟨hlarge, hsmall, hshift, hexp⟩ := exponent_cases (E := E) (by omega)
    by_cases h₁ : 143 ≤ E.toNat
    · rw [if_neg (by omega), round_large hf h₁] at hround
      rw [if_pos (hlarge.2 h₁)]
      exact hsigned hround.symm
    rw [if_neg (mt hlarge.1 h₁)]
    by_cases h₂ : E.toNat ≤ 112
    · have hshift := hshift h₂
      rw [if_pos (hsmall.2 h₂)]
      generalize (14 - (E.toInt32 - 127 + 15)).toUInt32 = shift at hshift ⊢
      have hcut : shift > 24 ↔ E.toNat < 102 := by
        rw [gt_iff_lt, UInt32.lt_iff_toNat_lt, hshift, show (24 : UInt32).toNat = 24 from rfl]
        omega
      by_cases h₃ : E.toNat < 102
      · rw [round_tiny hf h₃] at hround
        rw [if_pos (hcut.2 h₃), ← hsigned (w := 0) hround.symm, UInt16.or_zero]
      · rw [if_neg (by omega), round_small hf (by omega) h₂ hshift] at hround
        rw [if_neg (mt hcut.1 h₃)]
        exact hsigned (toNat_toUInt16 hround.symm (rounded_le x))
    · have hexp := hexp (by omega)
      rw [if_neg (mt hsmall.1 h₂)]
      generalize (E.toInt32 - 127 + 15).toUInt32 = q at hexp ⊢
      rw [if_neg (by omega), round_normal hf (by omega) (by omega) hexp] at hround
      generalize (q <<< 10 ||| M >>> 13) + roundIncrement (M &&& 0x1fff) 13 (q <<< 10 ||| M >>> 13)
        = w at hround ⊢
      have hle : w ≥ infinity.toUInt32 ↔ half.infinity ≤ w.toNat := UInt32.le_iff_toNat_le
      by_cases h₃ : half.infinity ≤ w.toNat
      · rw [if_pos (hle.2 h₃)]
        exact hsigned (hround.trans (Nat.min_eq_left h₃)).symm
      · rw [if_neg (mt hle.1 h₃)]
        rw [Nat.min_eq_right (Nat.le_of_not_le h₃)] at hround
        exact hsigned (toNat_toUInt16 hround.symm (rounded_le x))
  · have hinfinite := Single.isInfinite_of_eq heq
    simp only [narrow, hnan, hinfinite, Bool.false_eq_true, if_false, if_true]
    exact hsigned (by rw [rounded, heq, if_neg (lt_irrefl _)]; rfl)

/-! ### The branches of widening -/

theorem sign_iff : (h.bits &&& signBit != 0) = half.isNegative h.bits.toNat := by
  have := h.bits.toNat_lt
  rw [Bool.eq_iff_iff, bne_iff_ne, Ne, ← UInt16.toNat_inj, UInt16.toNat_and,
    show signBit.toNat = 2 ^ 15 from rfl, Nat.and_two_pow, Nat.testBit_eq_decide_div_mod_eq,
    Format.isNegative, decide_eq_true_iff, show half.signBit = 2 ^ 15 from rfl, UInt16.toNat_zero]
  by_cases hsign : h.bits.toNat / 2 ^ 15 % 2 = 1
  · rw [decide_eq_true hsign, Bool.toNat_true]
    omega
  · rw [decide_eq_false hsign, Bool.toNat_false]
    omega

theorem toNat_exponent (h : Half) :
    ((h.bits >>> 10) &&& 0x1f).toNat = half.unsigned h.bits.toNat / 2 ^ 10 := by
  have hsign : half.signBit = 32768 := rfl
  rw [UInt16.toNat_and, UInt16.toNat_shiftRight, show (0x1f : UInt16).toNat = 2 ^ 5 - 1 from rfl,
    Nat.and_two_pow_sub_one_eq_mod, show (10 : UInt16).toNat % 16 = 10 from rfl,
    Nat.shiftRight_eq_div_pow, Format.unsigned, hsign]
  omega

theorem toNat_fraction (h : Half) :
    (h.bits &&& 0x03ff).toUInt32.toNat = half.unsigned h.bits.toNat % 2 ^ 10 := by
  have hsign : half.signBit = 32768 := rfl
  rw [UInt16.toNat_toUInt32, UInt16.toNat_and, show (0x03ff : UInt16).toNat = 2 ^ 10 - 1 from rfl,
    Nat.and_two_pow_sub_one_eq_mod, Format.unsigned, hsign]
  omega

/-- A normal half has the exponent of a single, with another bias, and the same fraction. -/
theorem widen_normal {E : UInt16} {M : UInt32} {e m : Nat} (hE : E.toNat = e + 1) (he : e < 30)
    (hM : M.toNat = m) (hm : m < 2 ^ 10) : ∃ r, r < single.infinity ∧
      single.units r = (2 ^ 10 + m) * 2 ^ e * 2 ^ 125 ∧
      (⟨((E.toUInt32 + 112) <<< 23) ||| (M <<< 13)⟩ : Single) = .ofPattern false r := by
  have hlt : (e + 113) * 2 ^ 23 + m * 2 ^ 13 < single.infinity := by
    rw [show single.infinity = 255 * 2 ^ 23 from rfl]
    omega
  have hpattern : (Single.ofPattern false _).bits.toNat = _ := Single.bits_ofPattern hlt.le
  refine ⟨_, hlt, ?_, congrArg Single.mk (UInt32.toNat_inj.1 (.trans ?_ hpattern.symm))⟩
  · have hdiv : ((e + 113) * 2 ^ 23 + m * 2 ^ 13) / 2 ^ 23 = e + 113 := by omega
    have hmod : ((e + 113) * 2 ^ 23 + m * 2 ^ 13) % 2 ^ 23 = m * 2 ^ 13 := by omega
    rw [Format.units, show single.fraction = 23 from rfl, Nat.pow_eq, Nat.pow_eq, hdiv, hmod,
      if_neg (by omega), show e + 113 - 1 = e + 112 by omega, Nat.pow_add 2 e]
    ring
  · have hexp : (E.toUInt32 + 112).toNat = e + 113 := by
      rw [UInt32.toNat_add, UInt16.toNat_toUInt32, hE, show (112 : UInt32).toNat = 112 from rfl]
      omega
    have hexponent : (e + 113) * 2 ^ 23 < 2 ^ 32 :=
      Nat.mul_lt_mul_of_pos_right (m := 2 ^ 9) (by omega) (Nat.two_pow_pos 23)
    have hfraction : m * 2 ^ 13 < 2 ^ 23 :=
      Nat.mul_lt_mul_of_pos_right hm (Nat.two_pow_pos 13)
    rw [UInt32.toNat_or, UInt32.toNat_shiftLeft, UInt32.toNat_shiftLeft, hexp, hM,
      show (23 : UInt32).toNat % 32 = 23 from rfl, show (13 : UInt32).toNat % 32 = 13 from rfl,
      Nat.shiftLeft_eq, Nat.shiftLeft_eq, Nat.mod_eq_of_lt hexponent,
      Nat.mod_eq_of_lt (hfraction.trans (by decide)), Nat.mul_comm (e + 113),
      ← Nat.two_pow_add_eq_or_of_lt hfraction, Nat.mul_comm]
    rfl

/-- The single of a magnitude, with the sign put back. -/
theorem sign_ofPattern {r : Nat} (hr : r ≤ single.infinity) (negative : Bool) :
    (if negative then (Single.ofPattern false r).neg else .ofPattern false r) =
      .ofPattern negative r := by
  cases negative
  · rfl
  · exact Single.neg_ofPattern_false hr

/-- Widening is exact. -/
theorem widen_eq (hh : half.unsigned h.bits.toNat < half.infinity) : ∃ r, r < single.infinity ∧
    single.units r = half.units (half.unsigned h.bits.toNat) * unitRatio ∧
      widen h = .ofPattern (half.isNegative h.bits.toNat) r := by
  have he := toNat_exponent h
  have hf := toNat_fraction h
  simp only [widen, sign_iff]
  generalize (h.bits >>> 10) &&& 0x1f = E at he ⊢
  generalize (h.bits &&& 0x03ff).toUInt32 = M at hf ⊢
  have hM : M.toNat < 2 ^ 10 := hf ▸ Nat.mod_lt _ (by decide)
  rw [show half.infinity = 31 * 2 ^ 10 from rfl] at hh
  have hunits : half.units (half.unsigned h.bits.toNat) =
      if E.toNat = 0 then M.toNat else (2 ^ 10 + M.toNat) * 2 ^ (E.toNat - 1) := by
    rw [he, hf]
    rfl
  have hzero : E = 0 ↔ E.toNat = 0 := by rw [← UInt16.toNat_inj, UInt16.toNat_zero]
  have hnormal : E ≠ 31 := by
    rw [Ne, ← UInt16.toNat_inj, show (31 : UInt16).toNat = 31 from rfl]
    omega
  by_cases hE : E.toNat = 0
  · obtain ⟨r, hr, hr', hmul⟩ := Single.mul_smallestHalf (t := M.toNat) (by omega)
    rw [hunits, if_pos hE, unitRatio_eq]
    refine ⟨r, hr, hr', ?_⟩
    rw [if_pos (hzero.2 hE), hmul, sign_ofPattern hr.le]
  · obtain ⟨e, he⟩ := Nat.exists_eq_add_one_of_ne_zero hE
    obtain ⟨r, hr, hr', hbits⟩ := widen_normal he (by omega) rfl hM
    rw [hunits, if_neg hE, he, Nat.add_sub_cancel, unitRatio_eq]
    refine ⟨r, hr, hr', ?_⟩
    rw [if_neg (mt hzero.1 hE), if_neg hnormal, hbits, sign_ofPattern hr.le]

theorem widen_of_infinity (hh : half.unsigned h.bits.toNat = half.infinity) :
    widen h = .infinite (half.isNegative h.bits.toNat) := by
  have hE : (h.bits >>> 10) &&& 0x1f = 31 := by
    rw [← UInt16.toNat_inj, toNat_exponent, hh]
    rfl
  have hM : (h.bits &&& 0x03ff).toUInt32 = 0 := by
    rw [← UInt32.toNat_inj, toNat_fraction, hh]
    rfl
  simp only [widen, sign_iff, hE, hM, if_true, Single.infinite]
  exact sign_ofPattern le_rfl _

end Half

end CellScript
