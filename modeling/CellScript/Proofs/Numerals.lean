import CellScript.Builtin.Convert
import CellScript.Proofs.Lexemes
import Mathlib.Data.List.TakeWhile

/-!
Numerals in a program and numbers in a string.

The numerals of a program are scanned from the front, by a machine that keeps a sign, a
mantissa and an exponent apart as it goes. `int` and `float` take a whole text, which is
cut at its first `e`, and look at the parts one by one. Both accept the one language
`Numeral.Written`: a text converts if and only if it is a numeral as a whole, and to the
value of that numeral. In a longer text the scanner takes the longest numeral at the
front, and refuses a mantissa with an exponent mark behind which no digit follows.
-/

namespace CellScript

namespace Numeral

variable {sign m tail text input : List UInt8}

/-- Digits with at most one point, and at least one digit. -/
structure IsMantissa (m : List UInt8) : Prop where
  bytes : ∀ b ∈ m, Ascii.isDigit b = true ∨ b = 46
  points : m.count 46 ≤ 1
  digit : ∃ b ∈ m, Ascii.isDigit b = true

/-- A sign, a mantissa and an exponent; the signs and the exponent can be missing. -/
inductive Written : List UInt8 → Prop
  | plain {sign m : List UInt8} : IsSign sign → IsMantissa m → Written (sign ++ m)
  | exponent {sign m es ds : List UInt8} : IsSign sign → IsMantissa m → IsSign es → ds ≠ [] →
      ds.all Ascii.isDigit = true → Written (sign ++ m ++ 101 :: es ++ ds)

/-- The longest numeral at the front of an input. -/
structure Longest (text input : List UInt8) : Prop where
  front : text <+: input
  written : Written text
  longest : ∀ text', text' <+: input → Written text' → text'.length ≤ text.length

/-- A sign, a mantissa and the mark of an exponent, behind which no exponent stands. -/
def Unfinished (input : List UInt8) : Prop :=
  ∃ sign m more, input = sign ++ m ++ 101 :: more ∧ IsSign sign ∧ IsMantissa m ∧
    ∀ es d more', IsSign es → more = es ++ d :: more' → Ascii.isDigit d = false

/-! ### Mantissas -/

theorem splitMantissa_eq_self {p : Bool} : splitMantissa p m = (m, []) ↔
    (∀ b ∈ m, Ascii.isDigit b = true ∨ b = 46) ∧ m.count 46 ≤ p.toNat := by
  induction m generalizing p with
  | nil => simp [splitMantissa]
  | cons b m ih =>
      by_cases hdigit : Ascii.isDigit b = true
      · have hpoint : b ≠ 46 := by
          rintro rfl
          cases hdigit
        simp only [Prod.ext_iff] at ih
        simp [splitMantissa, hdigit, Prod.ext_iff, ih, List.count_cons_of_ne hpoint]
      · by_cases hpoint : b = 46
        · subst hpoint
          have hdot : Ascii.isDigit 46 = false := rfl
          simp only [Prod.ext_iff] at ih
          rcases p with _ | _ <;> simp [splitMantissa, hdot, Prod.ext_iff, ih]
        · simp [splitMantissa, hdigit, hpoint]

theorem isMantissa_iff :
    IsMantissa m ↔ splitMantissa true m = (m, []) ∧ m.any Ascii.isDigit = true := by
  rw [splitMantissa_eq_self, List.any_eq_true]
  constructor
  · intro h
    exact ⟨⟨h.bytes, h.points⟩, h.digit⟩
  · rintro ⟨⟨hbytes, hpoints⟩, hdigit⟩
    exact ⟨hbytes, hpoints, hdigit⟩

theorem IsMantissa.not_mem (h : IsMantissa m) : 101 ∉ m := by
  intro hmem
  have := h.bytes _ hmem
  revert this
  decide

theorem IsMantissa.splitSign (h : IsMantissa m) (hs : IsSign sign) (rest : List UInt8) :
    Decimal.splitSign (sign ++ (m ++ rest)) = (sign, m ++ rest) := by
  rcases m with _ | ⟨b, m⟩
  · obtain ⟨_, hmem, -⟩ := h.digit
    cases hmem
  · exact splitSign_append hs (h.bytes b List.mem_cons_self) _

/-- A mantissa with which the text does not go on is the longest one. -/
theorem IsMantissa.prefix_of_append {m' rest : List UInt8} (h : IsMantissa m')
    (htail : tail.head?.all (fun b => !mantissaGoesOn true m b) = true)
    (heq : m' ++ rest = m ++ tail) : m' <+: m := by
  obtain ⟨k, rfl, rfl⟩ | ⟨k, rfl, rfl⟩ := List.append_eq_append_iff.1 heq
  · exact List.prefix_append ..
  · rcases k with _ | ⟨b, k⟩
    · simp
    · have hb := h.bytes b (by simp)
      have hpoints := h.points
      simp only [List.cons_append, List.head?_cons, Option.all_some, mantissaGoesOn,
        Bool.not_eq_true', Bool.or_eq_false_iff] at htail
      obtain rfl := hb.resolve_left (by simp [htail.1])
      rw [List.count_append, List.count_cons_self] at hpoints
      have hmem : 46 ∈ m := by simpa using htail.2
      have := List.count_pos_iff.2 hmem
      omega

/-! ### Scanning -/

theorem takeWhile_eq_nil {p : UInt8 → Bool} {bs : List UInt8} (h : bs.head?.any p = false) :
    bs.takeWhile p = [] := by
  rcases bs with _ | ⟨b, bs⟩
  · rfl
  · exact List.takeWhile_cons_of_neg (by simpa using h)

theorem text_eq_sign_append (bs : List UInt8) :
    bs = (Decimal.splitSign bs).1 ++ (Decimal.splitSign bs).2 ∧
      IsSign (Decimal.splitSign bs).1 := by
  rcases hsplit : Decimal.splitSign bs with ⟨sign, body⟩
  exact splitSign_split hsplit

theorem splitSign_digits {es ds : List UInt8} (hes : IsSign es) (hne : ds ≠ [])
    (hds : ds.all Ascii.isDigit = true) (rest : List UInt8) :
    Decimal.splitSign (es ++ (ds ++ rest)) = (es, ds ++ rest) := by
  rcases ds with _ | ⟨d, ds⟩
  · exact absurd rfl hne
  · exact splitSign_append hes (.inl (List.all_eq_true.1 hds d List.mem_cons_self)) _

theorem exists_digits {more es more' : List UInt8} {d : UInt8} (h : more = es ++ d :: more')
    (hd : Ascii.isDigit d = true) :
    ∃ ds rest, more = es ++ ds ++ rest ∧ ds ≠ [] ∧ ds.all Ascii.isDigit = true ∧
      rest.head?.any Ascii.isDigit = false := by
  refine ⟨d :: more'.takeWhile Ascii.isDigit, more'.dropWhile Ascii.isDigit, by simp [h], nofun,
    by simp [hd], ?_⟩
  rcases hdrop : more'.dropWhile Ascii.isDigit with _ | ⟨b, rest⟩
  · rfl
  · simpa [hdrop] using List.head?_dropWhile_not Ascii.isDigit more'

theorem scan_plain (hs : IsSign sign) (hm : IsMantissa m) :
    scan (sign ++ m) = if m.any (· == 46) then .decimal (sign ++ m) else .integer (sign ++ m) := by
  rw [isMantissa_iff] at hm
  have hparts : scan (sign ++ m ++ []) = scanExponent sign m [] := scan_parts hs hm.1 hm.2 rfl
  rw [List.append_nil] at hparts
  rw [hparts, scanExponent_plain [] (by simp)]

theorem scanExponent_of_unfinished {more : List UInt8}
    (h : ∀ es d more', IsSign es → more = es ++ d :: more' → Ascii.isDigit d = false) :
    ∃ text, scanExponent sign m (101 :: more) = .noExponent text := by
  rcases hsplit : Decimal.splitSign more with ⟨es, body⟩
  obtain ⟨rfl, hes⟩ := splitSign_split hsplit
  have hnone : body.takeWhile Ascii.isDigit = [] := by
    rcases body with _ | ⟨d, body⟩
    · rfl
    · simp [h es d body hes rfl]
  simp only [scanExponent, hsplit, splitDigits, hnone]
  exact ⟨_, rfl⟩

theorem scanExponent_ne_absent (sign m tail : List UInt8) : scanExponent sign m tail ≠ .absent := by
  unfold scanExponent
  split <;> dsimp only <;> split <;> nofun

theorem scan_ne_absent (hs : IsSign sign) (hm : IsMantissa m) (rest : List UInt8) :
    scan (sign ++ m ++ rest) ≠ .absent := by
  rcases hsplit : splitMantissa true (m ++ rest) with ⟨m', tail⟩
  obtain ⟨heq, -, htail⟩ := splitMantissa_split hsplit
  have hdigit : m'.any Ascii.isDigit = true := by
    obtain ⟨d, hmem, hd⟩ := hm.digit
    exact List.any_eq_true.2 ⟨d, (hm.prefix_of_append htail heq).subset hmem, hd⟩
  simp only [scan, List.append_assoc, hm.splitSign hs, hsplit, hdigit, if_true]
  exact scanExponent_ne_absent _ _ _

/-- What is written is what the scanner takes as a whole. -/
theorem written_iff : Written text ↔ scan text = .integer text ∨ scan text = .decimal text := by
  constructor
  · rintro (⟨hs, hm⟩ | @⟨sign, m, es, ds, hs, hm, hes, hne, hds⟩)
    · rw [scan_plain hs hm]
      split
      · exact .inr rfl
      · exact .inl rfl
    · rw [isMantissa_iff] at hm
      have hparts : scan (sign ++ m ++ (101 :: es ++ ds)) = scanExponent sign m (101 :: es ++ ds) :=
        scan_parts hs hm.1 hm.2 (by simp [mantissaGoesOn_exponent])
      have hexponent : scanExponent sign m (101 :: es ++ ds ++ []) =
          .decimal (sign ++ m ++ 101 :: es ++ ds) :=
        scanExponent_exponent [] hes hds hne rfl
      rw [List.append_nil] at hexponent
      simp only [List.append_assoc] at hparts hexponent ⊢
      exact .inr (hparts.trans hexponent)
  · intro h
    obtain ⟨sign, m, tail, htext, hs, hm, hd, -, hscan⟩ :=
      scan_cases text (by rintro habs; simp [habs] at h)
    have hm := isMantissa_iff.2 ⟨hm, hd⟩
    rw [hscan] at h
    obtain ⟨-, rfl⟩ | ⟨es, ds, rest, -, hes, hds, hne, -, rfl⟩ := scanExponent_split h
    · exact .plain hs hm
    · exact .exponent hs hm hes hne hds

section

variable {sign' m' rest : List UInt8} (hs : IsSign sign) (hm : IsMantissa m)
  (htail : tail.head?.all (fun b => !mantissaGoesOn true m b) = true)

include hs hm htail

theorem parts_prefix (hs' : IsSign sign') (hm' : IsMantissa m')
    (heq : sign' ++ m' ++ rest = sign ++ m ++ tail) :
    sign' = sign ∧ m' <+: m ∧ m' ++ rest = m ++ tail := by
  rw [List.append_assoc, List.append_assoc] at heq
  have hsplit := hm'.splitSign hs' rest
  rw [heq, hm.splitSign hs tail, Prod.mk.injEq] at hsplit
  exact ⟨hsplit.1.symm, hm'.prefix_of_append htail hsplit.2.symm, hsplit.2.symm⟩

/-- The mark of an exponent stands behind the longest mantissa only. -/
theorem parts_eq (hs' : IsSign sign') (hm' : IsMantissa m')
    (heq : sign' ++ m' ++ 101 :: rest = sign ++ m ++ tail) :
    sign' = sign ∧ m' = m ∧ tail = 101 :: rest := by
  obtain ⟨rfl, ⟨k, rfl⟩, heq⟩ := parts_prefix hs hm htail hs' hm' heq
  rcases k with _ | ⟨b, k⟩
  · exact ⟨rfl, by simp, by simpa using heq.symm⟩
  · have hmark : b = 101 := by simp_all
    exact absurd (by simp [hmark]) hm.not_mem

/-- The numerals at the front of a text whose longest mantissa is known. -/
theorem Written.of_prefix (h : Written text) (hfront : text <+: sign ++ m ++ tail) :
    (∃ m', m' <+: m ∧ text = sign ++ m') ∨
      ∃ es ds rest, tail = 101 :: es ++ ds ++ rest ∧ IsSign es ∧ ds ≠ [] ∧
        ds.all Ascii.isDigit = true ∧ text = sign ++ m ++ 101 :: es ++ ds := by
  obtain ⟨rest, hrest⟩ := hfront
  rcases h with ⟨hs', hm'⟩ | @⟨sign', m', es, ds, hs', hm', hes, hne, hds⟩
  · obtain ⟨rfl, hprefix, -⟩ := parts_prefix hs hm htail hs' hm' hrest
    exact .inl ⟨_, hprefix, rfl⟩
  · have hrest : sign' ++ m' ++ 101 :: (es ++ ds ++ rest) = sign ++ m ++ tail := by
      simpa using hrest
    obtain ⟨rfl, rfl, rfl⟩ := parts_eq hs hm htail hs' hm' hrest
    exact .inr ⟨es, ds, rest, by simp, hes, hne, hds, rfl⟩

theorem not_unfinished
    (h : ∀ more, tail = 101 :: more →
      ∃ es d more', IsSign es ∧ more = es ++ d :: more' ∧ Ascii.isDigit d = true) :
    ¬ Unfinished (sign ++ m ++ tail) := by
  rintro ⟨sign', m', more, heq, hs', hm', hnone⟩
  obtain ⟨-, -, rfl⟩ := parts_eq hs hm htail hs' hm' heq.symm
  obtain ⟨es, d, more', hes, hmore, hd⟩ := h more rfl
  rw [hnone es d more' hes hmore] at hd
  cases hd

theorem longest_plain (hmark : tail.head? ≠ some 101) :
    Longest (sign ++ m) (sign ++ m ++ tail) := by
  refine ⟨List.prefix_append .., .plain hs hm, fun text' hfront hw => ?_⟩
  obtain ⟨m', hprefix, rfl⟩ | ⟨es, ds, rest, rfl, -⟩ := hw.of_prefix hs hm htail hfront
  · simpa using hprefix.length_le
  · exact absurd rfl hmark

theorem longest_exponent {es ds rest : List UInt8} (hes : IsSign es) (hne : ds ≠ [])
    (hds : ds.all Ascii.isDigit = true) (hrest : rest.head?.any Ascii.isDigit = false)
    (heq : tail = 101 :: es ++ ds ++ rest) :
    Longest (sign ++ m ++ 101 :: es ++ ds) (sign ++ m ++ tail) := by
  refine ⟨⟨rest, by simp [heq]⟩, .exponent hs hm hes hne hds, fun text' hfront hw => ?_⟩
  obtain ⟨m', hprefix, rfl⟩ | ⟨es', ds', rest', htail', hes', hne', hds', rfl⟩ :=
    hw.of_prefix hs hm htail hfront
  · have := hprefix.length_le
    simp only [List.length_append, List.length_cons]
    omega
  · have hbody : es ++ (ds ++ rest) = es' ++ (ds' ++ rest') := by
      simpa using heq.symm.trans htail'
    have hsplit := splitSign_digits hes' hne' hds' rest'
    rw [← hbody, splitSign_digits hes hne hds, Prod.mk.injEq] at hsplit
    obtain ⟨rfl, hdigits⟩ := hsplit
    -- The digits taken are all the digits there are.
    have hall := congrArg (List.takeWhile Ascii.isDigit) hdigits
    rw [List.takeWhile_append_of_pos (List.all_eq_true.1 hds),
      List.takeWhile_append_of_pos (List.all_eq_true.1 hds'),
      takeWhile_eq_nil hrest, List.append_nil] at hall
    have := congrArg List.length hall
    simp only [List.length_append, List.length_cons] at this ⊢
    omega

end

/-- Either there is no numeral at the front, or an exponent is missing its digits, or the
scanner takes the longest numeral. -/
theorem scan_outcome (input : List UInt8) :
    (scan input = .absent ∧ (∀ text, text <+: input → ¬ Written text) ∧ ¬ Unfinished input) ∨
      ((∃ text, scan input = .noExponent text) ∧ Unfinished input) ∨
      ∃ text, (scan input = .integer text ∨ scan input = .decimal text) ∧ Longest text input ∧
        ¬ Unfinished input := by
  by_cases habs : scan input = .absent
  · refine .inl ⟨habs, ?_, ?_⟩
    · rintro text ⟨rest, rfl⟩ hw
      rcases hw with ⟨hs, hm⟩ | ⟨hs, hm, -⟩
      · exact scan_ne_absent hs hm rest habs
      · rw [List.append_assoc, List.append_assoc] at habs
        exact scan_ne_absent hs hm _ habs
    · rintro ⟨sign, m, more, rfl, hs, hm, -⟩
      exact scan_ne_absent hs hm _ habs
  · obtain ⟨sign, m, tail, rfl, hs, hm, hd, htail, hscan⟩ := scan_cases input habs
    have hm := isMantissa_iff.2 ⟨hm, hd⟩
    by_cases hmark : ∃ more, tail = 101 :: more
    · obtain ⟨more, rfl⟩ := hmark
      by_cases hnone : ∀ es d more', IsSign es → more = es ++ d :: more' → Ascii.isDigit d = false
      · rw [hscan]
        exact .inr (.inl ⟨scanExponent_of_unfinished hnone, sign, m, more, rfl, hs, hm, hnone⟩)
      · simp only [not_forall, Bool.not_eq_false] at hnone
        obtain ⟨es, d, more', hes, hmore, hd⟩ := hnone
        obtain ⟨ds, rest, hsplit, hne, hds, hrest⟩ := exists_digits hmore hd
        have hlongest := longest_exponent hs hm htail hes hne hds hrest (by simp [hsplit])
        refine .inr (.inr ⟨_, .inr ?_, hlongest, not_unfinished hs hm htail ?_⟩)
        · rw [hscan, hsplit]
          exact scanExponent_exponent rest hes hds hne hrest
        · rintro _ ⟨⟩
          exact ⟨es, d, more', hes, hmore, hd⟩
    · have hhead : tail.head? ≠ some 101 := by
        rcases tail with _ | ⟨b, tail⟩
        · nofun
        · rintro ⟨⟩
          exact hmark ⟨tail, rfl⟩
      refine .inr (.inr ⟨_, ?_, longest_plain hs hm htail hhead,
        not_unfinished hs hm htail fun more h => absurd ⟨more, h⟩ hmark⟩)
      rw [hscan, scanExponent_plain tail hhead]
      split
      · exact .inr rfl
      · exact .inl rfl

/-! ### Integers -/

/-- A sign and digits. -/
def IsInteger (text : List UInt8) : Prop :=
  ∃ sign ds, text = sign ++ ds ∧ IsSign sign ∧ ds ≠ [] ∧ ds.all Ascii.isDigit = true

theorem point_not_mem {ds : List UInt8} (h : ds.all Ascii.isDigit = true) : 46 ∉ ds :=
  fun hmem => by simpa [Ascii.isDigit] using List.all_eq_true.1 h 46 hmem

theorem isMantissa_of_digits {ds : List UInt8} (hne : ds ≠ [])
    (hds : ds.all Ascii.isDigit = true) : IsMantissa ds := by
  rw [List.all_eq_true] at hds
  obtain ⟨d, hd⟩ := List.exists_mem_of_ne_nil ds hne
  refine ⟨fun b hb => .inl (hds b hb), ?_, d, hd, hds d hd⟩
  rw [List.count_eq_zero_of_not_mem (point_not_mem (List.all_eq_true.2 hds))]
  exact Nat.zero_le 1

theorem isIntText_iff : Builtin.isIntText text = true ↔ IsInteger text := by
  simp only [Builtin.isIntText, Builtin.isDigits, Builtin.unsigned, Bool.and_eq_true,
    Bool.not_eq_true', List.isEmpty_eq_false_iff]
  constructor
  · rintro ⟨hne, hds⟩
    obtain ⟨htext, hs⟩ := text_eq_sign_append text
    exact ⟨_, _, htext, hs, hne, hds⟩
  · rintro ⟨sign, ds, rfl, hs, hne, hds⟩
    have hsplit := splitSign_digits hs hne hds []
    rw [List.append_nil] at hsplit
    rw [hsplit]
    exact ⟨hne, hds⟩

theorem scan_eq_integer_iff : scan text = .integer text ↔ IsInteger text := by
  constructor
  · intro h
    obtain ⟨sign, m, tail, htext, hs, hm, hd, -, hscan⟩ := scan_cases text (by simp [h])
    have hm := isMantissa_iff.2 ⟨hm, hd⟩
    rw [hscan] at h
    obtain ⟨hmark, rfl⟩ | ⟨es, ds, rest, rfl, hes, hds, hne, hrest, -⟩ :=
      scanExponent_split (.inl h)
    · rw [scanExponent_plain tail hmark] at h
      refine ⟨sign, m, rfl, hs, ?_, List.all_eq_true.2 fun b hb => ?_⟩
      · rintro rfl
        cases hd
      · refine (hm.bytes b hb).resolve_right ?_
        rintro rfl
        rw [if_pos (List.any_eq_true.2 ⟨46, hb, rfl⟩)] at h
        cases h
    · rw [scanExponent_exponent rest hes hds hne hrest] at h
      cases h
  · rintro ⟨sign, ds, rfl, hs, hne, hds⟩
    rw [scan_plain hs (isMantissa_of_digits hne hds), if_neg]
    simpa using point_not_mem hds

/-! ### Conversions -/

theorem isMantissa_eq_true : Builtin.isMantissa m = true ↔ IsMantissa m := by
  simp only [Builtin.isMantissa, Bool.and_eq_true, List.any_eq_true, List.all_eq_true,
    Bool.or_eq_true, beq_iff_eq, decide_eq_true_eq]
  constructor
  · rintro ⟨⟨hdigit, hbytes⟩, hpoints⟩
    exact ⟨hbytes, hpoints, hdigit⟩
  · intro h
    exact ⟨⟨h.digit, h.bytes⟩, h.points⟩

/-- Cutting at the first mark of an exponent. -/
theorem IsMantissa.cut (h : IsMantissa m) :
    m.takeWhile (· != 101) = m ∧ m.dropWhile (· != 101) = [] ∧
      ∀ rest, (m ++ 101 :: rest).takeWhile (· != 101) = m ∧
        (m ++ 101 :: rest).dropWhile (· != 101) = 101 :: rest := by
  have hall : ∀ b ∈ m, (b != 101) = true := by
    intro b hb
    rw [bne_iff_ne]
    rintro rfl
    exact h.not_mem hb
  refine ⟨List.takeWhile_eq_self_iff.2 hall, List.dropWhile_eq_nil_iff.2 hall, fun rest => ⟨?_, ?_⟩⟩
  · rw [List.takeWhile_append_of_pos hall]
    simp
  · rw [List.dropWhile_append_of_pos hall]
    simp

/-- `float` cuts a text into the parts of a numeral. -/
theorem isFloatText_iff : Builtin.isFloatText text = true ↔ Written text := by
  simp only [Builtin.isFloatText, Builtin.unsigned, Builtin.isDigits, Bool.and_eq_true,
    isMantissa_eq_true]
  constructor
  · rintro ⟨hm, hexponent⟩
    obtain ⟨htext, hs⟩ := text_eq_sign_append text
    have hbody := List.takeWhile_append_dropWhile (p := (· != 101))
      (l := (Decimal.splitSign text).2)
    rcases hdrop : (Decimal.splitSign text).2.dropWhile (· != 101) with _ | ⟨b, exponent⟩
    · rw [hdrop, List.append_nil] at hbody
      rw [htext, ← hbody]
      exact .plain hs hm
    · have hmark : b = 101 := by
        simpa [hdrop] using List.head?_dropWhile_not (· != 101) (Decimal.splitSign text).2
      obtain ⟨hsplit, hes⟩ := text_eq_sign_append exponent
      simp only [hdrop, Bool.and_eq_true, Bool.not_eq_true', List.isEmpty_eq_false_iff] at hexponent
      rw [htext, ← hbody, hdrop, hmark, hsplit, ← List.append_assoc, ← List.cons_append,
        ← List.append_assoc]
      exact .exponent hs hm hes hexponent.1 hexponent.2
  · rintro (⟨hs, hm⟩ | @⟨sign, m, es, ds, hs, hm, hes, hne, hds⟩)
    · have hsplit := hm.splitSign hs []
      rw [List.append_nil] at hsplit
      rw [hsplit]
      simp only [hm.cut.1, hm.cut.2.1]
      exact ⟨hm, trivial⟩
    · have hsplit := hm.splitSign hs (101 :: (es ++ ds))
      have hsplit' := splitSign_digits hes hne hds []
      rw [List.append_nil] at hsplit'
      rw [show sign ++ m ++ 101 :: es ++ ds = sign ++ (m ++ 101 :: (es ++ ds)) by simp, hsplit]
      simp only [(hm.cut.2.2 _).1, (hm.cut.2.2 _).2, hsplit']
      exact ⟨hm, by simpa using ⟨hne, List.all_eq_true.1 hds⟩⟩

theorem int16?_eq_some {n : Int} {i : Int16} (h : int16? n = some i) :
    i.toInt = n ∧ n.natAbs ≤ 32768 := by
  unfold int16? at h
  split at h
  · rename_i hrange
    cases h
    rw [Int16.toInt_ofInt_of_le (by simpa using hrange.1) (by omega)]
    omega
  · cases h

theorem read_integer {ds : List UInt8} (hs : IsSign sign) (hne : ds ≠ [])
    (hds : ds.all Ascii.isDigit = true) :
    Decimal.read (sign ++ ds) = ⟨sign = [45], Ascii.natOfDigits ds, 0⟩ := by
  have hsplit := splitSign_digits hs hne hds []
  rw [List.append_nil] at hsplit
  have hcut := (isMantissa_of_digits hne hds).cut
  have hpoint : ∀ b ∈ ds, (b != 46) = true := by
    intro b hb
    rw [bne_iff_ne]
    rintro rfl
    exact point_not_mem hds hb
  simp only [Decimal.read, hsplit, hcut.1, hcut.2.1, List.takeWhile_eq_self_iff.2 hpoint,
    List.dropWhile_eq_nil_iff.2 hpoint, List.drop_nil, List.append_nil]
  rfl

theorem readInt_integer {ds : List UInt8} (hs : IsSign sign) (hne : ds ≠ [])
    (hds : ds.all Ascii.isDigit = true) :
    Decimal.readInt (sign ++ ds) =
      if sign = [45] then -(Ascii.natOfDigits ds : Int) else Ascii.natOfDigits ds := by
  have hsplit := splitSign_digits hs hne hds []
  rw [List.append_nil] at hsplit
  simp only [Decimal.readInt, hsplit]

theorem countDigits_le (fuel n : Nat) : Decimal.countDigits fuel n ≤ fuel := by
  induction fuel generalizing n with
  | zero => simp [Decimal.countDigits]
  | succ fuel ih =>
      rw [Decimal.countDigits]
      split
      · exact Nat.zero_le _
      · exact Nat.succ_le_succ (ih _)

/-- A decimal number with the range of an integer is rounded from its exact value. -/
theorem toSingle_integer {n : Nat} (negative : Bool) (h : n ≤ 32768) (hn : n ≠ 0) :
    Decimal.toSingle ⟨negative, n, 0⟩ = .ofUnits negative (n * Format.single.scale) 1 := by
  have hlog : Nat.log2 n < 16 := (Nat.log2_lt hn).2 (by omega)
  have hcount := countDigits_le (Nat.log2 n + 1) n
  simp only [Decimal.toSingle]
  rw [if_neg (by simp; omega), if_neg (by omega)]
  simp

/-- An integer converts to the number it is, and to a zero with its sign. -/
theorem toHalf_integer (hs : IsSign sign) {ds : List UInt8} (hne : ds ≠ [])
    (hds : ds.all Ascii.isDigit = true) {i : Int16}
    (hi : int16? (Decimal.readInt (sign ++ ds)) = some i) :
    (Decimal.read (sign ++ ds)).toHalf =
      if i = 0 ∧ sign = [45] then .ofPattern true 0 else .narrow (.ofInt i.toInt) := by
  obtain ⟨hvalue, hbound⟩ := int16?_eq_some hi
  rw [readInt_integer hs hne hds] at hvalue hbound
  rw [read_integer hs hne hds, Decimal.toHalf]
  by_cases hzero : Ascii.natOfDigits ds = 0
  · have hi : i = 0 := Int16.toInt_inj.1 (by rw [hvalue, hzero]; split <;> rfl)
    subst hi
    rw [hzero]
    obtain rfl | rfl | rfl := hs <;> decide
  · have hle : Ascii.natOfDigits ds ≤ 32768 := by
      split at hbound <;> omega
    have hnonzero : i ≠ 0 := by
      rintro rfl
      rw [show (0 : Int16).toInt = 0 from rfl] at hvalue
      split at hvalue <;> omega
    rw [toSingle_integer _ hle hzero, if_neg (fun h => hnonzero h.1), Single.ofInt, hvalue]
    by_cases hsign : sign = [45]
    · simp [hsign, Nat.pos_of_ne_zero hzero]
    · have hneg : ¬ (Ascii.natOfDigits ds : Int) < 0 := by omega
      simp [hsign, hneg]

/-! ### Whole texts -/

/-- The recognizer reads all of a text as a number. -/
def Reads (pos : Nat) (t : List UInt8) (v : Number) : Prop :=
  (⟨pos, t⟩ : Cursor).number = .ok (some ⟨v, pos, pos + t.length⟩) ⟨pos + t.length, []⟩

/-- The recognizer refuses all of a text as too large an integer. -/
def Overflows (pos : Nat) (t : List UInt8) : Prop :=
  ∃ e c', (⟨pos, t⟩ : Cursor).number = .error e c' ∧ e.cause.number = 101 ∧ e.start = pos ∧
    e.stop = pos + t.length

end Numeral

namespace Cursor

open Numeral

variable {c : Cursor} {text : List UInt8}

theorem number_of_absent (h : scan c.skipBlank.rest = .absent) :
    c.number = .ok none c.skipBlank := by
  simp only [number, h]

theorem number_of_noExponent (h : scan c.skipBlank.rest = .noExponent text) :
    c.number = .error ⟨.exponentWithoutDigits, c.skipBlank.pos, c.skipBlank.pos + text.length⟩
      c.skipBlank := by
  simp only [number, h]

theorem number_of_scan (h : scan c.skipBlank.rest = .integer text ∨
      scan c.skipBlank.rest = .decimal text) :
    c.number = match value? text with
      | some v => .ok (some ⟨v, c.skipBlank.pos, c.skipBlank.pos + text.length⟩)
          (c.skipBlank.advance text.length)
      | none => .error ⟨.integerOutOfRange (Ascii.text text), c.skipBlank.pos,
          c.skipBlank.pos + text.length⟩ c.skipBlank := by
  obtain ⟨rest, -, htext, -⟩ := scan_split h
  obtain h | h := h
  · simp only [number, h, value?, htext, if_true]
    split <;> rename_i hint <;> simp only [hint, Option.map_some, Option.map_none]
  · simp only [number, h, value?, htext, if_true]

theorem skipBlank_of_head (pos : Nat) {t : List UInt8} (h : t.head?.any Ascii.isBlank = false) :
    (⟨pos, t⟩ : Cursor).skipBlank = ⟨pos, t⟩ :=
  @skipBlankFrom_append [] t rfl h pos

end Cursor

namespace Numeral

open Cursor

section

variable {pos : Nat} {t : List UInt8} (hblank : t.head?.any Ascii.isBlank = false)

include hblank

theorem number_of_written (hw : Written t) :
    (⟨pos, t⟩ : Cursor).number = match value? t with
      | some v => .ok (some ⟨v, pos, pos + t.length⟩) ⟨pos + t.length, []⟩
      | none => .error ⟨.integerOutOfRange (Ascii.text t), pos, pos + t.length⟩ ⟨pos, t⟩ := by
  have hskip := skipBlank_of_head pos hblank
  rw [number_of_scan (c := ⟨pos, t⟩) (by rw [hskip]; exact written_iff.1 hw), hskip]
  simp [advance]

theorem written_of_whole (h : (∃ v, Reads pos t v) ∨ Overflows pos t) : Written t := by
  simp only [Reads, Overflows] at h
  have hskip := skipBlank_of_head pos hblank
  rcases scan_outcome t with ⟨hscan, -⟩ | ⟨⟨text, hscan⟩, -⟩ | ⟨text, hscan, ⟨hfront, hw, -⟩, -⟩
  · have hfound := number_of_absent (c := ⟨pos, t⟩) (by rw [hskip, hscan])
    rcases h with ⟨v, h⟩ | ⟨e, c', h, -⟩
    all_goals
      rw [hfound] at h
      simp at h
  · have hfound := number_of_noExponent (c := ⟨pos, t⟩) (by rw [hskip, hscan])
    rcases h with ⟨v, h⟩ | ⟨e, c', h, hnumber, -⟩
    · rw [hfound] at h
      cases h
    · rw [hfound] at h
      cases h
      cases hnumber
  · suffices hlength : text.length = t.length from hfront.eq_of_length hlength ▸ hw
    have hfound := number_of_scan (c := ⟨pos, t⟩) (by rw [hskip]; exact hscan)
    rw [hskip] at hfound
    rcases h with ⟨v, h⟩ | ⟨e, c', h, -, -, hstop⟩ <;> rw [hfound] at h <;> split at h
    · simp only [EStateM.Result.ok.injEq, Option.some.injEq, NumberToken.mk.injEq] at h
      omega
    · cases h
    · cases h
    · cases h
      simpa using hstop

/-- The whole text is read exactly if it has a value. -/
theorem reads_iff {v : Number} : Reads pos t v ↔ value? t = some v := by
  constructor
  · intro h
    rw [Reads, number_of_written hblank (written_of_whole hblank (.inl ⟨v, h⟩))] at h
    split at h
    · rename_i hv
      simp only [EStateM.Result.ok.injEq, Option.some.injEq, NumberToken.mk.injEq] at h
      rw [hv, h.1.1]
    · cases h
  · intro h
    have hw : Written t := by
      rw [written_iff]
      rcases value?_eq_some.1 h with ⟨h, -⟩ | ⟨h, -⟩
      · exact .inl h
      · exact .inr h
    rw [Reads, number_of_written hblank hw, h]

/-- The whole text is refused exactly if it is an integer without a value. -/
theorem overflows_iff : Overflows pos t ↔ Written t ∧ value? t = none := by
  constructor
  · intro h
    have hw := written_of_whole hblank (.inr h)
    refine ⟨hw, ?_⟩
    obtain ⟨e, c', h, -⟩ := h
    rw [number_of_written hblank hw] at h
    split at h
    · cases h
    · assumption
  · rintro ⟨hw, hv⟩
    refine ⟨⟨.integerOutOfRange (Ascii.text t), pos, pos + t.length⟩, ⟨pos, t⟩, ?_, rfl, rfl, rfl⟩
    rw [number_of_written hblank hw, hv]

end

/-- `int` reads the integers, as far as they have a value. -/
theorem intOfText_eq (t : List UInt8) : Builtin.intOfText t =
    if scan t = .integer t then
      match int16? (Decimal.readInt t) with
      | some i => .ok (.int i)
      | none => .error (.numberOutOfRange Opcode.int.name)
    else .error (.invalidNumber (Utf8.text t)) := by
  have hiff : scan t = .integer t ↔ Builtin.isIntText t = true :=
    scan_eq_integer_iff.trans isIntText_iff.symm
  by_cases h : scan t = .integer t
  · have htext := hiff.1 h
    rcases hint : int16? (Decimal.readInt t) with _ | i <;>
      simp [Builtin.intOfText, h, htext, hint]
  · have htext := mt hiff.2 h
    simp [Builtin.intOfText, h, htext]

theorem floatOfText_of_written {t : List UInt8} (h : Written t) :
    Builtin.floatOfText t = .ok (.float (Decimal.read t).toHalf) := by
  rw [Builtin.floatOfText, if_pos (isFloatText_iff.2 h)]

theorem value?_eq_float {t : List UInt8} {f : Half} (h : value? t = some (.float f)) :
    Written t ∧ (Decimal.read t).toHalf = f := by
  rcases value?_eq_some.1 h with ⟨hscan, hint⟩ | ⟨hscan, hvalue⟩
  · obtain ⟨i, -, hi⟩ := Option.map_eq_some_iff.1 hint
    cases hi
  · exact ⟨written_iff.2 (.inr hscan), Number.float.inj hvalue⟩

theorem value?_eq_int {t : List UInt8} {i : Int16} : value? t = some (.int i) ↔
    scan t = .integer t ∧ int16? (Decimal.readInt t) = some i := by
  rw [value?_eq_some]
  simp

theorem value?_eq_none {t : List UInt8} : Written t ∧ value? t = none ↔
    scan t = .integer t ∧ int16? (Decimal.readInt t) = none := by
  constructor
  · rintro ⟨hw, hv⟩
    rcases written_iff.1 hw with hscan | hscan
    · simp only [value?, hscan, if_true, Option.map_eq_none_iff] at hv
      exact ⟨hscan, hv⟩
    · simp [value?, hscan] at hv
  · rintro ⟨hscan, hint⟩
    exact ⟨written_iff.2 (.inl hscan), by simp [value?, hscan, hint]⟩

/-- An integer that is read converts to itself, and to the nearest half with its sign. -/
theorem conversions_of_int {t : List UInt8} {i : Int16} (h : value? t = some (.int i)) :
    Builtin.intOfText t = .ok (.int i) ∧
      Builtin.floatOfText t = .ok (.float
        (if i = 0 ∧ t.head? = some 45 then .ofPattern true 0 else .narrow (.ofInt i.toInt))) := by
  obtain ⟨hscan, hint⟩ := value?_eq_int.1 h
  refine ⟨by rw [intOfText_eq, if_pos hscan, hint], ?_⟩
  obtain ⟨sign, ds, rfl, hs, hne, hds⟩ := scan_eq_integer_iff.1 hscan
  rw [floatOfText_of_written (written_iff.2 (.inl hscan)), toHalf_integer hs hne hds hint]
  -- Digits are no signs, so a minus in front is the sign.
  have hsign : (sign ++ ds).head? = some 45 ↔ sign = [45] := by
    rcases ds with _ | ⟨d, ds⟩
    · exact absurd rfl hne
    · have hd : d ≠ 45 := by
        rintro rfl
        simp [Ascii.isDigit] at hds
      obtain rfl | rfl | rfl := hs <;> simp [hd]
  simp only [hsign]

/-- How the scanner takes what stands behind the blanks of an input. -/
structure TakesLongest (c : Cursor) : Prop where
  /-- A mantissa with the mark of an exponent and no digit behind it is refused. -/
  unfinished : (∃ e c', c.number = .error e c' ∧ e.cause.number = 100) ↔
    Unfinished c.skipBlank.rest
  /-- Nothing is found exactly where no numeral begins. -/
  absent (c' : Cursor) : c.number = .ok none c' ↔
    c' = c.skipBlank ∧ ∀ text, text <+: c.skipBlank.rest → ¬ Written text
  /-- What is read is the longest numeral. -/
  found (n : NumberToken) (c' : Cursor) : c.number = .ok (some n) c' →
    ∃ text, Longest text c.skipBlank.rest ∧ c' = c.skipBlank.advance text.length ∧
      n.start = c.skipBlank.pos ∧ n.stop = c'.pos
  /-- So is what is refused as too large. -/
  refused (e : CompileError) (c' : Cursor) : c.number = .error e c' →
    c' = c.skipBlank ∧ (e.cause.number = 100 ∨ e.cause.number = 101 ∧
      ∃ text, Longest text c.skipBlank.rest ∧ e.start = c.skipBlank.pos ∧
        e.stop = c.skipBlank.pos + text.length)

/-- How a text converts that the scanner meets somewhere in a program. -/
structure ConvertsAsRead (pos : Nat) (t : List UInt8) : Prop where
  /-- The numerals are read or refused as too large, at full length. -/
  written : ((∃ v, Reads pos t v) ∨ Overflows pos t) ↔ Written t
  float (f : Half) : Reads pos t (.float f) → Builtin.floatOfText t = .ok (.float f)
  /-- A zero with a minus in front converts to the negative zero. -/
  int (i : Int16) : Reads pos t (.int i) → Builtin.intOfText t = .ok (.int i) ∧
    Builtin.floatOfText t = .ok (.float
      (if i = 0 ∧ t.head? = some 45 then .ofPattern true 0 else .narrow (.ofInt i.toInt)))
  int_iff : (∃ v, Builtin.intOfText t = .ok v) ↔ ∃ i, Reads pos t (.int i)
  overflow_iff : Builtin.intOfText t = .error (.numberOutOfRange Opcode.int.name) ↔
    Overflows pos t
  invalid : ¬ (∃ i, Reads pos t (.int i)) → ¬ Overflows pos t →
    Builtin.intOfText t = .error (.invalidNumber (Utf8.text t))

theorem takesLongest (c : Cursor) : TakesLongest c := by
  rcases scan_outcome c.skipBlank.rest with ⟨hscan, hnone, hfinished⟩ |
    ⟨⟨text, hscan⟩, hunfinished⟩ | ⟨text, hscan, hlongest, hfinished⟩
  · have h := number_of_absent hscan
    refine ⟨?_, fun c' => ⟨?_, ?_⟩, ?_, ?_⟩ <;> rw [h]
    · exact ⟨nofun, fun h => absurd h hfinished⟩
    · rintro ⟨⟩
      exact ⟨rfl, hnone⟩
    · rintro ⟨rfl, -⟩
      rfl
    · nofun
    · nofun
  · have h := number_of_noExponent hscan
    refine ⟨?_, fun c' => ⟨?_, ?_⟩, ?_, ?_⟩ <;> rw [h]
    · exact ⟨fun _ => hunfinished, fun _ => ⟨_, _, rfl, rfl⟩⟩
    · nofun
    · -- The mantissa in front of the mark is a numeral.
      rintro ⟨-, hnone⟩
      obtain ⟨sign, m, more, hrest, hs, hm, -⟩ := hunfinished
      exact absurd (.plain hs hm) (hnone (sign ++ m) (hrest ▸ List.prefix_append ..))
    · nofun
    · rintro e c' ⟨⟩
      exact ⟨rfl, .inl rfl⟩
  · have h := number_of_scan hscan
    have hsome : ¬ ∀ text, text <+: c.skipBlank.rest → ¬ Written text :=
      fun hnone => hnone text hlongest.front hlongest.written
    rcases hv : value? text with _ | v
    all_goals
      rw [hv] at h
      refine ⟨?_, fun c' => ⟨?_, fun h => absurd h.2 hsome⟩, ?_, ?_⟩ <;> rw [h]
    · refine ⟨?_, fun h => absurd h hfinished⟩
      rintro ⟨e, c', ⟨⟩, hnumber⟩
      cases hnumber
    · nofun
    · nofun
    · rintro e c' ⟨⟩
      exact ⟨rfl, .inr ⟨rfl, text, hlongest, rfl, rfl⟩⟩
    · exact ⟨nofun, fun h => absurd h hfinished⟩
    · nofun
    · rintro n c' ⟨⟩
      exact ⟨text, hlongest, rfl, rfl, rfl⟩
    · nofun

theorem convertsAsRead (pos : Nat) {t : List UInt8} (hblank : t.head?.any Ascii.isBlank = false) :
    ConvertsAsRead pos t where
  written := by
    refine ⟨written_of_whole hblank, fun hw => ?_⟩
    simp only [reads_iff hblank, overflows_iff hblank]
    rcases hv : value? t with _ | v
    · exact .inr ⟨hw, rfl⟩
    · exact .inl ⟨v, rfl⟩
  float f h := by
    obtain ⟨hw, rfl⟩ := value?_eq_float ((reads_iff hblank).1 h)
    exact floatOfText_of_written hw
  int i h := conversions_of_int ((reads_iff hblank).1 h)
  int_iff := by
    simp only [reads_iff hblank, value?_eq_int, intOfText_eq]
    by_cases hscan : scan t = .integer t
    · rw [if_pos hscan]
      rcases int16? (Decimal.readInt t) with _ | i <;> simp [hscan]
    · simp [hscan]
  overflow_iff := by
    simp only [overflows_iff hblank, value?_eq_none, intOfText_eq]
    by_cases hscan : scan t = .integer t
    · rw [if_pos hscan]
      rcases int16? (Decimal.readInt t) with _ | i <;> simp [hscan]
    · simp [hscan]
  invalid := by
    simp only [reads_iff hblank, overflows_iff hblank, value?_eq_none, value?_eq_int, intOfText_eq]
    by_cases hscan : scan t = .integer t
    · rcases int16? (Decimal.readInt t) with _ | i <;> simp [hscan]
    · simp [hscan]

/-- Numbers in strings are the literals of programs. `float` accepts a text if and only if
it is a numeral. Where a text does not begin with a blank, it is one if and only if the
scanner takes all of it, and `int` and `float` convert it to what is read there. In every
text the scanner takes the longest numeral. -/
theorem texts_and_literals_agree :
    (∀ t, (∃ v, Builtin.floatOfText t = .ok v) ↔ Written t) ∧
    (∀ pos t, t.head?.any Ascii.isBlank = false → ConvertsAsRead pos t) ∧
    ∀ c : Cursor, TakesLongest c := by
  refine ⟨fun t => ⟨?_, fun hw => ⟨_, floatOfText_of_written hw⟩⟩,
    fun pos t hblank => convertsAsRead pos hblank, takesLongest⟩
  rintro ⟨v, h⟩
  rw [Builtin.floatOfText] at h
  split at h
  · exact isFloatText_iff.1 ‹_›
  · cases h

/-- At `-12` the integer is read, and converts to a half. -/
theorem minus_twelve_agrees :
    Reads 3 [45, 49, 50] (.int (-12)) ∧
      Builtin.intOfText [45, 49, 50] = .ok (.int (-12)) ∧
      Builtin.floatOfText [45, 49, 50] = .ok (.float (.narrow (.ofInt (-12)))) := by
  have hreads : Reads 3 [45, 49, 50] (.int (-12)) := by rfl
  obtain ⟨hint, hfloat⟩ := (texts_and_literals_agree.2.1 3 [45, 49, 50] rfl).int _ hreads
  exact ⟨hreads, hint, hfloat⟩

/-- The text `-0` reads as the integer zero, but converts to the negative zero, which is not
what that integer converts to. -/
theorem negative_zero_keeps_its_sign :
    Reads 0 [45, 48] (.int 0) ∧
      Builtin.floatOfText [45, 48] ≠ .ok (.float (.narrow (.ofInt (0 : Int16).toInt))) := by
  have hvalue : value? [45, 48] = some (.int 0) := rfl
  refine ⟨(reads_iff rfl).2 hvalue, ?_⟩
  rw [(conversions_of_int hvalue).2]
  intro h
  have hsame : (if (0 : Int16) = 0 ∧ [45, 48].head? = some (45 : UInt8) then Half.ofPattern true 0
      else .narrow (.ofInt (0 : Int16).toInt)) = .narrow (.ofInt (0 : Int16).toInt) :=
    Value.float.inj (Except.ok.inj h)
  revert hsame
  decide

end Numeral

end CellScript
