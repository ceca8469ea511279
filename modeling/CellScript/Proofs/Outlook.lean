import CellScript.Proofs.Lexemes

/-!
How far the recognizers look.

A recognizer decides by the bytes in front of it, and it never looks past a blank,
a quote or a semicolon. What stands up to the first of these is the `outlook` of a
place: two places with the same outlook hold the same word, operator or numeral,
whatever follows. String literals are the exception. They end at their closing
quote and at nothing else.

Reading goes forward only: behind every recognizer a part of the text is left that
was there before, and where something has been recognized it is a smaller one.
-/

namespace CellScript

namespace Ascii

/-- A byte that can belong to the same token as its neighbours. -/
def joins (b : UInt8) : Bool := !isBlank b && b != 34 && b != 59

theorem joins_of_isWordByte {b : UInt8} (h : isWordByte b = true) : joins b = true := by
  have := forall_byte (p := fun b => !isWordByte b || joins b) (by decide) b
  simpa [h] using this

theorem joins_of_isDigit {b : UInt8} (h : isDigit b = true) : joins b = true :=
  joins_of_isWordByte (by simp [isWordByte, h])

theorem joins_of_isLetter {b : UInt8} (h : isLetter b = true) : joins b = true :=
  joins_of_isWordByte (isWordByte_of_isLetter h)

/-- The bytes up to the first blank, quote or semicolon. -/
def outlook (bs : List UInt8) : List UInt8 := bs.takeWhile joins

@[simp] theorem outlook_nil : outlook [] = [] := rfl

theorem outlook_cons (b : UInt8) (bs : List UInt8) :
    outlook (b :: bs) = if joins b = true then b :: outlook bs else [] := by
  simp only [outlook, List.takeWhile_cons]

theorem outlook_isPrefix (bs : List UInt8) : outlook bs <+: bs := List.takeWhile_prefix joins

/-- Bytes of one class are found by the outlook alone. -/
theorem takeWhile_outlook {p : UInt8 → Bool} (hp : ∀ b, p b = true → joins b = true)
    (bs : List UInt8) : (outlook bs).takeWhile p = bs.takeWhile p := by
  induction bs with
  | nil => rfl
  | cons b bs ih =>
      rw [outlook_cons]
      by_cases hb : joins b = true
      · rw [if_pos hb, List.takeWhile_cons, List.takeWhile_cons, ih]
      · have hpb : ¬ p b = true := fun h => hb (hp b h)
        rw [if_neg hb, List.takeWhile_cons, if_neg hpb, List.takeWhile_nil]

/-- A test of the first byte that only joining bytes pass. -/
theorem any_head?_outlook {p : UInt8 → Bool} (hp : ∀ b, p b = true → joins b = true)
    (bs : List UInt8) : (outlook bs).head?.any p = bs.head?.any p := by
  cases bs with
  | nil => rfl
  | cons b bs =>
      rw [outlook_cons]
      by_cases hb : joins b = true
      · rw [if_pos hb]
        rfl
      · have hpb : p b = false := Bool.eq_false_iff.2 fun h => hb (hp b h)
        simp [hb, hpb]

end Ascii

open Ascii

/-! ### Operators -/

namespace Operator

theorem isSome_afterSymbol_outlook {spelling : List UInt8} (hs : spelling.all joins = true)
    (bs : List UInt8) :
    (afterSymbol spelling (outlook bs)).isSome = (afterSymbol spelling bs).isSome := by
  induction spelling generalizing bs with
  | nil => rfl
  | cons s ss ih =>
      simp only [List.all_cons, Bool.and_eq_true] at hs
      cases bs with
      | nil => rfl
      | cons b bs =>
          rw [outlook_cons]
          by_cases hb : joins b = true
          · rw [if_pos hb, afterSymbol, afterSymbol]
            by_cases h : s = b
            · rw [if_pos h, if_pos h, ih hs.2]
            · rw [if_neg h, if_neg h]
          · have h : s ≠ b := by
              rintro rfl
              exact hb hs.1
            simp [hb, afterSymbol, h]

theorem isSome_afterLetters_outlook {spelling : List UInt8} (hs : spelling.all isLetter = true)
    (bs : List UInt8) :
    (afterLetters spelling (outlook bs)).isSome = (afterLetters spelling bs).isSome := by
  induction spelling generalizing bs with
  | nil =>
      have hnext := any_head?_outlook (fun _ => joins_of_isWordByte) bs
      simp only [afterLetters, hnext]
      split <;> rfl
  | cons s ss ih =>
      simp only [List.all_cons, Bool.and_eq_true] at hs
      cases bs with
      | nil => rfl
      | cons b bs =>
          rw [outlook_cons]
          by_cases hb : joins b = true
          · rw [if_pos hb, afterLetters, afterLetters]
            by_cases h : toLower s = toLower b
            · rw [if_pos h, if_pos h, ih hs.2]
            · rw [if_neg h, if_neg h]
          · have h : toLower s ≠ toLower b := by
              intro h
              refine hb (joins_of_isLetter ?_)
              rw [← isLetter_toLower, ← h, isLetter_toLower, hs.1]
            simp [hb, afterLetters, h]

/-- A spelling in letters has nothing else, and no spelling has blanks or quotes. -/
def Row.joins (r : Row) : Bool :=
  if (Ascii.bytes r.spelling).head?.any isLetter then (Ascii.bytes r.spelling).all isLetter
  else (Ascii.bytes r.spelling).all Ascii.joins

theorem Row.fits_outlook {r : Row} (hr : r.joins = true) (bs : List UInt8) :
    r.fits (outlook bs) = r.fits bs := by
  simp only [Row.joins] at hr
  simp only [Row.fits]
  split
  · rename_i hletter
    rw [if_pos hletter] at hr
    exact isSome_afterLetters_outlook hr bs
  · rename_i hletter
    rw [if_neg hletter] at hr
    exact isSome_afterSymbol_outlook hr bs

theorem match?_outlook {table : List Row} (ht : table.all Row.joins = true) (bs : List UInt8) :
    match? table (outlook bs) = match? table bs := by
  rw [List.all_eq_true] at ht
  induction table with
  | nil => rfl
  | cons r table ih =>
      have hr := Row.fits_outlook (ht r (List.mem_cons_self ..)) bs
      have hrest := ih fun r' hr' => ht r' (List.mem_cons_of_mem _ hr')
      simp only [match?, List.find?_cons, hr] at hrest ⊢
      cases r.fits bs with
      | true => rfl
      | false => exact hrest

theorem joins_unary : unary.all Row.joins = true := by decide

theorem joins_binary : binary.all Row.joins = true := by decide

/-- An operator lies within the outlook. -/
theorem length_le_of_match? {table : List Row} (ht : table.all Row.joins = true) {bs : List UInt8}
    {o : Operator} {n : Nat} (h : match? table bs = some (o, n)) : n ≤ (outlook bs).length := by
  rw [← match?_outlook ht] at h
  obtain ⟨-, r, -, -, -, hfits, -, rfl⟩ := match?_eq_some.1 h
  obtain ⟨text, rest, happ, hspells, -⟩ := Row.fits_iff.1 hfits
  rw [happ, List.length_append, hspells.length]
  omega

theorem isSignedNumeral_outlook (bs : List UInt8) :
    isSignedNumeral (outlook bs) = isSignedNumeral bs := by
  have hclass := forall_byte (p := fun b =>
    Ascii.joins b || (!(b == 43 || b == 45) && !(isDigit b || b == 46))) (by decide)
  match bs with
  | [] => rfl
  | [a] => cases h : Ascii.joins a <;> simp [outlook, h, isSignedNumeral]
  | a :: b :: bs =>
      have ha := hclass a
      have hb := hclass b
      cases h : Ascii.joins a <;> cases h' : Ascii.joins b <;>
        simp_all [outlook, isSignedNumeral]

end Operator

/-! ### Numerals -/

namespace Numeral

theorem splitSign_outlook (bs : List UInt8) :
    Decimal.splitSign (outlook bs) =
      ((Decimal.splitSign bs).1, outlook (Decimal.splitSign bs).2) := by
  cases bs with
  | nil => rfl
  | cons b bs =>
      rw [outlook_cons]
      by_cases hb : Ascii.joins b = true
      · rw [if_pos hb]
        by_cases hsign : (b = 43 || b = 45) = true
        · simp [Decimal.splitSign, hsign]
        · simp [Decimal.splitSign, hsign, outlook_cons, hb]
      · have hsign : ¬ (b = 43 || b = 45) = true := by
          intro h
          simp only [Bool.or_eq_true, decide_eq_true_eq] at h
          obtain rfl | rfl := h <;> exact hb (by decide)
        simp [Decimal.splitSign, hsign, outlook_cons, hb]

theorem splitMantissa_outlook (p : Bool) (bs : List UInt8) :
    splitMantissa p (outlook bs) =
      ((splitMantissa p bs).1, outlook (splitMantissa p bs).2) := by
  induction bs generalizing p with
  | nil => rfl
  | cons b bs ih =>
      rw [outlook_cons]
      by_cases hb : Ascii.joins b = true
      · rw [if_pos hb, splitMantissa, splitMantissa]
        by_cases hdigit : isDigit b = true
        · simp [hdigit, ih]
        · by_cases hpoint : (b = 46 && p) = true
          · simp [hdigit, hpoint, ih]
          · simp [hdigit, hpoint, outlook_cons, hb]
      · have hdigit : ¬ isDigit b = true := fun h => hb (joins_of_isDigit h)
        have hpoint : ¬ b = 46 := by
          rintro rfl
          exact hb (by decide)
        simp [splitMantissa, hdigit, hpoint, outlook_cons, hb]

theorem scanExponent_outlook (sign m bs : List UInt8) :
    scanExponent sign m (outlook bs) = scanExponent sign m bs := by
  by_cases hmark : bs.head? = some 101
  · obtain ⟨bs, rfl⟩ := List.head?_eq_some_iff.1 hmark
    rw [outlook_cons, if_pos (by decide)]
    have hdigits := takeWhile_outlook (p := isDigit) (fun _ => joins_of_isDigit)
      (Decimal.splitSign bs).2
    simp only [scanExponent, splitSign_outlook, splitDigits, hdigits]
    rfl
  · have hmark' : (outlook bs).head? ≠ some 101 := by
      cases bs with
      | nil => simp
      | cons b bs =>
          rw [outlook_cons]
          split
          · exact hmark
          · simp
    rw [scanExponent_plain _ hmark, scanExponent_plain _ hmark']

theorem scan_outlook (bs : List UInt8) : scan (outlook bs) = scan bs := by
  simp only [scan, splitSign_outlook, splitMantissa_outlook, scanExponent_outlook]

/-- A numeral lies within the outlook. -/
theorem length_le_of_scan {bs text : List UInt8}
    (h : scan bs = .integer text ∨ scan bs = .decimal text) :
    text.length ≤ (outlook bs).length := by
  rw [← scan_outlook] at h
  obtain ⟨rest, happ, -⟩ := scan_split h
  rw [happ, List.length_append]
  omega

end Numeral

/-! ### Going forward -/

namespace Cursor

/-- The second place comes after the first one, or is the same. -/
def Onward (c c' : Cursor) : Prop := ∃ n, n ≤ c.rest.length ∧ c' = c.advance n

section

variable {c c' c'' : Cursor}

theorem Onward.refl (c : Cursor) : c.Onward c := ⟨0, Nat.zero_le _, rfl⟩

theorem Onward.trans (h : c.Onward c') (h' : c'.Onward c'') : c.Onward c'' := by
  obtain ⟨n, hn, rfl⟩ := h
  obtain ⟨m, hm, rfl⟩ := h'
  refine ⟨n + m, ?_, ?_⟩
  · simp only [advance, List.length_drop] at hm
    omega
  · simp [advance, List.drop_drop, Nat.add_assoc]

theorem Onward.suffix (h : c.Onward c') : c'.rest <:+ c.rest := by
  obtain ⟨n, -, rfl⟩ := h
  exact List.drop_suffix _ _

/-- How far the end of the text is does not depend on the place. -/
theorem Onward.stop (h : c.Onward c') : c'.pos + c'.rest.length = c.pos + c.rest.length := by
  obtain ⟨n, hn, rfl⟩ := h
  simp only [advance, List.length_drop]
  omega

theorem onward_skipBlank (c : Cursor) : c.Onward c.skipBlank := by
  obtain ⟨blanks, -, hrest, hpos, -⟩ := c.skipBlank_split
  refine ⟨blanks.length, by rw [hrest, List.length_append]; omega, ?_⟩
  rw [advance, ← hpos, hrest, List.drop_left]

theorem onward_advance {n : Nat} (h : n ≤ c.skipBlank.rest.length) :
    c.Onward (c.skipBlank.advance n) :=
  (onward_skipBlank c).trans ⟨n, h, rfl⟩

theorem length_outlook_le (bs : List UInt8) : (outlook bs).length ≤ bs.length :=
  (outlook_isPrefix bs).length_le

theorem onward_symbol (b : UInt8) (c : Cursor) : c.Onward (c.symbol b).2 := by
  simp only [symbol]
  split
  · rename_i h
    obtain ⟨bs, hbs⟩ := List.head?_eq_some_iff.1 h
    exact onward_advance (by rw [hbs]; simp)
  · exact onward_skipBlank c

theorem onward_word (c : Cursor) : c.Onward c.word.2 := by
  simp only [word]
  split
  · exact onward_advance (List.takeWhile_prefix _).length_le
  · exact onward_skipBlank c

theorem onward_operator {table : List Operator.Row}
    (ht : table.all Operator.Row.joins = true) (c : Cursor) :
    c.Onward (c.operator table).2 := by
  simp only [operator]
  split
  · rename_i h
    exact onward_advance (Nat.le_trans (Operator.length_le_of_match? ht h) (length_outlook_le _))
  · exact onward_skipBlank c

theorem onward_unaryOperator (c : Cursor) : c.Onward c.unaryOperator.2 := by
  simp only [unaryOperator]
  split
  · exact onward_skipBlank c
  · exact (onward_skipBlank c).trans (onward_operator Operator.joins_unary _)

theorem onward_number {t : Option NumberToken} (h : number c = .ok t c') : c.Onward c' := by
  simp only [number] at h
  split at h
  · cases h
    exact onward_skipBlank c
  · cases h
  · rename_i hscan
    cases h
    exact onward_advance
      (Nat.le_trans (Numeral.length_le_of_scan (.inr hscan)) (length_outlook_le _))
  · rename_i hscan
    split at h
    · cases h
      exact onward_advance
        (Nat.le_trans (Numeral.length_le_of_scan (.inl hscan)) (length_outlook_le _))
    · cases h

theorem onward_string {t : Option StringToken} (h : string c = .ok t c') : c.Onward c' := by
  simp only [string] at h
  split at h
  · rename_i bs hbs
    split at h
    · rename_i raw length last hscan
      cases h
      obtain ⟨⟨tail, rfl⟩, -⟩ := StringLiteral.scan_split hscan
      refine onward_advance ?_
      rw [hbs, List.length_cons, List.length_append, List.length_cons]
      omega
    · cases h
    · cases h
  · cases h
    exact onward_skipBlank c

end

end Cursor

end CellScript
