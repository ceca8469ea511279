import CellScript.Proofs.Phrases

/-!
Where the text of a token ends.

Operators, numerals and string literals are read off the front of a longer text.
Each of these scans settles what it has found from the bytes it takes and one byte
behind them: a text that reads as a token by itself reads so in front of every
text that does not go on with it, and whatever is found in a longer text reads so
by itself.
-/

namespace CellScript

/-! ### Bytes -/

/-- What holds of all bytes can be tried. -/
theorem forall_byte {p : UInt8 → Bool}
    (h : (List.range 16).all (fun hi =>
      (List.range 16).all fun lo => p (UInt8.ofNat (16 * hi + lo))) = true)
    (b : UInt8) : p b = true := by
  have hlt := b.toNat_lt
  have hhi := List.all_eq_true.1 h (b.toNat / 16) (List.mem_range.2 (by omega))
  have hlo := List.all_eq_true.1 hhi (b.toNat % 16) (List.mem_range.2 (by omega))
  rwa [Nat.div_add_mod, UInt8.ofNat_toNat] at hlo

namespace Ascii

theorem isLetter_toLower (b : UInt8) : isLetter (toLower b) = isLetter b :=
  beq_iff_eq.1 (forall_byte (p := fun b => isLetter (toLower b) == isLetter b) (by decide) b)

theorem isWordByte_of_isLetter {b : UInt8} (h : isLetter b = true) : isWordByte b = true := by
  simp [isWordByte, isWordStart, h]

/-- Letters in lower case are the letters of words, whatever case they had. -/
theorem isWordByte_of_toLower {text spelling : List UInt8}
    (h : text.map toLower = spelling.map toLower) (hs : spelling.all isLower = true) :
    text.all isWordByte = true := by
  refine List.all_eq_true.2 fun b hb => isWordByte_of_isLetter ?_
  have hmem : toLower b ∈ spelling.map toLower := h ▸ List.mem_map_of_mem hb
  obtain ⟨s, hs', heq⟩ := List.mem_map.1 hmem
  rw [← isLetter_toLower, ← heq, isLetter_toLower, isLetter, List.all_eq_true.1 hs s hs',
    Bool.or_true]

end Ascii

/-! ### Operators -/

namespace Operator

/-- One of the spellings of an operator: letters may be of any case. -/
def Row.Spells (r : Row) (text : List UInt8) : Prop :=
  if isSpelled (Ascii.bytes r.spelling) then
    text.map Ascii.toLower = (Ascii.bytes r.spelling).map Ascii.toLower
  else text = Ascii.bytes r.spelling

theorem Row.Spells.length {r : Row} {text : List UInt8} (h : r.Spells text) :
    text.length = (Ascii.bytes r.spelling).length := by
  unfold Spells at h
  split at h
  · simpa using congrArg List.length h
  · rw [h]

theorem afterSymbol_eq_some {spelling input rest : List UInt8} :
    afterSymbol spelling input = some rest ↔ input = spelling ++ rest := by
  induction spelling generalizing input with
  | nil => simp [afterSymbol]
  | cons s ss ih =>
      cases input with
      | nil => simp [afterSymbol]
      | cons b bs =>
          by_cases h : s = b
          · simp [afterSymbol, h, ih]
          · simp [afterSymbol, h, Ne.symm h]

theorem afterLetters_eq_some {spelling input rest : List UInt8} :
    afterLetters spelling input = some rest ↔
      ∃ text, input = text ++ rest ∧ text.map Ascii.toLower = spelling.map Ascii.toLower ∧
        rest.head?.any Ascii.isWordByte = false := by
  induction spelling generalizing input with
  | nil =>
      by_cases h : input.head?.any Ascii.isWordByte = true
      · simp only [afterLetters, h, if_true]
        constructor
        · nofun
        · rintro ⟨text, rfl, htext, hrest⟩
          obtain rfl : text = [] := by simpa using htext
          rw [List.nil_append, hrest] at h
          cases h
      · simp only [afterLetters, h]
        constructor
        · rintro ⟨⟩
          exact ⟨[], rfl, rfl, by simpa using h⟩
        · rintro ⟨text, rfl, htext, -⟩
          obtain rfl : text = [] := by simpa using htext
          rfl
  | cons s ss ih =>
      cases input with
      | nil =>
          simp only [afterLetters]
          constructor
          · nofun
          · rintro ⟨text, htext, hlower, -⟩
            obtain ⟨rfl, -⟩ := List.nil_eq_append_iff.1 htext
            cases hlower
      | cons b bs =>
          -- Letters are compared without their case, here as in the text that is asked for.
          by_cases h : Ascii.toLower s = Ascii.toLower b
          · simp only [afterLetters, h, if_true, ih]
            constructor
            · rintro ⟨text, rfl, hlower, hrest⟩
              exact ⟨b :: text, rfl, by simp [hlower, h], hrest⟩
            · rintro ⟨text, htext, hlower, hrest⟩
              cases text with
              | nil => cases hlower
              | cons b' text =>
                  obtain ⟨rfl, rfl⟩ := List.cons.inj htext
                  exact ⟨text, rfl, (List.cons.inj hlower).2, hrest⟩
          · simp only [afterLetters, h, if_false]
            constructor
            · nofun
            · rintro ⟨text, htext, hlower, -⟩
              cases text with
              | nil => cases hlower
              | cons b' text =>
                  obtain ⟨rfl, rfl⟩ := List.cons.inj htext
                  exact absurd (List.cons.inj hlower).1.symm h

/-- A row fits where one of its spellings stands, behind which letters must end. -/
theorem Row.fits_iff {r : Row} {input : List UInt8} :
    r.fits input = true ↔ ∃ text rest, input = text ++ rest ∧ r.Spells text ∧
      (isSpelled (Ascii.bytes r.spelling) = true → rest.head?.any Ascii.isWordByte = false) := by
  simp only [fits, Spells, isSpelled]
  by_cases hletters : (Ascii.bytes r.spelling).head?.any Ascii.isLetter = true
  · simp only [hletters, if_true, Option.isSome_iff_exists, afterLetters_eq_some]
    constructor
    · rintro ⟨rest, text, hinput, hlower, hrest⟩
      exact ⟨text, rest, hinput, hlower, fun _ => hrest⟩
    · rintro ⟨text, rest, hinput, hlower, hrest⟩
      exact ⟨rest, text, hinput, hlower, hrest trivial⟩
  · rw [Bool.not_eq_true] at hletters
    simp only [hletters, Bool.false_eq_true, if_false, Option.isSome_iff_exists,
      afterSymbol_eq_some]
    constructor
    · rintro ⟨rest, hinput⟩
      exact ⟨_, rest, hinput, rfl, False.elim⟩
    · rintro ⟨text, rest, hinput, rfl, -⟩
      exact ⟨rest, hinput⟩

/-- What makes a table readable: longer spellings stand first, one byte at a time leads from a
spelling to a longer one, and words are in lower case. -/
structure Readable (table : List Row) : Prop where
  ordered : table.Pairwise fun r r' =>
    (Ascii.bytes r.spelling).isPrefixOf (Ascii.bytes r'.spelling) = false
  steps : ∀ r ∈ table, ∀ r' ∈ table,
    (Ascii.bytes r.spelling).isPrefixOf (Ascii.bytes r'.spelling) = true →
    Ascii.bytes r.spelling = Ascii.bytes r'.spelling ∨ ∃ r'' ∈ table, Ascii.bytes r''.spelling =
      (Ascii.bytes r'.spelling).take ((Ascii.bytes r.spelling).length + 1)
  lower : ∀ r ∈ table, isSpelled (Ascii.bytes r.spelling) = true →
    (Ascii.bytes r.spelling).all Ascii.isLower = true
  nonempty : ∀ r ∈ table, Ascii.bytes r.spelling ≠ []

theorem readable_unary : Readable unary := by
  constructor <;> decide

theorem readable_binary : Readable binary := by
  constructor <;> decide

section

variable {table : List Row} {text input : List UInt8} {o : Operator} {n : Nat}

theorem match?_eq_some :
    match? table input = some (o, n) ↔ ∃ before r after, table = before ++ r :: after ∧
      (∀ r' ∈ before, r'.fits input = false) ∧ r.fits input = true ∧ r.operator = o ∧
      (Ascii.bytes r.spelling).length = n := by
  simp only [match?, Option.map_eq_some_iff, List.find?_eq_some_iff_append, Prod.mk.injEq,
    Bool.not_eq_true']
  constructor
  · rintro ⟨r, ⟨hr, before, after, htable, hbefore⟩, ho, hn⟩
    exact ⟨before, r, after, htable, hbefore, hr, ho, hn⟩
  · rintro ⟨before, r, after, htable, hbefore, hr, ho, hn⟩
    exact ⟨r, ⟨hr, before, after, htable, hbefore⟩, ho, hn⟩

/-- A text that is an operator as a whole spells the row that it matches. -/
theorem match?_self (h : match? table text = some (o, text.length)) :
    ∃ before r after, table = before ++ r :: after ∧ (∀ r' ∈ before, r'.fits text = false) ∧
      r.Spells text ∧ r.operator = o := by
  obtain ⟨before, r, after, htable, hbefore, hfits, ho, hlen⟩ := match?_eq_some.1 h
  obtain ⟨text', rest, happ, hspells, -⟩ := Row.fits_iff.1 hfits
  have hl := congrArg List.length happ
  rw [List.length_append, hspells.length, hlen] at hl
  obtain rfl := List.length_eq_zero_iff.1 (show rest.length = 0 by omega)
  rw [List.append_nil] at happ
  exact ⟨before, r, after, htable, hbefore, happ ▸ hspells, ho⟩

/-- The first byte of a spelling tells whether it is in letters. -/
theorem isSpelled_append (h : text ≠ []) (rest : List UInt8) :
    isSpelled (text ++ rest) = isSpelled text := by
  cases text with
  | nil => exact absurd rfl h
  | cons b text => rfl

/-- A spelling is in letters if the spelling in the table is. -/
theorem Row.Spells.isSpelled_eq {r : Row} (h : r.Spells text) :
    isSpelled text = isSpelled (Ascii.bytes r.spelling) := by
  unfold Spells at h
  split at h
  · have hhead := congrArg List.head? h
    simp only [List.head?_map] at hhead
    cases ht : text.head? <;> cases hs : (Ascii.bytes r.spelling).head?
    all_goals simp only [ht, hs, Option.map_none, Option.map_some, reduceCtorEq,
      Option.some.injEq] at hhead
    · simp [isSpelled, ht, hs]
    · rename_i b b'
      simp only [isSpelled, ht, hs, Option.any_some]
      rw [← Ascii.isLetter_toLower b, hhead, Ascii.isLetter_toLower]
  · rw [h]

theorem Row.Spells.eq_of_not_isSpelled {r : Row} (h : r.Spells text)
    (hs : isSpelled text = false) : text = Ascii.bytes r.spelling := by
  rw [h.isSpelled_eq] at hs
  rwa [Spells, hs, if_neg Bool.false_ne_true] at h

theorem Row.fits_append {r : Row} (rest : List UInt8) (h : r.Spells text)
    (hrest : isSpelled text = true → rest.head?.any Ascii.isWordByte = false) :
    r.fits (text ++ rest) = true :=
  Row.fits_iff.2 ⟨text, rest, rfl, h, fun hs => hrest (h.isSpelled_eq ▸ hs)⟩

namespace Readable

variable (hr : Readable table)

include hr

/-- Letters make a word. -/
theorem all_isWordByte {r : Row} (hmem : r ∈ table) (h : r.Spells text)
    (hs : isSpelled text = true) : text.all Ascii.isWordByte = true := by
  rw [h.isSpelled_eq] at hs
  rw [Row.Spells, if_pos hs] at h
  exact Ascii.isWordByte_of_toLower h (hr.lower r hmem hs)

theorem ne_nil {r : Row} (hmem : r ∈ table) (h : r.Spells text) : text ≠ [] := by
  intro hnil
  have := h.length
  rw [hnil] at this
  exact hr.nonempty r hmem (List.length_eq_zero_iff.1 this.symm)

/-- A row that fits a longer text fits the part that a spelling takes of it, unless the spelling
goes on there. -/
theorem fits_of_append {r r' : Row} {rest : List UInt8} (hmem : r ∈ table) (hmem' : r' ∈ table)
    (h : r.Spells text) (hrest : rest.head?.all (fun b => !goesOn table text b) = true)
    (hfits : r'.fits (text ++ rest) = true) : r'.fits text = true := by
  obtain ⟨text', rest', happ, hspells', hend⟩ := Row.fits_iff.1 hfits
  rw [← hspells'.isSpelled_eq] at hend
  obtain ⟨m, rfl, rfl⟩ | ⟨m, rfl, rfl⟩ := List.append_eq_append_iff.1 happ
  · cases m with
    | nil =>
        rw [List.append_nil] at hspells'
        simpa using Row.fits_append [] hspells' (by simp)
    | cons b m =>
        -- The text of the other row goes on behind this one, so some row does so by one byte.
        have hgoes : goesOn table text b = false := by simpa using hrest
        have hspelled := isSpelled_append (hr.ne_nil hmem h) (b :: m)
        cases hs : isSpelled text with
        | true =>
            have hall := hr.all_isWordByte hmem' hspells' (hspelled.trans hs)
            rw [goesOn, if_pos hs] at hgoes
            simp [hgoes] at hall
        | false =>
            have heq := h.eq_of_not_isSpelled hs
            have heq' := hspells'.eq_of_not_isSpelled (hspelled.trans hs)
            have hprefix :
                (Ascii.bytes r.spelling).isPrefixOf (Ascii.bytes r'.spelling) = true := by
              rw [← heq, ← heq', List.isPrefixOf_iff_prefix]
              exact List.prefix_append ..
            rw [goesOn, hs, if_neg Bool.false_ne_true] at hgoes
            obtain hsame | ⟨r'', hmem'', hstep⟩ := hr.steps r hmem r' hmem' hprefix
            · rw [← heq, ← heq'] at hsame
              simp at hsame
            · rw [← heq, ← heq', List.take_append, List.take_of_length_le (by omega),
                Nat.add_sub_cancel_left] at hstep
              have := List.any_eq_false.1 hgoes r'' hmem''
              simp [hstep] at this
  · refine Row.fits_append _ hspells' fun hs => ?_
    have hnext := hend hs
    cases m with
    | nil => rfl
    | cons b m => exact hnext

/-- What reads as an operator by itself reads so in front of every text with which it does not
go on. -/
theorem match?_append {rest : List UInt8} (h : match? table text = some (o, text.length))
    (hrest : rest.head?.all (fun b => !goesOn table text b) = true) :
    match? table (text ++ rest) = some (o, text.length) := by
  obtain ⟨before, r, after, htable, hbefore, hspells, ho⟩ := match?_self h
  have hmem : r ∈ table := by simp [htable]
  refine match?_eq_some.2
    ⟨before, r, after, htable, fun r' hr' => ?_, ?_, ho, hspells.length.symm⟩
  · have hmem' : r' ∈ table := by simp [htable, hr']
    refine Bool.eq_false_iff.2 fun hfits' => ?_
    have := hr.fits_of_append hmem hmem' hspells hrest hfits'
    rw [hbefore r' hr'] at this
    cases this
  · refine Row.fits_append _ hspells fun hs => ?_
    cases rest with
    | nil => rfl
    | cons b rest => simpa [goesOn, hs] using hrest

/-- An operator that is found reads so by itself and does not go on. -/
theorem match?_split (h : match? table input = some (o, n)) :
    ∃ text rest, input = text ++ rest ∧ n = text.length ∧
      match? table text = some (o, text.length) ∧
      rest.head?.all (fun b => !goesOn table text b) = true := by
  obtain ⟨before, r, after, htable, hbefore, hfits, ho, hlen⟩ := match?_eq_some.1 h
  have hmem : r ∈ table := by simp [htable]
  obtain ⟨text, rest, rfl, hspells, hend⟩ := Row.fits_iff.1 hfits
  rw [← hspells.isSpelled_eq] at hend
  refine ⟨text, rest, rfl, by rw [hspells.length, hlen], ?_, ?_⟩
  · refine match?_eq_some.2 ⟨before, r, after, htable, fun r' hr' => ?_, ?_, ho,
      hspells.length.symm⟩
    · refine Bool.eq_false_iff.2 fun hfits' => ?_
      obtain ⟨text', m, rfl, hspells', hend'⟩ := Row.fits_iff.1 hfits'
      rw [← hspells'.isSpelled_eq] at hend'
      have hlonger : r'.fits (text' ++ (m ++ rest)) = true := by
        refine Row.fits_append _ hspells' fun hs => ?_
        cases m with
        | nil => exact hend (by simpa using hs)
        | cons b m => exact hend' hs
      rw [← List.append_assoc, hbefore r' hr'] at hlonger
      cases hlonger
    · simpa using Row.fits_append [] hspells (by simp)
  · cases rest with
    | nil => rfl
    | cons b rest =>
        cases hs : isSpelled text with
        | true => simpa [goesOn, hs] using hend hs
        | false =>
            -- A row for the longer spelling would stand before this one and fit.
            simp only [List.head?_cons, Option.all_some, goesOn, hs, Bool.false_eq_true, if_false,
              Bool.not_eq_true', List.any_eq_false, beq_iff_eq]
            intro r'' hmem'' hlonger
            have hne := hr.ne_nil hmem hspells
            have hs' : isSpelled (text ++ [b]) = false := (isSpelled_append hne [b]).trans hs
            have hspells'' : r''.Spells (text ++ [b]) := by
              rw [Row.Spells, hlonger, hs', if_neg Bool.false_ne_true]
            have hfits'' : r''.fits (text ++ b :: rest) = true := by
              simpa using Row.fits_append rest hspells'' (by simp [hs'])
            have heq := hspells.eq_of_not_isSpelled hs
            rw [htable] at hmem''
            obtain hin | hin := List.mem_append.1 hmem''
            · rw [hbefore r'' hin] at hfits''
              cases hfits''
            · obtain rfl | hin := List.mem_cons.1 hin
              · rw [heq] at hlonger
                simp at hlonger
              · have hord := (List.pairwise_append.1 (htable ▸ hr.ordered)).2.1
                have hno := (List.pairwise_cons.1 hord).1 r'' hin
                rw [← heq, hlonger, Bool.eq_false_iff] at hno
                exact hno (List.isPrefixOf_iff_prefix.2 (List.prefix_append text [b]))

end Readable

end

end Operator

/-! ### Numerals -/

namespace Numeral

/-- Whether a mantissa goes on with a byte. -/
def mantissaGoesOn (p : Bool) (m : List UInt8) (b : UInt8) : Bool :=
  Ascii.isDigit b || (b == 46 && p && !m.contains 46)

theorem splitMantissa_split {p : Bool} {bs m rest : List UInt8}
    (h : splitMantissa p bs = (m, rest)) :
    bs = m ++ rest ∧ splitMantissa p m = (m, []) ∧
      rest.head?.all (fun b => !mantissaGoesOn p m b) = true := by
  induction bs generalizing p m rest with
  | nil =>
      cases h
      exact ⟨rfl, rfl, rfl⟩
  | cons b bs ih =>
      simp only [splitMantissa] at h
      split at h
      · rename_i hdigit
        cases h
        obtain ⟨hbs, hm, hrest⟩ := ih (p := p) rfl
        have hpoint : b ≠ 46 := by
          rintro rfl
          cases hdigit
        refine ⟨congrArg (b :: ·) hbs, by simp [splitMantissa, hdigit, hm], ?_⟩
        simpa [mantissaGoesOn, List.contains_cons, Ne.symm hpoint] using hrest
      · rename_i hdigit
        split at h
        · rename_i hpoint
          cases h
          obtain ⟨hbs, hm, hrest⟩ := ih (p := false) rfl
          refine ⟨congrArg (b :: ·) hbs, by simp [splitMantissa, hdigit, hpoint, hm], ?_⟩
          simp only [Bool.and_eq_true, decide_eq_true_eq] at hpoint
          simpa [mantissaGoesOn, List.contains_cons, hpoint] using hrest
        · rename_i hpoint
          cases h
          simp only [Bool.not_eq_true] at hdigit hpoint
          refine ⟨rfl, rfl, ?_⟩
          simpa [mantissaGoesOn, hdigit, Decidable.imp_iff_not_or] using hpoint

theorem splitMantissa_append {p : Bool} {m rest : List UInt8} (h : splitMantissa p m = (m, []))
    (hrest : rest.head?.all (fun b => !mantissaGoesOn p m b) = true) :
    splitMantissa p (m ++ rest) = (m, rest) := by
  induction m generalizing p with
  | nil =>
      cases rest with
      | nil => rfl
      | cons b rest =>
          have hb : Ascii.isDigit b = false ∧ (b = 46 → p = false) := by
            simpa [mantissaGoesOn, Decidable.imp_iff_not_or] using hrest
          simpa [splitMantissa, hb.1] using hb.2
  | cons b m ih =>
      simp only [splitMantissa] at h
      split at h
      · rename_i hdigit
        have hpoint : b ≠ 46 := by
          rintro rfl
          cases hdigit
        have := ih (p := p) (Prod.ext (List.cons.inj (Prod.mk.inj h).1).2 (Prod.mk.inj h).2)
          (by simpa [mantissaGoesOn, List.contains_cons, Ne.symm hpoint] using hrest)
        simp [splitMantissa, hdigit, this]
      · rename_i hdigit
        split at h
        · rename_i hpoint
          have hb : b = 46 ∧ p = true := by simpa using hpoint
          have := ih (p := false)
            (Prod.ext (List.cons.inj (Prod.mk.inj h).1).2 (Prod.mk.inj h).2)
            (by simpa [mantissaGoesOn, List.contains_cons, hb] using hrest)
          simp [splitMantissa, hdigit, hpoint, this]
        · cases h

theorem mem_of_splitMantissa {p : Bool} {bs m rest : List UInt8}
    (h : splitMantissa p bs = (m, rest)) {b : UInt8} (hb : b ∈ m) :
    Ascii.isDigit b = true ∨ b = 46 := by
  induction bs generalizing p m rest with
  | nil =>
      cases h
      cases hb
  | cons a bs ih =>
      simp only [splitMantissa] at h
      split at h
      · rename_i hdigit
        cases h
        obtain rfl | hb := List.mem_cons.1 hb
        · exact .inl hdigit
        · exact ih (p := p) rfl hb
      · split at h
        · rename_i hpoint
          cases h
          obtain rfl | hb := List.mem_cons.1 hb
          · exact .inr (by simp_all)
          · exact ih (p := false) rfl hb
        · cases h
          cases hb

/-- A plus, a minus or nothing. -/
def IsSign (sign : List UInt8) : Prop := sign = [] ∨ sign = [43] ∨ sign = [45]

theorem splitSign_split {bs sign body : List UInt8} (h : Decimal.splitSign bs = (sign, body)) :
    bs = sign ++ body ∧ IsSign sign := by
  unfold Decimal.splitSign at h
  split at h
  · split at h
    · rename_i hb
      cases h
      exact ⟨rfl, by simpa [IsSign] using hb⟩
    · cases h
      exact ⟨rfl, .inl rfl⟩
  · cases h
    exact ⟨rfl, .inl rfl⟩

/-- Digits and points are no signs. -/
theorem splitSign_append {sign : List UInt8} (hs : IsSign sign) {b : UInt8}
    (hb : Ascii.isDigit b = true ∨ b = 46) (body : List UInt8) :
    Decimal.splitSign (sign ++ b :: body) = (sign, b :: body) := by
  obtain rfl | rfl | rfl := hs
  · have hplus : b ≠ 43 := by rintro rfl; revert hb; decide
    have hminus : b ≠ 45 := by rintro rfl; revert hb; decide
    simp [Decimal.splitSign, hplus, hminus]
  · rfl
  · rfl

theorem scanExponent_plain {sign m : List UInt8} (tail : List UInt8) (h : tail.head? ≠ some 101) :
    scanExponent sign m tail =
      if m.any (· == 46) then .decimal (sign ++ m) else .integer (sign ++ m) := by
  unfold scanExponent
  split
  · exact absurd rfl h
  · rfl

theorem scanExponent_exponent {sign m es ds : List UInt8} (rest : List UInt8) (hes : IsSign es)
    (hds : ds.all Ascii.isDigit = true) (hne : ds ≠ [])
    (hrest : rest.head?.any Ascii.isDigit = false) :
    scanExponent sign m (101 :: es ++ ds ++ rest) = .decimal (sign ++ m ++ 101 :: es ++ ds) := by
  cases ds with
  | nil => exact absurd rfl hne
  | cons d ds =>
      have hd : Ascii.isDigit d = true := by simp_all
      have htake : (d :: ds ++ rest).takeWhile Ascii.isDigit = d :: ds := by
        rw [List.takeWhile_append_of_pos (List.all_eq_true.1 hds)]
        cases rest with
        | nil => simp
        | cons b rest => simp_all
      have hsplit : Decimal.splitSign (es ++ (d :: ds ++ rest)) = (es, d :: ds ++ rest) :=
        splitSign_append hes (.inl hd) _
      simp only [List.cons_append, List.append_assoc] at hsplit htake ⊢
      simp [scanExponent, splitDigits, hsplit, htake]

/-- A numeral ends behind its mantissa or behind its exponent. -/
theorem scanExponent_split {sign m tail text : List UInt8}
    (h : scanExponent sign m tail = .integer text ∨ scanExponent sign m tail = .decimal text) :
    (tail.head? ≠ some 101 ∧ text = sign ++ m) ∨
      ∃ es ds rest, tail = 101 :: es ++ ds ++ rest ∧ IsSign es ∧ ds.all Ascii.isDigit = true ∧
        ds ≠ [] ∧ rest.head?.any Ascii.isDigit = false ∧
        text = sign ++ m ++ 101 :: es ++ ds := by
  by_cases htail : tail.head? = some 101
  · obtain ⟨bs, rfl⟩ : ∃ bs, tail = 101 :: bs := by
      cases tail with
      | nil => cases htail
      | cons b bs =>
          cases htail
          exact ⟨bs, rfl⟩
    rcases hsplit : Decimal.splitSign bs with ⟨es, body⟩
    obtain ⟨rfl, hes⟩ := splitSign_split hsplit
    simp only [scanExponent, hsplit, splitDigits] at h
    refine .inr ⟨es, body.takeWhile Ascii.isDigit, body.dropWhile Ascii.isDigit, ?_, hes,
      List.all_takeWhile, ?_, ?_, ?_⟩
    · simp
    · intro hnil
      simp [hnil] at h
    · cases hdrop : body.dropWhile Ascii.isDigit with
      | nil => rfl
      | cons b rest => simpa [hdrop] using List.head?_dropWhile_not Ascii.isDigit body
    · split at h <;> simp_all
  · refine .inl ⟨htail, ?_⟩
    rw [scanExponent_plain _ htail] at h
    split at h <;> simp_all

/-- Scanning a text whose sign and mantissa are known. -/
theorem scan_parts {sign m tail : List UInt8} (hs : IsSign sign)
    (hm : splitMantissa true m = (m, [])) (hd : m.any Ascii.isDigit = true)
    (htail : tail.head?.all (fun b => !mantissaGoesOn true m b) = true) :
    scan (sign ++ m ++ tail) = scanExponent sign m tail := by
  cases m with
  | nil => cases hd
  | cons b m =>
      have hb := mem_of_splitMantissa hm List.mem_cons_self
      have hsplit := splitSign_append hs hb (m ++ tail)
      rw [List.append_assoc]
      simp only [scan, List.cons_append, hsplit]
      rw [← List.cons_append, splitMantissa_append hm htail, if_pos hd]

/-- Whatever is no numeral apart, a scan has found a sign and a mantissa. -/
theorem scan_cases (input : List UInt8) (h : scan input ≠ .absent) :
    ∃ sign m tail, input = sign ++ m ++ tail ∧ IsSign sign ∧ splitMantissa true m = (m, []) ∧
      m.any Ascii.isDigit = true ∧ tail.head?.all (fun b => !mantissaGoesOn true m b) = true ∧
      scan input = scanExponent sign m tail := by
  rcases hsign : Decimal.splitSign input with ⟨sign, body⟩
  obtain ⟨rfl, hs⟩ := splitSign_split hsign
  rcases hbody : splitMantissa true body with ⟨m, tail⟩
  obtain ⟨rfl, hm, htail⟩ := splitMantissa_split hbody
  simp only [scan, hsign, hbody] at h ⊢
  split at h
  · rename_i hd
    exact ⟨sign, m, tail, by simp, hs, hm, hd, htail, if_pos hd⟩
  · exact absurd rfl h

theorem IsSign.not_mem {sign : List UInt8} (hs : IsSign sign) {b : UInt8} (h₁ : b ≠ 43)
    (h₂ : b ≠ 45) : b ∉ sign := by
  obtain rfl | rfl | rfl := hs <;> simp [h₁, h₂]

theorem absorbs_mantissa {sign m : List UInt8} (hs : IsSign sign)
    (hm : splitMantissa true m = (m, [])) (b : UInt8) :
    (Token.numeral (sign ++ m)).absorbs b = (b == 101 || mantissaGoesOn true m b) := by
  have h101 : 101 ∉ m := fun hmem => by
    have := mem_of_splitMantissa hm hmem
    revert this
    decide
  have hsign : 101 ∉ sign := hs.not_mem (by decide) (by decide)
  have hpoint : 46 ∉ sign := hs.not_mem (by decide) (by decide)
  simp [Token.absorbs, mantissaGoesOn, h101, hsign, hpoint, Bool.or_assoc, Bool.or_left_comm]

theorem absorbs_exponent {text : List UInt8} (h : 101 ∈ text) (b : UInt8) :
    (Token.numeral text).absorbs b = Ascii.isDigit b := by
  simp [Token.absorbs, h]

theorem mantissaGoesOn_exponent (p : Bool) (m : List UInt8) : mantissaGoesOn p m 101 = false := by
  simp only [mantissaGoesOn]
  rfl

/-- A numeral reads the same in front of every text that it does not absorb. -/
theorem scan_append {text rest : List UInt8}
    (h : scan text = .integer text ∨ scan text = .decimal text)
    (hrest : rest.head?.all (fun b => !(Token.numeral text).absorbs b) = true) :
    scan (text ++ rest) = scan text := by
  obtain ⟨sign, m, tail, rfl, hs, hm, hd, htail, hscan⟩ :=
    scan_cases text (by rintro habs; simp [habs] at h)
  rw [hscan] at h
  obtain ⟨hne, htext⟩ | ⟨es, ds, rest', rfl, hes, hds, hne, -, htext⟩ := scanExponent_split h
  · obtain rfl : tail = [] := by simpa using htext
    simp only [List.append_nil] at hscan hrest ⊢
    have hgoes : rest.head?.all (fun b => !mantissaGoesOn true m b) = true ∧
        rest.head? ≠ some 101 := by
      cases rest with
      | nil => exact ⟨rfl, nofun⟩
      | cons b rest => simpa [absorbs_mantissa hs hm, and_comm] using hrest
    rw [hscan, scan_parts hs hm hd hgoes.1, scanExponent_plain _ hgoes.2,
      scanExponent_plain [] (by simp)]
  · obtain rfl : rest' = [] := by simpa using htext
    have hstop : rest.head?.any Ascii.isDigit = false := by
      cases rest with
      | nil => rfl
      | cons b rest =>
          rw [List.head?_cons, Option.all_some, absorbs_exponent (by simp)] at hrest
          simpa using hrest
    rw [hscan, List.append_assoc, List.append_nil,
      scan_parts hs hm hd (by simp [mantissaGoesOn_exponent]),
      scanExponent_exponent _ hes hds hne hstop]
    simpa using (scanExponent_exponent [] hes hds hne rfl).symm

/-- A numeral that is found reads so by itself and does not absorb what follows. -/
theorem scan_split {input text : List UInt8}
    (h : scan input = .integer text ∨ scan input = .decimal text) :
    ∃ rest, input = text ++ rest ∧ scan text = scan input ∧
      rest.head?.all (fun b => !(Token.numeral text).absorbs b) = true := by
  obtain ⟨sign, m, tail, rfl, hs, hm, hd, htail, hscan⟩ :=
    scan_cases input (by rintro habs; simp [habs] at h)
  rw [hscan] at h
  obtain ⟨hne, rfl⟩ | ⟨es, ds, rest, rfl, hes, hds, hne, hstop, rfl⟩ := scanExponent_split h
  · refine ⟨tail, rfl, ?_, ?_⟩
    · rw [hscan, scanExponent_plain _ hne, ← scanExponent_plain [] (by simp),
        ← scan_parts hs hm hd rfl, List.append_nil]
    · cases tail with
      | nil => rfl
      | cons b tail => simpa [absorbs_mantissa hs hm, and_comm] using And.intro htail hne
  · refine ⟨rest, by simp, ?_, ?_⟩
    · rw [hscan, scanExponent_exponent _ hes hds hne hstop,
        ← scanExponent_exponent [] hes hds hne rfl, ← scan_parts hs hm hd
          (by simp [mantissaGoesOn_exponent])]
      simp
    · cases rest with
      | nil => rfl
      | cons b rest =>
          rw [List.head?_cons, Option.all_some, absorbs_exponent (by simp)]
          simpa using hstop

/-- A numeral begins with a digit or a point, behind its sign if it has one. -/
theorem scan_head {input : List UInt8} (h : scan input ≠ .absent) :
    ∃ sign b body, input = sign ++ b :: body ∧ IsSign sign ∧
      (Ascii.isDigit b = true ∨ b = 46) := by
  obtain ⟨sign, m, tail, rfl, hs, hm, hd, -⟩ := scan_cases input h
  cases m with
  | nil => cases hd
  | cons b m =>
      exact ⟨sign, b, m ++ tail, by simp, hs, mem_of_splitMantissa hm List.mem_cons_self⟩

theorem value?_eq_some {text : List UInt8} {v : Number} :
    value? text = some v ↔
      (scan text = .integer text ∧
        (int16? (Decimal.readInt text)).map Number.int = some v) ∨
      (scan text = .decimal text ∧ .float (Decimal.read text).toHalf = v) := by
  simp only [value?]
  cases scan text <;> simp

end Numeral

/-! ### String literals -/

namespace StringLiteral

theorem Scan.prepend_eq_closed {bytes raw : List UInt8} {r : Scan} {length : Nat} {last : UInt8}
    (h : r.prepend bytes = .closed raw length last) :
    ∃ raw', r = .closed raw' length last ∧ raw = bytes ++ raw' := by
  cases r with
  | closed raw' length' last' =>
      cases h
      exact ⟨raw', rfl, rfl⟩
  | unterminated k => cases h
  | invalidEscape k e => cases h

theorem scan_cons {n : Nat} {last b : UInt8} {bs : List UInt8} (hquote : b ≠ 34) (hb : b ≠ 92) :
    scan n last (b :: bs) = (scan (n + 1) b bs).prepend [b] := by
  rw [scan]
  · exact hquote
  · exact fun h => absurd h hb
  · exact fun _ _ h => absurd h hb

/-- A literal ends at its closing quote, whatever follows. -/
theorem scan_split {n : Nat} {last c : UInt8} {bs raw : List UInt8} {length : Nat}
    (h : scan n last bs = .closed raw length c) :
    (∃ rest, bs = raw ++ 34 :: rest) ∧
      ∀ rest, scan n last (raw ++ 34 :: rest) = .closed raw length c := by
  fun_induction scan n last bs generalizing raw with
  | case1 | case3 | case5 => cases h
  | case2 n last bs =>
      cases h
      exact ⟨⟨bs, rfl⟩, fun rest => rfl⟩
  | case4 n last e bs b he ih =>
      obtain ⟨raw, hs, rfl⟩ := Scan.prepend_eq_closed h
      obtain ⟨⟨rest, rfl⟩, hscan⟩ := ih hs
      exact ⟨⟨rest, rfl⟩, fun rest => by simp [scan, he, hscan, Scan.prepend]⟩
  | case6 n last b bs hquote hend hesc ih =>
      obtain ⟨raw, hs, rfl⟩ := Scan.prepend_eq_closed h
      obtain ⟨⟨rest, rfl⟩, hscan⟩ := ih hs
      have hb : b ≠ 92 := by
        rintro rfl
        cases raw with
        | nil => exact hesc _ _ rfl rfl
        | cons e raw => exact hesc _ _ rfl rfl
      refine ⟨⟨rest, rfl⟩, fun rest => ?_⟩
      rw [List.cons_append, List.nil_append, List.cons_append, scan_cons hquote hb, hscan,
        Scan.prepend]
      rfl

end StringLiteral

end CellScript
