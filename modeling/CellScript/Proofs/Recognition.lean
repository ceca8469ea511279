import CellScript.Proofs.Spellings

/-!
Tables are read without regard to order.

Both recognizers stop at the first row that decides. What they find is said here of
the rows as a set. A reserved word is the row with that spelling, in whatever bucket
it stands. An operator is the row with the longest spelling of all that begin the
text: where two rows begin it, the shorter spelling begins the longer one, so in a
readable table the longer one has been tried before.
-/

namespace CellScript

namespace Operator

/-! ### Specification -/

/-- The spelling of the row stands at the front of the input. Letters may be of any case, and no
byte of a word comes behind them; symbols stand as they are. -/
def Row.Begins (r : Row) (input : List UInt8) : Prop :=
  ∃ text rest, input = text ++ rest ∧
    if (Ascii.bytes r.spelling).all Ascii.isLetter then
      text.map Ascii.toLower = (Ascii.bytes r.spelling).map Ascii.toLower ∧
        rest.head?.any Ascii.isWordByte = false
    else text = Ascii.bytes r.spelling

def Row.length (r : Row) : Nat := (Ascii.bytes r.spelling).length

/-- Of all rows of the table that begin the input, this one has the longest spelling. -/
structure IsLongest (table : List Row) (input : List UInt8) (r : Row) : Prop where
  mem : r ∈ table
  begins : r.Begins input
  longest : ∀ r' ∈ table, r'.Begins input → r' = r ∨ r'.length < r.length

/-- A plus or minus stands directly before a digit or a point. -/
def SignsNumeral (input : List UInt8) : Prop :=
  ∃ sign b rest, input = sign :: b :: rest ∧ (sign = '+'.toUInt8 ∨ sign = '-'.toUInt8) ∧
    (Ascii.isDigit b = true ∨ b = '.'.toUInt8)

end Operator

/-- What can be found of a table at a cursor: the longest row, behind which the text goes on, or
nothing if no row begins the text. -/
inductive Cursor.FindsRow (table : List Operator.Row) (c : Cursor) :
    Option OperatorToken × Cursor → Prop
  | operator {r : Operator.Row} (h : Operator.IsLongest table c.rest r) :
      FindsRow table c (some ⟨r.operator, c.pos, c.pos + r.length⟩, c.advance r.length)
  | nothing (h : ∀ r ∈ table, ¬r.Begins c.rest) : FindsRow table c (none, c)

/-! ### Letters -/

theorem Ascii.toLower_of_isLower {b : UInt8} (h : isLower b = true) : toLower b = b := by
  have := forall_byte (p := fun b => !isLower b || toLower b == b) (by decide) b
  simpa [h] using this

namespace Operator

/-! ### The longest row -/

theorem match?_eq_none {table : List Row} {input : List UInt8} :
    match? table input = none ↔ ∀ r ∈ table, r.fits input = false := by
  simp [match?]

theorem IsLongest.unique {table : List Row} {input : List UInt8} {r r' : Row}
    (h : IsLongest table input r) (h' : IsLongest table input r') : r = r' := by
  obtain heq | hlt := h.longest r' h'.mem h'.begins
  · exact heq.symm
  · obtain heq | hgt := h'.longest r h.mem h.begins
    · exact heq
    · omega

namespace Readable

variable {table : List Row} {input : List UInt8} {r r' : Row} (hr : Readable table)

include hr

/-- In a readable table the first byte tells whether a spelling is in letters altogether. -/
theorem all_isLetter (hmem : r ∈ table) :
    (Ascii.bytes r.spelling).all Ascii.isLetter = isSpelled (Ascii.bytes r.spelling) := by
  have hlower := hr.lower r hmem
  have hne := hr.nonempty r hmem
  cases hs : Ascii.bytes r.spelling with
  | nil => exact absurd hs hne
  | cons b bs =>
      rw [hs] at hlower
      cases hb : Ascii.isLetter b with
      | false => simp [isSpelled, hb]
      | true =>
          have hall := List.all_eq_true.1 (hlower (by simp [isSpelled, hb]))
          have : ∀ x ∈ b :: bs, Ascii.isLetter x = true := fun x hx => by
            rw [Ascii.isLetter, hall x hx, Bool.or_true]
          rw [List.all_eq_true.2 this]
          simp [isSpelled, hb]

theorem fits_iff_begins (hmem : r ∈ table) : r.fits input = true ↔ r.Begins input := by
  rw [Row.fits_iff, Row.Begins, hr.all_isLetter hmem]
  simp only [Row.Spells]
  cases isSpelled (Ascii.bytes r.spelling) <;> simp

/-- Where letters are spelled, the row has them in lower case. -/
theorem eq_map_toLower {text : List UInt8} (hmem : r ∈ table) (h : r.Spells text)
    (hs : isSpelled text = true) : Ascii.bytes r.spelling = text.map Ascii.toLower := by
  rw [h.isSpelled_eq] at hs
  rw [Row.Spells, if_pos hs] at h
  have hlower := List.all_eq_true.1 (hr.lower r hmem hs)
  rw [h, List.map_congr_left fun b hb => Ascii.toLower_of_isLower (hlower b hb), List.map_id']

/-- Where one text of an operator begins another, the one spelling begins the other. -/
theorem isPrefixOf_of_spells {text text' : List UInt8} (hmem : r ∈ table) (hmem' : r' ∈ table)
    (h : r.Spells text) (h' : r'.Spells text') (hfront : text <+: text') :
    (Ascii.bytes r.spelling).isPrefixOf (Ascii.bytes r'.spelling) = true := by
  rw [List.isPrefixOf_iff_prefix]
  have hspelled : isSpelled text' = isSpelled text := by
    obtain ⟨m, rfl⟩ := hfront
    exact isSpelled_append (hr.ne_nil hmem h) m
  cases hs : isSpelled text with
  | true =>
      rw [hr.eq_map_toLower hmem h hs, hr.eq_map_toLower hmem' h' (hspelled.trans hs)]
      exact hfront.map _
  | false =>
      rwa [← h.eq_of_not_isSpelled hs, ← h'.eq_of_not_isSpelled (hspelled.trans hs)]

/-- Of two rows that fit, the one whose spelling does not begin the other is the longer one. -/
theorem length_lt_of_fits (hmem : r ∈ table) (hmem' : r' ∈ table) (hfits : r.fits input = true)
    (hfits' : r'.fits input = true)
    (hno : (Ascii.bytes r.spelling).isPrefixOf (Ascii.bytes r'.spelling) = false) :
    r'.length < r.length := by
  obtain ⟨text, rest, rfl, h, -⟩ := Row.fits_iff.1 hfits
  obtain ⟨text', rest', happ, h', -⟩ := Row.fits_iff.1 hfits'
  refine Nat.lt_of_not_le fun hle => ?_
  rw [Row.length, Row.length, ← h.length, ← h'.length] at hle
  have hfront : text <+: text' :=
    List.prefix_of_prefix_length_le (List.prefix_append text rest) ⟨rest', happ.symm⟩ hle
  rw [hr.isPrefixOf_of_spells hmem hmem' h h' hfront] at hno
  cases hno

/-- The first row that fits is the longest. -/
theorem isLongest_of_first {before after : List Row} (htable : table = before ++ r :: after)
    (hbefore : ∀ r' ∈ before, r'.fits input = false) (hfits : r.fits input = true) :
    IsLongest table input r := by
  have hmem : r ∈ table := by simp [htable]
  refine ⟨hmem, (hr.fits_iff_begins hmem).1 hfits, fun r' hmem' hbegins => ?_⟩
  have hfits' := (hr.fits_iff_begins hmem').2 hbegins
  rw [htable] at hmem'
  obtain hin | hin := List.mem_append.1 hmem'
  · rw [hbefore r' hin] at hfits'
    cases hfits'
  · obtain rfl | hin := List.mem_cons.1 hin
    · exact .inl rfl
    · have hordered := (List.pairwise_append.1 (htable ▸ hr.ordered)).2.1
      have hno := (List.pairwise_cons.1 hordered).1 r' hin
      exact .inr (hr.length_lt_of_fits hmem (by simp [htable, hin]) hfits hfits' hno)

/-- What a readable table gives depends on its rows alone, not on their order. -/
theorem findsRow (c : Cursor) : c.skipBlank.FindsRow table (c.operator table) := by
  simp only [Cursor.operator]
  cases hmatch : match? table c.skipBlank.rest with
  | none =>
      refine .nothing fun r hmem hbegins => ?_
      have hfits := (hr.fits_iff_begins hmem).2 hbegins
      rw [match?_eq_none.1 hmatch r hmem] at hfits
      cases hfits
  | some p =>
      obtain ⟨o, n⟩ := p
      obtain ⟨before, r, after, htable, hbefore, hfits, ho, hlength⟩ := match?_eq_some.1 hmatch
      subst ho hlength
      exact .operator (hr.isLongest_of_first htable hbefore hfits)

end Readable

theorem isSignedNumeral_iff {input : List UInt8} :
    isSignedNumeral input = true ↔ SignsNumeral input := by
  have hplus : '+'.toUInt8 = 43 := rfl
  have hminus : '-'.toUInt8 = 45 := rfl
  have hpoint : '.'.toUInt8 = 46 := rfl
  simp only [SignsNumeral, hplus, hminus, hpoint]
  constructor
  · intro h
    match input with
    | sign :: b :: rest => exact ⟨sign, b, rest, rfl, by simpa [isSignedNumeral] using h⟩
  · rintro ⟨sign, b, rest, rfl, h⟩
    simpa [isSignedNumeral] using h

end Operator

namespace Cursor

theorem FindsRow.unique {table : List Operator.Row} {c : Cursor}
    {found found' : Option OperatorToken × Cursor} (h : c.FindsRow table found)
    (h' : c.FindsRow table found') : found = found' := by
  cases h with
  | operator h =>
      cases h' with
      | operator h' => rw [h.unique h']
      | nothing hnone => exact absurd h.begins (hnone _ h.mem)
  | nothing hnone =>
      cases h' with
      | operator h' => exact absurd h'.begins (hnone _ h'.mem)
      | nothing => rfl

theorem operator_eq_iff {table : List Operator.Row} (hr : Operator.Readable table) {c : Cursor}
    {found : Option OperatorToken × Cursor} :
    c.operator table = found ↔ c.skipBlank.FindsRow table found := by
  constructor
  · rintro rfl
    exact hr.findsRow c
  · exact (hr.findsRow c).unique

/-- Words and operators are found as the rows of their tables say, in whatever order these
stand. A word is reserved if some bucket has a row with its very spelling, and means what that
row says. Behind blanks, an operator is the longest of all rows that begin the text, or there is
none if no row does; in front of an operand, a sign before a digit or a point is none either. -/
theorem recognizers_order_free (word : List UInt8) (c : Cursor) :
    (∀ k, Keyword.lookup? word = some k ↔
      ∃ r ∈ Keyword.rows, Ascii.bytes r.spelling = word ∧ r.keyword = k) ∧
    (Keyword.lookup? word = none ↔ ∀ r ∈ Keyword.rows, Ascii.bytes r.spelling ≠ word) ∧
    (∀ found, c.binaryOperator = found ↔ c.skipBlank.FindsRow Operator.binary found) ∧
    ∀ found, c.unaryOperator = found ↔
      Operator.SignsNumeral c.skipBlank.rest ∧ found = (none, c.skipBlank) ∨
      ¬Operator.SignsNumeral c.skipBlank.rest ∧ c.skipBlank.FindsRow Operator.unary found := by
  refine ⟨fun k => Keyword.lookup?_eq_some_iff, Keyword.lookup?_eq_none_iff,
    fun found => operator_eq_iff Operator.readable_binary, fun found => ?_⟩
  simp only [unaryOperator]
  by_cases hsign : Operator.SignsNumeral c.skipBlank.rest
  · rw [if_pos (Operator.isSignedNumeral_iff.2 hsign), eq_comm]
    simp [hsign]
  · rw [if_neg (mt Operator.isSignedNumeral_iff.1 hsign),
      operator_eq_iff Operator.readable_unary, skipBlank_idem]
    simp [hsign]

example : (binaryOperator ⟨0, Ascii.bytes " >>>= x"⟩).1 = some ⟨⟨.asr, 2, 8⟩, 1, 4⟩ := by decide

end Cursor

end CellScript
