import CellScript.Proofs.Spellings

/-!
String literals as they are written.

A literal is looked at twice. The scanner goes through it byte by byte up to the
closing quote, counts what the literal stands for and refuses a backslash that begins
no escape. The text between the quotes is unescaped later on, by a function that takes
such a backslash as it is. `StringLiteral.Writes` says without either of them what a
literal may look like: a quote and a backslash have a backslash in front, a tab and a
line feed may be escaped or stand as they are, and every other byte stands for itself.

Every text is such a piece and something that the piece cannot go on with
(`StringLiteral.Halts`). What that is decides what the scanner finds.
-/

namespace CellScript

namespace StringLiteral

/-- The bytes that can be escaped, each with what stands behind the backslash. -/
def escapes : List (UInt8 × UInt8) := [(9, 116), (10, 110), (34, 34), (92, 92)]

/-- Between quotes, the second text stands for the first one. -/
inductive Writes : List UInt8 → List UInt8 → Prop
  | nil : Writes [] []
  | plain {b : UInt8} {bytes raw : List UInt8} :
      b ≠ 34 → b ≠ 92 → Writes bytes raw → Writes (b :: bytes) (b :: raw)
  | escape {b e : UInt8} {bytes raw : List UInt8} :
      (b, e) ∈ escapes → Writes bytes raw → Writes (b :: bytes) (92 :: e :: raw)

/-- What no piece of a literal goes on with. -/
inductive Halts : List UInt8 → Prop
  | ended : Halts []
  | broken : Halts [92]
  | quote (more : List UInt8) : Halts (34 :: more)
  | unknown {e : UInt8} (more : List UInt8) : e ∉ escapes.map Prod.snd → Halts (92 :: e :: more)

/-! ### Escapes -/

theorem unescapeByte?_eq_some {e b : UInt8} : unescapeByte? e = some b ↔ (b, e) ∈ escapes := by
  simp only [unescapeByte?, escapes, List.mem_cons, Prod.mk.injEq, List.not_mem_nil, or_false]
  grind

theorem unescapeByte?_eq_none {e : UInt8} :
    unescapeByte? e = none ↔ e ∉ escapes.map Prod.snd := by
  rw [Option.eq_none_iff_forall_ne_some]
  simp [unescapeByte?_eq_some]

theorem exists_writes (bytes : List UInt8) : ∃ raw, Writes bytes raw := by
  induction bytes with
  | nil => exact ⟨[], .nil⟩
  | cons b bytes ih =>
      obtain ⟨raw, h⟩ := ih
      by_cases hb : b = 34 ∨ b = 92
      · refine ⟨92 :: b :: raw, .escape ?_ h⟩
        rcases hb with rfl | rfl <;> decide
      · rw [not_or] at hb
        exact ⟨b :: raw, .plain hb.1 hb.2 h⟩

theorem Writes.unescape {bytes raw : List UInt8} (h : Writes bytes raw) :
    StringLiteral.unescape raw = bytes := by
  induction h with
  | nil => rfl
  | plain _ hb _ ih => rw [unescape_cons hb, ih]
  | escape he _ ih => rw [unescape_escape (unescapeByte?_eq_some.2 he), ih]

/-! ### Scanning -/

theorem Scan.prepend_nil (r : Scan) : r.prepend [] = r := by
  cases r <;> simp [prepend]

theorem Scan.prepend_append (r : Scan) (as bs : List UInt8) :
    r.prepend (as ++ bs) = (r.prepend bs).prepend as := by
  cases r <;> simp [prepend, Nat.add_assoc]

/-- The scanner passes a written piece, and keeps the count and the last byte of what it
stands for. -/
theorem Writes.scan {bytes raw : List UInt8} (h : Writes bytes raw) (n : Nat) (last : UInt8)
    (rest : List UInt8) : StringLiteral.scan n last (raw ++ rest) =
      (StringLiteral.scan (n + bytes.length) (bytes.getLastD last) rest).prepend raw := by
  induction h generalizing n last with
  | nil => exact (Scan.prepend_nil _).symm
  | @plain b bytes raw hquote hb _ ih =>
      rw [List.cons_append, scan_cons hquote hb, ih, ← Scan.prepend_append, List.getLastD_cons,
        List.length_cons, Nat.add_right_comm, ← Nat.add_assoc]
      rfl
  | @escape b e bytes raw he _ ih =>
      rw [List.cons_append, List.cons_append, StringLiteral.scan, unescapeByte?_eq_some.2 he]
      simp only [ih]
      rw [← Scan.prepend_append, List.getLastD_cons, List.length_cons, Nat.add_right_comm,
        ← Nat.add_assoc]
      rfl

/-- Every text is a written piece as long as it goes, and what it does not go on with. -/
theorem exists_halts (bs : List UInt8) :
    ∃ bytes raw rest, bs = raw ++ rest ∧ Writes bytes raw ∧ Halts rest := by
  have hplain {b : UInt8} {bs : List UInt8} (hb : b ≠ 92)
      (h : ∃ bytes raw rest, bs = raw ++ rest ∧ Writes bytes raw ∧ Halts rest) :
      ∃ bytes raw rest, b :: bs = raw ++ rest ∧ Writes bytes raw ∧ Halts rest := by
    by_cases hquote : b = 34
    · subst hquote
      exact ⟨[], [], _, rfl, .nil, .quote bs⟩
    · obtain ⟨bytes, raw, rest, rfl, hw, hh⟩ := h
      exact ⟨b :: bytes, b :: raw, rest, rfl, .plain hquote hb hw, hh⟩
  -- Unescaping goes through a text in the steps that a piece is made of.
  fun_induction StringLiteral.unescape bs with
  | case1 => exact ⟨[], [], [], rfl, .nil, .ended⟩
  | case2 b =>
      by_cases hb : b = 92
      · subst hb
        exact ⟨[], [], [92], rfl, .nil, .broken⟩
      · exact hplain hb ⟨[], [], [], rfl, .nil, .ended⟩
  | case3 e bs c he ih =>
      obtain ⟨bytes, raw, rest, rfl, hw, hh⟩ := ih
      exact ⟨c :: bytes, 92 :: e :: raw, rest, rfl, .escape (unescapeByte?_eq_some.1 he) hw, hh⟩
  | case4 e bs he => exact ⟨[], [], _, rfl, .nil, .unknown bs (unescapeByte?_eq_none.1 he)⟩
  | case5 b e bs hb ih => exact hplain hb ih

end StringLiteral

/-! ### The recognizer -/

/-- The token of a literal, by the bytes that it stands for. -/
def StringToken.ofBytes (start : Nat) (raw bytes : List UInt8) : StringToken :=
  match bytes with
  | [] => .empty
  | [b] => .char b
  | _ => .long start raw bytes.length

namespace Cursor

open StringLiteral

variable {c : Cursor} {bytes raw more : List UInt8}

theorem string_of_quote (h : Writes bytes raw)
    (hrest : c.skipBlank.rest = 34 :: (raw ++ 34 :: more)) :
    scan 0 0 (raw ++ 34 :: more) = .closed raw bytes.length (bytes.getLastD 0) ∧
      c.string = .ok (some (.ofBytes (c.skipBlank.pos + 1) raw bytes))
        ⟨c.skipBlank.pos + raw.length + 2, more⟩ := by
  have hscan : scan 0 0 (raw ++ 34 :: more) = .closed raw bytes.length (bytes.getLastD 0) := by
    simp [h.scan, scan, Scan.prepend]
  refine ⟨hscan, ?_⟩
  simp only [string, hrest, hscan, advance]
  rw [List.drop_succ_cons, show raw.length + 1 = (raw ++ [34]).length by simp,
    show raw ++ 34 :: more = (raw ++ [34]) ++ more by simp, List.drop_left, ← Nat.add_assoc]
  rcases bytes with _ | ⟨b, _ | ⟨b', bytes⟩⟩
  · rfl
  · rfl
  · rfl

theorem string_of_unknown {e : UInt8} (h : Writes bytes raw) (he : e ∉ escapes.map Prod.snd)
    (hrest : c.skipBlank.rest = 34 :: (raw ++ 92 :: e :: more)) :
    ∃ start stop, c.string = .error ⟨.invalidEscape e, start, stop⟩ c.skipBlank := by
  have hscan : scan 0 0 (raw ++ 92 :: e :: more) = .invalidEscape raw.length e := by
    simp [h.scan, scan, unescapeByte?_eq_none.2 he, Scan.prepend]
  simp only [string, hrest, hscan]
  exact ⟨_, _, rfl⟩

theorem string_of_end (h : Writes bytes raw)
    (hrest : c.skipBlank.rest = 34 :: raw ∨ c.skipBlank.rest = 34 :: (raw ++ [92])) :
    ∃ start stop, c.string = .error ⟨.missingQuote, start, stop⟩ c.skipBlank := by
  have hscan (tail : List UInt8) (htail : tail = [] ∨ tail = [92]) :
      scan 0 0 (raw ++ tail) = .unterminated (raw.length + tail.length) := by
    rw [h.scan]
    rcases htail with rfl | rfl <;> rfl
  rcases hrest with hrest | hrest
  · rw [← List.append_nil raw] at hrest
    simp only [string, hrest, hscan [] (.inl rfl)]
    exact ⟨_, _, rfl⟩
  · simp only [string, hrest, hscan [92] (.inr rfl)]
    exact ⟨_, _, rfl⟩

/-- What the recognizer can find behind the blanks, and what it says then. -/
inductive Finds (c : Cursor) : Prop
  | other : c.string = .ok none c.skipBlank → Finds c
  | literal {bytes raw more : List UInt8} : Writes bytes raw →
      c.skipBlank.rest = 34 :: (raw ++ 34 :: more) →
      c.string = .ok (some (.ofBytes (c.skipBlank.pos + 1) raw bytes))
        ⟨c.skipBlank.pos + raw.length + 2, more⟩ → Finds c
  | unknown {bytes raw more : List UInt8} {e : UInt8} {start stop : Nat} : Writes bytes raw →
      e ∉ escapes.map Prod.snd → c.skipBlank.rest = 34 :: (raw ++ 92 :: e :: more) →
      c.string = .error ⟨.invalidEscape e, start, stop⟩ c.skipBlank → Finds c
  | ended {bytes raw : List UInt8} {start stop : Nat} : Writes bytes raw →
      c.skipBlank.rest = 34 :: raw ∨ c.skipBlank.rest = 34 :: (raw ++ [92]) →
      c.string = .error ⟨.missingQuote, start, stop⟩ c.skipBlank → Finds c

theorem finds (c : Cursor) : Finds c := by
  by_cases hquote : ∃ bs, c.skipBlank.rest = 34 :: bs
  · obtain ⟨bs, hbs⟩ := hquote
    obtain ⟨bytes, raw, rest, rfl, hw, hh⟩ := exists_halts bs
    rcases hh with _ | _ | more | ⟨more, he⟩
    · rw [List.append_nil] at hbs
      obtain ⟨start, stop, h⟩ := string_of_end hw (.inl hbs)
      exact .ended hw (.inl hbs) h
    · obtain ⟨start, stop, h⟩ := string_of_end hw (.inr hbs)
      exact .ended hw (.inr hbs) h
    · exact .literal hw hbs (string_of_quote hw hbs).2
    · obtain ⟨start, stop, h⟩ := string_of_unknown hw he hbs
      exact .unknown hw he hbs h
  · refine .other ?_
    simp only [string]
    split
    · exact absurd ⟨_, ‹_›⟩ hquote
    · rfl

/-- What is read as a literal is one that writes what its text unescapes to. -/
theorem string_eq_some {t : StringToken} {c' : Cursor} (h : c.string = .ok (some t) c') :
    ∃ raw more, c.skipBlank.rest = 34 :: (raw ++ 34 :: more) ∧ Writes (unescape raw) raw ∧
      scan 0 0 (raw ++ 34 :: more) =
        .closed raw (unescape raw).length ((unescape raw).getLastD 0) ∧
      t = .ofBytes (c.skipBlank.pos + 1) raw (unescape raw) ∧
      c' = ⟨c.skipBlank.pos + raw.length + 2, more⟩ := by
  rcases c.finds with h' | ⟨hw, hrest, h'⟩ | ⟨-, -, -, h'⟩ | ⟨-, -, h'⟩ <;> rw [h'] at h
  · simp at h
  · simp only [EStateM.Result.ok.injEq, Option.some.injEq] at h
    obtain rfl := hw.unescape
    exact ⟨_, _, hrest, hw, (string_of_quote hw hrest).1, h.1.symm, h.2.symm⟩
  · simp at h
  · simp at h

/-- Whatever is refused is refused for one of two reasons, and only blanks are passed then. -/
theorem string_eq_error {e : CompileError} {c' : Cursor} (h : c.string = .error e c') :
    c' = c.skipBlank ∧
      (e.cause.number = 103 ∧ (∃ bytes raw e more, Writes bytes raw ∧
        e ∉ escapes.map Prod.snd ∧ c.skipBlank.rest = 34 :: (raw ++ 92 :: e :: more)) ∨
      e.cause.number = 102 ∧ ∃ bytes raw, Writes bytes raw ∧
        (c.skipBlank.rest = 34 :: raw ∨ c.skipBlank.rest = 34 :: (raw ++ [92]))) := by
  rcases c.finds with h' | ⟨-, -, h'⟩ | ⟨hw, he, hrest, h'⟩ | ⟨hw, hrest, h'⟩ <;> rw [h'] at h
  · cases h
  · cases h
  · cases h
    exact ⟨rfl, .inl ⟨rfl, _, _, _, _, hw, he, hrest⟩⟩
  · cases h
    exact ⟨rfl, .inr ⟨rfl, _, _, hw, hrest⟩⟩

/-- A literal that writes a byte sequence is read as that sequence. What is read as a
literal is one that writes what its text unescapes to, and the scanner has counted those
bytes and kept the last of them. Every other text behind a quote is refused: for an
unknown escape in front of the first closing quote with 103, for its end with 102, and
only blanks are passed then. -/
theorem string_reads_back (c : Cursor) :
    (∀ bytes, (∃ raw, Writes bytes raw) ∧ ∀ raw more, Writes bytes raw →
      c.skipBlank.rest = 34 :: (raw ++ 34 :: more) →
        c.string = .ok (some (.ofBytes (c.skipBlank.pos + 1) raw bytes))
          ⟨c.skipBlank.pos + raw.length + 2, more⟩ ∧ unescape raw = bytes) ∧
    (∀ t c', c.string = .ok (some t) c' → ∃ raw more,
      c.skipBlank.rest = 34 :: (raw ++ 34 :: more) ∧ Writes (unescape raw) raw ∧
      scan 0 0 (raw ++ 34 :: more) =
        .closed raw (unescape raw).length ((unescape raw).getLastD 0) ∧
      t = .ofBytes (c.skipBlank.pos + 1) raw (unescape raw) ∧
      c' = ⟨c.skipBlank.pos + raw.length + 2, more⟩) ∧
    ((∃ e c', c.string = .error e c' ∧ e.cause.number = 103) ↔
      ∃ bytes raw e more, Writes bytes raw ∧ e ∉ escapes.map Prod.snd ∧
        c.skipBlank.rest = 34 :: (raw ++ 92 :: e :: more)) ∧
    ((∃ e c', c.string = .error e c' ∧ e.cause.number = 102) ↔
      ∃ bytes raw, Writes bytes raw ∧
        (c.skipBlank.rest = 34 :: raw ∨ c.skipBlank.rest = 34 :: (raw ++ [92]))) ∧
    (∀ e c', c.string = .error e c' →
      c' = c.skipBlank ∧ (e.cause.number = 102 ∨ e.cause.number = 103)) := by
  refine ⟨fun bytes => ⟨exists_writes bytes, fun raw more hw hrest =>
    ⟨(string_of_quote hw hrest).2, hw.unescape⟩⟩, fun t c' h => string_eq_some h, ⟨?_, ?_⟩,
    ⟨?_, ?_⟩, ?_⟩
  · rintro ⟨e, c', h, hnumber⟩
    obtain ⟨-, ⟨-, hunknown⟩ | ⟨hended, -⟩⟩ := string_eq_error h
    · exact hunknown
    · rw [hended] at hnumber
      cases hnumber
  · rintro ⟨bytes, raw, e, more, hw, he, hrest⟩
    obtain ⟨start, stop, h⟩ := string_of_unknown hw he hrest
    exact ⟨_, _, h, rfl⟩
  · rintro ⟨e, c', h, hnumber⟩
    obtain ⟨-, ⟨hunknown, -⟩ | ⟨-, hended⟩⟩ := string_eq_error h
    · rw [hunknown] at hnumber
      cases hnumber
    · exact hended
  · rintro ⟨bytes, raw, hw, hrest⟩
    obtain ⟨start, stop, h⟩ := string_of_end hw hrest
    exact ⟨_, _, h, rfl⟩
  · intro e c' h
    obtain ⟨hskip, ⟨hnumber, -⟩ | ⟨hnumber, -⟩⟩ := string_eq_error h
    · exact ⟨hskip, .inr hnumber⟩
    · exact ⟨hskip, .inl hnumber⟩

/-- The literal ` "a\"\té"` of five bytes, with one blank in front and a semicolon behind. -/
theorem string_reads_back_of_escapes :
    (⟨4, [32, 34, 97, 92, 34, 92, 116, 195, 169, 34, 59]⟩ : Cursor).string =
        .ok (some (.long 6 [97, 92, 34, 92, 116, 195, 169] 5)) ⟨14, [59]⟩ ∧
      unescape [97, 92, 34, 92, 116, 195, 169] = [97, 34, 9, 195, 169] := by
  have hw : Writes [97, 34, 9, 195, 169] [97, 92, 34, 92, 116, 195, 169] :=
    .plain (by decide) (by decide) (.escape (by decide) (.escape (by decide)
      (.plain (by decide) (by decide) (.plain (by decide) (by decide) .nil))))
  exact ((string_reads_back ⟨4, [32, 34, 97, 92, 34, 92, 116, 195, 169, 34, 59]⟩).1 _).2
    _ [59] hw rfl

end Cursor

end CellScript
