import CellScript.Proofs.Spellings

/-!
Where tokens stand.

A token stands at a place of the text if its bytes follow the blanks there and it
does not absorb the byte behind them. Every recognizer of the compiler finds a
token exactly where one of its kind stands. A place is either one where an operand
is wanted or one behind an operand, and at each of them at most one token stands:
no recognizer that is tried earlier takes the token of a later one away.
-/

namespace CellScript

/-! ### Blanks -/

namespace Cursor

theorem skipBlankFrom_append {blanks rest : List UInt8} (hb : blanks.all Ascii.isBlank = true)
    (hr : rest.head?.any Ascii.isBlank = false) (pos : Nat) :
    skipBlankFrom pos (blanks ++ rest) = ⟨pos + blanks.length, rest⟩ := by
  induction blanks generalizing pos with
  | nil =>
      cases rest with
      | nil => rfl
      | cons b rest => simp_all [skipBlankFrom]
  | cons b blanks ih =>
      simp only [List.all_cons, Bool.and_eq_true] at hb
      rw [List.cons_append, skipBlankFrom, if_pos hb.1, ih hb.2, List.length_cons]
      congr 1
      omega

theorem skipBlankFrom_split (pos : Nat) (bs : List UInt8) :
    ∃ blanks, blanks.all Ascii.isBlank = true ∧ bs = blanks ++ (skipBlankFrom pos bs).rest ∧
      (skipBlankFrom pos bs).pos = pos + blanks.length ∧
      (skipBlankFrom pos bs).rest.head?.any Ascii.isBlank = false := by
  induction bs generalizing pos with
  | nil => exact ⟨[], rfl, rfl, rfl, rfl⟩
  | cons b bs ih =>
      by_cases hb : Ascii.isBlank b = true
      · obtain ⟨blanks, hall, hbs, hpos, hhead⟩ := ih (pos + 1)
        rw [skipBlankFrom, if_pos hb]
        refine ⟨b :: blanks, by simp [hb, hall], by rw [List.cons_append, ← hbs], ?_, hhead⟩
        rw [hpos, List.length_cons]
        omega
      · rw [skipBlankFrom, if_neg hb]
        exact ⟨[], rfl, rfl, rfl, by simpa using hb⟩

/-- The bytes that are passed are blanks, and the next one is none. -/
theorem skipBlank_split (c : Cursor) :
    ∃ blanks, blanks.all Ascii.isBlank = true ∧ c.rest = blanks ++ c.skipBlank.rest ∧
      c.skipBlank.pos = c.pos + blanks.length ∧
      c.skipBlank.rest.head?.any Ascii.isBlank = false :=
  skipBlankFrom_split c.pos c.rest

@[simp] theorem unaryOperator_skipBlank (c : Cursor) :
    c.skipBlank.unaryOperator = c.unaryOperator := by
  simp [unaryOperator]

@[simp] theorem binaryOperator_skipBlank (c : Cursor) :
    c.skipBlank.binaryOperator = c.binaryOperator := by
  simp [binaryOperator, operator]

end Cursor

/-! ### Tokens at a place -/

/-- The token stands behind the blanks at `c`, and the text goes on at `c'`. -/
structure Token.Stands (t : Token) (c c' : Cursor) : Prop where
  text : c.skipBlank.rest = t.bytes ++ c'.rest
  pos : c'.pos = c.skipBlank.pos + t.bytes.length
  ends : c'.rest.head?.all (fun b => !t.absorbs b) = true

namespace Token

variable {t : Token} {c c' : Cursor}

theorem stands_skipBlank : t.Stands c.skipBlank c' ↔ t.Stands c c' := by
  constructor
  all_goals
    rintro ⟨htext, hpos, hends⟩
    exact ⟨by simpa using htext, by simpa using hpos, hends⟩

theorem stands_advance (rest : List UInt8) (h : c.skipBlank.rest = t.bytes ++ rest)
    (hends : rest.head?.all (fun b => !t.absorbs b) = true) :
    t.Stands c (c.skipBlank.advance t.bytes.length) := by
  have hrest : (c.skipBlank.advance t.bytes.length).rest = rest := by simp [Cursor.advance, h]
  exact ⟨by rw [hrest, h], rfl, by rwa [hrest]⟩

theorem Stands.eq_advance (h : t.Stands c c') : c' = c.skipBlank.advance t.bytes.length := by
  have hrest : (c.skipBlank.advance t.bytes.length).rest = c'.rest := by
    simp [Cursor.advance, h.text]
  cases c'
  simp only [Cursor.mk.injEq, Cursor.advance] at *
  exact ⟨h.pos, hrest.symm⟩

theorem Stands.head? (h : t.Stands c c') {b : UInt8} (hb : t.bytes.head? = some b) :
    c.skipBlank.rest.head? = some b := by
  rw [h.text, List.head?_append, hb, Option.some_or]

end Token

/-! ### Punctuation and words -/

namespace Cursor

variable {c c' : Cursor}

theorem symbol_iff {b : UInt8} : c.symbol b = (true, c') ↔ (Token.symbol b).Stands c c' := by
  simp only [symbol]
  constructor
  · intro h
    split at h
    · rename_i hb
      obtain ⟨rest, hrest⟩ : ∃ rest, c.skipBlank.rest = b :: rest := List.head?_eq_some_iff.1 hb
      obtain ⟨-, rfl⟩ := Prod.mk.inj h
      exact Token.stands_advance (t := .symbol b) rest hrest (by cases rest <;> rfl)
    · cases h
  · intro h
    rw [if_pos (h.head? rfl), h.eq_advance]
    rfl

theorem symbol_none {b : UInt8} (h : c.skipBlank.rest.head? ≠ some b) :
    c.symbol b = (false, c.skipBlank) := by
  rw [symbol, if_neg h]

theorem word_iff {w : WordToken} :
    c.word = (some w, c') ↔ (Token.word w.bytes).Stands c c' ∧ Ascii.isWord w.bytes = true ∧
      w.start = c.skipBlank.pos := by
  simp only [word]
  constructor
  · intro h
    split at h
    · rename_i hstart
      cases h
      refine ⟨Token.stands_advance (t := .word _) _ (List.takeWhile_append_dropWhile ..).symm ?_,
        ?_, rfl⟩
      · have := List.head?_dropWhile_not Ascii.isWordByte c.skipBlank.rest
        cases hd : (c.skipBlank.rest.dropWhile Ascii.isWordByte).head? <;> simp_all [Token.absorbs]
      · cases hr : c.skipBlank.rest with
        | nil => simp [hr] at hstart
        | cons b bs =>
            have hb : Ascii.isWordStart b = true := by simpa [hr] using hstart
            have hb' : Ascii.isWordByte b = true := by simp [Ascii.isWordByte, hb]
            simp [Ascii.isWord, hb, hb', List.all_takeWhile]
    · cases h
  · rintro ⟨h, hword, hstart⟩
    obtain ⟨hhead, hall⟩ : w.bytes.head?.any Ascii.isWordStart = true ∧
        w.bytes.all Ascii.isWordByte = true := by simpa [Ascii.isWord] using hword
    have hends : c'.rest.head?.any Ascii.isWordByte = false := by
      have := h.ends
      cases hr : c'.rest.head? <;> simp_all [Token.absorbs]
    have hfirst : c.skipBlank.rest.head?.any Ascii.isWordStart = true := by
      cases hb : w.bytes.head? with
      | none => simp [hb] at hhead
      | some b => rwa [h.head? hb, ← hb]
    have htake : c.skipBlank.rest.takeWhile Ascii.isWordByte = w.bytes := by
      rw [h.text, Token.bytes, List.takeWhile_append_of_pos (List.all_eq_true.1 hall)]
      cases hr : c'.rest <;> simp_all
    rw [if_pos hfirst, htake, h.eq_advance, ← hstart]
    rfl

theorem word_none_of_head? (h : c.skipBlank.rest.head?.any Ascii.isWordStart = false) :
    c.word = (none, c.skipBlank) := by
  rw [word, if_neg (by simp [h])]

/-! ### Literals -/

theorem number_iff {t : NumberToken} :
    c.number = .ok (some t) c' ↔ ∃ n : Phrase.Numeral, (Token.numeral n.text).Stands c c' ∧
      t = ⟨n.value, c.skipBlank.pos, c'.pos⟩ := by
  constructor
  · intro h
    simp only [number] at h
    split at h
    · cases h
    · cases h
    · rename_i text hscan
      cases h
      obtain ⟨rest, hrest, htext, hends⟩ := Numeral.scan_split (.inr hscan)
      exact ⟨⟨text, _, Numeral.value?_eq_some.2 (.inr ⟨htext.trans hscan, rfl⟩)⟩,
        Token.stands_advance (t := .numeral text) rest hrest hends, rfl⟩
    · rename_i text hscan
      split at h
      · rename_i n hn
        cases h
        obtain ⟨rest, hrest, htext, hends⟩ := Numeral.scan_split (.inl hscan)
        exact ⟨⟨text, _, Numeral.value?_eq_some.2 (.inl ⟨htext.trans hscan, by rw [hn]; rfl⟩)⟩,
          Token.stands_advance (t := .numeral text) rest hrest hends, rfl⟩
      · cases h
  · rintro ⟨⟨text, v, hv⟩, h, rfl⟩
    have hinput : c.skipBlank.rest = text ++ c'.rest := h.text
    obtain rfl : c' = c.skipBlank.advance text.length := h.eq_advance
    obtain ⟨hscan, hint⟩ | ⟨hscan, rfl⟩ := Numeral.value?_eq_some.1 hv
    · obtain ⟨n, hn, rfl⟩ := Option.map_eq_some_iff.1 hint
      have := Numeral.scan_append (.inl hscan) h.ends
      simp only [number, hinput, this, hscan, hn]
      rfl
    · have := Numeral.scan_append (.inr hscan) h.ends
      simp only [number, hinput, this, hscan]
      rfl

theorem number_none_of_head? {b : UInt8} (h : c.skipBlank.rest.head? = some b)
    (hdigit : Ascii.isDigit b = false) (hb : b ∉ [43, 45, 46]) :
    c.number = .ok none c.skipBlank := by
  have habs : Numeral.scan c.skipBlank.rest = .absent := by
    refine Decidable.byContradiction fun hne => ?_
    obtain ⟨sign, b', body, hrest, hs, hb'⟩ := Numeral.scan_head hne
    rw [hrest] at h
    obtain rfl | rfl | rfl := hs
    all_goals cases h
    · simp_all
    · simp at hb
    · simp at hb
  simp [number, habs]

end Cursor

/-- The token of a string literal whose text begins at `start`. -/
def Phrase.Quoted.token (q : Quoted) (start : Nat) : StringToken :=
  match q.length with
  | 0 => .empty
  | 1 => .char q.last
  | _ => .long start q.raw q.length

namespace Cursor

variable {c c' : Cursor}

theorem string_iff {t : StringToken} :
    c.string = .ok (some t) c' ↔ ∃ q : Phrase.Quoted, (Token.quoted q.raw).Stands c c' ∧
      t = q.token (c.skipBlank.pos + 1) := by
  constructor
  · intro h
    simp only [string] at h
    split at h
    · rename_i bs hbs
      split at h
      · rename_i raw length last hscan
        cases h
        obtain ⟨⟨rest, rfl⟩, hclosed⟩ := StringLiteral.scan_split hscan
        refine ⟨⟨raw, length, last, hclosed []⟩, ?_, rfl⟩
        have := Token.stands_advance (t := .quoted raw) (c := c) rest
          (by simpa [Token.bytes] using hbs) (by cases rest <;> rfl)
        simpa [Token.bytes] using this
      · cases h
      · cases h
    · cases h
  · rintro ⟨⟨raw, length, last, hclosed⟩, h, rfl⟩
    have hinput : c.skipBlank.rest = 34 :: (raw ++ 34 :: c'.rest) := by
      simpa [Token.bytes] using h.text
    have hscan := (StringLiteral.scan_split hclosed).2 c'.rest
    obtain rfl : c' = c.skipBlank.advance (raw.length + 2) := by
      simpa [Token.bytes] using h.eq_advance
    simp only [string, hinput, hscan]
    rfl

theorem string_none_of_head? (h : c.skipBlank.rest.head? ≠ some 34) :
    c.string = .ok none c.skipBlank := by
  simp only [string]
  split
  · rename_i bs hbs
    simp [hbs] at h
  · rfl

end Cursor

/-! ### Operators -/

theorem Phrase.Sign.spells {table : List Operator.Row} (o : Sign table) :
    ∃ r ∈ table, r.Spells o.text := by
  obtain ⟨before, r, after, htable, -, hspells, -⟩ := Operator.match?_self o.reads
  exact ⟨r, by simp [htable], hspells⟩

theorem Phrase.Sign.text_unary (o : Sign Operator.unary) :
    o.text = [45] ∨ o.text = [126] ∨
      (Operator.isSpelled o.text = true ∧ o.text.map Ascii.toLower = Ascii.bytes "not") := by
  obtain ⟨r, hr, hspells⟩ := o.spells
  have hsame := hspells.isSpelled_eq
  simp only [Operator.unary, List.mem_cons, List.not_mem_nil, or_false] at hr
  obtain rfl | rfl | rfl := hr
  · exact .inl (hspells.eq_of_not_isSpelled hsame)
  · exact .inr (.inl (hspells.eq_of_not_isSpelled hsame))
  · exact .inr (.inr ⟨hsame, hspells⟩)

namespace Cursor

variable {c c' : Cursor} {table : List Operator.Row}

theorem operator_iff (hr : Operator.Readable table) {t : OperatorToken} :
    c.operator table = (some t, c') ↔ ∃ o : Phrase.Sign table,
      c.skipBlank.rest = o.text ++ c'.rest ∧ c'.pos = c.skipBlank.pos + o.text.length ∧
      c'.rest.head?.all (fun b => !Operator.goesOn table o.text b) = true ∧
      t = ⟨o.operator, c.skipBlank.pos, c'.pos⟩ := by
  simp only [operator]
  constructor
  · intro h
    split at h
    · rename_i o n hmatch
      cases h
      obtain ⟨text, rest, hinput, rfl, hreads, hends⟩ := hr.match?_split hmatch
      have hrest : (c.skipBlank.advance text.length).rest = rest := by simp [advance, hinput]
      exact ⟨⟨text, o, hreads⟩, by rw [hrest, hinput], rfl, by rwa [hrest], rfl⟩
    · cases h
  · rintro ⟨⟨text, o, hreads⟩, hinput, hpos, hends, rfl⟩
    obtain ⟨pos, rest⟩ := c'
    obtain rfl : pos = c.skipBlank.pos + text.length := hpos
    have := hr.match?_append hreads hends
    simp only at hinput
    rw [hinput, this]
    simp [advance, hinput]

theorem operator_none_of_head? {b : UInt8} (h : c.skipBlank.rest.head? = some b)
    (hletter : Ascii.isLetter b = false)
    (hb : table.all (fun r => (Ascii.bytes r.spelling).head? != some b) = true)
    (hr : Operator.Readable table) : c.operator table = (none, c.skipBlank) := by
  cases ho : c.operator table with
  | mk found c' =>
      cases found with
      | none =>
          have := operator_none (congrArg Prod.fst ho)
          rw [ho] at this
          rw [← this]
      | some t =>
          obtain ⟨o, hinput, -⟩ := (operator_iff hr).1 ho
          obtain ⟨r, hmem, hspells⟩ := o.spells
          have hhead : o.text.head? = some b := by
            have hne := hr.ne_nil hmem hspells
            cases htext : o.text with
            | nil => exact absurd htext hne
            | cons a as => simpa [hinput, htext] using h
          have heq := hspells.eq_of_not_isSpelled (by simp [Operator.isSpelled, hhead, hletter])
          have := List.all_eq_true.1 hb r hmem
          simp [← heq, hhead] at this

theorem binaryOperator_iff {t : OperatorToken} :
    c.binaryOperator = (some t, c') ↔ ∃ o : Phrase.Sign Operator.binary,
      (Token.binary o.text).Stands c c' ∧ t = ⟨o.operator, c.skipBlank.pos, c'.pos⟩ := by
  rw [binaryOperator, operator_iff Operator.readable_binary]
  constructor
  · rintro ⟨o, htext, hpos, hends, ht⟩
    exact ⟨o, ⟨htext, hpos, hends⟩, ht⟩
  · rintro ⟨o, ⟨htext, hpos, hends⟩, ht⟩
    exact ⟨o, htext, hpos, hends, ht⟩

theorem isSignedNumeral_of_head? {bs : List UInt8} {b : UInt8} (h : bs.head? = some b)
    (hb : b ≠ 43 ∧ b ≠ 45) : Operator.isSignedNumeral bs = false := by
  obtain ⟨bs, rfl⟩ := List.head?_eq_some_iff.1 h
  cases bs <;> simp [Operator.isSignedNumeral, hb]

theorem unaryOperator_iff {t : OperatorToken} :
    c.unaryOperator = (some t, c') ↔ ∃ o : Phrase.Sign Operator.unary,
      (Token.unary o.text).Stands c c' ∧ t = ⟨o.operator, c.skipBlank.pos, c'.pos⟩ := by
  simp only [unaryOperator]
  constructor
  · intro h
    split at h
    · cases h
    · rename_i hsigned
      obtain ⟨o, htext, hpos, hends, ht⟩ := (operator_iff Operator.readable_unary).1 h
      rw [skipBlank_idem] at htext hpos ht
      refine ⟨o, ⟨htext, hpos, ?_⟩, ht⟩
      cases hrest : c'.rest with
      | nil => rfl
      | cons b rest =>
          rw [hrest] at hends
          -- A minus in front of a digit belongs to the number, so it is no operator of its own.
          by_cases hminus : o.text = [45]
          · rw [htext, hrest, hminus] at hsigned
            rw [hminus] at hends
            have hgoes : Operator.goesOn Operator.unary [45] b = false := by simpa using hends
            simpa [Token.absorbs, hminus, hgoes, Operator.isSignedNumeral] using hsigned
          · simpa [Token.absorbs, hminus] using hends
  · rintro ⟨o, ⟨htext, hpos, hends⟩, ht⟩
    have hgoes : c'.rest.head?.all (fun b => !Operator.goesOn Operator.unary o.text b) = true := by
      cases hrest : c'.rest <;> simp_all [Token.absorbs]
    have hsigned : Operator.isSignedNumeral c.skipBlank.rest = false := by
      rw [htext]
      obtain hminus | htilde | ⟨hspelled, -⟩ := o.text_unary
      · rw [hminus] at hends ⊢
        cases hrest : c'.rest <;> simp_all [Token.absorbs, Token.bytes, Operator.isSignedNumeral]
      · exact isSignedNumeral_of_head? (b := 126) (by simp [Token.bytes, htilde]) (by decide)
      · cases htext : o.text with
        | nil => simp [htext, Operator.isSpelled] at hspelled
        | cons b bs =>
            have hb : Ascii.isLetter b = true := by simpa [htext, Operator.isSpelled] using hspelled
            refine isSignedNumeral_of_head? (b := b) (by simp [Token.bytes]) ?_
            constructor
            all_goals
              rintro rfl
              revert hb
              decide
    rw [if_neg (by simp [hsigned])]
    exact (operator_iff Operator.readable_unary).2
      ⟨o, by simpa [Token.bytes] using htext, by simpa [Token.bytes] using hpos, hgoes,
        by simpa using ht⟩

theorem unaryOperator_none (h : c.unaryOperator.1 = none) : c.unaryOperator.2 = c.skipBlank := by
  simp only [unaryOperator] at h ⊢
  split at h
  · simp_all
  · simpa [*] using operator_none h

theorem unaryOperator_none_of_head? {b : UInt8} (h : c.skipBlank.rest.head? = some b)
    (hletter : Ascii.isLetter b = false)
    (hb : Operator.unary.all (fun r => (Ascii.bytes r.spelling).head? != some b) = true) :
    c.unaryOperator = (none, c.skipBlank) := by
  simp only [unaryOperator]
  split
  · rfl
  · have hskip : c.skipBlank.skipBlank.rest.head? = some b := by rwa [skipBlank_idem]
    rw [operator_none_of_head? hskip hletter hb Operator.readable_unary, skipBlank_idem]

theorem binaryOperator_none_of_head? {b : UInt8} (h : c.skipBlank.rest.head? = some b)
    (hletter : Ascii.isLetter b = false)
    (hb : Operator.binary.all (fun r => (Ascii.bytes r.spelling).head? != some b) = true) :
    c.binaryOperator = (none, c.skipBlank) :=
  operator_none_of_head? h hletter hb Operator.readable_binary

end Cursor

/-! ### Where an operand is wanted -/

namespace Token

/-- Tokens that can stand where an operand is wanted. A closing bracket is there if a list is
empty. -/
inductive Opens : Token → Prop
  | unary (o : Phrase.Sign Operator.unary) : Opens (.unary o.text)
  | numeral (n : Phrase.Numeral) : Opens (.numeral n.text)
  | quoted (q : Phrase.Quoted) : Opens (.quoted q.raw)
  | word {bs : List UInt8} (h : Ascii.isWord bs = true)
      (hnot : bs.map Ascii.toLower ≠ Ascii.bytes "not") : Opens (.word bs)
  | symbol {b : UInt8} (h : b ∈ [40, 41, 91, 93]) : Opens (.symbol b)

end Token

theorem Ascii.isWord_head? {bs : List UInt8} (h : isWord bs = true) :
    ∃ b, bs.head? = some b ∧ isWordStart b = true := by
  cases bs with
  | nil => cases h
  | cons b bs => exact ⟨b, rfl, by simpa [isWord] using (Bool.and_eq_true_iff.1 h).1⟩

theorem Phrase.Numeral.head? (n : Numeral) :
    ∃ sign b body, n.text = sign ++ b :: body ∧ Numeral.IsSign sign ∧
      (Ascii.isDigit b = true ∨ b = 46) := by
  refine CellScript.Numeral.scan_head fun habs => ?_
  have := CellScript.Numeral.value?_eq_some.1 n.reads
  simp [habs] at this

namespace Token

variable {t : Token} {c c' : Cursor}

/-- The word `not` is an operator wherever an operand is wanted. -/
theorem Stands.unaryOperator_of_word {bs : List UInt8} (h : (word bs).Stands c c')
    (hword : Ascii.isWord bs = true) (hnot : bs.map Ascii.toLower ≠ Ascii.bytes "not") :
    c.unaryOperator = (none, c.skipBlank) := by
  obtain ⟨b, hb, hstart⟩ := Ascii.isWord_head? hword
  have hhead := h.head? (b := b) hb
  rcases hfound : c.unaryOperator with ⟨_ | found, c''⟩
  · have := Cursor.unaryOperator_none (congrArg Prod.fst hfound)
    rw [hfound] at this
    rw [← this]
  · obtain ⟨o, ho, -⟩ := Cursor.unaryOperator_iff.1 hfound
    exfalso
    obtain htext | htext | ⟨hspelled, htext⟩ := o.text_unary
    · have := ho.head? (b := 45) (by simp [bytes, htext])
      rw [hhead] at this
      cases this
      revert hstart
      decide
    · have := ho.head? (b := 126) (by simp [bytes, htext])
      rw [hhead] at this
      cases this
      revert hstart
      decide
    · -- The operator is a word too, and a place has one word only.
      obtain ⟨r, hr, hspells⟩ := o.spells
      have hall := Operator.readable_unary.all_isWordByte hr hspells hspelled
      have hisWord : Ascii.isWord o.text = true := by
        cases htext : o.text with
        | nil => simp [htext, Operator.isSpelled] at hspelled
        | cons a as =>
            have ha : Ascii.isLetter a = true := by simpa [htext, Operator.isSpelled] using hspelled
            rw [htext] at hall
            simp [Ascii.isWord, Ascii.isWordStart, ha, hall]
      have hstands : (word o.text).Stands c c'' := by
        refine ⟨ho.text, ho.pos, ?_⟩
        have hends := ho.ends
        cases hrest : c''.rest.head? <;> simp_all [absorbs, Operator.goesOn]
      have h₁ := Cursor.word_iff (w := ⟨bs, c.skipBlank.pos⟩).2 ⟨h, hword, rfl⟩
      have h₂ := Cursor.word_iff (w := ⟨o.text, c.skipBlank.pos⟩).2 ⟨hstands, hisWord, rfl⟩
      rw [h₁] at h₂
      cases h₂
      exact hnot htext

/-- A numeral keeps its sign. -/
theorem Stands.unaryOperator_of_numeral {n : Phrase.Numeral} (h : (numeral n.text).Stands c c') :
    c.unaryOperator = (none, c.skipBlank) := by
  obtain ⟨sign, b, body, htext, hs, hb⟩ := n.head?
  have hrest : c.skipBlank.rest = sign ++ b :: (body ++ c'.rest) := by
    rw [h.text, bytes, htext, List.append_assoc, List.cons_append]
  obtain rfl | rfl | rfl := hs
  · have hclass := forall_byte (p := fun b => !(Ascii.isDigit b || b == 46) ||
      (!Ascii.isLetter b &&
        Operator.unary.all (fun r => (Ascii.bytes r.spelling).head? != some b)))
      (by decide) b
    have hb' : (Ascii.isDigit b || b == 46) = true := by simpa using hb
    rw [hb', Bool.not_true, Bool.false_or, Bool.and_eq_true, Bool.not_eq_true'] at hclass
    exact Cursor.unaryOperator_none_of_head? (by simp [hrest]) hclass.1 hclass.2
  all_goals
    simp only [Cursor.unaryOperator, hrest]
    rw [if_pos (by simpa [Operator.isSignedNumeral] using hb)]

/-- Before any other token, no unary operator is found. -/
theorem Opens.unaryOperator (ht : t.Opens) (hu : ∀ text, t ≠ Token.unary text) (h : t.Stands c c') :
    c.unaryOperator = (none, c.skipBlank) := by
  cases ht with
  | unary o => exact absurd rfl (hu o.text)
  | numeral n => exact h.unaryOperator_of_numeral
  | quoted q => exact Cursor.unaryOperator_none_of_head? (h.head? rfl) (by decide) (by decide)
  | word hword hnot => exact h.unaryOperator_of_word hword hnot
  | @symbol b hb =>
      have hclass := List.all_eq_true.1 (show [40, 41, 91, 93].all (fun b => !Ascii.isLetter b &&
        Operator.unary.all (fun r => (Ascii.bytes r.spelling).head? != some b)) = true
        by decide) b hb
      rw [Bool.and_eq_true, Bool.not_eq_true'] at hclass
      exact Cursor.unaryOperator_none_of_head? (h.head? rfl) hclass.1 hclass.2

/-- Words are no numerals. -/
theorem Stands.number_of_word {bs : List UInt8} (h : (word bs).Stands c c')
    (hword : Ascii.isWord bs = true) : Cursor.number c = .ok none c.skipBlank := by
  obtain ⟨b, hb, hstart⟩ := Ascii.isWord_head? hword
  have hclass := forall_byte (p := fun b => !Ascii.isWordStart b ||
    (!Ascii.isDigit b && !List.contains [43, 45, 46] b)) (by decide) b
  rw [hstart, Bool.not_true, Bool.false_or, Bool.and_eq_true, Bool.not_eq_true'] at hclass
  exact Cursor.number_none_of_head? (h.head? hb) hclass.1 (by simpa using hclass.2)

/-- Words are no string literals. -/
theorem Stands.string_of_word {bs : List UInt8} (h : (word bs).Stands c c')
    (hword : Ascii.isWord bs = true) : Cursor.string c = .ok none c.skipBlank := by
  obtain ⟨b, hb, hstart⟩ := Ascii.isWord_head? hword
  refine Cursor.string_none_of_head? fun hquote => ?_
  rw [h.head? hb] at hquote
  cases hquote
  revert hstart
  decide

theorem Stands.number_of_quoted {raw : List UInt8} (h : (quoted raw).Stands c c') :
    Cursor.number c = .ok none c.skipBlank :=
  Cursor.number_none_of_head? (h.head? rfl) (by decide) (by decide)

end Token

namespace Cursor

/-- The text from the blanks at one place up to another. -/
def upTo (c c' : Cursor) : List UInt8 := c.skipBlank.rest.take (c'.pos - c.skipBlank.pos)

/-- The token at a place where an operand is wanted, as the recognizers find it in turn. -/
def opening (c : Cursor) : Option (Token × Cursor) :=
  match c.unaryOperator, c.number, c.string, c.word with
  | (some _, c'), _, _, _ => some (.unary (c.upTo c'), c')
  | _, .ok (some _) c', _, _ => some (.numeral (c.upTo c'), c')
  | _, _, .ok (some _) c', _ => some (.quoted (c.upTo c').tail.dropLast, c')
  | _, _, _, (some w, c') => some (.word w.bytes, c')
  | _, _, _, _ => c.skipBlank.rest.head?.map fun b => (.symbol b, c.skipBlank.advance 1)

/-- The token behind an operand. -/
def following (c : Cursor) : Option (Token × Cursor) :=
  match c.binaryOperator with
  | (some _, c') => some (.binary (c.upTo c'), c')
  | (none, _) => c.skipBlank.rest.head?.map fun b => (.symbol b, c.skipBlank.advance 1)

end Cursor

namespace Token

variable {t : Token} {c c' : Cursor}

theorem Stands.upTo (h : t.Stands c c') : c.upTo c' = t.bytes := by
  rw [Cursor.upTo, h.text, h.pos, Nat.add_sub_cancel_left, List.take_left]

theorem Opens.opening (ht : t.Opens) (h : t.Stands c c') : c.opening = some (t, c') := by
  have hup := h.upTo
  cases ht with
  | unary o =>
      have hfound := Cursor.unaryOperator_iff.2 ⟨o, h, rfl⟩
      simp only [Cursor.opening, hfound, hup]
      rfl
  | numeral n =>
      have hfound := Cursor.number_iff.2 ⟨n, h, rfl⟩
      simp only [Cursor.opening, h.unaryOperator_of_numeral, hfound, hup]
      rfl
  | quoted q =>
      have hfound := Cursor.string_iff.2 ⟨q, h, rfl⟩
      have hu := (Opens.quoted q).unaryOperator nofun h
      simp only [Cursor.opening, hu, h.number_of_quoted, hfound, hup]
      simp [bytes]
  | @word bs hword hnot =>
      have hfound := Cursor.word_iff (w := ⟨bs, c.skipBlank.pos⟩).2 ⟨h, hword, rfl⟩
      simp only [Cursor.opening, h.unaryOperator_of_word hword hnot, h.number_of_word hword,
        h.string_of_word hword, hfound]
  | @symbol b hb =>
      have hu := (Opens.symbol hb).unaryOperator nofun h
      have hclass := List.all_eq_true.1 (show [40, 41, 91, 93].all (fun b => !Ascii.isDigit b &&
        !List.contains [43, 45, 46] b && b != 34 && !Ascii.isWordStart b) = true by decide) b hb
      simp only [Bool.and_eq_true, Bool.not_eq_true', bne_iff_ne] at hclass
      have hhead := h.head? (b := b) rfl
      have hn := Cursor.number_none_of_head? hhead hclass.1.1.1 (by simpa using hclass.1.1.2)
      have hs := Cursor.string_none_of_head? (c := c) (by simpa [hhead] using hclass.1.2)
      have hw := Cursor.word_none_of_head? (c := c) (by simpa [hhead] using hclass.2)
      simp only [Cursor.opening, hu, hn, hs, hw, hhead, Option.map_some, h.eq_advance]
      rfl

/-- Tokens that can stand behind an operand. -/
inductive Follows : Token → Prop
  | binary (o : Phrase.Sign Operator.binary) : Follows (.binary o.text)
  | symbol {b : UInt8} (h : b ∈ [40, 41, 44, 58, 59, 91, 93]) : Follows (.symbol b)

theorem Stands.binaryOperator_of_symbol {b : UInt8} (h : (symbol b).Stands c c')
    (hb : b ∈ [40, 41, 44, 58, 59, 91, 93]) : c.binaryOperator = (none, c.skipBlank) := by
  have hclass := List.all_eq_true.1 (show [40, 41, 44, 58, 59, 91, 93].all (fun b =>
    !Ascii.isLetter b && Operator.binary.all (fun r => (Ascii.bytes r.spelling).head? != some b)) =
      true by decide) b hb
  rw [Bool.and_eq_true, Bool.not_eq_true'] at hclass
  exact Cursor.binaryOperator_none_of_head? (h.head? rfl) hclass.1 hclass.2

theorem Follows.following (ht : t.Follows) (h : t.Stands c c') : c.following = some (t, c') := by
  cases ht with
  | binary o =>
      have hfound := Cursor.binaryOperator_iff.2 ⟨o, h, rfl⟩
      simp only [Cursor.following, hfound, h.upTo]
      rfl
  | @symbol b hb =>
      have hhead := h.head? (b := b) rfl
      simp only [Cursor.following, h.binaryOperator_of_symbol hb, hhead, Option.map_some,
        h.eq_advance]
      rfl

end Token

/-! ### Texts -/

/-- The tokens follow each other from `c` on, and what is left at `c'` are blanks and the text
behind them. -/
def Spans : List Token → Cursor → Cursor → Prop
  | [], c, c' => c'.skipBlank = c.skipBlank
  | t :: ts, c, c' => ∃ c₁, t.Stands c c₁ ∧ Spans ts c₁ c'

namespace Spans

variable {ts us : List Token} {c c' : Cursor}

theorem skipBlank_left : Spans ts c.skipBlank c' ↔ Spans ts c c' := by
  cases ts with
  | nil => simp [Spans]
  | cons t ts => simp only [Spans, Token.stands_skipBlank]

theorem skipBlank_right : Spans ts c c'.skipBlank ↔ Spans ts c c' := by
  induction ts generalizing c with
  | nil => simp [Spans]
  | cons t ts ih => simp only [Spans, ih]

theorem of_skipBlank_eq {d : Cursor} (hd : c.skipBlank = d.skipBlank) (h : Spans ts c c') :
    Spans ts d c' := by
  rwa [← skipBlank_left, ← hd, skipBlank_left]

theorem append : Spans (ts ++ us) c c' ↔ ∃ m, Spans ts c m ∧ Spans us m c' := by
  induction ts generalizing c with
  | nil =>
      constructor
      · exact fun h => ⟨c, rfl, h⟩
      · rintro ⟨m, hm, h⟩
        exact of_skipBlank_eq hm h
  | cons t ts ih =>
      simp only [List.cons_append, Spans, ih]
      constructor
      · rintro ⟨c₁, ht, m, hts, hus⟩
        exact ⟨m, ⟨c₁, ht, hts⟩, hus⟩
      · rintro ⟨m, ⟨c₁, ht, hts⟩, hus⟩
        exact ⟨c₁, ht, m, hts, hus⟩

/-- What has been read renders the tokens. -/
theorem renders (h : Spans ts c c') :
    ∃ bs, c.rest = bs ++ c'.skipBlank.rest ∧ c'.skipBlank.pos = c.pos + bs.length ∧
      Renders ts bs := by
  induction ts generalizing c with
  | nil =>
      obtain ⟨blanks, hblanks, hrest, hpos, -⟩ := c.skipBlank_split
      rw [Spans] at h
      rw [h]
      exact ⟨blanks, hrest, hpos, .done hblanks⟩
  | cons t ts ih =>
      obtain ⟨c₁, ht, hts⟩ := h
      obtain ⟨blanks, hblanks, hrest, hpos, -⟩ := c.skipBlank_split
      obtain ⟨bs, hbs, hposbs, hrenders⟩ := ih hts
      have hends : bs.head?.all (fun b => !t.absorbs b) = true := by
        have := ht.ends
        rw [hbs] at this
        cases bs <;> simp_all
      refine ⟨blanks ++ t.bytes ++ bs, ?_, ?_, .token hblanks hends hrenders⟩
      · rw [hrest, ht.text, hbs]
        simp
      · rw [hposbs, ht.pos, hpos]
        simp only [List.length_append]
        omega

end Spans

namespace Token

/-- Whether an operand is wanted behind the token. -/
def wantsOperand : Token → Bool
  | word _ | numeral _ | quoted _ => false
  | unary _ | binary _ => true
  | symbol b => [40, 44, 58, 91].contains b

/-- Whether a byte can begin an operand, brackets apart. -/
def startsOperand (b : UInt8) : Bool :=
  Ascii.isWordStart b || Ascii.isDigit b || [34, 43, 45, 46, 126].contains b

/-- The token suits a place where an operand is wanted, or one behind an operand. -/
def Fits (wanted : Bool) (t : Token) : Prop := if wanted then t.Opens else t.Follows

end Token

/-- Every token suits its place. -/
def Alternate : Bool → List Token → Prop
  | _, [] => True
  | wanted, t :: ts => t.Fits wanted ∧ Alternate t.wantsOperand ts

/-- The bytes that can end an expression. -/
def closers : List UInt8 := [59, 44, 41, 93, 58]

theorem closers_class {b : UInt8} (h : b ∈ closers) :
    Ascii.isBlank b = false ∧ Ascii.isWordByte b = false ∧ Ascii.isDigit b = false ∧ b ≠ 46 ∧
      b ≠ 101 := by
  simp only [closers, List.mem_cons, List.not_mem_nil, or_false] at h
  obtain rfl | rfl | rfl | rfl | rfl := h <;> decide

namespace Token

variable {t : Token} {wanted : Bool}

theorem Opens.head? (h : t.Opens) :
    ∃ b, t.bytes.head? = some b ∧
      ((t = Token.symbol b ∧ b ∈ [40, 41, 91, 93]) ∨ startsOperand b = true) := by
  cases h with
  | unary o =>
      obtain htext | htext | ⟨hspelled, -⟩ := o.text_unary
      · exact ⟨45, by simp [bytes, htext], .inr (by decide)⟩
      · exact ⟨126, by simp [bytes, htext], .inr (by decide)⟩
      · cases htext : o.text with
        | nil => simp [htext, Operator.isSpelled] at hspelled
        | cons b bs =>
            have hb : Ascii.isLetter b = true := by simpa [htext, Operator.isSpelled] using hspelled
            exact ⟨b, rfl, .inr (by simp [startsOperand, Ascii.isWordStart, hb])⟩
  | numeral n =>
      obtain ⟨sign, b, body, htext, hs, hb⟩ := n.head?
      rw [bytes, htext]
      obtain rfl | rfl | rfl := hs
      · refine ⟨b, rfl, .inr ?_⟩
        obtain hb | rfl := hb
        · simp [startsOperand, hb]
        · decide
      · exact ⟨43, rfl, .inr (by decide)⟩
      · exact ⟨45, rfl, .inr (by decide)⟩
  | quoted q => exact ⟨34, rfl, .inr (by decide)⟩
  | word hword _ =>
      obtain ⟨b, hb, hstart⟩ := Ascii.isWord_head? hword
      exact ⟨b, hb, .inr (by simp [startsOperand, hstart])⟩
  | @symbol b hb => exact ⟨b, rfl, .inl ⟨rfl, hb⟩⟩

theorem Follows.head? (h : t.Follows) :
    ∃ b, t.bytes.head? = some b ∧ Ascii.isBlank b = false := by
  cases h with
  | binary o =>
      obtain ⟨r, hr, hspells⟩ := o.spells
      cases htext : o.text with
      | nil => exact absurd htext (Operator.readable_binary.ne_nil hr hspells)
      | cons b bs =>
          refine ⟨b, rfl, ?_⟩
          cases hs : Operator.isSpelled o.text with
          | true =>
              have hletter : Ascii.isLetter b = true := by
                simpa [htext, Operator.isSpelled] using hs
              have := forall_byte (p := fun b => !Ascii.isLetter b || !Ascii.isBlank b)
                (by decide) b
              simpa [hletter] using this
          | false =>
              have := List.all_eq_true.1 (show Operator.binary.all (fun r =>
                (Ascii.bytes r.spelling).head?.all fun b => !Ascii.isBlank b) = true by
                  decide) r hr
              rw [← hspells.eq_of_not_isSpelled hs, htext] at this
              simpa using this
  | @symbol b hb =>
      have := List.all_eq_true.1 (show [40, 41, 44, 58, 59, 91, 93].all (fun b =>
        !Ascii.isBlank b) = true by decide) b hb
      exact ⟨b, rfl, by simpa using this⟩

/-- The token is not empty and does not begin with a blank. -/
def IsVisible (t : Token) : Prop := ∃ b, t.bytes.head? = some b ∧ Ascii.isBlank b = false

theorem Fits.visible (h : t.Fits wanted) : t.IsVisible := by
  cases wanted with
  | true =>
      obtain ⟨b, hb, ⟨-, hsymbol⟩ | hstarts⟩ := Opens.head? h
      · have := List.all_eq_true.1 (show [40, 41, 91, 93].all (fun b => !Ascii.isBlank b) = true by
          decide) b hsymbol
        exact ⟨b, hb, by simpa using this⟩
      · have := forall_byte (p := fun b => !startsOperand b || !Ascii.isBlank b)
          (by decide) b
        exact ⟨b, hb, by simpa [hstarts] using this⟩
  | false => exact Follows.head? h

theorem Fits.unique {t' : Token} {c c₁ c₂ : Cursor} (h : t.Fits wanted) (h' : t'.Fits wanted)
    (hs : t.Stands c c₁) (hs' : t'.Stands c c₂) : t = t' ∧ c₁ = c₂ := by
  cases wanted with
  | true =>
      have := (Opens.opening h hs).symm.trans (Opens.opening h' hs')
      simpa using this
  | false =>
      have := (Follows.following h hs).symm.trans (Follows.following h' hs')
      simpa using this

/-- A closing byte is never absorbed. -/
theorem Fits.not_absorbs (h : t.Fits wanted) {b : UInt8} (hb : b ∈ closers) :
    t.absorbs b = false := by
  obtain ⟨-, hword, hdigit, hpoint, hexponent⟩ := closers_class hb
  have hgoes : ∀ table : List Operator.Row, (table.all fun r => closers.all fun b =>
      (Ascii.bytes r.spelling).getLast? != some b) = true →
      ∀ text, Operator.goesOn table text b = false := by
    intro table htable text
    rw [Operator.goesOn]
    split
    · exact hword
    · refine List.any_eq_false.2 fun r hr heq => ?_
      have := List.all_eq_true.1 (List.all_eq_true.1 htable r hr) b hb
      simp [beq_iff_eq.1 heq] at this
  cases wanted with
  | true =>
      cases h with
      | unary o =>
          simp [absorbs, hgoes Operator.unary (by decide), hdigit, hpoint]
      | numeral n => simp [absorbs, hdigit, hpoint, hexponent]
      | quoted q => rfl
      | word _ _ => exact hword
      | symbol _ => rfl
  | false =>
      cases h with
      | binary o => exact hgoes Operator.binary (by decide) o.text
      | symbol _ => rfl

theorem IsVisible.stands (h : t.IsVisible) {blanks text : List UInt8}
    (hblanks : blanks.all Ascii.isBlank = true)
    (hends : text.head?.all (fun b => !t.absorbs b) = true) (pos : Nat) :
    t.Stands ⟨pos, blanks ++ t.bytes ++ text⟩ ⟨pos + blanks.length + t.bytes.length, text⟩ := by
  obtain ⟨b, hb, hblank⟩ := h
  have hskip : Cursor.skipBlank ⟨pos, blanks ++ t.bytes ++ text⟩ =
      ⟨pos + blanks.length, t.bytes ++ text⟩ := by
    rw [Cursor.skipBlank, List.append_assoc]
    refine Cursor.skipBlankFrom_append hblanks ?_ pos
    rw [List.head?_append, hb, Option.some_or, Option.any_some, hblank]
  exact ⟨by rw [hskip], by rw [hskip], hends⟩

end Token

theorem Renders.not_blank {t : Token} {ts : List Token} {wanted : Bool} {bs : List UInt8}
    (h : Renders (t :: ts) bs) (ht : t.Fits wanted) : bs.all Ascii.isBlank = false := by
  cases h with
  | token hblanks hends hts =>
      obtain ⟨b, hb, hblank⟩ := ht.visible
      obtain ⟨bs, hbs⟩ := List.head?_eq_some_iff.1 hb
      simp [hbs, hblank]

theorem Alternate.visible {ts : List Token} {wanted : Bool} (h : Alternate wanted ts) :
    ∀ t ∈ ts, t.IsVisible := by
  induction ts generalizing wanted with
  | nil => simp
  | cons t ts ih =>
      intro t' ht'
      obtain rfl | ht' := List.mem_cons.1 ht'
      · exact h.1.visible
      · exact ih h.2 t' ht'

theorem Renders.length_le_of_visible {ts : List Token} {bs : List UInt8} (h : Renders ts bs)
    (hv : ∀ t ∈ ts, t.IsVisible) : ts.length ≤ bs.length := by
  induction h with
  | done => exact Nat.zero_le _
  | @token t ts blanks text _ _ _ ih =>
      obtain ⟨b, hb, -⟩ := hv t List.mem_cons_self
      obtain ⟨bs, hbs⟩ := List.head?_eq_some_iff.1 hb
      have := ih fun t ht => hv t (List.mem_cons_of_mem _ ht)
      simp only [hbs, List.length_append, List.length_cons]
      omega

theorem Renders.length_le {ts : List Token} {bs : List UInt8} {wanted : Bool}
    (h : Renders ts bs) (ha : Alternate wanted ts) : ts.length ≤ bs.length :=
  h.length_le_of_visible ha.visible

/-- A text renders at most one list of tokens. -/
theorem Renders.unique {ts ts' : List Token} {bs : List UInt8} {wanted : Bool}
    (h : Renders ts bs) (h' : Renders ts' bs) (ha : Alternate wanted ts)
    (ha' : Alternate wanted ts') : ts = ts' := by
  induction h generalizing ts' wanted with
  | done hblanks =>
      cases ts' with
      | nil => rfl
      | cons t' ts' =>
          have := h'.not_blank ha'.1
          rw [hblanks] at this
          cases this
  | @token t ts blanks text hblanks hends hts ih =>
      have hstands := ha.1.visible.stands hblanks hends 0
      generalize hbs : blanks ++ t.bytes ++ text = bs at h' hstands
      cases h' with
      | done hblanks' =>
          have := (Renders.token hblanks hends hts).not_blank ha.1
          rw [hbs, hblanks'] at this
          cases this
      | @token t' ts' blanks' text' hblanks' hends' hts' =>
          obtain ⟨rfl, hc⟩ := ha.1.unique ha'.1 hstands (ha'.1.visible.stands hblanks' hends' 0)
          obtain rfl : text = text' := (Cursor.mk.inj hc).2
          rw [ih hts' ha.2 ha'.2]

/-- Tokens that are written follow each other, and behind them stands what closes them. -/
theorem Renders.spans {ts : List Token} {bs : List UInt8} {wanted : Bool} (h : Renders ts bs)
    (ha : Alternate wanted ts) {b : UInt8} (hb : b ∈ closers) (rest : List UInt8) (pos : Nat) :
    ∃ c, Spans ts ⟨pos, bs ++ b :: rest⟩ c ∧ c.skipBlank = ⟨pos + bs.length, b :: rest⟩ := by
  induction h generalizing wanted pos with
  | @done blanks hblanks =>
      refine ⟨_, rfl, ?_⟩
      refine Cursor.skipBlankFrom_append hblanks ?_ pos
      exact (closers_class hb).1
  | @token t ts blanks text hblanks hends hts ih =>
      obtain ⟨c, hspans, hc⟩ := ih ha.2 (pos + blanks.length + t.bytes.length)
      have hends' : (text ++ b :: rest).head?.all (fun b => !t.absorbs b) = true := by
        cases text with
        | nil => simp [ha.1.not_absorbs hb]
        | cons a text => exact hends
      refine ⟨c, ⟨_, ?_, hspans⟩, ?_⟩
      · have := ha.1.visible.stands hblanks hends' pos
        simpa using this
      · rw [hc]
        simp only [List.length_append, Cursor.mk.injEq, and_true]
        omega

end CellScript
