import CellScript.Proofs.Clauses

/-!
A text is written by one list of clauses only.

The first word of a clause says of which kind it is, except that a name may be given a
value or be called. What stands behind the word then settles which clause it is: the
tokens of expressions are known one by one, and names stand with commas between them up
to the byte that ends the list. No expression has a semicolon in it, so the clauses come
out one after the other.
-/

namespace CellScript

/-- The end of a clause. -/
abbrev Token.semicolon : Token := .symbol Symbol.semicolon

/-- It is no other punctuation. -/
theorem Token.semicolon_ne : semicolon ≠ openParen ∧ semicolon ≠ closeParen ∧
    semicolon ≠ openBracket ∧ semicolon ≠ closeBracket ∧ semicolon ≠ comma ∧ semicolon ≠ colon := by
  decide

/-! ### Tokens at the same place -/

namespace Token

variable {c c₁ c₂ : Cursor}

theorem Stands.eq_of_symbol {b b' : UInt8} (h : (symbol b).Stands c c₁)
    (h' : (symbol b').Stands c c₂) : b = b' ∧ c₁ = c₂ := by
  have hb := (h.head? (b := b) rfl).symm.trans (h'.head? (b := b') rfl)
  exact ⟨Option.some.inj hb, h.eq_advance.trans h'.eq_advance.symm⟩

theorem Stands.eq_of_word {bs bs' : List UInt8} (hbs : Ascii.isWord bs = true)
    (hbs' : Ascii.isWord bs' = true) (h : (word bs).Stands c c₁) (h' : (word bs').Stands c c₂) :
    bs = bs' ∧ c₁ = c₂ := by
  have hw := Cursor.word_iff (w := ⟨bs, c.skipBlank.pos⟩).2 ⟨h, hbs, rfl⟩
  have hw' := Cursor.word_iff (w := ⟨bs', c.skipBlank.pos⟩).2 ⟨h', hbs', rfl⟩
  simpa using hw.symm.trans hw'

/-- A word begins with no punctuation. -/
theorem Stands.not_symbol_of_word {bs : List UInt8} {b : UInt8} (hbs : Ascii.isWord bs = true)
    (hb : Ascii.isWordStart b = false) (h : (word bs).Stands c c₁) :
    ¬ (symbol b).Stands c c₂ := by
  intro h'
  obtain ⟨b', hb', hstart⟩ := Ascii.isWord_head? hbs
  have := (h.head? (b := b') hb').symm.trans (h'.head? (b := b) rfl)
  rw [Option.some.inj this, hb] at hstart
  cases hstart

/-- Where an operand is wanted, there is neither the end of a clause nor a sign of equality. -/
theorem Opens.not_symbol {t : Token} {b : UInt8} (ht : t.Opens) (h : t.Stands c c₁)
    (hb : b = Symbol.semicolon ∨ b = Symbol.equals) : ¬ (Token.symbol b).Stands c c₂ := by
  intro h'
  obtain ⟨b', hb', hcases⟩ := ht.head?
  have := (h.head? hb').symm.trans (h'.head? (b := b) rfl)
  obtain rfl := Option.some.inj this
  rcases hcases with ⟨-, hmem⟩ | hstarts
  · rcases hb with rfl | rfl <;> exact absurd hmem (by decide)
  · rcases hb with rfl | rfl <;> exact absurd hstarts (by decide)

end Token

/-! ### Expressions up to the end of a clause -/

mutual

theorem Phrase.semicolon_not_mem : ∀ e : Phrase, Token.semicolon ∉ e.tokens
  | .numeral n | .quoted n | .constant n => by simp [Phrase.tokens]
  | .variable x suffixes => by simpa [Phrase.tokens] using suffixes.semicolon_not_mem
  | .call x args | .builtin x args => by
      simp [Phrase.tokens, Token.semicolon_ne, Phrase.semicolon_not_mem_list args]
  | .group e => by simp [Phrase.tokens, Token.semicolon_ne, e.semicolon_not_mem]
  | .array elems => by
      simp [Phrase.tokens, Token.semicolon_ne, Phrase.semicolon_not_mem_list elems]
  | .unary o e => by simp [Phrase.tokens, e.semicolon_not_mem]
  | .binary o a b => by simp [Phrase.tokens, a.semicolon_not_mem, b.semicolon_not_mem]

theorem Suffixes.semicolon_not_mem : ∀ s : Suffixes, Token.semicolon ∉ s.tokens
  | .none => by simp [Suffixes.tokens]
  | .index i more => by
      simp [Suffixes.tokens, Token.semicolon_ne, i.semicolon_not_mem, more.semicolon_not_mem]
  | .range i j more => by
      simp [Suffixes.tokens, Token.semicolon_ne, i.semicolon_not_mem, j.semicolon_not_mem,
        more.semicolon_not_mem]

theorem Phrase.semicolon_not_mem_list : ∀ es : List Phrase, Token.semicolon ∉ Phrase.listTokens es
  | [] => by simp [Phrase.listTokens]
  | e :: es => by
      simp [Phrase.listTokens, e.semicolon_not_mem, Phrase.semicolon_not_mem_more es]

theorem Phrase.semicolon_not_mem_more : ∀ es : List Phrase, Token.semicolon ∉ Phrase.moreTokens es
  | [] => by simp [Phrase.moreTokens]
  | e :: es => by
      simp [Phrase.moreTokens, Token.semicolon_ne, e.semicolon_not_mem,
        Phrase.semicolon_not_mem_more es]

end

theorem Clause.Name.ext_bytes {x y : Clause.Name} (h : x.bytes = y.bytes) : x = y := by
  cases x
  cases y
  cases h
  rfl

namespace Spans

variable {c d d' : Cursor}

/-- Of two lists of tokens that suit their places, up to a semicolon. -/
theorem eq_of_alternate {ts us : List Token} {wanted : Bool}
    (ha : Alternate wanted (ts ++ [.semicolon])) (ha' : Alternate wanted (us ++ [.semicolon]))
    (hts : Token.semicolon ∉ ts) (hus : Token.semicolon ∉ us)
    (h : Spans (ts ++ [.semicolon]) c d) (h' : Spans (us ++ [.semicolon]) c d') :
    ts = us ∧ d.skipBlank = d'.skipBlank := by
  induction ts generalizing us wanted c with
  | nil =>
      obtain ⟨c₁, hc₁, hd⟩ := h
      cases us with
      | nil =>
          obtain ⟨c₂, hc₂, hd'⟩ := h'
          obtain rfl := (hc₁.eq_of_symbol hc₂).2
          exact ⟨rfl, hd.trans hd'.symm⟩
      | cons u us =>
          obtain ⟨c₂, hc₂, -⟩ := h'
          obtain rfl := (ha.1.unique ha'.1 hc₁ hc₂).1
          exact absurd List.mem_cons_self hus
  | cons t ts ih =>
      obtain ⟨c₁, hc₁, hts'⟩ := h
      cases us with
      | nil =>
          obtain ⟨c₂, hc₂, -⟩ := h'
          obtain rfl := (ha.1.unique ha'.1 hc₁ hc₂).1
          exact absurd List.mem_cons_self hts
      | cons u us =>
          obtain ⟨c₂, hc₂, hus'⟩ := h'
          obtain ⟨rfl, rfl⟩ := ha.1.unique ha'.1 hc₁ hc₂
          obtain ⟨rfl, hd⟩ := ih ha.2 ha'.2 (fun hm => hts (List.mem_cons_of_mem _ hm))
            (fun hm => hus (List.mem_cons_of_mem _ hm)) hts' hus'
          exact ⟨rfl, hd⟩

theorem eq_of_semicolon (h : Spans [.semicolon] c d) (h' : Spans [.semicolon] c d') :
    d.skipBlank = d'.skipBlank := by
  obtain ⟨c₁, hc₁, hd⟩ := h
  obtain ⟨c₂, hc₂, hd'⟩ := h'
  rw [hd, hd', (hc₁.eq_of_symbol hc₂).2]

theorem alternate_semicolon : Alternate false [.semicolon] := ⟨.symbol (by decide), trivial⟩

/-- An expression up to the end of a clause. -/
theorem eq_of_phrase {e e' : Phrase} (hs : e.Stratified) (hs' : e'.Stratified)
    (h : Spans (e.tokens ++ [.semicolon]) c d) (h' : Spans (e'.tokens ++ [.semicolon]) c d') :
    e = e' ∧ d.skipBlank = d'.skipBlank := by
  obtain ⟨htokens, hd⟩ := eq_of_alternate (e.alternate alternate_semicolon)
    (e'.alternate alternate_semicolon) e.semicolon_not_mem e'.semicolon_not_mem h h'
  have hended : Phrase.Ended [] := nofun
  exact ⟨(e.determined.whole hs hs' hended hended (by rw [htokens])).1, hd⟩

/-- No expression begins with the end of a clause or a sign of equality. -/
theorem not_symbol_of_phrase {e : Phrase} {ts us : List Token} (h : Spans (e.tokens ++ ts) c d)
    {b : UInt8} (hb : b = Symbol.semicolon ∨ b = Symbol.equals) :
    ¬ Spans (.symbol b :: us) c d' := by
  rintro ⟨c₂, hc₂, -⟩
  obtain ⟨t, ts', htokens, hopens, -⟩ := e.tokens_eq_cons
  rw [htokens] at h
  obtain ⟨c₁, hc₁, -⟩ := h
  exact hopens.not_symbol hc₁ hb hc₂

/-- A list of expressions up to the end of a clause. -/
theorem eq_of_phrases {es es' : List Phrase} (hs : Phrase.AllStratified es)
    (hs' : Phrase.AllStratified es') (h : Spans (Phrase.listTokens es ++ [.semicolon]) c d)
    (h' : Spans (Phrase.listTokens es' ++ [.semicolon]) c d') :
    es = es' ∧ d.skipBlank = d'.skipBlank := by
  have halternate (e : Phrase) (es : List Phrase) :
      Alternate true (Phrase.listTokens (e :: es) ++ [.semicolon]) := by
    rw [Phrase.listTokens, List.append_assoc]
    exact e.alternate (Phrase.more_alternate es alternate_semicolon)
  cases es with
  | nil =>
      cases es' with
      | nil => exact ⟨rfl, eq_of_semicolon h h'⟩
      | cons e' es' =>
          rw [Phrase.listTokens, List.append_assoc] at h'
          exact absurd h (not_symbol_of_phrase h' (.inl rfl))
  | cons e es =>
      cases es' with
      | nil =>
          rw [Phrase.listTokens, List.append_assoc] at h
          exact absurd h' (not_symbol_of_phrase h (.inl rfl))
      | cons e' es' =>
          obtain ⟨htokens, hd⟩ := eq_of_alternate (halternate e es) (halternate e' es')
            (Phrase.semicolon_not_mem_list _) (Phrase.semicolon_not_mem_list _) h h'
          -- Lists are known up to a closing mark, so one is put behind both.
          have hclose : Phrase.listTokens (e :: es) ++ [Token.closeParen] =
              Phrase.listTokens (e' :: es') ++ [Token.closeParen] := by rw [htokens]
          exact ⟨(Phrase.listTokens_unique (fun u _ => u.determined) (.inl rfl)
            (Nat.lt_succ_self _) hs hs' hclose).1, hd⟩

/-- No list of expressions begins with a sign of equality. -/
theorem not_equals_of_phrases {es : List Phrase} {c₁ : Cursor}
    (h : Spans (Phrase.listTokens es ++ [.semicolon]) c d) :
    ¬ (Token.symbol Symbol.equals).Stands c c₁ := by
  intro hequals
  cases es with
  | nil =>
      obtain ⟨c₂, hstop, -⟩ := h
      exact absurd (hstop.eq_of_symbol hequals).1 (by decide)
  | cons e es =>
      rw [Phrase.listTokens, List.append_assoc] at h
      exact not_symbol_of_phrase h (.inr rfl)
        (show Spans [.symbol Symbol.equals] _ c₁ from ⟨c₁, hequals, rfl⟩)

/-! ### Names up to the end of a list -/

/-- Names with commas between them, up to another byte. -/
theorem eq_of_names {b : UInt8} (hb : b ≠ Symbol.comma) {x y : Clause.Name}
    {xs ys : List Clause.Name} {ts us : List Token}
    (h : Spans (Clause.nameTokens x xs ++ .symbol b :: ts) c d)
    (h' : Spans (Clause.nameTokens y ys ++ .symbol b :: us) c d') :
    x :: xs = y :: ys ∧ ∃ m, Spans ts m d ∧ Spans us m d' := by
  induction xs generalizing x y ys c with
  | nil =>
      obtain ⟨c₁, hx, c₂, hstop, hts⟩ := h
      cases ys with
      | nil =>
          obtain ⟨c₁', hy, c₂', hstop', hus⟩ := h'
          obtain ⟨hxy, rfl⟩ := hx.eq_of_word x.isWord y.isWord hy
          obtain rfl := (hstop.eq_of_symbol hstop').2
          exact ⟨by rw [Clause.Name.ext_bytes hxy], _, hts, hus⟩
      | cons y' ys =>
          obtain ⟨c₁', hy, c₂', hcomma, -⟩ := h'
          obtain ⟨-, rfl⟩ := hx.eq_of_word x.isWord y.isWord hy
          exact absurd (hstop.eq_of_symbol hcomma).1 hb
  | cons x' xs ih =>
      obtain ⟨c₁, hx, c₂, hcomma, hxs⟩ := h
      cases ys with
      | nil =>
          obtain ⟨c₁', hy, c₂', hstop, -⟩ := h'
          obtain ⟨-, rfl⟩ := hx.eq_of_word x.isWord y.isWord hy
          exact absurd (hstop.eq_of_symbol hcomma).1 hb
      | cons y' ys =>
          obtain ⟨c₁', hy, c₂', hcomma', hys⟩ := h'
          obtain ⟨hxy, rfl⟩ := hx.eq_of_word x.isWord y.isWord hy
          obtain rfl := (hcomma.eq_of_symbol hcomma').2
          obtain ⟨heq, hrest⟩ := ih hxs hys
          exact ⟨by rw [Clause.Name.ext_bytes hxy, heq], hrest⟩

/-- The first of a list of names. -/
theorem word_of_names {x : Clause.Name} {xs : List Clause.Name} {ts : List Token}
    (h : Spans (Clause.nameTokens x xs ++ ts) c d) : ∃ c₁, (Token.word x.bytes).Stands c c₁ := by
  cases xs with
  | nil =>
      obtain ⟨c₁, hx, -⟩ := h
      exact ⟨c₁, hx⟩
  | cons y ys =>
      obtain ⟨c₁, hx, -⟩ := h
      exact ⟨c₁, hx⟩

theorem eq_of_parameters {ps qs : List Clause.Name} {ts us : List Token}
    (h : Spans (Clause.parameterTokens ps ++ ts) c d)
    (h' : Spans (Clause.parameterTokens qs ++ us) c d') :
    ps = qs ∧ ∃ m, Spans ts m d ∧ Spans us m d' := by
  have hnone {x : Clause.Name} {xs : List Clause.Name} {ts : List Token} {c₁ d : Cursor}
      (hclose : Token.closeParen.Stands c c₁)
      (h : Spans (Clause.parameterTokens (x :: xs) ++ ts) c d) : False := by
    rw [Clause.parameterTokens, List.append_assoc] at h
    obtain ⟨c₂, hx⟩ := word_of_names h
    exact hx.not_symbol_of_word x.isWord (by decide) hclose
  cases ps with
  | nil =>
      obtain ⟨c₁, hclose, hts⟩ := h
      cases qs with
      | nil =>
          obtain ⟨c₂, hclose', hus⟩ := h'
          obtain rfl := (hclose.eq_of_symbol hclose').2
          exact ⟨rfl, _, hts, hus⟩
      | cons y ys => exact absurd h' (hnone hclose)
  | cons x xs =>
      cases qs with
      | nil =>
          obtain ⟨c₂, hclose, -⟩ := h'
          exact absurd h (hnone hclose)
      | cons y ys =>
          rw [Clause.parameterTokens, List.append_assoc] at h h'
          exact eq_of_names (by decide) h h'

end Spans

/-! ### Clauses -/

namespace Clause

variable {c c₁ d d' : Cursor}

/-- What is given back, if anything is. -/
theorem eq_of_giveBack {e e' : Option Phrase} (hs : Phrase.AllStratified (giveBack e).phrases)
    (hs' : Phrase.AllStratified (giveBack e').phrases)
    (h : Spans ((giveBack e).rest ++ [.semicolon]) c d)
    (h' : Spans ((giveBack e').rest ++ [.semicolon]) c d') :
    e = e' ∧ d.skipBlank = d'.skipBlank := by
  cases e with
  | none =>
      cases e' with
      | none => exact ⟨rfl, Spans.eq_of_semicolon h h'⟩
      | some e' => exact absurd h (Spans.not_symbol_of_phrase h' (.inl rfl))
  | some e =>
      cases e' with
      | none => exact absurd h' (Spans.not_symbol_of_phrase h (.inl rfl))
      | some e' =>
          obtain ⟨rfl, hd⟩ := Spans.eq_of_phrase hs.1 hs'.1 h h'
          exact ⟨rfl, hd⟩

/-- The name and the parameters of a body. -/
theorem eq_of_openBody {isFunc : Bool} {x y : Clause.Name} {ps qs : List Clause.Name}
    (h : Spans ((openBody isFunc x ps).rest ++ [.semicolon]) c d)
    (h' : Spans ((openBody isFunc y qs).rest ++ [.semicolon]) c d') :
    x = y ∧ ps = qs ∧ d.skipBlank = d'.skipBlank := by
  obtain ⟨c₁, hx, c₂, hopen, h⟩ := h
  obtain ⟨c₁', hy, c₂', hopen', h'⟩ := h'
  obtain ⟨hxy, rfl⟩ := hx.eq_of_word x.isWord y.isWord hy
  obtain rfl := (hopen.eq_of_symbol hopen').2
  obtain ⟨hparams, m, h, h'⟩ := Spans.eq_of_parameters h h'
  exact ⟨Name.ext_bytes hxy, hparams, Spans.eq_of_semicolon h h'⟩

/-- What stands behind the first word settles which clause it is. -/
theorem eq_of_rest {x y : Clause} (hs : Phrase.AllStratified x.phrases)
    (hs' : Phrase.AllStratified y.phrases) (hword : x.word = y.word)
    (h : Spans (x.rest ++ [.semicolon]) c d) (h' : Spans (y.rest ++ [.semicolon]) c d') :
    x = y ∧ d.skipBlank = d'.skipBlank := by
  -- Two clauses that begin with one reserved word are of one kind. A name begins two kinds.
  have hk : x.keyword? = y.keyword? := by rw [← lookup?_word, ← lookup?_word, hword]
  cases x with
  | assign x e =>
      cases y with
      | assign y e' =>
          obtain ⟨c₁, hequals, h⟩ := h
          obtain ⟨c₂, hequals', h'⟩ := h'
          obtain rfl := (hequals.eq_of_symbol hequals').2
          obtain ⟨rfl, hd⟩ := Spans.eq_of_phrase hs.1 hs'.1 h h'
          exact ⟨by rw [Name.ext_bytes hword], hd⟩
      | perform y args =>
          obtain ⟨c₁, hequals, -⟩ := h
          exact absurd hequals (Spans.not_equals_of_phrases h')
      | _ => cases hk
  | perform x args =>
      cases y with
      | assign y e =>
          obtain ⟨c₁, hequals, -⟩ := h'
          exact absurd hequals (Spans.not_equals_of_phrases h)
      | perform y args' =>
          obtain ⟨hargs, hd⟩ := Spans.eq_of_phrases hs hs' h h'
          exact ⟨by rw [Name.ext_bytes hword, show args = args' from hargs], hd⟩
      | _ => cases hk
  | print args =>
      cases y with
      | print args' =>
          obtain ⟨hargs, hd⟩ := Spans.eq_of_phrases hs hs' h h'
          exact ⟨congrArg print hargs, hd⟩
      | openBody isFunc => cases isFunc <;> cases hk
      | _ => cases hk
  | input x xs =>
      cases y with
      | input y ys =>
          obtain ⟨heq, m, hd, hd'⟩ := Spans.eq_of_names (by decide) h h'
          cases heq
          exact ⟨rfl, hd.trans hd'.symm⟩
      | openBody isFunc => cases isFunc <;> cases hk
      | _ => cases hk
  | openIf e =>
      cases y with
      | openIf e' =>
          obtain ⟨rfl, hd⟩ := Spans.eq_of_phrase hs.1 hs'.1 h h'
          exact ⟨rfl, hd⟩
      | openBody isFunc => cases isFunc <;> cases hk
      | _ => cases hk
  | openWhile e =>
      cases y with
      | openWhile e' =>
          obtain ⟨rfl, hd⟩ := Spans.eq_of_phrase hs.1 hs'.1 h h'
          exact ⟨rfl, hd⟩
      | openBody isFunc => cases isFunc <;> cases hk
      | _ => cases hk
  | closeRepeat e =>
      cases y with
      | closeRepeat e' =>
          obtain ⟨rfl, hd⟩ := Spans.eq_of_phrase hs.1 hs'.1 h h'
          exact ⟨rfl, hd⟩
      | openBody isFunc => cases isFunc <;> cases hk
      | _ => cases hk
  | giveBack e =>
      cases y with
      | giveBack e' =>
          obtain ⟨rfl, hd⟩ := eq_of_giveBack hs hs' h h'
          exact ⟨rfl, hd⟩
      | openBody isFunc => cases isFunc <;> cases hk
      | _ => cases hk
  | openBody isFunc x params =>
      cases y with
      | openBody isFunc' y params' =>
          obtain rfl : isFunc = isFunc' := by
            cases isFunc <;> cases isFunc' <;> first | rfl | cases hk
          obtain ⟨rfl, rfl, hd⟩ := eq_of_openBody h h'
          exact ⟨rfl, hd⟩
      | _ => cases isFunc <;> cases hk
  | halt | openElse | closeIf | closeWhile | openRepeat | closeBody | exitLoop =>
      cases y with
      | openBody isFunc => cases isFunc <;> cases hk
      | _ => first | cases hk; done | exact ⟨rfl, Spans.eq_of_semicolon h h'⟩

/-- The clauses up to the end of a text come out one after the other. -/
theorem eq_of_script {xs ys : List Clause} (hxs : ∀ x ∈ xs, Phrase.AllStratified x.phrases)
    (hys : ∀ y ∈ ys, Phrase.AllStratified y.phrases) (h : Spans (script xs) c d)
    (h' : Spans (script ys) c d') (hd : d.skipBlank.rest = []) (hd' : d'.skipBlank.rest = []) :
    xs = ys := by
  -- A clause begins with a word, and there is none at the end of a text.
  have hnil {c d : Cursor} {x : Clause} {xs : List Clause} (h : Spans (script (x :: xs)) c d)
      (hc : c.skipBlank.rest = []) : False := by
    obtain ⟨c₁, hx, -⟩ := h
    obtain ⟨b, hb, -⟩ := Ascii.isWord_head? x.isWord_word
    have := hx.head? (b := b) hb
    rw [hc] at this
    cases this
  induction xs generalizing ys c with
  | nil =>
      cases ys with
      | nil => rfl
      | cons y ys =>
          have hskip : d.skipBlank = c.skipBlank := h
          exact absurd (hskip ▸ hd) (hnil h')
  | cons x xs ih =>
      cases ys with
      | nil =>
          have hskip : d'.skipBlank = c.skipBlank := h'
          exact absurd (hskip ▸ hd') (hnil h)
      | cons y ys =>
          rw [script, List.cons_append, List.append_cons] at h h'
          obtain ⟨c₁, hx, h⟩ := h
          obtain ⟨c₂, hy, h'⟩ := h'
          obtain ⟨hword, rfl⟩ := hx.eq_of_word x.isWord_word y.isWord_word hy
          obtain ⟨m, hrest, hmore⟩ := Spans.append.1 h
          obtain ⟨m', hrest', hmore'⟩ := Spans.append.1 h'
          obtain ⟨hxy, hm⟩ := eq_of_rest (hxs x List.mem_cons_self) (hys y List.mem_cons_self)
            hword hrest hrest'
          rw [hxy, ih (fun x hx => hxs x (List.mem_cons_of_mem _ hx))
            (fun y hy => hys y (List.mem_cons_of_mem _ hy)) hmore
            (Spans.of_skipBlank_eq hm.symm hmore')]

/-- A text is written by one list of clauses only. -/
theorem eq_of_renders {xs ys : List Clause} {bs : List UInt8}
    (hxs : ∀ x ∈ xs, Phrase.AllStratified x.phrases)
    (hys : ∀ y ∈ ys, Phrase.AllStratified y.phrases) (h : Renders (script xs) bs)
    (h' : Renders (script ys) bs) : xs = ys := by
  obtain ⟨d, hspans, hd⟩ := h.spans_all (visible_script xs) 0
  obtain ⟨d', hspans', hd'⟩ := h'.spans_all (visible_script ys) 0
  exact eq_of_script hxs hys hspans hspans' hd hd'

end Clause

end CellScript
