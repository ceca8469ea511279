import CellScript.Proofs.Unambiguity

/-!
What the grammar accepts is written as a phrase.

The grammar of the language and the phrases describe the same texts from two
sides: the grammar by how they are read, with the recognizers of the compiler, and
the phrases by how they are written, token by token. Here the reading gives the
writing. Every tree that the grammar finds between two places is what a phrase
resolves to, the text between them renders the phrase, and the operators of the
phrase are ordered by precedence.
-/

namespace CellScript

/-- The tokens stand between two fronts, in the same body. -/
structure Front.Passes (f : Front) (ts : List Token) (f' : Front) : Prop where
  spans : Spans ts f.cursor f'.cursor
  body : f'.body = f.body
  maxSlots : f'.maxSlots = f.maxSlots

namespace Front.Passes

variable {f g h : Front} {ts us : List Token}

theorem trans (h₁ : f.Passes ts g) (h₂ : g.Passes us h) : f.Passes (ts ++ us) h :=
  ⟨Spans.append.2 ⟨g.cursor, h₁.spans, h₂.spans⟩, h₂.body.trans h₁.body,
    h₂.maxSlots.trans h₁.maxSlots⟩

theorem token {t : Token} {c : Cursor} {st : Store} (h : t.Stands f.cursor c) :
    f.Passes [t] ((f.goto c).withStore st) :=
  ⟨⟨c, h, rfl⟩, rfl, rfl⟩

end Front.Passes

/-- The word `not`, in any case, is an operator. -/
theorem Operator.match?_not {bs : List UInt8} (h : bs.map Ascii.toLower = Ascii.bytes "not") :
    match? unary bs = some (⟨.lnot, 1, 11⟩, bs.length) := by
  have hspells : (unaryRow "not" .lnot).Spells bs := h
  refine match?_eq_some.2 ⟨[unaryRow "-" .neg, unaryRow "~" .bnot], unaryRow "not" .lnot, [], rfl,
    fun r hr => ?_, ?_, rfl, hspells.length.symm⟩
  · -- The other operators are symbols.
    refine Bool.eq_false_iff.2 fun hfits => ?_
    obtain ⟨text, rest, rfl, hspells', -⟩ := Row.fits_iff.1 hfits
    simp only [List.mem_cons, List.not_mem_nil, or_false] at hr
    obtain rfl | rfl := hr
    · obtain rfl : text = [45] := hspells'.eq_of_not_isSpelled hspells'.isSpelled_eq
      exact absurd (show some (Ascii.toLower 45) = _ from congrArg List.head? h) (by decide)
    · obtain rfl : text = [126] := hspells'.eq_of_not_isSpelled hspells'.isSpelled_eq
      exact absurd (show some (Ascii.toLower 126) = _ from congrArg List.head? h) (by decide)
  · simpa using Row.fits_append [] hspells (by simp)

theorem Token.Stands.unaryOperator_of_not {bs : List UInt8} {c c' : Cursor}
    (h : (Token.word bs).Stands c c') (hnot : bs.map Ascii.toLower = Ascii.bytes "not") :
    c.unaryOperator.1 ≠ none := by
  have hspelled : Operator.isSpelled bs = true :=
    Operator.Row.Spells.isSpelled_eq (r := Operator.unaryRow "not" .lnot) hnot
  have hminus : bs ≠ [45] := by
    rintro rfl
    cases hspelled
  let o : Phrase.Sign Operator.unary := ⟨bs, _, Operator.match?_not hnot⟩
  have hstands : (Token.unary o.text).Stands c c' := by
    refine ⟨h.text, h.pos, ?_⟩
    have hends := h.ends
    cases hrest : c'.rest.head? <;> simp_all [Token.absorbs, Operator.goesOn, o]
  rw [Cursor.unaryOperator_iff.2 ⟨o, hstands, rfl⟩]
  exact Option.some_ne_none _

namespace Grammar

variable {f f' : Front} {e : Expr}

theorem Mark.passes {b : UInt8} (h : Mark b f f') :
    f.Passes [.symbol b] f' ∧ f'.store = f.store := by
  obtain ⟨hc⟩ := h
  exact ⟨.token (Cursor.symbol_iff.1 hc), rfl⟩

theorem NoMark.passes {b : UInt8} (h : NoMark b f f') : f.Passes [] f' ∧ f'.store = f.store := by
  rw [h.eq_skip]
  exact ⟨⟨Cursor.skipBlank_idem _, rfl, rfl⟩, rfl⟩

/-- A word that is reserved. -/
theorem Reserved.passes {k : Keyword} (h : Reserved k f f') :
    ∃ bs, Keyword.lookup? bs = some k ∧ f.Passes [.word bs] f' ∧ f'.store = f.store := by
  obtain ⟨hw, hk⟩ := h
  exact ⟨_, hk, .token (Cursor.word_iff.1 hw).1, rfl⟩

/-- A name where no operator is found: `not` is none. -/
theorem Name.passes {id : Ident} (h : Name f id f') (hu : f.cursor.unaryOperator.1 = none) :
    ∃ (x : Phrase.Name) (new : Bool), f.Passes [.word x.bytes] f' ∧
      Store.intern x.bytes f.store = .ok (id, new) f'.store := by
  obtain ⟨hw, hk, hst⟩ := h
  obtain ⟨hstands, hword, -⟩ := Cursor.word_iff.1 hw
  exact ⟨⟨_, hword, hk, fun hnot => hstands.unaryOperator_of_not hnot hu⟩, _, .token hstands, hst⟩

theorem Text.passes {t : StringToken} {l : Literal} {q : Phrase.Quoted} {start : Nat}
    (h : Text f t l f') (ht : t = q.token start) :
    f' = f.withStore f'.store ∧ q.resolve f.store = .ok l f'.store := by
  unfold Phrase.Quoted.token at ht
  unfold Phrase.Quoted.resolve
  match hlength : q.length, ht with
  | 0, ht =>
      simp only at ht
      subst ht
      obtain ⟨⟩ := h
      exact ⟨rfl, rfl⟩
  | 1, ht =>
      simp only at ht
      subst ht
      obtain ⟨⟩ := h
      exact ⟨rfl, rfl⟩
  | n + 2, ht =>
      simp only at ht
      subst ht
      cases h with
      | long halloc =>
          simp only [Action.bind_eq_ok, Action.pure_eq_ok]
          exact ⟨rfl, _, _, by simp [Store.onHeap, halloc, Front.withHeap], rfl, rfl⟩

mutual

theorem Level.phrase {k : Nat} {f f' : Front} {e : Expr} : Level k f e f' →
    ∃ t : Phrase, t.Stratified ∧ k ≤ t.level ∧ f.Passes t.tokens f' ∧
      t.resolve f.body f.store = .ok e f'.store
  | .tighter h => by
      obtain ⟨t, hs, hk, hp, hr⟩ := Level.phrase h
      exact ⟨t, hs, Nat.le_of_succ_le hk, hp, hr⟩
  | .binary (t := t) h₁ ht h₂ => by
      obtain ⟨a, hsa, hka, hpa, hra⟩ := Level.phrase h₁
      obtain ⟨b, hsb, hkb, hpb, hrb⟩ := Level.phrase h₂
      obtain ⟨o, hstands, rfl⟩ := Cursor.binaryOperator_iff.1 ht
      have hprec := o.prec_of_binary.1
      refine ⟨.binary o a b, ⟨hprec ▸ hka, hprec ▸ hkb, hsa, hsb⟩, Nat.le_of_eq hprec, ?_, ?_⟩
      · exact hpa.trans ((Front.Passes.token hstands).trans hpb)
      · simp only [Phrase.resolve, Action.bind_eq_ok, Action.pure_eq_ok]
        exact ⟨_, _, hra, _, _, hpa.body ▸ hrb, rfl, rfl⟩
  | .unary (t := t) ht h => by
      obtain ⟨u, hs, hk, hp, hr⟩ := Level.phrase h
      obtain ⟨o, hstands, rfl⟩ := Cursor.unaryOperator_iff.1 ht
      have hprec := o.prec_of_unary.1
      refine ⟨.unary o u, ⟨hprec ▸ hk, hs⟩, Nat.le_of_eq hprec,
        (Front.Passes.token hstands).trans hp, ?_⟩
      simp only [Phrase.resolve, Action.bind_eq_ok, Action.pure_eq_ok]
      exact ⟨_, _, hr, rfl, rfl⟩
  | .operand (c := c) hc h => by
      have hskip : c = _ := (congrArg Prod.snd hc).symm.trans
        (Cursor.unaryOperator_none (congrArg Prod.fst hc))
      obtain ⟨t, hs, hlevel, hp, hr⟩ := Operand.phrase h (by
        rw [Front.cursor_goto, hskip, Cursor.unaryOperator_skipBlank, hc])
      refine ⟨t, hs, Nat.le_of_eq hlevel.symm, ⟨?_, hp.body, hp.maxSlots⟩, hr⟩
      have := hp.spans
      rwa [Front.cursor_goto, hskip, Spans.skipBlank_left] at this

theorem Operand.phrase {f f' : Front} {e : Expr} : Operand f e f' →
    f.cursor.unaryOperator.1 = none →
    ∃ t : Phrase, t.Stratified ∧ t.level = 12 ∧ f.Passes t.tokens f' ∧
      t.resolve f.body f.store = .ok e f'.store
  | .group h₁ h₂ h₃, hu => by
      obtain ⟨hp₁, hst₁⟩ := h₁.passes
      obtain ⟨t, hs, hp₂, hr, -⟩ := Expression.phrase h₂
      obtain ⟨hp₃, hst₃⟩ := h₃.passes
      refine ⟨.group t, hs, rfl, hp₁.trans (hp₂.trans hp₃), ?_⟩
      rw [Phrase.resolve, ← hp₁.body, ← hst₁, hr, hst₃]
  | .array h₁ h₂ hlen, hu => by
      obtain ⟨hp₁, hst₁⟩ := h₁.passes
      obtain ⟨ts, hs, -, hp₂, hr⟩ := Listed.phrase h₂
      refine ⟨.array ts, hs, rfl, hp₁.trans hp₂, ?_⟩
      rw [Phrase.resolve, ← hp₁.body, ← hst₁]
      simp only [Action.bind_eq_ok, Action.pure_eq_ok]
      exact ⟨_, _, hr, rfl, rfl⟩
  | .number hn, hu => by
      obtain ⟨n, hstands, rfl⟩ := Cursor.number_iff.1 hn
      exact ⟨.numeral n, trivial, rfl, .token hstands, rfl⟩
  | .text ht h, hu => by
      obtain ⟨q, hstands, hq⟩ := Cursor.string_iff.1 ht
      obtain ⟨hf, hr⟩ := h.passes hq
      refine ⟨.quoted q, trivial, rfl, hf ▸ .token hstands, ?_⟩
      simp only [Phrase.resolve, Action.bind_eq_ok, Action.pure_eq_ok]
      exact ⟨_, _, hr, rfl, rfl⟩
  | .yes h, hu => by
      obtain ⟨bs, hk, hp, hst⟩ := h.passes
      exact ⟨.constant ⟨bs, true, hk⟩, trivial, rfl, hp, by rw [hst]; rfl⟩
  | .no h, hu => by
      obtain ⟨bs, hk, hp, hst⟩ := h.passes
      exact ⟨.constant ⟨bs, false, hk⟩, trivial, rfl, hp, by rw [hst]; rfl⟩
  | .builtin h₁ h₂ h₃, hu => by
      obtain ⟨bs, hk, hp₁, hst₁⟩ := h₁.passes
      obtain ⟨hp₂, hst₂⟩ := h₂.passes
      obtain ⟨ts, hs, hlen, hp₃, hr⟩ := Listed.phrase h₃
      refine ⟨.builtin ⟨bs, _, _, hk⟩ ts, ⟨hlen, hs⟩, rfl, hp₁.trans (hp₂.trans hp₃), ?_⟩
      rw [Phrase.resolve, ← hp₁.body, ← hp₂.body, ← hst₁, ← hst₂]
      simp only [Action.bind_eq_ok, Action.pure_eq_ok]
      exact ⟨_, _, hr, rfl, rfl⟩
  | .call h₁ h₂ h₃ hlen, hu => by
      obtain ⟨x, new, hp₁, hid⟩ := h₁.passes hu
      obtain ⟨hp₂, hst₂⟩ := h₂.passes
      obtain ⟨ts, hs, hlength, hp₃, hr⟩ := Listed.phrase h₃
      refine ⟨.call x ts, ⟨hlength ▸ hlen, hs⟩, rfl, hp₁.trans (hp₂.trans hp₃), ?_⟩
      rw [Phrase.resolve, ← hp₁.body, ← hp₂.body]
      simp only [Action.bind_eq_ok, Action.pure_eq_ok]
      exact ⟨_, _, hid, _, _, hst₂ ▸ hr, rfl, rfl⟩
  | .variable h₁ h₂ h₃, hu => by
      obtain ⟨x, new, hp₁, hid⟩ := h₁.passes hu
      obtain ⟨hp₂, hst₂⟩ := h₂.passes
      obtain ⟨s, hs, hp₃, hr⟩ := Indexed.phrase h₃
      refine ⟨.variable x s, hs, rfl, hp₁.trans (hp₂.trans hp₃), ?_⟩
      rw [Phrase.resolve, ← hp₁.body, ← hp₂.body]
      simp only [Action.bind_eq_ok, Action.get_eq_ok]
      exact ⟨_, _, hid, _, _, ⟨rfl, rfl⟩, hst₂ ▸ hr⟩

theorem Indexed.phrase {f f' : Front} {e e' : Expr} : Indexed e f e' f' →
    ∃ s : Suffixes, s.Stratified ∧ f.Passes s.tokens f' ∧
      s.resolve f.body e f.store = .ok e' f'.store
  | .done h => by
      obtain ⟨hp, hst⟩ := h.passes
      exact ⟨.none, trivial, hp, by rw [hst]; rfl⟩
  | .index h₁ h₂ h₃ h₄ h₅ => by
      obtain ⟨hp₁, hst₁⟩ := h₁.passes
      obtain ⟨i, hsi, hp₂, hri, -⟩ := Expression.phrase h₂
      obtain ⟨hp₃, hst₃⟩ := h₃.passes
      obtain ⟨hp₄, hst₄⟩ := h₄.passes
      obtain ⟨s, hs, hp₅, hr⟩ := Indexed.phrase h₅
      refine ⟨.index i s, ⟨hsi, hs⟩,
        hp₁.trans (hp₂.trans (hp₃.trans (hp₄.trans hp₅))), ?_⟩
      rw [hp₁.body, hst₁] at hri
      rw [(hp₁.trans (hp₂.trans (hp₃.trans hp₄))).body, hst₄, hst₃] at hr
      simp only [Suffixes.resolve, Action.bind_eq_ok]
      exact ⟨_, _, hri, hr⟩
  | .range h₁ h₂ h₃ h₄ h₅ h₆ => by
      obtain ⟨hp₁, hst₁⟩ := h₁.passes
      obtain ⟨i, hsi, hp₂, hri, -⟩ := Expression.phrase h₂
      obtain ⟨hp₃, hst₃⟩ := h₃.passes
      obtain ⟨j, hsj, hp₄, hrj, -⟩ := Expression.phrase h₄
      obtain ⟨hp₅, hst₅⟩ := h₅.passes
      obtain ⟨s, hs, hp₆, hr⟩ := Indexed.phrase h₆
      refine ⟨.range i j s, ⟨hsi, hsj, hs⟩, ?_, ?_⟩
      · have := hp₁.trans (hp₂.trans (hp₃.trans (hp₄.trans (hp₅.trans hp₆))))
        simpa [Suffixes.tokens, Token.openBracket, Token.colon, Token.closeBracket] using this
      · rw [hp₁.body, hst₁] at hri
        rw [(hp₁.trans (hp₂.trans hp₃)).body, hst₃] at hrj
        rw [(hp₁.trans (hp₂.trans (hp₃.trans (hp₄.trans hp₅)))).body, hst₅] at hr
        simp only [Suffixes.resolve, Action.bind_eq_ok]
        exact ⟨_, _, hri, _, _, hrj, hr⟩

theorem Listed.phrase {close : UInt8} {f f' : Front} {es : List Expr} : Listed close f es f' →
    ∃ ts : List Phrase, Phrase.AllStratified ts ∧ ts.length = es.length ∧
      f.Passes (Phrase.listTokens ts ++ [.symbol close]) f' ∧
      Phrase.resolveAll f.body ts f.store = .ok es f'.store
  | .none h => by
      obtain ⟨hp, hst⟩ := h.passes
      exact ⟨[], trivial, rfl, hp, by rw [hst]; rfl⟩
  | .some h₁ h₂ => by
      obtain ⟨hp₁, hst₁⟩ := h₁.passes
      obtain ⟨t, ts, hst, hsts, hlen, hp₂, hr⟩ := ListedFrom.phrase h₂
      refine ⟨t :: ts, ⟨hst, hsts⟩, by simp [hlen], hp₁.trans hp₂, ?_⟩
      rw [← hp₁.body, ← hst₁]
      exact hr

theorem ListedFrom.phrase {close : UInt8} {f f' : Front} {e : Expr} {es : List Expr} :
    ListedFrom close f e es f' →
    ∃ (t : Phrase) (ts : List Phrase), t.Stratified ∧ Phrase.AllStratified ts ∧
      ts.length = es.length ∧
      f.Passes (t.tokens ++ Phrase.moreTokens ts ++ [.symbol close]) f' ∧
      Phrase.resolveAll f.body (t :: ts) f.store = .ok (e :: es) f'.store
  | .last h₁ h₂ h₃ => by
      obtain ⟨t, hs, hp₁, hr, -⟩ := Expression.phrase h₁
      obtain ⟨hp₂, hst₂⟩ := h₂.passes
      obtain ⟨hp₃, hst₃⟩ := h₃.passes
      refine ⟨t, [], hs, trivial, rfl, (hp₁.trans hp₂).trans hp₃, ?_⟩
      simp only [Phrase.resolveAll, Action.bind_eq_ok, Action.pure_eq_ok]
      exact ⟨_, _, hr, _, _, ⟨rfl, rfl⟩, rfl, by rw [hst₃, hst₂]⟩
  | .more h₁ h₂ h₃ => by
      obtain ⟨t, hs, hp₁, hr, -⟩ := Expression.phrase h₁
      obtain ⟨hp₂, hst₂⟩ := h₂.passes
      obtain ⟨u, us, hsu, hsus, hlen, hp₃, hrs⟩ := ListedFrom.phrase h₃
      refine ⟨t, u :: us, hs, ⟨hsu, hsus⟩, by simp [hlen], ?_, ?_⟩
      · have := hp₁.trans (hp₂.trans hp₃)
        simpa [Phrase.moreTokens, Token.comma] using this
      · rw [(hp₁.trans hp₂).body, hst₂] at hrs
        simp only [Phrase.resolveAll] at hrs ⊢
        simp only [Action.bind_eq_ok, Action.pure_eq_ok] at hrs ⊢
        obtain ⟨_, _, hru, _, _, hrus, hcons, hstore⟩ := hrs
        exact ⟨_, _, hr, _, _, ⟨_, _, hru, _, _, hrus, rfl, rfl⟩, by rw [hcons], hstore⟩

/-- A tree that the grammar finds is written as a phrase. -/
theorem Expression.phrase {f f' : Front} {e : Expr} : Expression f e f' →
    ∃ t : Phrase, t.Stratified ∧ f.Passes t.tokens f' ∧
      t.resolve f.body f.store = .ok e f'.store ∧ f'.cursor.skipBlank = f'.cursor
  | .mk (c := c) h hc => by
      obtain ⟨t, hs, -, hp, hr⟩ := Level.phrase h
      have hskip : c = _ := (congrArg Prod.snd hc).symm.trans
        (Cursor.operator_none (congrArg Prod.fst hc))
      refine ⟨t, hs, ⟨?_, hp.body, hp.maxSlots⟩, hr, ?_⟩
      · rw [Front.cursor_goto, hskip, Spans.skipBlank_right]
        exact hp.spans
      · rw [Front.cursor_goto, hskip, Cursor.skipBlank_idem]

end

end Grammar

end CellScript
