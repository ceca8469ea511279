import CellScript.Proofs.Acceptance
import CellScript.Proofs.ExpressionCode

/-!
The expression compiler reads the precedence grammar and emits its postfix code.

The compiler has one stack for operators, groups, arguments and indices, and one
comparison for precedence and associativity. The grammar is said without either:
a phrase is a tree of tokens, and precedence is a condition on its shape. Both
accept the same texts. Whatever the compiler takes is the text of one phrase, and
of one only; its code is the postfix code of the tree of that phrase. And the text
of every phrase is taken as that phrase, unless there is no room for it.
-/

namespace CellScript

namespace Compiler

/-- From one state to the other, a phrase has been read from a text and the code of its tree has
been emitted. Nothing else has changed. -/
def Takes (s : Compiler) (e : Phrase) (bs : List UInt8) (s' : Compiler) : Prop :=
  ∃ tree st, e.resolve s.body s.store = .ok tree st ∧
    s' = { s with
      cursor := s.cursor.advance bs.length
      store := st
      code := { s.code with code := s.code.code ++ tree.code.bytes } }

/-- What an expression has been compiled from. Blanks behind it have been passed, too. -/
theorem takes_of_expression {s s' : Compiler} (h : expression s = .ok () s') :
    s'.cursor.skipBlank = s'.cursor ∧
      ∃ (e : Phrase) (bs : List UInt8), e.Stratified ∧ s.cursor.rest = bs ++ s'.cursor.rest ∧
        Renders e.tokens bs ∧ s.Takes e bs s' := by
  obtain ⟨tree, f, hexpr, rfl⟩ := expression_ok h
  obtain ⟨e, hs, hp, hr, hskip⟩ := hexpr.phrase
  obtain ⟨bs, hrest, hpos, hrenders⟩ := hp.spans.renders
  rw [hskip] at hrest hpos
  have hcursor : f.cursor = s.cursor.advance bs.length := by
    have hrest' : f.cursor.rest = s.cursor.rest.drop bs.length := by
      rw [show s.cursor.rest = bs ++ f.cursor.rest from hrest, List.drop_left]
    calc f.cursor = ⟨f.cursor.pos, f.cursor.rest⟩ := rfl
      _ = s.cursor.advance bs.length := by rw [hpos, hrest']; rfl
  have hbody : f.body = s.body := hp.body
  have hslots : f.maxSlots = s.maxSlots := hp.maxSlots
  refine ⟨hskip, e, bs, hs, hrest, hrenders, tree, f.store, hr, ?_⟩
  rw [advance, hcursor, hbody, hslots]

theorem Exhausted.number {s : Compiler} {cause : Cause} (h : s.Exhausted cause) :
    cause.number ∈ [400, 402, 403] := by
  cases h <;> simp [Cause.number]

/-- An expression compiles exactly if it is the text of a phrase, room apart. The phrase is the
only one with that text, and what is emitted is the postfix code of its tree. -/
theorem expression_iff_phrase (s : Compiler) :
    (∀ s', expression s = .ok () s' →
      ∃ (e : Phrase) (bs : List UInt8), e.Stratified ∧ s.cursor.rest = bs ++ s'.cursor.rest ∧
        Renders e.tokens bs ∧ s.Takes e bs s' ∧
        ∀ e' : Phrase, e'.Stratified → Renders e'.tokens bs → e' = e) ∧
    ∀ (e : Phrase) (bs : List UInt8) (b : UInt8) (rest : List UInt8), e.Stratified →
      Renders e.tokens bs → b ∈ closers → s.cursor.rest = bs ++ b :: rest →
      (∃ s', expression s = .ok () s' ∧ s.Takes e bs s' ∧ s'.cursor.rest = b :: rest) ∨
        ∃ err s', expression s = .error err s' ∧ s'.Exhausted err.cause ∧
          err.cause.number ∈ [400, 402, 403] := by
  constructor
  · intro s' h
    obtain ⟨-, e, bs, hs, hrest, hrenders, htakes⟩ := takes_of_expression h
    exact ⟨e, bs, hs, hrest, hrenders, htakes, fun e' hs' hrenders' =>
      Phrase.eq_of_renders hs' hs hrenders' hrenders⟩
  · intro e bs b rest hs hrenders hb hrest
    obtain ⟨d, hspans, hd⟩ := hrenders.spans e.alternate_tokens hb rest s.cursor.pos
    rw [← hrest] at hspans
    have hclosed : d.Closed := ⟨b, hb, by rw [hd]; rfl⟩
    have hlength : e.tokens.length ≤ s.cursor.rest.length := by
      have := hrenders.length_le e.alternate_tokens
      rw [hrest, List.length_append]
      omega
    have hreach := reaches_expression hs hspans hclosed hlength
    cases hrun : expression s with
    | ok u s' =>
        rw [hrun] at hreach
        -- The run ends where the text does, and what it has read up to there is some phrase.
        obtain ⟨hskip, e', bs', hs', hrest', hrenders', htakes⟩ := takes_of_expression hrun
        have hend : s'.cursor.rest = b :: rest := by
          rw [← hskip, show s'.cursor.skipBlank = d.skipBlank from hreach, hd]
        rw [hrest, hend] at hrest'
        obtain rfl : bs = bs' := List.append_cancel_right hrest'
        obtain rfl := Phrase.eq_of_renders hs hs' hrenders hrenders'
        exact .inl ⟨s', rfl, htakes, hend⟩
    | error err s' =>
        rw [hrun] at hreach
        exact .inr ⟨err, s', rfl, hreach, Exhausted.number hreach⟩

end Compiler

/-- The phrase `- 1 +-2*not x- y`: the first minus is an operator, the second a sign, and the third
takes all that stands before it. -/
def Phrase.signed : Phrase :=
  .binary ⟨[45], ⟨.sub, 2, 9⟩, by decide⟩
    (.binary ⟨[43], ⟨.add, 2, 9⟩, by decide⟩
      (.unary ⟨[45], ⟨.neg, 1, 11⟩, by decide⟩ (.numeral ⟨[49], .int 1, by decide⟩))
      (.binary ⟨[42], ⟨.mul, 2, 10⟩, by decide⟩ (.numeral ⟨[45, 50], .int (-2), by decide⟩)
        (.unary ⟨[110, 111, 116], ⟨.lnot, 1, 11⟩, by decide⟩
          (.variable ⟨[120], by decide, by decide, by decide⟩ .none))))
    (.variable ⟨[121], by decide, by decide, by decide⟩ .none)

theorem Phrase.stratified_signed : signed.Stratified := by
  simp [signed, Stratified, Suffixes.Stratified, level, Sign.binding, Opcode.binding]

theorem Phrase.renders_signed : Renders signed.tokens
    [45, 32, 49, 32, 43, 45, 50, 42, 110, 111, 116, 32, 120, 45, 32, 121] :=
  @Renders.token _ _ [] _ rfl rfl <| @Renders.token _ _ [32] _ rfl rfl <|
  @Renders.token _ _ [32] _ rfl rfl <| @Renders.token _ _ [] _ rfl rfl <|
  @Renders.token _ _ [] _ rfl rfl <| @Renders.token _ _ [] _ rfl rfl <|
  @Renders.token _ _ [32] _ rfl rfl <| @Renders.token _ _ [] _ rfl rfl <|
  @Renders.token _ _ [32] _ rfl rfl <| .done rfl

namespace Compiler

/-- This phrase is read, as no other, up to the semicolon. -/
theorem expression_iff_phrase_of_signs :
    ∃ s', expression (start (.ofText "m" "- 1 +-2*not x- y;") default) = .ok () s' ∧
      (start (.ofText "m" "- 1 +-2*not x- y;") default).Takes .signed
        [45, 32, 49, 32, 43, 45, 50, 42, 110, 111, 116, 32, 120, 45, 32, 121] s' ∧
      s'.cursor.rest = [59] ∧
      s'.code.code =
        #[191, 0, 1, 130, 191, 255, 254, 187, 0, 2, 132, 133, 136, 187, 0, 13, 137] ∧
      ∀ e : Phrase, e.Stratified → Renders e.tokens
        [45, 32, 49, 32, 43, 45, 50, 42, 110, 111, 116, 32, 120, 45, 32, 121] → e = .signed := by
  have hcode : (match expression (start (.ofText "m" "- 1 +-2*not x- y;") default) with
      | .ok _ s' => s'.code.code
      | .error _ _ => #[]) =
        #[191, 0, 1, 130, 191, 255, 254, 187, 0, 2, 132, 133, 136, 187, 0, 13, 137] := by
    decide +kernel
  have htext : (start (.ofText "m" "- 1 +-2*not x- y;") default).cursor.rest =
      [45, 32, 49, 32, 43, 45, 50, 42, 110, 111, 116, 32, 120, 45, 32, 121] ++ [59] := by
    decide +kernel
  obtain ⟨honly, htakes⟩ :=
    expression_iff_phrase (start (.ofText "m" "- 1 +-2*not x- y;") default)
  obtain ⟨s', hs', htakes, hrest⟩ | ⟨err, s', herr, -⟩ :=
    htakes _ _ 59 [] Phrase.stratified_signed Phrase.renders_signed (by decide) htext
  · obtain ⟨e, bs, -, happend, -, -, hunique⟩ := honly s' hs'
    rw [htext, hrest] at happend
    obtain rfl := List.append_cancel_right happend
    rw [hs'] at hcode
    refine ⟨s', hs', htakes, hrest, hcode, fun e' hs hr => ?_⟩
    rw [hunique e' hs hr, hunique _ Phrase.stratified_signed Phrase.renders_signed]
  · rw [herr] at hcode
    cases hcode

end Compiler

end CellScript
