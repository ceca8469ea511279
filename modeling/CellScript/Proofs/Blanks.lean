import CellScript.Proofs.Lockstep
import CellScript.Proofs.Lookup
import CellScript.Proofs.ProgramCode

/-!
Blanks only separate.

A text is laid out anew by putting other blanks in the place of blanks, at least one
for at least one, everywhere but inside string literals. The two texts are twins:
behind blanks they look the same, and blanks are all that they differ in. So they
compile to the same code and the same records, or both are refused for the same
reason. The source maps enter the same offsets. The lines and columns there are the
only trace of the layout.
-/

namespace CellScript

open Ascii

/-- The inside of a string literal. A quote does not end it behind a backslash. -/
inductive LiteralBody : List UInt8 → Prop
  | nil : LiteralBody []
  | byte {b : UInt8} {bs : List UInt8} :
      b ≠ 34 → b ≠ 92 → LiteralBody bs → LiteralBody (b :: bs)
  | escape (e : UInt8) {bs : List UInt8} : LiteralBody bs → LiteralBody (92 :: e :: bs)

/-- One text is the other with different blanks outside of string literals. A run of blanks may
be replaced piece by piece, and what is left of the text at any place between tokens and literals
may stay as it is, such as a literal that is never closed. -/
inductive Relaid : List UInt8 → List UInt8 → Prop
  | same (bs : List UInt8) : Relaid bs bs
  | blanks {r r' bs bs' : List UInt8} : r ≠ [] → r' ≠ [] → r.all isBlank = true →
      r'.all isBlank = true → Relaid bs bs' → Relaid (r ++ bs) (r' ++ bs')
  | byte {b : UInt8} {bs bs' : List UInt8} :
      isBlank b = false → b ≠ 34 → Relaid bs bs' → Relaid (b :: bs) (b :: bs')
  | literal {raw bs bs' : List UInt8} :
      LiteralBody raw → Relaid bs bs' → Relaid (34 :: (raw ++ 34 :: bs)) (34 :: (raw ++ 34 :: bs'))

namespace StringLiteral

/-- How a literal is read depends on its inside alone: it is closed by the quote behind it, or it
has an escape that stands for nothing. -/
theorem scan_body {raw : List UInt8} (h : LiteralBody raw) (n : Nat) (last : UInt8) :
    (∃ length c, ∀ rest, scan n last (raw ++ 34 :: rest) = .closed raw length c) ∨
      ∃ k e, ∀ rest, scan n last (raw ++ 34 :: rest) = .invalidEscape k e := by
  induction h generalizing n last with
  | nil => exact .inl ⟨n, last, fun _ => rfl⟩
  | @byte b bs hquote hb _ ih =>
      simp only [List.cons_append, scan_cons hquote hb]
      obtain ⟨length, c, hscan⟩ | ⟨k, e, hscan⟩ := ih (n + 1) b
      · exact .inl ⟨length, c, fun rest => by rw [hscan]; rfl⟩
      · exact .inr ⟨1 + k, e, fun rest => by rw [hscan]; rfl⟩
  | @escape e bs _ ih =>
      simp only [List.cons_append, scan]
      cases he : unescapeByte? e with
      | none => exact .inr ⟨0, e, fun _ => rfl⟩
      | some b =>
          obtain ⟨length, c, hscan⟩ | ⟨k, e', hscan⟩ := ih (n + 1) b
          · exact .inl ⟨length, c, fun rest => by simp [hscan, Scan.prepend]⟩
          · exact .inr ⟨2 + k, e', fun rest => by simp [hscan, Scan.prepend]⟩

end StringLiteral

namespace Cursor

theorem rest_skipBlankFrom (pos : Nat) (bs : List UInt8) :
    (skipBlankFrom pos bs).rest = bs.dropWhile isBlank := by
  induction bs generalizing pos with
  | nil => rfl
  | cons b bs ih =>
      rw [skipBlankFrom, List.dropWhile_cons]
      split
      · exact ih _
      · rfl

theorem rest_skipBlank (c : Cursor) : c.skipBlank.rest = c.rest.dropWhile isBlank :=
  rest_skipBlankFrom _ _

end Cursor

namespace Relaid

variable {bs bs' : List UInt8}

theorem dropWhile_blank (h : Relaid bs bs') :
    Relaid (bs.dropWhile isBlank) (bs'.dropWhile isBlank) := by
  induction h with
  | same bs => exact .same _
  | blanks _ _ hr hr' _ ih =>
      rw [List.all_eq_true] at hr hr'
      rwa [List.dropWhile_append_of_pos hr, List.dropWhile_append_of_pos hr']
  | byte hb hquote h _ =>
      simp only [List.dropWhile_cons, hb, Bool.false_eq_true, if_false]
      exact .byte hb hquote h
  | literal hraw h _ => exact .literal hraw h

theorem head?_eq (h : Relaid bs bs') (hbs : bs.head?.any isBlank = false)
    (hbs' : bs'.head?.any isBlank = false) : bs'.head? = bs.head? := by
  cases h with
  | same bs => rfl
  | @blanks r r' bs bs' hne _ hr _ _ =>
      obtain ⟨b, r, rfl⟩ := List.exists_cons_of_ne_nil hne
      simp only [List.all_cons, Bool.and_eq_true] at hr
      simp [hr.1] at hbs
  | byte _ _ _ => rfl
  | literal _ _ => rfl

theorem outlook_eq (h : Relaid bs bs') : outlook bs' = outlook bs := by
  have hstop {r bs : List UInt8} (hne : r ≠ []) (hr : r.all isBlank = true) :
      outlook (r ++ bs) = [] := by
    obtain ⟨b, r, rfl⟩ := List.exists_cons_of_ne_nil hne
    simp only [List.all_cons, Bool.and_eq_true] at hr
    simp [outlook_cons, joins, hr.1]
  induction h with
  | same bs => rfl
  | blanks hne hne' hr hr' _ _ => rw [hstop hne hr, hstop hne' hr']
  | byte _ _ _ ih => rw [outlook_cons, outlook_cons, ih]
  | literal _ _ _ => rfl

theorem drop_outlook (h : Relaid bs bs') {n : Nat} (hn : n ≤ (outlook bs).length) :
    Relaid (bs.drop n) (bs'.drop n) := by
  induction h generalizing n with
  | same bs => exact .same _
  | @blanks r r' bs bs' hne hne' hr hr' h _ =>
      obtain ⟨b, r, rfl⟩ := List.exists_cons_of_ne_nil hne
      have hb : isBlank b = true := by simp_all
      have hzero : n = 0 := by simpa [outlook_cons, joins, hb] using hn
      rw [hzero]
      exact .blanks hne hne' hr hr' h
  | @byte b bs bs' hb hquote h ih =>
      cases n with
      | zero => exact .byte hb hquote h
      | succ n =>
          refine ih ?_
          rw [outlook_cons] at hn
          split at hn
          · simpa using hn
          · simp at hn
  | literal hraw h _ =>
      have hzero : n = 0 := by simpa [outlook_cons, joins] using hn
      rw [hzero]
      exact .literal hraw h

theorem quote (h : Relaid (34 :: bs) (34 :: bs')) :
    bs' = bs ∨
      ∃ raw t t', LiteralBody raw ∧ bs = raw ++ 34 :: t ∧ bs' = raw ++ 34 :: t' ∧ Relaid t t' := by
  generalize hc : (34 : UInt8) :: bs = c at h
  generalize hd : (34 : UInt8) :: bs' = d at h
  cases h with
  | same bs =>
      rw [← hc] at hd
      exact .inl (List.tail_eq_of_cons_eq hd)
  | @blanks r r' t t' hne _ hr _ _ =>
      obtain ⟨b, r, rfl⟩ := List.exists_cons_of_ne_nil hne
      cases hc
      simp [isBlank] at hr
  | byte _ hquote _ =>
      cases hc
      exact absurd rfl hquote
  | literal hraw h =>
      cases hc
      cases hd
      exact .inr ⟨_, _, _, hraw, rfl, rfl, h⟩

theorem closed (h : Relaid (34 :: bs) (34 :: bs')) {raw : List UInt8} {length : Nat} {last : UInt8}
    (hscan : StringLiteral.scan 0 0 bs = .closed raw length last) :
    StringLiteral.scan 0 0 bs' = .closed raw length last ∧
      Relaid (bs.drop (raw.length + 1)) (bs'.drop (raw.length + 1)) := by
  obtain rfl | ⟨raw', t, t', hraw, rfl, rfl, ht⟩ := h.quote
  · exact ⟨hscan, .same _⟩
  · obtain ⟨n, c, hclosed⟩ | ⟨k, e, hinvalid⟩ := StringLiteral.scan_body hraw 0 0
    · rw [hclosed] at hscan
      cases hscan
      refine ⟨hclosed _, ?_⟩
      simpa [List.drop_append, List.drop_eq_nil_of_le] using ht
    · rw [hinvalid] at hscan
      cases hscan

/-- A literal that is not closed is the same in both texts, as far as it is read. -/
theorem not_closed (h : Relaid (34 :: bs) (34 :: bs'))
    (hscan : ∀ raw length last, StringLiteral.scan 0 0 bs ≠ .closed raw length last) :
    StringLiteral.scan 0 0 bs' = StringLiteral.scan 0 0 bs := by
  obtain rfl | ⟨raw, t, t', hraw, rfl, rfl, -⟩ := h.quote
  · rfl
  · obtain ⟨n, c, hclosed⟩ | ⟨k, e, hinvalid⟩ := StringLiteral.scan_body hraw 0 0
    · exact absurd (hclosed t) (hscan _ _ _)
    · rw [hinvalid, hinvalid]

theorem semicolon (h : Relaid bs bs') (hbs : bs.head? = some Symbol.semicolon) :
    Relaid (bs.drop 1) (bs'.drop 1) := by
  cases h with
  | same bs => exact .same _
  | @blanks r r' t t' hne _ hr _ _ =>
      obtain ⟨b, r, rfl⟩ := List.exists_cons_of_ne_nil hne
      cases hbs
      simp [isBlank, Symbol.semicolon] at hr
  | byte _ _ h => exact h
  | literal _ _ => cases hbs

end Relaid

namespace Twins

def relaid (left right : Source) : Twins where
  left := left
  right := right
  cursor c d := Relaid c.rest d.rest
  lost _ := False
  sourceMap m m' := m'.offsets = m.offsets
  lost_suffix h _ := h
  skip h := by
    simp only [Cursor.rest_skipBlank, false_or]
    exact h.dropWhile_blank
  sight {c d} h hc hd := by
    have hno {c : Cursor} (hc : c.skipBlank = c) : c.rest.head?.any isBlank = false := by
      obtain ⟨-, -, -, -, hhead⟩ := c.skipBlank_split
      rwa [hc] at hhead
    exact .inr ⟨h.outlook_eq, h.head?_eq (hno hc) (hno hd)⟩
  pass h hn := .inr (h.drop_outlook hn)
  semicolon h hc := .inr (h.semicolon hc)
  literal {c d bs bs' raw length last} h hc hd hscan := by
    rw [hc, hd] at h
    simp only [Cursor.advance, hc, hd]
    exact .inr (h.closed hscan)
  unterminated {c d bs bs' n} h hc hd hscan := by
    rw [hc, hd] at h
    exact .inr ⟨n, by rw [h.not_closed (by simp [hscan]), hscan]⟩
  invalidEscape {c d bs bs' n e} h hc hd hscan := by
    rw [hc, hd] at h
    exact .inr ⟨n, by rw [h.not_closed (by simp [hscan]), hscan]⟩
  note offset _ _ h := by rw [SourceMap.offsets_push, SourceMap.offsets_push, h]

end Twins

namespace Program

/-- Both texts are accepted, with the same code, the same heap and names and the same offsets in
the source map, or both are refused, with the same number and message. -/
inductive SameButPlaces : Except CompileError Program → Except CompileError Program → Prop
  | ok {p p' : Program} : p'.code = p.code → p'.store = p.store →
      p'.sourceMap.offsets = p.sourceMap.offsets → SameButPlaces (.ok p) (.ok p')
  | error {e e' : CompileError} : e'.cause = e.cause → SameButPlaces (.error e) (.error e')

/-- The layout of a text leaves no trace but in positions. -/
theorem compile_relaid {s s' : Source} (h : Relaid s.bytes.toList s'.bytes.toList)
    (limits : Limits) : SameButPlaces (compile s limits) (compile s' limits) := by
  simp only [compile, compileWith]
  cases limits.validate with
  | error e => exact .error rfl
  | ok _ =>
      have hstart := Twins.Like.of_same (τ := Twins.relaid s s') (s := Compiler.start s limits)
        (t := Compiler.start s' limits) rfl rfl h rfl rfl
      obtain ⟨a, a', t, t', hs, hs', -, hlike⟩ | ⟨e, e', t, t', hs, hs', hcause⟩ :=
        ((Twins.alike_program).outcome hstart).agree fun _ hlost => hlost
      · simp only [hs, hs', hlike.code]
        cases t.code.finish with
        | error e => exact .error rfl
        | ok code => exact .ok rfl hlike.store hlike.sourceMap
      · simp only [hs, hs']
        exact .error hcause

/-- The blanks inside the literal are left alone. -/
theorem compile_relaid_around_literal : ∃ p p' : Program,
    Relaid (Source.ofText "m" "a = \"x  y\" ;").bytes.toList
      (Source.ofText "m" "a\n\t= \"x  y\"\n;").bytes.toList ∧
    compile (.ofText "m" "a = \"x  y\" ;") default = .ok p ∧
    compile (.ofText "m" "a\n\t= \"x  y\"\n;") default = .ok p' ∧
    p'.code = p.code ∧ p'.store = p.store ∧ p'.sourceMap.offsets = p.sourceMap.offsets := by
  obtain ⟨p, hc, -⟩ := exists_of_compile (.ofText "m" "a = \"x  y\" ;") default (fun _ => true)
    (by decide +kernel)
  have h : Relaid (Source.ofText "m" "a = \"x  y\" ;").bytes.toList
      (Source.ofText "m" "a\n\t= \"x  y\"\n;").bytes.toList := by
    have hbody : LiteralBody [120, 32, 32, 121] :=
      .byte (by decide) (by decide) (.byte (by decide) (by decide)
        (.byte (by decide) (by decide) (.byte (by decide) (by decide) .nil)))
    have hend : Relaid ([32] ++ [59]) ([10] ++ [59]) :=
      .blanks (by decide) (by decide) (by decide) (by decide) (.same [59])
    have hvalue : Relaid ([32] ++ _) ([32] ++ _) :=
      .blanks (by decide) (by decide) (by decide) (by decide) (.literal hbody hend)
    have hassign : Relaid ([32] ++ _) ([10, 9] ++ _) :=
      .blanks (by decide) (by decide) (by decide) (by decide)
        (.byte (b := 61) (by decide) (by decide) hvalue)
    exact .byte (b := 97) (by decide) (by decide) hassign
  have hsame := compile_relaid h default
  rw [hc] at hsame
  cases hc' : compile (.ofText "m" "a\n\t= \"x  y\"\n;") default with
  | error e =>
      rw [hc'] at hsame
      cases hsame
  | ok p' =>
      rw [hc'] at hsame
      cases hsame with
      | ok hcode hstore hmap => exact ⟨p, p', h, hc, rfl, hcode, hstore, hmap⟩

end Program

end CellScript
