import CellScript.Proofs.Lockstep
import CellScript.Proofs.Lookup
import CellScript.Proofs.ProgramCode

/-!
Statement after statement.

Compiling a text takes turns. Each turn reads the first word of a statement, enters
it in the source map, compiles the statement and passes the semicolon behind it.
This module says what a turn does to the state as a whole: code is appended, the
source map gets its one entry, the text itself stays. What holds of every turn then
holds of texts by induction.
-/

namespace CellScript

/-- A text is read like itself. -/
def Twins.self (source : Source) : Twins where
  left := source
  right := source
  cursor c d := d = c
  lost _ := False
  sourceMap m m' := m' = m
  lost_suffix h _ := h
  skip h := .inr (by rw [h])
  sight h _ _ := .inr (by rw [h]; exact ⟨rfl, rfl⟩)
  pass h _ := .inr (by rw [h])
  semicolon h _ := .inr (by rw [h])
  literal h hc hd hscan := by
    rw [h, hc] at hd
    cases hd
    exact .inr ⟨hscan, by rw [h]⟩
  unterminated h hc hd hscan := by
    rw [h, hc] at hd
    cases hd
    exact .inr ⟨_, hscan⟩
  invalidEscape h hc hd hscan := by
    rw [h, hc] at hd
    cases hd
    exact .inr ⟨_, hscan⟩
  note offset h _ hm := by rw [h, hm]

namespace Outline

variable {fs fs' : List Frame} {cur cur' : Stmt}

theorem Step.size_le (h : Step fs cur fs' cur') : size fs cur ≤ size fs' cur' := by
  cases h with
  | append _ => rw [size_seq]; omega
  | begin _ => simp only [size]; omega
  | divide => simp only [size, Frame.before, Frame.leadSize]; omega
  | @finish _ k _ s hk =>
      rw [size_seq]
      cases k with
      | ifThen b c =>
          cases hk
          simp only [size, Frame.before, Frame.leadSize, Stmt.size]
          omega
      | ifElse b c a =>
          cases hk
          simp only [size, Frame.before, Frame.leadSize, Stmt.size]
          omega
      | whileDo b c =>
          cases hk
          simp only [size, Frame.before, Frame.leadSize, Stmt.size]
          omega
      | repeatUntil b =>
          obtain ⟨c, rfl⟩ := hk
          simp only [size, Frame.before, Frame.leadSize, Stmt.size]
          omega
      | body b head =>
          obtain ⟨d, rfl⟩ := hk
          simp only [size, Frame.before, Frame.leadSize, Stmt.size]
          omega

end Outline

namespace Compiler

open Grammar

variable {s s₁ s₂ s' : Compiler} {w : WordToken}

/-- One statement and the semicolon behind it. -/
structure Turn (s : Compiler) (w : WordToken) (s₁ s₂ : Compiler) : Prop where
  word : s.cursor.word.1 = some w
  statement : statementAt w { s with cursor := s.cursor.word.2 } = .ok () s₁
  semicolon : symbol Symbol.semicolon s₁ = .ok true s₂

/-- The statements of a text are turns until nothing is left. -/
theorem statements_succ_ok {fuel : Nat} {u : Unit} (h : statements (fuel + 1) s = .ok u s') :
    (s.cursor.atEnd.1 = true ∧ s' = { s with cursor := s.cursor.skipBlank }) ∨
      s.cursor.atEnd.1 = false ∧ ∃ w s₁ s₂, Turn s w s₁ s₂ ∧ statements fuel s₂ = .ok u s' := by
  simp only [statements, statement, Action.bind_eq_ok, Action.ite_eq_ok, Action.pure_eq_ok,
    failHere_eq_ok, and_false, exists_false, or_false, read_eq_ok] at h
  obtain ⟨atEnd, _, ⟨rfl, rfl⟩, h⟩ := h
  obtain ⟨hend, -, rfl⟩ | ⟨hend, _, s₁, ⟨word, _, ⟨hw, rfl⟩, hst⟩, semi, s₂, hsemi, rfl, hrest⟩ := h
  · exact .inl ⟨hend, rfl⟩
  · have hskip : s.cursor.atEnd.2.word = s.cursor.word := Cursor.word_skipBlank _
    simp only [hskip] at hw hst
    cases word with
    | none => simp [failHere_eq_ok] at hst
    | some w => exact .inr ⟨by simpa using hend, w, s₁, s₂, ⟨hw, hst, hsemi⟩, hrest⟩

theorem Turn.passes (h : Turn s w s₁ s₂) :
    s₂ = { s₁ with cursor := (s₁.cursor.symbol Symbol.semicolon).2 } :=
  (symbol_eq_ok.1 h.semicolon).2.symm

theorem Turn.source (h : Turn s w s₁ s₂) : s₂.source = s.source := by
  have hword : (Twins.self s.source).Word w w := by
    obtain hlost | ⟨hrel, -⟩ :=
      Twins.recognizes_word (τ := Twins.self s.source) s.cursor s.cursor rfl
    · exact hlost.elim
    · rw [h.word] at hrel
      cases hrel with
      | some hword => exact hword
  have hlike := Twins.Like.of_same (τ := Twins.self s.source)
    (s := { s with cursor := s.cursor.word.2 }) (t := { s with cursor := s.cursor.word.2 }) rfl rfl
    rfl rfl rfl
  have hend := (Twins.alike_statementAt rfl).outcome ⟨hlike, hword⟩
  rw [h.statement] at hend
  rw [h.passes]
  cases hend with
  | ok hgives => exact hgives.2.left
  | lost hlost => exact hlost.elim

variable {f₀ : Front} {fs : List Frame} {cur : Stmt}

/-- A turn takes the outline to the next one. -/
theorem Turn.continues (h : Turn s w s₁ s₂) (hf : Follows fs cur s)
    (hr : Reading f₀ fs cur s.front) :
    ∃ fs' cur', Outline.Step fs cur fs' cur' ∧ Follows fs' cur' s₂ ∧
      Reading f₀ fs' cur' s₂.front ∧
      s₂.sourceMap = s.sourceMap.push s.code.pos (s.source.span w.start w.stop) := by
  have hpos : (s.advance (s.front.goto s.cursor.word.2) []).code.pos = s.code.pos := by
    simp [advance, CodeBuffer.pos]
  have hword : s.front.cursor.word = (some w, s.cursor.word.2) := Prod.ext h.word rfl
  have hst := h.statement
  rw [cursor_eq_advance] at hst
  obtain ⟨fs', cur', hstep, hfollows, hreading, hmap, -⟩ :=
    statementAt_ok (hf.advance _) hr hword (by simp) hst
  obtain ⟨g, hmark, rfl⟩ := symbol_ok h.semicolon
  refine ⟨fs', cur', hstep, hfollows.advance g, hreading g hmark, ?_⟩
  rw [← hpos]
  exact hmap

theorem Turn.pos_le (h : Turn s w s₁ s₂) (hf : Follows fs cur s) (hr : Reading f₀ fs cur s.front) :
    s.code.pos ≤ s₂.code.pos := by
  obtain ⟨fs', cur', hstep, hf', -, -⟩ := h.continues hf hr
  have hle := hstep.size_le
  rw [← hf.size, ← hf'.size] at hle
  exact hle

end Compiler

/-- A program is what its statements leave, once they have left no block open, with `stop` behind
the code. -/
theorem Program.exists_statements {source : Source} {limits : Limits} {p : Program}
    (h : compile source limits = .ok p) :
    ∃ s, Compiler.statements (source.bytes.toList.length + 1) (.start source limits) = .ok () s ∧
      s.blocks.items = [] ∧ p.code.toList = s.code.code.toList ++ [Opcode.stop.toByte] ∧
      p.store = s.store ∧ p.sourceMap = s.sourceMap := by
  unfold compile compileWith at h
  split at h
  · cases h
  · split at h
    · cases h
    · rename_i s hs
      simp only [Compiler.program, Action.bind_eq_ok, Action.get_eq_ok] at hs
      obtain ⟨_, _, ⟨rfl, rfl⟩, _, s₁, hst, _, _, ⟨rfl, rfl⟩, hs⟩ := hs
      have hblocks : s₁.blocks.items = [] := by
        cases hb : s₁.blocks.items with
        | nil => rfl
        | cons b bs => simp [BoundedStack.top?, hb, Action.throw_eq_ok] at hs
      simp only [BoundedStack.top?, hblocks, List.head?_nil] at hs
      obtain rfl := (Compiler.emit_ok hs).1
      split at h
      · cases h
      · rename_i code hfinish
        cases h
        obtain rfl : _ = code := by
          unfold CodeBuffer.finish at hfinish
          split at hfinish
          · exact Except.ok.inj hfinish
          · cases hfinish
        exact ⟨s₁, hst, hblocks, by simp [Compiler.append], rfl, rfl⟩

end CellScript
