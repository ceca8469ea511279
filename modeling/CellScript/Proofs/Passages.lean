import CellScript.Proofs.Turns
import CellScript.Report

/-!
Faults are reported at the statement that caused them.

The code of a program is made of passages, one for each statement: they follow each
other without gaps from the first byte to the final `stop`, and some are empty. The
source map has entries for all of them, but where a passage is empty the next one
takes over its entry. So an address inside a passage is found to belong to its
statement, whatever stands next to it.
-/

namespace CellScript

/-- A statement by its first word and the code that was emitted for it. -/
structure Passage where
  word : WordToken
  start : Nat
  stop : Nat
  deriving Repr, DecidableEq

namespace Passage

def Holds (x : Passage) (pc : Nat) : Prop := x.start ≤ pc ∧ pc < x.stop

instance (x : Passage) (pc : Nat) : Decidable (x.Holds pc) :=
  inferInstanceAs (Decidable (_ ∧ _))

/-- Where the first word of the statement stands in the text. -/
def span (source : Source) (x : Passage) : Span := source.span x.word.start x.word.stop

/-- Passages that follow each other from one address to another. -/
def Tile : Nat → List Passage → Nat → Prop
  | a, [], b => a = b
  | a, x :: xs, b => x.start = a ∧ x.start ≤ x.stop ∧ Tile x.stop xs b

theorem Tile.exists_holds {a b pc : Nat} {xs : List Passage} (h : Tile a xs b) (ha : a ≤ pc)
    (hb : pc < b) : ∃ x ∈ xs, x.Holds pc := by
  induction xs generalizing a with
  | nil =>
      have : a = b := h
      omega
  | cons x xs ih =>
      obtain ⟨rfl, -, h⟩ := h
      by_cases hstop : pc < x.stop
      · exact ⟨x, List.mem_cons_self, ha, hstop⟩
      · obtain ⟨y, hy, hpc⟩ := ih h (Nat.le_of_not_lt hstop)
        exact ⟨y, List.mem_cons_of_mem x hy, hpc⟩

end Passage

namespace Compiler

open Grammar

/-- The statements that are compiled from a state on, with the code emitted for each. -/
def passages : (fuel : Nat) → Compiler → List Passage
  | 0, _ => []
  | fuel + 1, s =>
    match s.cursor.word with
    | (none, _) => []
    | (some w, cursor) =>
      match statementAt w { s with cursor } with
      | .error _ _ => []
      | .ok () s₁ =>
        match symbol Symbol.semicolon s₁ with
        | .ok true s₂ => ⟨w, s.code.pos, s₂.code.pos⟩ :: passages fuel s₂
        | _ => []

theorem passages_turn {s s₁ s₂ : Compiler} {w : WordToken} (h : Turn s w s₁ s₂) (fuel : Nat) :
    passages (fuel + 1) s = ⟨w, s.code.pos, s₂.code.pos⟩ :: passages fuel s₂ := by
  have hword : s.cursor.word = (some w, s.cursor.word.2) := Prod.ext h.word rfl
  rw [passages, hword]
  simp only [h.statement, h.semicolon]

theorem passages_atEnd {s : Compiler} (h : s.cursor.atEnd.1 = true) (fuel : Nat) :
    passages (fuel + 1) s = [] := by
  have hrest : s.cursor.skipBlank.rest = [] := List.isEmpty_iff.1 h
  have hword : s.cursor.word = (none, s.cursor.skipBlank) := by simp [Cursor.word, hrest]
  rw [passages, hword]

/-- What the source map says at the end about the code from a state on. Nothing about code before it
is changed. -/
structure Located (source : Source) (s s' : Compiler) (xs : List Passage) : Prop where
  tile : Passage.Tile s.code.pos xs s'.code.pos
  ordered : s'.sourceMap.Ordered s'.code.pos
  keeps : ∀ pc < s.code.pos, s'.sourceMap.lookup? pc = s.sourceMap.lookup? pc
  finds : ∀ x ∈ xs, ∀ pc, x.Holds pc → s'.sourceMap.lookup? pc = some (x.span source)

theorem located_statements {f₀ : Front} {fs : List Frame} {cur : Stmt} {s s' : Compiler}
    {fuel : Nat} {u : Unit} (hf : Follows fs cur s) (hr : Reading f₀ fs cur s.front)
    (hm : s.sourceMap.Ordered s.code.pos) (hok : statements fuel s = .ok u s') :
    Located s.source s s' (passages fuel s) := by
  induction fuel generalizing fs cur s with
  | zero => simp [statements, failHere_eq_ok] at hok
  | succ fuel ih =>
      obtain ⟨hend, rfl⟩ | ⟨-, w, s₁, s₂, hturn, hrest⟩ := statements_succ_ok hok
      · rw [passages_atEnd hend]
        exact ⟨rfl, hm, fun _ _ => rfl, by simp⟩
      · obtain ⟨fs', cur', -, hf', hr', hmap⟩ := hturn.continues hf hr
        have hpos := hturn.pos_le hf hr
        have hpush := hm.push (s.source.span w.start w.stop)
        have h := ih hf' hr' (by rw [hmap]; exact hpush.mono hpos) hrest
        rw [hturn.source] at h
        rw [passages_turn hturn]
        refine ⟨⟨rfl, hpos, h.tile⟩, h.ordered, fun pc hpc => ?_, fun x hx pc hpc => ?_⟩
        · rw [h.keeps pc (Nat.lt_of_lt_of_le hpc hpos), hmap,
            SourceMap.lookup?_push_of_lt hm _ hpc]
        · obtain rfl | hx := List.mem_cons.1 hx
          · -- Later statements enter something behind this address only.
            rw [h.keeps pc hpc.2, hmap, SourceMap.lookup?_push_of_le hm _ hpc.1]
            rfl
          · exact h.finds x hx pc hpc

end Compiler

/-- A run that ends in a fault is reported with the entry of the source map for its address. -/
theorem Report.span_of_runtime {name text : String} {limits : Limits} {p : Program}
    (h : Program.compile (.ofText name text) limits = .ok p) {fuel pc : Nat}
    {input : List (List UInt8)} {r : Report} {e : ReportedError}
    (hr : ofText? fuel name text limits input = some r) (he : r.error = some e)
    (hpc : e.pc = some pc) : e.span = p.sourceMap.lookup? pc := by
  have hvalid : limits.validate = .ok () := (Program.compile_ok h).1
  simp only [ofText?, Program.build, hvalid, Program.ofSource, h] at hr
  cases hrun : Machine.run p.code fuel (.start p limits (QueuedConsole.ofInput input)) with
  | running m =>
      rw [hrun] at hr
      cases hr
  | halted m =>
      rw [hrun] at hr
      cases hr
      cases he
  | trapped t m =>
      rw [hrun] at hr
      cases hr
      cases he
      cases hpc
      rfl

namespace Program

def passages (source : Source) (limits : Limits) : List Passage :=
  Compiler.passages (source.bytes.toList.length + 1) (Compiler.start source limits)

/-- An address of the code, up to the final `stop`, belongs to a passage, and the source map leads
from there to the first word of its statement. So does the report of a fault. -/
theorem located_of_compile {source : Source} {limits : Limits} {p : Program}
    (h : compile source limits = .ok p) :
    p.sourceMap.offsets.Pairwise (· < ·) ∧
      Passage.Tile 0 (passages source limits) (p.code.size - 1) ∧
      (∀ x ∈ passages source limits, ∀ pc, x.Holds pc →
        p.sourceMap.lookup? pc = some (x.span source)) ∧
      ∀ name text, source = .ofText name text → ∀ fuel input r e pc,
        Report.ofText? fuel name text limits input = some r → r.error = some e →
        e.pc = some pc → pc < p.code.size - 1 →
        ∃ x ∈ passages source limits, x.Holds pc ∧ e.span = some (x.span source) := by
  obtain ⟨s, hst, -, hcode, -, hmap⟩ := exists_statements h
  have hloc := Compiler.located_statements (Compiler.follows_start source limits) (.top .nil)
    (SourceMap.ordered_empty _) hst
  have hsize : p.code.size - 1 = s.code.pos := by
    rw [← Array.length_toList, hcode]
    simp [CodeBuffer.pos]
  rw [hsize, hmap]
  refine ⟨List.pairwise_map.2 hloc.ordered.increasing, hloc.tile, hloc.finds, ?_⟩
  rintro name text rfl fuel input r e pc hr he hpc hlt
  obtain ⟨x, hx, hholds⟩ := hloc.tile.exists_holds (Nat.zero_le pc) hlt
  refine ⟨x, hx, hholds, ?_⟩
  calc e.span = p.sourceMap.lookup? pc := Report.span_of_runtime h hr he hpc
    _ = s.sourceMap.lookup? pc := by rw [hmap]
    _ = some (x.span (.ofText name text)) := hloc.finds x hx pc hholds

/-- The loop's `repeat` stands at the same address as the statement that fails. -/
theorem located_of_compile_in_loop : ∃ (p : Program) (r : Report) (e : ReportedError) (x : Passage),
    compile (.ofText "m" "x = 1; repeat; print x / 0; until 1;") default = .ok p ∧
    Report.ofText? 9 "m" "x = 1; repeat; print x / 0; until 1;" default [] = some r ∧
    r.error = some e ∧ e.pc = some 12 ∧
    x ∈ passages (.ofText "m" "x = 1; repeat; print x / 0; until 1;") default ∧ x.Holds 12 ∧
    e.span = some (x.span (.ofText "m" "x = 1; repeat; print x / 0; until 1;")) := by
  obtain ⟨p, hc, htest⟩ := exists_of_compile
    (.ofText "m" "x = 1; repeat; print x / 0; until 1;") default (fun p => 12 < p.code.size - 1)
    (by decide +kernel)
  have hfails : ((Report.ofText? 9 "m" "x = 1; repeat; print x / 0; until 1;" default []).bind
      Report.error).bind ReportedError.pc = some 12 := by decide +kernel
  simp only [Option.bind_eq_some_iff] at hfails
  obtain ⟨e, ⟨r, hr, he⟩, hpc⟩ := hfails
  obtain ⟨-, -, -, hreport⟩ := located_of_compile hc
  obtain ⟨x, hx, hholds, hspan⟩ :=
    hreport "m" _ rfl 9 [] r e 12 hr he hpc (of_decide_eq_true htest)
  exact ⟨p, r, e, x, hc, hr, he, hpc, hx, hholds, hspan⟩

end Program

end CellScript
