import CellScript.Proofs.Runs
import CellScript.Proofs.Simulation

/-!
Outcomes of programs.

A program without procedures and functions has one outcome: it goes on forever, it
halts in some world, or it ends with a fault in some world. The machine and the
tree agree on it. From left to right this is what `Completes` says of the whole
program; the other way round it follows, since the tree has an outcome and the
machine has only one.
-/

namespace CellScript

/-! ### The machine has one outcome -/

namespace Machine

variable {κ : Type} [Console κ] {code : Array UInt8} {m : Machine κ}

/-- Once a run has ended it stays so. -/
theorem run_ended {n k : Nat} {r : Progress κ} (hr : run code n m = r)
    (hended : ∀ m', r ≠ .running m') (hk : n ≤ k) : run code k m = r := by
  obtain ⟨j, rfl⟩ := Nat.exists_eq_add_of_le hk
  rw [run_add, hr]
  cases r with
  | running m' => exact absurd rfl (hended m')
  | halted m' => rfl
  | trapped t m' => rfl

theorem run_unique {n k : Nat} {r r' : Progress κ} (hr : run code n m = r)
    (hr' : run code k m = r') (hended : ∀ m', r ≠ .running m') (hended' : ∀ m', r' ≠ .running m') :
    r = r' := by
  obtain hk | hk := Nat.le_total n k
  · exact (run_ended hr hended hk).symm.trans hr'
  · exact hr.symm.trans (run_ended hr' hended' hk)

theorem Ends.unique {o o' : Outcome κ} (h : Ends code m o) (h' : Ends code m o') : o = o' := by
  have hlasts {n : Nat} {r : Progress κ} (hr : run code n m = r) (hended : ∀ m', r ≠ .running m') :
      ¬ ∀ n, Lasts code m n := by
    intro hall
    obtain ⟨m', hrun⟩ := hall n
    exact hended m' (hr.symm.trans hrun)
  cases o with
  | forever =>
      cases o' with
      | forever => rfl
      | halts w =>
          obtain ⟨n, m', hr, -⟩ := h'
          exact absurd h (hlasts hr (by simp))
      | faults e w =>
          obtain ⟨n, pc, m', hr, -⟩ := h'
          exact absurd h (hlasts hr (by simp))
  | halts w =>
      obtain ⟨n, m₁, hr, rfl⟩ := h
      cases o' with
      | forever => exact absurd h' (hlasts hr (by simp))
      | halts w' =>
          obtain ⟨k, m₂, hr', rfl⟩ := h'
          cases run_unique hr hr' (by simp) (by simp)
          rfl
      | faults e w' =>
          obtain ⟨k, pc, m₂, hr', -⟩ := h'
          cases run_unique hr hr' (by simp) (by simp)
  | faults e w =>
      obtain ⟨n, pc, m₁, hr, rfl⟩ := h
      cases o' with
      | forever => exact absurd h' (hlasts hr (by simp))
      | halts w' =>
          obtain ⟨k, m₂, hr', -⟩ := h'
          cases run_unique hr hr' (by simp) (by simp)
      | faults e' w' =>
          obtain ⟨k, pc', m₂, hr', rfl⟩ := h'
          cases run_unique hr hr' (by simp) (by simp)
          rfl

end Machine

/-! ### Programs without procedures and functions -/

/-- A code that does not belong to calls or bodies. -/
def Opcode.isPlain : Opcode → Bool
  | .callProc | .callFunc | .returnProc | .returnFunc | .returnMissing => false
  | _ => true

def Code.Plain (c : Code) : Prop := ∀ i ∈ c, i.op.isPlain = true

namespace Code

@[simp] theorem plain_nil : Plain [] := by
  simp [Plain]

@[simp] theorem plain_cons (i : Instr) (c : Code) :
    Plain (i :: c) ↔ i.op.isPlain = true ∧ Plain c := by
  simp [Plain]

@[simp] theorem plain_append (c d : Code) : Plain (c ++ d) ↔ Plain c ∧ Plain d := by
  simp [Plain, or_imp, forall_and]

end Code

theorem Opcode.isPlain_of_arity {op : Opcode} {n : Nat} (h : op.arity? = some n) :
    op.isPlain = true := by
  cases op <;> first | (cases h; done) | rfl

mutual

theorem Expr.plain_iff {rs : List Record} {sc : Scope} :
    ∀ {e : Expr}, e.Fine rs sc → (e.Plain ↔ e.code.Plain)
  | .literal l, _ => by
      cases l with
      | truth b =>
        cases b <;> simp [Expr.Plain, Expr.code, Literal.instr, Instr.plain, Opcode.isPlain]
      | _ => simp [Expr.Plain, Expr.code, Literal.instr, Instr.plain, Instr.withByte,
          Instr.withWord, Opcode.isPlain]
  | .name p, _ => by
      cases p <;> simp [Expr.Plain, Expr.code, Place.load, Instr.withByte, Instr.withWord,
        Opcode.isPlain]
  | .apply op args, hf => by
      have hop := Opcode.isPlain_of_arity hf.1
      simp [Expr.Plain, Expr.code, Expr.plainAll_iff hf.2, Instr.plain, hop]
  | .array elems, hf => by
      simp [Expr.Plain, Expr.code, Expr.plainAll_iff hf.2, Instr.withByte, Opcode.isPlain]
  | .call id args, _ => by
      simp [Expr.Plain, Expr.code, Opcode.isPlain]

theorem Expr.plainAll_iff {rs : List Record} {sc : Scope} :
    ∀ {es : List Expr}, Expr.FineAll rs sc es → (Expr.PlainAll es ↔ Code.Plain (Expr.codeAll es))
  | [], _ => by simp [Expr.PlainAll, Expr.codeAll]
  | e :: es, hf => by
      simp [Expr.PlainAll, Expr.codeAll, Expr.plain_iff hf.1, Expr.plainAll_iff hf.2]

end

/-- A statement is plain if its code is. -/
theorem Stmt.plain_iff {rs : List Record} {s : Stmt} {exit : Option Nat} {a : Nat}
    (hf : s.Fine rs none) : s.Plain ↔ (s.code exit a).Plain := by
  induction s generalizing exit a with
  | skip | exitLoop | halt => simp [Plain, code, Instr.plain, Opcode.isPlain]
  | seq s t ihs iht => simp [Plain, code, ← ihs hf.1, ← iht hf.2]
  | assign p e =>
      have hstore : p.store.op.isPlain = true := by cases p <;> rfl
      simp [Plain, code, Expr.plain_iff hf.1, hstore]
  | print es => simp [Plain, code, Expr.plainAll_iff hf.2, Instr.withByte, Opcode.isPlain]
  | input ps =>
      have hstore (p : Place) : p.store.op.isPlain = true := by cases p <;> rfl
      simp only [Plain, code, true_iff]
      clear hf
      induction ps with
      | nil => exact Code.plain_nil
      | cons p ps ih =>
          rw [List.flatMap_cons, Code.plain_append, Code.plain_cons, Code.plain_cons]
          exact ⟨⟨rfl, hstore p, Code.plain_nil⟩, ih⟩
  | perform id args => simp [Plain, code, Opcode.isPlain]
  | ifThen c s ih => simp [Plain, code, Expr.plain_iff hf.1, ← ih hf.2, Opcode.isPlain]
  | ifElse c s t ihs iht =>
      simp [Plain, code, Expr.plain_iff hf.1, ← ihs hf.2.1, ← iht hf.2.2, Opcode.isPlain]
  | whileDo c s ih => simp [Plain, code, Expr.plain_iff hf.1, ← ih hf.2, Opcode.isPlain]
  | repeatUntil s c ih =>
      simp [Plain, code, Expr.plain_iff hf.1, ← ih hf.2, Opcode.isPlain, and_comm]
  | returnValue e => simp [Plain, code, Instr.plain, Opcode.isPlain]
  | returnBare => simp [Plain, code, Instr.plain, Opcode.isPlain]
  | define d s ih =>
    cases hd : d.isFunc <;> simp [Plain, code, bodyEnd, hd, Instr.plain, Opcode.isPlain]

/-- The codes of a program. -/
def Program.opcodes (p : Program) : List Opcode :=
  (CodeItem.items p.code).filterMap fun
    | .instruction i => some i.op
    | .raw .. => none

/-- A program without calls and bodies. -/
def Program.Plain (p : Program) : Prop := ∀ op ∈ p.opcodes, op.isPlain = true

instance (p : Program) : Decidable p.Plain :=
  inferInstanceAs (Decidable (∀ op ∈ p.opcodes, op.isPlain = true))

theorem Code.map_op_layout (a : Nat) (c : Code) :
    (layout a c).map (fun x => (x.2.place x.1).op) = c.map Instr.op := by
  induction c generalizing a with
  | nil => rfl
  | cons i c ih => rw [layout, List.map_cons, List.map_cons, ih, Instr.op_place]

section

variable {p : Program} {t : Stmt} {rs₀ : List Record}

/-- A program is plain if its tree is. -/
theorem Program.Checked.plain_iff (hp : p.Checked t rs₀) : t.Plain ↔ p.Plain := by
  have hops : p.opcodes = t.program.map Instr.op := by
    rw [opcodes, hp.code.items, List.filterMap_map, ← Code.map_op_layout 0, ← List.filterMap_eq_map]
    rfl
  rw [Program.Plain, hops, @Stmt.plain_iff rs₀ t none 0 hp.fine, Code.Plain]
  simp [Stmt.program, Instr.plain, or_imp, forall_and, Opcode.isPlain]

/-! ### The outcome -/

variable {κ : Type} [Console κ] {vm : Limits} {console : κ}

/-- What the code of a whole program does. -/
theorem Program.Checked.completes (hp : p.Checked t rs₀) (hplain : t.Plain) (turns : Nat) :
    Machine.Completes p.code (.start p vm console) vm.stackSize turns 0 t.size none
      (t.exec vm.stackSize turns ⟨p.heap, .ofSeed vm.seed, console⟩) := by
  have hstart := hp.start vm console
  have hsize := hp.code.size_lt
  have hcode := (Code.placed_append.1 hp.code.placed).1
  rw [← Nat.zero_add t.size]
  exact Stmt.completes (m := .start p vm console) rfl hcode hp.code.fits (by omega) (by simp)
    (fun _ => hp.code.closed) hp.fine hplain
    ⟨rs₀, fun _ h => h, hstart.heap, hstart.values⟩ hstart.stack

/-- The machine ends as the tree does. -/
theorem Program.Checked.ends (hp : p.Checked t rs₀) (hplain : t.Plain) {o : Outcome κ}
    (h : t.Ends vm.stackSize ⟨p.heap, .ofSeed vm.seed, console⟩ o) :
    Machine.Ends p.code (.start p vm console) o := by
  cases o with
  | forever =>
      intro n
      have hrun := @completes p t rs₀ κ _ vm console hp hplain n
      rw [h n] at hrun
      exact hrun
  | faults e w =>
      obtain ⟨turns, hexec⟩ := h
      have hrun := @completes p t rs₀ κ _ vm console hp hplain turns
      rw [hexec] at hrun
      exact hrun
  | halts w =>
      obtain ⟨turns, hexec⟩ := h
      have hrun := @completes p t rs₀ κ _ vm console hp hplain turns
      obtain hexec | hexec := hexec
      · -- Behind the last statement the code stops.
        rw [hexec] at hrun
        obtain ⟨n, -, m, hr, hpc, -, rfl⟩ := hrun
        have hstop := (Code.placed_append.1 hp.code.placed).2.1
        rw [Stmt.size_code, Nat.zero_add, ← hpc] at hstop
        refine Machine.Halts.after hr ⟨1, { m with pc := m.pc + 1 }, ?_, rfl⟩
        simp only [Machine.run, Machine.step_stop hstop]
      · rw [hexec] at hrun
        exact hrun

/-- The tree has an outcome. -/
theorem Program.Checked.exists_ends (hp : p.Checked t rs₀) (hplain : t.Plain) :
    ∃ o : Outcome κ, t.Ends vm.stackSize ⟨p.heap, .ofSeed vm.seed, console⟩ o := by
  by_cases hall : ∀ turns, t.exec vm.stackSize turns
      (⟨p.heap, .ofSeed vm.seed, console⟩ : World κ) = .unfinished
  · exact ⟨.forever, hall⟩
  · obtain ⟨turns, hne⟩ := Classical.not_forall.1 hall
    have hrun := @completes p t rs₀ κ _ vm console hp hplain turns
    cases hexec : t.exec vm.stackSize turns (⟨p.heap, .ofSeed vm.seed, console⟩ : World κ) with
    | next w => exact ⟨.halts w, turns, .inl hexec⟩
    | halt w => exact ⟨.halts w, turns, .inr hexec⟩
    | fault e w => exact ⟨.faults e w, turns, hexec⟩
    | unfinished => exact absurd hexec hne
    | exit w =>
        -- There is no loop around the whole program.
        rw [hexec] at hrun
        obtain ⟨_, _, hexit, -⟩ := hrun
        cases hexit

end

/-- A program that defines and calls nothing does on the machine what its text says: both have one
outcome, and it is the same. -/
theorem Program.outcome_eq {source : Source} {limits vm : Limits} {p : Program}
    (hc : compile source limits = .ok p) :
    ∃ t rs, Grammar.Reads source limits t p.store ∧ p.Checked t rs ∧ (t.Plain ↔ p.Plain) ∧
      (t.Plain → ∀ {κ : Type} [Console κ] (console : κ), ∃ o : Outcome κ, ∀ o',
        (Machine.Ends p.code (.start p vm console) o' ↔ o' = o) ∧
        (t.Ends vm.stackSize ⟨p.heap, .ofSeed vm.seed, console⟩ o' ↔ o' = o)) := by
  obtain ⟨t, rs₀, hreads, hp⟩ := checked_of_compile hc
  refine ⟨t, rs₀, hreads, hp, hp.plain_iff, fun hplain κ _ console => ?_⟩
  obtain ⟨o, ho⟩ := @Checked.exists_ends p t rs₀ κ _ vm console hp hplain
  have hends := hp.ends hplain ho
  refine ⟨o, fun o' =>
    ⟨⟨fun h => h.unique hends, fun h => h ▸ hends⟩, fun h => ?_, fun h => h ▸ ho⟩⟩
  exact (hp.ends hplain h).unique hends

/-- The theorem for a loop that is left from within a branch. -/
theorem Program.outcome_eq_of_break : ∃ (p : Program) (t : Stmt) (w : World QueuedConsole),
    compile (.ofText "m" "x = 0; while x < 9; x = x + 1; if x == 2; break; endif; wend; print x;")
      default = .ok p ∧ t.Plain ∧
    Machine.Ends p.code (.start p default (.ofInput [])) (.halts w) ∧
    t.Ends 1536 ⟨p.heap, .ofSeed 0, .ofInput []⟩ (.halts w) ∧ w.console.lines = ["2"] := by
  obtain ⟨p, hc, htest⟩ := exists_of_compile
    (.ofText "m" "x = 0; while x < 9; x = x + 1; if x == 2; break; endif; wend; print x;") default
    (fun p => p.Plain &&
      match Machine.run p.code 99 (.start p default (QueuedConsole.ofInput [])) with
      | .halted m => m.console.lines = ["2"]
      | _ => false)
    (by decide +kernel)
  obtain ⟨t, rs, -, -, hplain, hsame⟩ := @outcome_eq _ _ default _ hc
  rw [Bool.and_eq_true, decide_eq_true_iff] at htest
  obtain ⟨o, ho⟩ := hsame (hplain.2 htest.1) (QueuedConsole.ofInput [])
  cases hrun : Machine.run p.code 99 (.start p default (QueuedConsole.ofInput [])) with
  | halted m =>
      rw [hrun, decide_eq_true_iff] at htest
      have hends : Machine.Ends p.code (.start p default (.ofInput [])) (.halts m.world) :=
        ⟨99, m, hrun, rfl⟩
      have heq := (ho _).1.1 hends
      exact ⟨p, t, m.world, hc, hplain.2 htest.1, hends, (ho _).2.2 heq, htest.2⟩
  | running m =>
      rw [hrun] at htest
      cases htest.2
  | trapped t m =>
      rw [hrun] at htest
      cases htest.2

end CellScript
