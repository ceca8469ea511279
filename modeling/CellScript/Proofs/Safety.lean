import CellScript.Proofs.Runs

/-!
Safety of clean programs.

A program that assigns to no name of a body meets only the faults of the language:
it never runs out of its code, never pops from an empty stack, never meets bytes
that are no value and never follows a reference to nothing. Where a statement
begins, the stack holds the frames of the active calls and nothing else.
-/

namespace CellScript

open Activation

/-- The stack pointer at an address where a statement begins: the bottom at the top level, and
behind the frame in a body. -/
def Machine.Balanced {κ : Type} (m : Machine κ) (reserved : List Nat) : Option Definition → Prop
  | none => m.stack.sp = 0
  | some d => ∃ r rest, reserved = r :: rest ∧ d.slots ≤ r ∧ m.stack.sp = m.fp + 3 * r + 6

section

variable {κ : Type} {p : Program} {t : Stmt} {rs₀ rs : List Record} {cap : Nat} {m : Machine κ}
  {as : List Activation} {ops : List Value}

theorem Running.balanced (h : Running p t rs₀ cap rs m as ops) (hstart : m.pc ∈ t.starts 0) :
    m.Balanced (as.map (·.slots.length)) (t.bodyAt m.pc 0) := by
  obtain ⟨b, hpoint⟩ := Stmt.hasPoint_start hstart
  -- An address has one point, so there are no operands here.
  have hheight : ops.length = 0 := congrArg Point.height (h.point.unique hpoint rfl)
  obtain rfl := List.eq_nil_of_length_eq_zero hheight
  have hbody : bodyOf as = t.bodyAt m.pc 0 := h.point.body_eq
  rw [← hbody]
  cases as with
  | nil => exact h.stack.sp
  | cons a as =>
      refine ⟨a.slots.length, as.map (·.slots.length), rfl, h.linked.2.1, ?_⟩
      rw [h.stack.sp, length_image, h.fp]
      rfl

end

/-- No reachable state of a clean program fails inside the machine at its next step, and in every
state at the start of a statement the stack is balanced. -/
theorem Program.safe_of_clean {source : Source} {limits vm : Limits} {p : Program}
    (hc : compile source limits = .ok p) (hvm : vm.validate = .ok ()) (hclean : p.Clean) :
    ∃ t rs, Grammar.Reads source limits t p.store ∧ p.Checked t rs ∧
      (∀ e ∈ p.sourceMap.entries.toList, e.offset ∈ t.starts 0) ∧
      ∀ {κ : Type} [Console κ] (console : κ) (n : Nat) (m : Machine κ),
        Machine.run p.code n (.start p vm console) = .running m →
        (∀ e m', Machine.step p.code m = .error e m' → e.isInternal = false) ∧
        (m.pc ∈ t.starts 0 →
          m.Balanced (Machine.reserved p.code (.start p vm console) n) (t.bodyAt m.pc 0)) := by
  obtain ⟨t, rs₀, hreads, hp⟩ := checked_of_compile hc
  have hcap := (Limits.valid_of_validate hvm).stackSize.2
  refine ⟨t, rs₀, hreads, hp, hp.code.starts, fun console n m hrun => ?_⟩
  obtain ⟨rs, as, ops, h, hslots⟩ := hp.running_of_clean hclean hcap hrun
  refine ⟨fun e m' hs => ?_, fun hstart => ?_⟩
  · have hstep := h.step hp hcap (hp.wide_of_clean hclean hcap hrun)
    rw [hs] at hstep
    exact hstep
  · rw [← hslots]
    exact h.balanced hstart

/-- The theorem in the body of a function, at the start of its statement. -/
theorem Program.safe_of_clean_in_body :
    ∃ (p : Program) (m : Machine QueuedConsole) (t : Stmt),
    compile (.ofText "m" "func f(x); return x; end; print f(1);") default = .ok p ∧
    Limits.validate default = .ok () ∧ p.Clean ∧
    Machine.run p.code 3 (.start p default (QueuedConsole.ofInput [])) = .running m ∧ m.depth = 1 ∧
    (∀ e m', Machine.step p.code m = .error e m' → e.isInternal = false) ∧
    m.Balanced (Machine.reserved p.code (.start p default (QueuedConsole.ofInput [])) 3)
      (t.bodyAt m.pc 0) := by
  obtain ⟨p, hc, htest⟩ := exists_of_compile (.ofText "m" "func f(x); return x; end; print f(1);")
    default
    (fun p => (Machine.run p.code 3 (.start p default (QueuedConsole.ofInput []))).goesOn fun m =>
      decide (p.Clean ∧ m.depth = 1 ∧ ∃ e ∈ p.sourceMap.entries.toList, e.offset = m.pc))
    (by decide +kernel)
  have hvm : Limits.validate default = .ok () := rfl
  obtain ⟨m, hrun, htest⟩ := Progress.goesOn_iff.1 htest
  obtain ⟨hclean, hdepth, e, he, hpc⟩ := of_decide_eq_true htest
  obtain ⟨t, rs, -, -, hstarts, hstates⟩ := safe_of_clean hc hvm hclean
  obtain ⟨hsafe, hbalanced⟩ := hstates _ 3 m hrun
  exact ⟨p, m, t, hc, hvm, hclean, hrun, hdepth, hsafe, hbalanced (hpc ▸ hstarts e he)⟩

end CellScript
