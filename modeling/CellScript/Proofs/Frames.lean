import CellScript.Proofs.Runs

/-!
Room in a frame.

The number of slots of a frame comes from the record named by the call, and the
body from that record's value. The two agree unless the value has been assigned:
a name that is assigned a body before a body of its own is defined reserves the
slots of its own body for the other one. Up to the first such call every access to
a slot stays in front of the saved registers, and a program that never assigns to
the name of a body has no such call.
-/

namespace CellScript

open Activation

section

variable {κ : Type} {p : Program} {t : Stmt} {rs₀ rs : List Record} {cap : Nat} {m : Machine κ}
  {as : List Activation} {ops : List Value}

theorem Running.slot_in_frame (hp : p.Checked t rs₀) (h : Running p t rs₀ cap rs m as ops)
    {i : Instruction} (hd : Instruction.decode? p.code m.pc = some i)
    (hi : i.op = .slotGet ∨ i.op = .slotSet) :
    ∃ r rest, as.map (·.slots.length) = r :: rest ∧ m.slotOffset i.byte + 3 ≤ m.fp + 3 * r := by
  obtain ⟨j, -, hd', hflow⟩ := hp.code.flows hp.fine h.point
  obtain rfl := Option.some.inj (hd.symm.trans hd')
  rw [Instr.op_place] at hi
  obtain ⟨k, hk, hfine⟩ := hflow.slot hi
  obtain ⟨a, rest, rfl, hlt⟩ := h.slot_lt hfine
  refine ⟨a.slots.length, rest.map (·.slots.length), rfl, ?_⟩
  rw [hk, Machine.slotOffset, Value.size]
  omega

end

/-- Every call up to the first that is too narrow enters a body of the source with room for its
parameters and locals, so that no access to a slot touches the saved registers. A call is too
narrow exactly if a body with fewer slots than the one entered is defined under the name that is
called, and this does not happen in clean programs. -/
theorem Program.call_wide_iff {source : Source} {limits vm : Limits} {p : Program}
    (hc : compile source limits = .ok p) (hvm : vm.validate = .ok ()) :
    ∃ t rs, Grammar.Reads source limits t p.store ∧ p.Checked t rs ∧
      ∀ {κ : Type} [Console κ] (console : κ) (n : Nat) (m : Machine κ),
        Machine.run p.code n (.start p vm console) = .running m →
        (∀ k < n, ∀ m', Machine.run p.code k (.start p vm console) = .running m' → Wide p t m') →
        (Wide p t m ↔ ∀ m' d d', Machine.step p.code m = .ok .next m' → m.depth < m'.depth →
          (d, m'.pc) ∈ t.definitions 0 → d' ∈ t.definitions 0 → m.called p.code = some d'.1.id →
          d.slots ≤ d'.1.slots) ∧
        (∀ m', Machine.step p.code m = .ok .next m' → m.depth < m'.depth →
          ∃ d, (d, m'.pc) ∈ t.definitions 0) ∧
        (∀ i, Instruction.decode? p.code m.pc = some i → i.op = .slotGet ∨ i.op = .slotSet →
          ∃ r rest, Machine.reserved p.code (.start p vm console) n = r :: rest ∧
            m.slotOffset i.byte + 3 ≤ m.fp + 3 * r) ∧
        (p.Clean → Wide p t m) := by
  obtain ⟨t, rs₀, hreads, hp⟩ := checked_of_compile hc
  have hcap := (Limits.valid_of_validate hvm).stackSize.2
  refine ⟨t, rs₀, hreads, hp, fun console n m hrun hwide => ?_⟩
  obtain ⟨rs, as, ops, h, hslots⟩ := hp.running hcap hrun hwide
  refine ⟨h.wide_iff hp hcap, fun m' hs hdeep => ?_, fun i hd hi => ?_,
    fun hclean => hp.wide_of_clean hclean hcap hrun⟩
  · obtain ⟨id, -, -, d, hd, hpc, -⟩ := h.call_of_deeper hp hcap hs hdeep
    exact ⟨d.1, hpc ▸ hd⟩
  · rw [← hslots]
    exact h.slot_in_frame hp hd hi

/-- The theorem at the first call of a program. -/
theorem Program.call_wide_iff_first_call : ∃ p m t rs,
    compile (.ofText "m" "proc p(); end; p;") default = .ok p ∧
    Limits.validate default = .ok () ∧
    Machine.run p.code 1 (.start p default (QueuedConsole.ofInput [])) = .running m ∧
    Instruction.decode? p.code m.pc = some ⟨4, .callProc, 0, 2⟩ ∧ p.Checked t rs ∧ Wide p t m := by
  obtain ⟨p, hc, htest⟩ := exists_of_compile (.ofText "m" "proc p(); end; p;") default
    (fun p => p.Clean && (Machine.run p.code 1 (.start p default (QueuedConsole.ofInput []))).goesOn
      fun m => m.depth = 0 && Instruction.decode? p.code m.pc = some ⟨4, .callProc, 0, 2⟩)
    (by decide +kernel)
  have hvm : Limits.validate default = .ok () := rfl
  obtain ⟨t, rs, -, hp, hstates⟩ := call_wide_iff hc hvm
  rw [Bool.and_eq_true, decide_eq_true_iff] at htest
  obtain ⟨hclean, htest⟩ := htest
  obtain ⟨m, hrun, htest⟩ := Progress.goesOn_iff.1 htest
  rw [Bool.and_eq_true, decide_eq_true_iff, decide_eq_true_iff] at htest
  have hwide := (hstates _ 1 m hrun fun k hk m' hrun' m'' d hs hdeep => ?_).2.2.2 hclean
  · exact ⟨p, m, t, rs, hc, hvm, hrun, htest.2, hp, hwide⟩
  · -- The first step is the jump over the body.
    obtain rfl : k = 0 := by omega
    obtain ⟨_, hstart, hs'⟩ := Machine.run_succ_running.1 hrun
    cases hstart.symm.trans hrun'
    cases hs.symm.trans hs'
    rw [htest.1] at hdeep
    exact absurd hdeep (Nat.not_lt_zero _)

/-- A call that is too narrow: the name `x` is assigned a body with three locals before one
without locals is defined under it. -/
theorem Program.narrow_call : ∃ p m m',
    compile (.ofText "m" "proc p(); a=1; b=2; c=3; print a; end; x = p; proc x(); end; x; print 9;")
      default = .ok p ∧
    Machine.run p.code 4 (.start p default (QueuedConsole.ofInput [])) = .running m ∧
    Machine.step p.code m = .ok .next m' ∧ m.depth < m'.depth ∧
    p.heap.identValue ⟨2⟩ = .proc (UInt16.ofNat m'.pc) ∧ (p.heap.identSlot ⟨2⟩).toNat = 3 ∧
    m.calledSlots p.code = 0 := by
  obtain ⟨p, hc, htest⟩ := exists_of_compile
    (.ofText "m" "proc p(); a=1; b=2; c=3; print a; end; x = p; proc x(); end; x; print 9;") default
    (fun p => (Machine.run p.code 4 (.start p default (QueuedConsole.ofInput []))).goesOn fun m =>
      (Machine.run p.code 5 (.start p default (QueuedConsole.ofInput []))).goesOn fun m' =>
        decide (m.depth < m'.depth ∧ p.heap.identValue ⟨2⟩ = .proc (UInt16.ofNat m'.pc) ∧
          (p.heap.identSlot ⟨2⟩).toNat = 3 ∧ m.calledSlots p.code = 0))
    (by decide +kernel)
  obtain ⟨m, hrun, htest⟩ := Progress.goesOn_iff.1 htest
  obtain ⟨m', hrun', htest⟩ := Progress.goesOn_iff.1 htest
  obtain ⟨_, hbefore, hs⟩ := Machine.run_succ_running.1 hrun'
  cases hbefore.symm.trans hrun
  exact ⟨p, m, m', hc, hrun, hs, of_decide_eq_true htest⟩

end CellScript
