import CellScript.Proofs.Runs

/-!
Calls are isolated.

While a call is active, the description of the machine ends with the caller's
activations: steps change what stands in front of them. So when control is back,
the caller finds its part of the stack, its registers and its place in the code as
it left them, and the arguments are gone. Assignments to names happen at the top
level only, so that the heap has grown at most.
-/

namespace CellScript

open Activation

variable {κ : Type} [Console κ] {p : Program} {t : Stmt} {rs₀ rs : List Record} {cap : Nat}
  {m m' : Machine κ} {as : List Activation} {ops : List Value}

/-! ### Entering -/

theorem Running.depth_of_call (hp : p.Checked t rs₀) (h : Running p t rs₀ cap rs m as ops)
    {i : Instruction} (hd : Instruction.decode? p.code m.pc = some i)
    (hi : i.op = .callProc ∨ i.op = .callFunc) (hs : Machine.step p.code m = .ok .next m') :
    m'.depth = m.depth + 1 := by
  obtain ⟨j, -, hd', hflow⟩ := hp.code.flows hp.fine h.point
  obtain rfl := Option.some.inj (hd.symm.trans hd')
  rw [Instr.op_place] at hi
  obtain ⟨isProc, n, k, id, rfl, hn, hid, hlen, -⟩ := hflow.call (by
    rw [Instr.isCall, Bool.or_eq_true, decide_eq_true_iff, decide_eq_true_iff]
    exact hi.symm)
  obtain ⟨kept, args, hops, rfl, rfl⟩ := split_operands hlen
  obtain ⟨e, m₁, hstep, -⟩ | ⟨d, s, -, -, -, -, -, hstep⟩ := h.call_enters hp hops hn hid hd'
  · rw [hs] at hstep
    cases hstep
  · rw [hs] at hstep
    cases hstep
    rfl

/-- The first state of a callee, and what is kept of the caller. -/
structure Entered (p : Program) (t : Stmt) (rs₀ : List Record) (cap : Nat) (m m' : Machine κ)
    (i : Instruction) (a : Activation) (as : List Activation) (args : List Value) : Prop where
  caller : ∃ rs, Running p t rs₀ cap rs m as (a.below ++ args)
  callee : ∃ rs, Running p t rs₀ cap rs m' (a :: as) []
  count : i.byte.toNat = args.length
  slots : a.slots = Machine.slotsOf args (m.calledSlots p.code)
  fits : args.length ≤ m.calledSlots p.code
  ret : a.ret = i.next
  kind : a.body.isFunc = decide (i.op = .callFunc)
  heap : m'.heap = m.heap

theorem Running.entered (hp : p.Checked t rs₀) (hcap : cap ≤ 65535)
    (h : Running p t rs₀ cap rs m as ops) (hwide : Wide p t m) {i : Instruction}
    (hd : Instruction.decode? p.code m.pc = some i) (hi : i.op = .callProc ∨ i.op = .callFunc)
    (hs : Machine.step p.code m = .ok .next m') :
    ∃ a args, Entered p t rs₀ cap m m' i a as args := by
  have hdepth := h.depth_of_call hp hd hi hs
  obtain ⟨rs', as', ops', -, h', hmoves⟩ := h.next hp hcap hwide hs
  rw [h.depth, h'.depth] at hdepth
  cases hmoves with
  | stay => exact absurd hdepth (Nat.ne_of_lt (Nat.lt_succ_self _))
  | assign => exact absurd hdepth (Nat.ne_of_lt (Nat.lt_succ_self _))
  | slot => exact absurd hdepth (Nat.ne_of_lt (Nat.lt_succ_self _))
  | leave =>
      rw [List.length_cons] at hdepth
      omega
  | @enter a _ args id isProc hd' _ hkind hret hle hslots hheap =>
      have hcalled := Machine.calledSlots_eq (Machine.called_eq hd')
      obtain rfl := Option.some.inj (hd.symm.trans hd')
      refine ⟨a, args, ⟨_, h⟩, ⟨_, h'⟩, ?_, hcalled ▸ hslots, hcalled ▸ hle, ?_, ?_, hheap⟩
      · have hbyte := (m.heap.identSlot id).toNat_lt
        have hcount : (UInt8.ofNat args.length).toNat = args.length := by
          rw [UInt8.toNat_ofNat']
          omega
        cases isProc <;> exact hcount
      · rw [hret, Instr.next_place]
        cases isProc <;> rfl
      · rw [hkind]
        cases isProc <;> rfl

/-! ### While the call is active, and when control is back -/

/-- The activation `a` is active: others may stand in front of it, and nothing but its slots has
changed. The heap has grown since it was `heap`. -/
def Inside (p : Program) (t : Stmt) (rs₀ : List Record) (cap : Nat) (heap : Heap) (a : Activation)
    (as : List Activation) (m : Machine κ) : Prop :=
  ∃ rs inner slots ops, Running p t rs₀ cap rs m (inner ++ { a with slots } :: as) ops ∧
    heap.Grows m.heap

/-- The caller of `a` goes on, with a result if `a` is a function. -/
def Returned (p : Program) (t : Stmt) (rs₀ : List Record) (cap : Nat) (heap : Heap) (a : Activation)
    (as : List Activation) (m : Machine κ) : Prop :=
  ∃ rs result, Running p t rs₀ cap rs m as (a.below ++ result) ∧ m.pc = a.ret ∧
    result.length = (if a.body.isFunc then 1 else 0) ∧ heap.Grows m.heap

variable {heap : Heap} {a : Activation}

omit [Console κ] in
theorem Inside.depth (h : Inside p t rs₀ cap heap a as m) : as.length < m.depth := by
  obtain ⟨rs, inner, slots, ops, h, -⟩ := h
  rw [h.depth, List.length_append, List.length_cons]
  omega

omit [Console κ] in
theorem Returned.depth (h : Returned p t rs₀ cap heap a as m) : m.depth = as.length := by
  obtain ⟨rs, result, h, -⟩ := h
  exact h.depth

theorem Inside.step (hp : p.Checked t rs₀) (hcap : cap ≤ 65535)
    (h : Inside p t rs₀ cap heap a as m) (hwide : Wide p t m)
    (hs : Machine.step p.code m = .ok .next m') :
    Inside p t rs₀ cap heap a as m' ∨ Returned p t rs₀ cap heap a as m' := by
  obtain ⟨rs, inner, slots, ops, h, hgrow⟩ := h
  obtain ⟨rs', as', ops', -, h', hmoves⟩ := h.next hp hcap hwide hs
  generalize hact : inner ++ { a with slots } :: as = act at h hmoves
  cases hmoves with
  | stay hgrow' =>
      subst hact
      exact .inl ⟨rs', inner, slots, ops', h', hgrow.trans hgrow'⟩
  | assign => simp at hact
  | enter _ _ _ _ _ _ hheap =>
      subst hact
      exact .inl ⟨rs', _ :: inner, slots, [], h', hheap ▸ hgrow⟩
  | slot _ hheap =>
      cases inner with
      | nil =>
          obtain ⟨rfl, rfl⟩ := List.cons.inj hact
          exact .inl ⟨rs', [], _, ops', h', hheap ▸ hgrow⟩
      | cons b inner =>
          obtain ⟨rfl, rfl⟩ := List.cons.inj hact
          exact .inl ⟨rs', _ :: inner, slots, ops', h', hheap ▸ hgrow⟩
  | leave hpc hlen hheap =>
      cases inner with
      | nil =>
          obtain ⟨rfl, rfl⟩ := List.cons.inj hact
          exact .inr ⟨rs', _, h', hpc, hlen, hheap ▸ hgrow⟩
      | cons b inner =>
          obtain ⟨rfl, rfl⟩ := List.cons.inj hact
          exact .inl ⟨rs', inner, slots, _, h', hheap ▸ hgrow⟩

theorem Inside.run (hp : p.Checked t rs₀) (hcap : cap ≤ 65535)
    (h : Inside p t rs₀ cap heap a as m)
    (hwide : ∀ n m', Machine.run p.code n m = .running m' → Wide p t m') {n : Nat}
    (hrun : Machine.run p.code n m = .running m')
    (hfirst : ∀ k < n, ∀ m', Machine.run p.code k m = .running m' → m'.depth ≠ as.length) :
    Inside p t rs₀ cap heap a as m' ∨ Returned p t rs₀ cap heap a as m' := by
  induction n generalizing m' with
  | zero =>
      cases hrun
      exact .inl h
  | succ n ih =>
      obtain ⟨m₁, hbefore, hs⟩ := Machine.run_succ_running.1 hrun
      obtain hin | hback := ih hbefore fun k hk => hfirst k (Nat.lt_succ_of_lt hk)
      · exact hin.step hp hcap (hwide n m₁ hbefore) hs
      · exact absurd hback.depth (hfirst n (Nat.lt_succ_self n) m₁ hbefore)

/-! ### What the machine shows of it -/

/-- Where the first argument of a call stands. -/
def Machine.firstArgument (m : Machine κ) (i : Instruction) : Nat := m.stack.sp - 3 * i.byte.toNat

namespace Entered

variable {i : Instruction} {args : List Value}

omit [Console κ] in
theorem firstArgument_eq (h : Entered p t rs₀ cap m m' i a as args) :
    m.firstArgument i = (image as a.below).length := by
  obtain ⟨rs, hm⟩ := h.caller
  rw [Machine.firstArgument, hm.stack.sp, image_append, List.length_append, Value.length_encodeAll,
    h.count, Nat.add_sub_cancel]

omit [Console κ] in
theorem base_eq (h : Entered p t rs₀ cap m m' i a as args) :
    m'.fp = m.firstArgument i ∧ m.firstArgument i + 3 * i.byte.toNat = m.stack.sp := by
  obtain ⟨rs, hm⟩ := h.caller
  obtain ⟨rs', hm'⟩ := h.callee
  refine ⟨hm'.fp.trans h.firstArgument_eq.symm, ?_⟩
  rw [h.firstArgument_eq, hm.stack.sp, image_append, List.length_append, Value.length_encodeAll,
    h.count]

omit [Console κ] in
/-- The slots of the callee are the arguments, and unset behind them. -/
theorem slots_eq (h : Entered p t rs₀ cap m m' i a as args) :
    (∀ k < i.byte.toNat, ∃ v, m.stack.get (m.firstArgument i + 3 * k) = .ok v ∧
      m'.stack.get (m'.fp + 3 * k) = .ok v) ∧
    (∀ k, i.byte.toNat ≤ k → k < m.calledSlots p.code →
      m'.stack.get (m'.fp + 3 * k) = .ok .unset) := by
  obtain ⟨rs, hm⟩ := h.caller
  obtain ⟨rs', hm'⟩ := h.callee
  have hslot {k : Nat} {v : Value} (hk : a.slots[k]? = some v) :
      m'.stack.get (m'.fp + 3 * k) = .ok v := by
    obtain ⟨pre, post, hpre, himage, -⟩ := Running.image_slot a as [] hk
    exact OperandStack.get_ok hm'.stack himage (by rw [hpre, hm'.fp])
  have hstack := hm.stack
  rw [image_append] at hstack
  refine ⟨fun k hk => ?_, fun k hk hlt => ?_⟩
  · rw [h.count] at hk
    refine ⟨args[k], ?_, hslot ?_⟩
    · rw [h.firstArgument_eq]
      exact OperandStack.get_encodeAll hstack hk
    · rw [h.slots, Machine.slotsOf, List.getElem?_append_left hk, List.getElem?_eq_getElem hk]
  · rw [h.count] at hk
    refine hslot ?_
    rw [h.slots, Machine.slotsOf, List.getElem?_append_right hk, List.getElem?_replicate,
      if_pos (by omega)]

omit [Console κ] in
theorem caller_eq (h : Entered p t rs₀ cap m m' i a as args) {m₂ : Machine κ}
    (hback : Returned p t rs₀ cap m'.heap a as m₂) :
    m₂.pc = i.next ∧ m₂.fp = m.fp ∧
      (∀ b < m.firstArgument i, m₂.stack.byte b = m.stack.byte b) ∧
      m₂.stack.sp = m.firstArgument i + (if i.op = .callFunc then 3 else 0) ∧
      (∀ b < m.heap.top, m₂.heap.byte b = m.heap.byte b) := by
  obtain ⟨rs, hm⟩ := h.caller
  obtain ⟨rs₂, result, hm₂, hpc, hresult, hgrow⟩ := hback
  have hstack := hm.stack
  have hstack₂ := hm₂.stack
  rw [image_append] at hstack hstack₂
  rw [h.heap] at hgrow
  refine ⟨hpc.trans h.ret, hm₂.fp.trans hm.fp.symm, fun b hb => ?_, ?_, hgrow.byte⟩
  · rw [h.firstArgument_eq] at hb
    rw [hstack.byte (by rw [List.length_append]; omega),
      hstack₂.byte (by rw [List.length_append]; omega), List.getElem_append_left hb,
      List.getElem_append_left hb]
  · rw [hstack₂.sp, List.length_append, Value.length_encodeAll, hresult, h.firstArgument_eq, h.kind]
    by_cases hf : i.op = .callFunc <;> simp [hf]

end Entered

/-- Calls of a clean program leave the caller alone. The callee begins with its arguments and
unset slots; in the first state in which control is back, the caller goes on behind its call with
its registers, its part of the stack and the heap as they were, the arguments replaced by the
result of a function. -/
theorem Program.call_isolated {source : Source} {limits vm : Limits}
    (hc : compile source limits = .ok p) (hvm : vm.validate = .ok ()) (hclean : p.Clean)
    (console : κ) {n : Nat} {m m₁ : Machine κ} {i : Instruction}
    (hrun : Machine.run p.code n (.start p vm console) = .running m)
    (hd : Instruction.decode? p.code m.pc = some i) (hi : i.op = .callProc ∨ i.op = .callFunc)
    (hs : Machine.step p.code m = .ok .next m₁) :
    m₁.depth = m.depth + 1 ∧ m₁.fp = m.firstArgument i ∧
    m.firstArgument i + 3 * i.byte.toNat = m.stack.sp ∧
    (∀ k < i.byte.toNat, ∃ v, m.stack.get (m.firstArgument i + 3 * k) = .ok v ∧
      m₁.stack.get (m₁.fp + 3 * k) = .ok v) ∧
    (∀ k, i.byte.toNat ≤ k → k < m.calledSlots p.code →
      m₁.stack.get (m₁.fp + 3 * k) = .ok .unset) ∧
    ∀ j m₂, Machine.run p.code j m₁ = .running m₂ → m₂.depth = m.depth →
      (∀ k < j, ∀ m', Machine.run p.code k m₁ = .running m' → m'.depth ≠ m.depth) →
      m₂.pc = i.next ∧ m₂.fp = m.fp ∧
      (∀ b < m.firstArgument i, m₂.stack.byte b = m.stack.byte b) ∧
      m₂.stack.sp = m.firstArgument i + (if i.op = .callFunc then 3 else 0) ∧
      (∀ b < m.heap.top, m₂.heap.byte b = m.heap.byte b) := by
  obtain ⟨t, rs₀, -, hp⟩ := checked_of_compile hc
  have hcap := (Limits.valid_of_validate hvm).stackSize.2
  obtain ⟨rs, as, ops, h, -⟩ := hp.running_of_clean hclean hcap hrun
  obtain ⟨a, args, hentered⟩ :=
    h.entered hp hcap (hp.wide_of_clean hclean hcap hrun) hd hi hs
  obtain ⟨rs₁, h₁⟩ := hentered.callee
  have hinside : Inside p t rs₀ vm.stackSize m₁.heap a as m₁ :=
    ⟨rs₁, [], a.slots, [], h₁, .refl _⟩
  have hwide (j : Nat) (m' : Machine κ) (hj : Machine.run p.code j m₁ = .running m') :
      Wide p t m' := by
    have hall : Machine.run p.code (n + 1 + j) (.start p vm console) = .running m' := by
      rw [Machine.run_add, Machine.run_succ_running.2 ⟨m, hrun, hs⟩]
      exact hj
    exact hp.wide_of_clean hclean hcap hall
  refine ⟨h.depth_of_call hp hd hi hs, hentered.base_eq.1, hentered.base_eq.2, hentered.slots_eq.1,
    hentered.slots_eq.2, fun j m₂ hj hdepth hfirst => hentered.caller_eq ?_⟩
  rw [h.depth] at hdepth hfirst
  obtain hin | hback := hinside.run hp hcap hwide hj hfirst
  · exact absurd hdepth (Nat.ne_of_gt hin.depth)
  · exact hback

/-- The theorem at a call of a function with a local, from the call to the return. -/
theorem Program.call_isolated_of_func : ∃ p m m₁ m₂ i,
    compile (.ofText "m" "func f(x); y = x; return y; end; print f(7);") default = .ok p ∧
    Limits.validate default = .ok () ∧ p.Clean ∧
    Machine.run p.code 2 (.start p default (QueuedConsole.ofInput [])) = .running m ∧
    Instruction.decode? p.code m.pc = some i ∧ i.op = .callFunc ∧
    Machine.step p.code m = .ok .next m₁ ∧ Machine.run p.code 4 m₁ = .running m₂ ∧
    m₂.depth = m.depth ∧ m₂.pc = i.next ∧ m₂.stack.sp = m.firstArgument i + 3 := by
  obtain ⟨p, hc, htest⟩ := exists_of_compile
    (.ofText "m" "func f(x); y = x; return y; end; print f(7);") default
    (fun p => (Machine.run p.code 2 (.start p default (QueuedConsole.ofInput []))).goesOn fun m =>
      (Machine.run p.code 3 (.start p default (QueuedConsole.ofInput []))).goesOn fun m₁ =>
        (Machine.run p.code 4 m₁).goesOn fun m₂ =>
          decide (p.Clean ∧ Instruction.decode? p.code m.pc = some ⟨14, .callFunc, 1, 2⟩ ∧
            m₂.depth = m.depth) &&
          (List.range 4).all fun k => !(Machine.run p.code k m₁).goesOn (·.depth == m.depth))
    (by decide +kernel)
  have hvm : Limits.validate default = .ok () := rfl
  obtain ⟨m, hrun, htest⟩ := Progress.goesOn_iff.1 htest
  obtain ⟨m₁, hrun₁, htest⟩ := Progress.goesOn_iff.1 htest
  obtain ⟨m₂, hrun₂, htest⟩ := Progress.goesOn_iff.1 htest
  obtain ⟨_, hbefore, hs⟩ := Machine.run_succ_running.1 hrun₁
  cases hbefore.symm.trans hrun
  rw [Bool.and_eq_true, decide_eq_true_iff, List.all_eq_true] at htest
  obtain ⟨⟨hclean, hd, hdepth⟩, hfirst⟩ := htest
  obtain ⟨-, -, -, -, -, hback⟩ := call_isolated hc hvm hclean _ hrun hd (.inr rfl) hs
  have hback := hback 4 m₂ hrun₂ hdepth fun k hk m' hrun' hdepth' => by
    have hk := hfirst k (List.mem_range.2 hk)
    rw [Bool.not_eq_true'] at hk
    exact Bool.eq_false_iff.1 hk (Progress.goesOn_iff.2 ⟨m', hrun', beq_iff_eq.2 hdepth'⟩)
  refine ⟨p, m, m₁, m₂, _, hc, hvm, hclean, hrun, hd, rfl, hs, hrun₂, hdepth, hback.1, ?_⟩
  rw [hback.2.2.2.1, if_pos rfl]

end CellScript
