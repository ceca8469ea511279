import CellScript.Proofs.Execution
import CellScript.Proofs.References

/-!
Calls and returns.

A call turns the arguments on top of the stack into the first slots of a frame,
appends unset slots and saves three registers behind them. A return reads the
registers back and cuts the stack where the arguments began. The saved registers
have sixteen bits; nothing is lost as long as the stack and the code are not
longer than that.
-/

namespace CellScript

namespace Machine

variable {κ : Type} {m : Machine κ} {cap : Nat} {l : List UInt8}

/-- The stack behind a call: the caller's part, the slots, and the saved registers. -/
def framed (l : List UInt8) (slots : List Value) (fp ret : Nat) : List UInt8 :=
  l ++ Value.encodeAll slots ++ Word.bytes (UInt16.ofNat fp) ++
    Word.bytes (UInt16.ofNat l.length) ++ Word.bytes (UInt16.ofNat ret)

theorem length_framed (l : List UInt8) (slots : List Value) (fp ret : Nat) :
    (framed l slots fp ret).length = l.length + 3 * slots.length + 6 := by
  simp only [framed, List.length_append, Value.length_encodeAll, Word.length_bytes]

/-- The slots of a frame: the arguments, and unset ones up to a number. -/
def slotsOf (args : List Value) (n : Nat) : List Value :=
  args ++ List.replicate (n - args.length) .unset

theorem length_slotsOf {args : List Value} {n : Nat} (h : args.length ≤ n) :
    (slotsOf args n).length = n := by
  simp only [slotsOf, List.length_append, List.length_replicate]
  omega

theorem pushWord_eq (hs : m.stack.Holds cap l) (w : UInt16) :
    (∃ s : OperandStack, s.Holds cap (l ++ Word.bytes w) ∧
      onStack (OperandStack.pushWord w) m = .ok () (m.withStack s)) ∨
    (cap < l.length + 2 ∧ onStack (OperandStack.pushWord w) m = .error (.stackOverflow cap) m) := by
  by_cases hfit : l.length + 2 ≤ cap
  · obtain ⟨s, hpush, hs'⟩ := OperandStack.pushBytes_ok hs
      (show l.length + (Word.bytes w).length ≤ cap from hfit)
    refine .inl ⟨s, hs', ?_⟩
    simp only [onStack, OperandStack.pushWord, hpush, withStack]
  · have hpush := OperandStack.pushBytes_full hs
      (show cap < l.length + (Word.bytes w).length from Nat.lt_of_not_le hfit)
    refine .inr ⟨Nat.lt_of_not_le hfit, ?_⟩
    simp only [onStack, OperandStack.pushWord, hpush]

/-- The stack of a call that reserves `n` slots. -/
theorem reserve_eq {args : List Value} {n : Nat}
    (hs : m.stack.Holds cap (l ++ Value.encodeAll args)) (hn : args.length ≤ n) :
    (∃ s : OperandStack, s.Holds cap (l ++ Value.encodeAll (slotsOf args n)) ∧
      onStack (OperandStack.setPointer (l.length + 3 * n)) m = .ok () (m.withStack s)) ∨
    onStack (OperandStack.setPointer (l.length + 3 * n)) m = .error (.stackOverflow cap) m := by
  by_cases hfit : l.length + 3 * n ≤ cap
  · have hlen : (l ++ Value.encodeAll args).length + 3 * (n - args.length) = l.length + 3 * n := by
      rw [List.length_append, Value.length_encodeAll]
      omega
    obtain ⟨s, hset, hs'⟩ := OperandStack.setPointer_up hs (show _ ≤ cap from hlen ▸ hfit)
    rw [hlen] at hset
    rw [Value.encodeAll_unset, List.append_assoc, ← Value.encodeAll_append] at hs'
    refine .inl ⟨s, hs', ?_⟩
    simp only [onStack, hset, withStack]
  · have hset := OperandStack.setPointer_full hs (Nat.lt_of_not_le hfit)
    refine .inr ?_
    simp only [onStack, hset]

/-- The part of a call behind its checks. -/
def enter (base slots : Nat) (entry : UInt16) : Step κ Unit := do
  onStack (OperandStack.setPointer (base + 3 * slots))
  let m ← get
  onStack (OperandStack.pushWord (UInt16.ofNat m.fp))
  onStack (OperandStack.pushWord (UInt16.ofNat base))
  onStack (OperandStack.pushWord (UInt16.ofNat m.pc))
  modify fun m => { m with fp := base, pc := entry.toNat, depth := m.depth + 1 }

theorem enter_cases {args : List Value} {n : Nat} (entry : UInt16)
    (hs : m.stack.Holds cap (l ++ Value.encodeAll args)) (hn : args.length ≤ n) :
    (∃ m', enter l.length n entry m = .error (.stackOverflow cap) m' ∧ m'.world = m.world) ∨
    (∃ s : OperandStack, s.Holds cap (framed l (slotsOf args n) m.fp m.pc) ∧
      enter l.length n entry m = .ok ()
        { m.withStack s with fp := l.length, pc := entry.toNat, depth := m.depth + 1 }) := by
  simp only [enter, bind, EStateM.bind]
  obtain ⟨s₁, hs₁, hset⟩ | hfull := reserve_eq hs hn
  · simp only [hset, Action.get_apply]
    obtain ⟨s₂, hs₂, hpush⟩ | ⟨-, hfull⟩ :=
      pushWord_eq (m := m.withStack s₁) hs₁ (UInt16.ofNat m.fp)
    · simp only [show (m.withStack s₁).fp = m.fp from rfl, hpush]
      obtain ⟨s₃, hs₃, hpush⟩ | ⟨-, hfull⟩ :=
        pushWord_eq (m := m.withStack s₂) hs₂ (UInt16.ofNat l.length)
      · simp only [withStack] at hpush ⊢
        simp only [hpush]
        obtain ⟨s₄, hs₄, hpush⟩ | ⟨-, hfull⟩ :=
          pushWord_eq (m := m.withStack s₃) hs₃ (UInt16.ofNat m.pc)
        · simp only [withStack] at hpush
          simp only [hpush]
          exact .inr ⟨s₄, hs₄, rfl⟩
        · simp only [withStack] at hfull
          simp only [hfull]
          exact .inl ⟨_, rfl, rfl⟩
      · simp only [withStack] at hfull ⊢
        simp only [hfull]
        exact .inl ⟨_, rfl, rfl⟩
    · simp only [show (m.withStack s₁).fp = m.fp from rfl, hfull]
      exact .inl ⟨_, rfl, rfl⟩
  · simp only [hfull]
    exact .inl ⟨m, rfl, rfl⟩

/-- What a call does: it is refused for a reason of the language and the world stays as it is,
or control enters the body that the record leads to. -/
theorem call_cases {isProc : Bool} {id : Ident} {args : List Value} {n : UInt8}
    (hid : m.heap.identAt id.offset = .ok id) (hn : n.toNat = args.length)
    (hs : m.stack.Holds cap (l ++ Value.encodeAll args))
    (hslots : (m.heap.identArguments id).toNat ≤ (m.heap.identSlot id).toNat) :
    (∃ e m', call isProc n id.offset m = .error e m' ∧ e.isInternal = false ∧ m'.world = m.world) ∨
    (∃ entry s, entryOf m.heap id isProc = .ok entry ∧ m.heap.identArguments id = n ∧
      OperandStack.Holds s cap
        (framed l (slotsOf args (m.heap.identSlot id).toNat) m.fp m.pc) ∧
      call isProc n id.offset m = .ok ()
        { m.withStack s with fp := l.length, pc := entry.toNat, depth := m.depth + 1 }) := by
  have hsp : m.stack.sp = l.length + 3 * args.length := by
    rw [hs.sp, List.length_append, Value.length_encodeAll]
  cases hentry : entryOf m.heap id isProc with
  | error e =>
      refine .inl ⟨e, m, ?_, ?_, rfl⟩
      · simp only [call, askHeap, hid, bind, EStateM.bind, Action.get_apply, hentry]
        rfl
      · unfold entryOf at hentry
        split at hentry <;> cases hentry <;> rfl
  | ok entry =>
      by_cases hargs : n = m.heap.identArguments id
      · -- The checks are passed.
        have hcall : call isProc n id.offset m =
            enter l.length (m.heap.identSlot id).toNat entry m := by
          have hlow : ¬ m.stack.sp < Value.size * n.toNat := by
            simp only [hsp, hn, Value.size]
            omega
          have hbase : m.stack.sp - Value.size * n.toNat = l.length := by
            simp only [hsp, hn, Value.size]
            omega
          simp only [call, askHeap, hid, bind, EStateM.bind, Action.get_apply, hentry]
          rw [← hargs]
          simp only [ne_eq, not_true, if_false, EStateM.bind, Action.get_apply, hlow, hbase]
          rfl
        rw [← hargs] at hslots
        obtain ⟨m', hrun, hw⟩ | ⟨s, hs', hrun⟩ := enter_cases entry hs (hn ▸ hslots)
        · exact .inl ⟨_, m', hcall.trans hrun, rfl, hw⟩
        · exact .inr ⟨entry, s, rfl, hargs.symm, hs', hcall.trans hrun⟩
      · refine .inl
          ⟨.argumentCount (m.heap.identText id) (m.heap.identArguments id).toNat n.toNat, m,
          ?_, rfl, rfl⟩
        simp only [call, askHeap, hid, bind, EStateM.bind, Action.get_apply, hentry, hargs,
          ne_eq, not_false_eq_true, if_true]
        rfl

/-- Leaving a frame restores the caller. -/
theorem leave_eq {slots : List Value} {fp ret : Nat}
    (hs : m.stack.Holds cap (framed l slots fp ret)) (hl : l.length ≤ 65535) (hfp : fp ≤ 65535)
    (hret : ret ≤ 65535) :
    ∃ s : OperandStack, s.Holds cap l ∧
      leave m = .ok () { m.withStack s with fp := fp, pc := ret, depth := m.depth - 1 } := by
  have hword {n : Nat} (h : n ≤ 65535) : (UInt16.ofNat n).toNat = n := by
    rw [UInt16.toNat_ofNat']
    omega
  obtain ⟨s₁, hpop₁, hs₁⟩ := OperandStack.popWord_ok hs
  obtain ⟨s₂, hpop₂, hs₂⟩ := OperandStack.popWord_ok hs₁
  obtain ⟨s₃, hpop₃, hs₃⟩ := OperandStack.popWord_ok hs₂
  obtain ⟨s₄, hset, hs₄⟩ := OperandStack.setPointer_down hs₃
  refine ⟨s₄, hs₄, ?_⟩
  simp only [leave, bind, EStateM.bind, onStack, hpop₁, hpop₂, hpop₃, hword hl, hset]
  simp only [Action.modify_apply, hword hfp, hword hret,
    withStack]

end Machine

end CellScript
