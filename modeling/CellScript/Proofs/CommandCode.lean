import CellScript.Proofs.ExpressionCode
import CellScript.Proofs.Outline

/-!
The steps that statements are made of.

Statements use more of the compiler than expressions do: jumps are emitted before
their targets are known and patched later, blocks, loops and jumps lie on stacks,
and a name that is stored to may become a local. Each lemma here gives the effect
of one such step as an equation between states, so that the proofs about whole
statements never look into the steps again.
-/

namespace CellScript

namespace Compiler

open Grammar

/-! ### Jumps -/

/-- A state with another count of open jumps. -/
def setFixups (s : Compiler) (n : Nat) : Compiler :=
  { s with code := { s.code with openFixups := n } }

section

variable {s s' : Compiler} {u : Unit} {op : Opcode}

theorem distance_ok {start target : Nat} {d : UInt16}
    (h : CodeBuffer.distance start target = .ok d) :
    Instr.InReach start target ∧ d = Instr.distanceWord start target := by
  simp only [CodeBuffer.distance] at h
  split at h
  · rename_i hd
    cases h
    exact ⟨hd, rfl⟩
  · simp at h

theorem emitForward_ok {x : Fixup} (hs : op.shape = .word)
    (h : onCode (CodeBuffer.emitForward op) s = .ok x s') :
    x = ⟨s.code.code.size + 1⟩ ∧
      ∃ n, s' = (s.advance s.front [.withWord op 0]).setFixups n := by
  obtain ⟨b, hb, rfl⟩ := onCode_eq_ok.1 h
  simp only [CodeBuffer.emitForward, Action.bind_eq_ok, Action.get_eq_ok, Action.modify_eq_ok,
    Action.pure_eq_ok] at hb
  obtain ⟨_, b₁, hb₁, _, _, ⟨rfl, rfl⟩, _, b₂, hb₂, _, _, rfl, rfl, rfl⟩ := hb
  have h₁ : onCode (CodeBuffer.emitOp op) s = .ok () { s with code := b₁ } :=
    onCode_eq_ok.2 ⟨b₁, hb₁, rfl⟩
  have h₂ : onCode (CodeBuffer.emitWord 0) { s with code := b₁ } = .ok () { s with code := b₂ } :=
    onCode_eq_ok.2 ⟨b₂, hb₂, rfl⟩
  have e₁ := (emit_ok h₁).1
  have e₂ := (emit_ok h₂).1
  rw [e₁, append_append] at e₂
  have hcode₁ : b₁ = { s.code with code := s.code.code ++ [op.toByte] } :=
    congrArg Compiler.code e₁
  have hcode₂ : b₂ = (s.advance s.front [.withWord op 0]).code := by
    exact (congrArg Compiler.code e₂).trans
      (congrArg Compiler.code (append_eq_advance (Instr.bytes_withWord hs 0)))
  refine ⟨?_, _, by rw [hcode₂]; rfl⟩
  rw [hcode₁]
  simp [CodeBuffer.pos]

theorem emitBackward_ok {target : Nat} (hs : op.shape = .word)
    (h : onCode (CodeBuffer.emitBackward op target) s = .ok u s') :
    Instr.InReach (s.code.code.size + 3) target ∧
      s' = s.advance s.front
        [.withWord op (Instr.distanceWord (s.code.code.size + 3) target)] := by
  obtain ⟨b, hb, rfl⟩ := onCode_eq_ok.1 h
  simp only [CodeBuffer.emitBackward, Action.bind_eq_ok, Action.get_eq_ok] at hb
  obtain ⟨_, b₁, hb₁, _, _, ⟨rfl, rfl⟩, hb⟩ := hb
  have h₁ : onCode (CodeBuffer.emitOp op) s = .ok () { s with code := b₁ } :=
    onCode_eq_ok.2 ⟨b₁, hb₁, rfl⟩
  have e₁ := (emit_ok h₁).1
  have hpos : b₁.pos + 2 = s.code.code.size + 3 := by
    have : b₁ = { s.code with code := s.code.code ++ [op.toByte] } := congrArg Compiler.code e₁
    rw [this]
    simp [CodeBuffer.pos]
  rw [hpos] at hb
  cases hd : CodeBuffer.distance (s.code.code.size + 3) target with
  | ok d =>
    rw [hd] at hb
    obtain ⟨hreach, rfl⟩ := distance_ok hd
    have h₂ : onCode (CodeBuffer.emitWord (Instr.distanceWord (s.code.code.size + 3) target))
        { s with code := b₁ } = .ok u { s with code := b } := onCode_eq_ok.2 ⟨b, hb, rfl⟩
    have e₂ := (emit_ok h₂).1
    rw [e₁, append_append] at e₂
    exact ⟨hreach, e₂.trans (append_eq_advance (Instr.bytes_withWord hs _))⟩
  | error e =>
    rw [hd] at hb
    simp [Action.throw_eq_ok] at hb

/-- Only two bytes of the code change when a jump is patched. -/
theorem patchTo_ok {x : Fixup} {target : Nat}
    (h : onCode (CodeBuffer.patchTo x target) s = .ok u s') :
    Instr.InReach (x.operand + 2) target ∧ ∃ b, s' = { s with code := b } ∧
      b.capacity = s.code.capacity ∧ b.code.toList = setWordAt s.code.code.toList x.operand
        (Instr.distanceWord (x.operand + 2) target) := by
  obtain ⟨b, hb, rfl⟩ := onCode_eq_ok.1 h
  unfold CodeBuffer.patchTo at hb
  cases hd : CodeBuffer.distance (x.operand + 2) target with
  | ok d =>
    rw [hd] at hb
    obtain ⟨hreach, rfl⟩ := distance_ok hd
    obtain rfl := Action.modify_eq_ok.1 hb
    exact ⟨hreach, _, rfl, rfl, by simp [setWordAt]⟩
  | error e =>
    rw [hd] at hb
    simp [Action.throw_eq_ok] at hb

theorem patch_ok {x : Fixup} (h : onCode (CodeBuffer.patch x) s = .ok u s') :
    Instr.InReach (x.operand + 2) s.code.code.size ∧ ∃ b, s' = { s with code := b } ∧
      b.capacity = s.code.capacity ∧ b.code.toList = setWordAt s.code.code.toList x.operand
        (Instr.distanceWord (x.operand + 2) s.code.code.size) := by
  have hto : onCode (CodeBuffer.patchTo x s.code.code.size) s = .ok u s' := by
    obtain ⟨b, hb, hs'⟩ := onCode_eq_ok.1 h
    simp only [CodeBuffer.patch, Action.bind_eq_ok, Action.get_eq_ok] at hb
    obtain ⟨_, _, ⟨rfl, rfl⟩, hb⟩ := hb
    exact onCode_eq_ok.2 ⟨b, hb, hs'⟩
  exact patchTo_ok hto

end

/-! ### Stacks -/

section

variable {s s' : Compiler} {u : Unit}

theorem push?_ok {α : Type} {st st' : BoundedStack α} {a : α} (h : st.push? a = some st') :
    st' = { st with items := a :: st.items } := by
  simp only [BoundedStack.push?] at h
  split at h
  · simp at h
  · exact (Option.some.inj h).symm

theorem pushBlock_ok {k : Construct} {w : WordToken} (h : pushBlock k w s = .ok u s') :
    s' = { s with
      blocks := { s.blocks with items := ⟨k, w.start, w.stop⟩ :: s.blocks.items } } := by
  simp only [pushBlock] at h
  split at h
  · rename_i st hst
    cases h
    rw [push?_ok hst]
  · simp at h

theorem pushForward_ok {x : Fixup} (h : pushForward x s = .ok u s') :
    s' = { s with forward := { s.forward with items := x :: s.forward.items } } := by
  simp only [pushForward] at h
  split at h
  · rename_i st hst
    cases h
    rw [push?_ok hst]
  · simp at h

theorem pushLoopExit_ok {x : Fixup} (h : pushLoopExit x s = .ok u s') :
    s' = { s with
      loopExits := { s.loopExits with items := x :: s.loopExits.items }
      exitCount := s.exitCount + 1 } := by
  simp only [pushLoopExit] at h
  split at h
  · rename_i st hst
    cases h
    rw [push?_ok hst]
  · simp at h

theorem beginLoop_ok (h : beginLoop s = .ok u s') :
    s' = { s with
      loopStarts := { s.loopStarts with items := s.code.code.size :: s.loopStarts.items }
      savedExits := { s.savedExits with items := s.exitCount :: s.savedExits.items }
      exitCount := 0 } := by
  simp only [beginLoop, Action.bind_eq_ok, Action.get_eq_ok] at h
  obtain ⟨_, _, ⟨rfl, rfl⟩, _, s₁, h₁, h⟩ := h
  simp only [pushLoopStart] at h₁
  split at h₁
  · rename_i st hst
    cases h₁
    simp only [saveExits] at h
    split at h
    · rename_i st' hst'
      cases h
      rw [push?_ok hst, push?_ok hst']
      rfl
    · simp at h
  · simp at h₁

theorem popBlock_ok {w : WordToken} {k : Construct} {ks : List Construct}
    (h : popBlock w k ks s = .ok u s') :
    ∃ block blocks, s.blocks.items = block :: blocks ∧ block.construct ∈ k :: ks ∧
      s' = { s with blocks := { s.blocks with items := blocks } } := by
  simp only [popBlock, Action.bind_eq_ok, Action.get_eq_ok] at h
  obtain ⟨_, _, ⟨rfl, rfl⟩, h⟩ := h
  cases hb : s.blocks.items with
  | nil => simp [BoundedStack.top?, hb, failAt_eq_ok] at h
  | cons block blocks =>
      simp only [BoundedStack.top?, hb, List.head?_cons, Action.ite_eq_ok, failAt_eq_ok, and_false,
        or_false, Action.modify_eq_ok] at h
      refine ⟨block, blocks, rfl, by simpa using h.1, ?_⟩
      rw [← h.2]
      simp [BoundedStack.pop, hb]

theorem popForward_ok {x : Fixup} (h : popForward s = .ok x s') :
    ∃ xs, s.forward.items = x :: xs ∧
      s' = { s with forward := { s.forward with items := xs } } := by
  simp only [popForward, Action.bind_eq_ok, Action.get_eq_ok] at h
  obtain ⟨_, _, ⟨rfl, rfl⟩, h⟩ := h
  cases hb : s.forward.items with
  | nil => simp [BoundedStack.top?, hb, failHere_eq_ok] at h
  | cons y ys =>
      simp only [BoundedStack.top?, hb, List.head?_cons, Action.bind_eq_ok, Action.modify_eq_ok,
        Action.pure_eq_ok] at h
      obtain ⟨_, _, rfl, rfl, rfl⟩ := h
      exact ⟨ys, rfl, by simp [BoundedStack.pop, hb]⟩

/-- All exits of the innermost loop are patched, the last one first. -/
theorem patchExits_ok {xs : List Nat} {rest : List Fixup} {n : Nat}
    (h : patchExits n s = .ok u s') (hn : n = xs.length)
    (hs : s.loopExits.items = xs.reverse.map Fixup.mk ++ rest) :
    (∀ x ∈ xs, Instr.InReach (x + 2) s.code.code.size) ∧
      ∃ b, s' = { s with code := b, loopExits := { s.loopExits with items := rest } } ∧
        b.capacity = s.code.capacity ∧
        b.code.toList = patchAll s.code.code.size xs s.code.code.toList := by
  -- The stack holds the exits in reverse, so the induction is on the reversed list.
  generalize hys : xs.reverse = ys at hs
  induction ys generalizing xs s n with
  | nil =>
      obtain rfl : xs = [] := by simpa using hys
      subst hn
      simp only [List.length_nil, patchExits, Action.pure_eq_ok] at h
      refine ⟨by simp, s.code, ?_, rfl, rfl⟩
      rw [← h.2, ← show s.loopExits.items = rest by simpa using hs]
  | cons x ys ih =>
      obtain rfl : xs = ys.reverse ++ [x] := by rw [← xs.reverse_reverse, hys]; simp
      subst hn
      simp only [List.map_cons, List.cons_append] at hs
      simp only [List.length_append, List.length_cons, List.length_nil, Nat.zero_add, patchExits,
        Action.bind_eq_ok, Action.get_eq_ok] at h
      obtain ⟨_, _, ⟨rfl, rfl⟩, h⟩ := h
      simp only [BoundedStack.top?, hs, List.head?_cons, Action.bind_eq_ok,
        Action.modify_eq_ok] at h
      obtain ⟨_, _, rfl, _, s₁, h₁, h⟩ := h
      obtain ⟨hreach, b, rfl, hcap, hb⟩ := patch_ok h₁
      obtain ⟨hreach', b', rfl, hcap', hb'⟩ := ih h (show _ = ys.reverse.length from rfl)
        (by simp) (by simp [BoundedStack.pop, hs])
      have hsize : b.code.size = s.code.code.size := by
        rw [← Array.length_toList, hb]
        simp [setWordAt]
      simp only [hsize] at hreach' hb'
      refine ⟨?_, b', rfl, hcap'.trans hcap, ?_⟩
      · intro y hy
        simp only [List.mem_append, List.mem_singleton] at hy
        obtain hy | rfl := hy
        · exact hreach' y hy
        · exact hreach
      · rw [hb', patchAll_append, hb]
        rfl

/-- A loop ends with the jump back; all its exits lead behind it. -/
theorem endLoop_ok {op : Opcode} {xs : List Nat} {rest : List Fixup} {start n : Nat}
    {starts ns : List Nat} (h : endLoop op s = .ok u s') (hop : op.shape = .word)
    (hstarts : s.loopStarts.items = start :: starts)
    (hexits : s.loopExits.items = xs.reverse.map Fixup.mk ++ rest)
    (hcount : s.exitCount = xs.length) (hsaved : s.savedExits.items = n :: ns) :
    Instr.InReach (s.code.code.size + 3) start ∧
      (∀ x ∈ xs, Instr.InReach (x + 2) (s.code.code.size + 3)) ∧
      ∃ b, s' = { s with
          code := b
          loopStarts := { s.loopStarts with items := starts }
          loopExits := { s.loopExits with items := rest }
          exitCount := n
          savedExits := { s.savedExits with items := ns } } ∧
        b.capacity = s.code.capacity ∧
        b.code.toList = patchAll (s.code.code.size + 3) xs
          (s.code.code.toList ++ (Instr.jump op s.code.code.size (some start)).bytes) := by
  simp only [endLoop, Action.bind_eq_ok, Action.get_eq_ok] at h
  obtain ⟨_, _, ⟨rfl, rfl⟩, h⟩ := h
  simp only [BoundedStack.top?, hstarts, List.head?_cons, Action.bind_eq_ok, Action.modify_eq_ok,
    Action.get_eq_ok] at h
  obtain ⟨_, _, rfl, _, _, hback, _, _, ⟨rfl, rfl⟩, _, _, hpatch, rfl⟩ := h
  obtain ⟨hreach, rfl⟩ := emitBackward_ok hop hback
  obtain ⟨hreach', b, rfl, hcap, hb⟩ := patchExits_ok hpatch hcount hexits
  have hsize : (s.code.code ++ Code.bytes [Instr.jump op s.code.code.size (some start)]).size =
      s.code.code.size + 3 := by
    rw [size_append_list, Code.length_bytes]
    simp [hop, Shape.size]
  refine ⟨hreach, fun x hx => hsize ▸ hreach' x hx, b, ?_, hcap, ?_⟩
  · simp [advance, front, BoundedStack.pop, hstarts, hsaved]
  · rw [← hsize]
    refine hb.trans ?_
    simp [advance, Instr.jump]

end

/-! ### Storing -/

section

variable {s s' : Compiler} {u : Unit} {id : Ident} {w : WordToken}

theorem declareLocal_ok {slot : UInt8} (h : declareLocal id w s = .ok slot s') :
    ∃ body f, s.body = some body ∧ slot = UInt8.ofNat body.locals.length ∧
      Declared s.front id f ∧ s' = s.advance f [] := by
  simp only [declareLocal, Action.bind_eq_ok, valueOf_eq_ok, Action.ite_eq_ok, redefinition_eq_ok,
    Action.get_eq_ok] at h
  obtain ⟨_, _, ⟨rfl, rfl⟩, h⟩ := h
  obtain ⟨_, h⟩ | ⟨hv, h⟩ := h
  · simp at h
  obtain ⟨_, _, ⟨rfl, rfl⟩, h⟩ := h
  cases hb : s.body with
  | none => simp [hb, failAt_eq_ok] at h
  | some body =>
      simp only [hb, Action.ite_eq_ok, Action.bind_eq_ok, failAt_eq_ok, false_and, exists_false,
        and_false, false_or, Action.modify_eq_ok, modifyHeap_eq_ok, Action.pure_eq_ok] at h
      obtain ⟨hl, _, _, rfl, _, _, rfl, rfl, rfl⟩ := h
      refine ⟨body, _, rfl, rfl, .mk hb ?_ ?_, ?_⟩
      · simpa [front] using hv
      · simpa [front] using hl
      · simp [advance, front, Front.addLocal, Front.withHeap]

theorem assign_ok (h : assign id w s = .ok u s') :
    ∃ p f, Target s.front id p f ∧ s' = s.advance f [p.store] := by
  simp only [assign, Action.bind_eq_ok, Action.get_eq_ok] at h
  obtain ⟨_, _, ⟨rfl, rfl⟩, h⟩ := h
  cases hb : s.body with
  | none =>
      simp only [hb, Action.bind_eq_ok, valueOf_eq_ok, Action.ite_eq_ok, redefinition_eq_ok] at h
      obtain ⟨_, _, ⟨rfl, rfl⟩, h⟩ := h
      obtain ⟨_, h⟩ | ⟨hv, h⟩ := h
      · simp at h
      · exact ⟨.global id, s.front, .global hb (by simpa [front] using hv), emitOpWord_ok rfl h⟩
  | some body =>
      simp only [hb, Action.bind_eq_ok] at h
      obtain ⟨slot, _, hslot, h⟩ := h
      obtain ⟨rfl, ⟨body', hb', hl, rfl⟩ | ⟨rfl, hl⟩⟩ := slotOf_ok hslot
      · exact ⟨.slot _, _, .old hb' hl, emitOpByte_ok rfl h⟩
      · simp only [Action.bind_eq_ok] at h
        obtain ⟨slot, _, hd, h⟩ := h
        obtain ⟨body', f, hb', rfl, hdecl, rfl⟩ := declareLocal_ok hd
        refine ⟨.slot _, f, .new hb' (hl body' hb') hdecl, ?_⟩
        simpa [Place.store] using emitOpByte_ok rfl h

end

/-! ### Commands -/

section

variable {s s' : Compiler} {u : Unit} {w : WordToken}

theorem argumentsFrom_ok {fuel n m : Nat} (h : argumentsFrom fuel n s = .ok m s') :
    ∃ e es f, Arguments s.front e es f ∧ m = n + 1 + es.length ∧
      s' = s.advance f (Expr.codeAll (e :: es)) := by
  induction fuel generalizing n s with
  | zero => simp [argumentsFrom, failHere_eq_ok] at h
  | succ fuel ih =>
      simp only [argumentsFrom, Action.bind_eq_ok, Action.ite_eq_ok, Action.pure_eq_ok] at h
      obtain ⟨_, s₁, he, comma, s₂, hc, h⟩ := h
      obtain ⟨e, f₁, hexp, rfl⟩ := expression_ok he
      obtain ⟨rfl, h⟩ | ⟨hf, rfl, rfl⟩ := h
      · obtain ⟨f₂, hm, rfl⟩ := symbol_ok hc
        obtain ⟨e', es, f₃, ha, rfl, rfl⟩ := ih h
        refine ⟨e, e' :: es, f₃, .more hexp hm ha, ?_, ?_⟩
        · simp only [List.length_cons]
          omega
        · simp [Expr.codeAll]
      · obtain rfl : comma = false := by simpa using hf
        obtain ⟨f₂, hm, rfl⟩ := symbol_ok_false hc
        exact ⟨e, [], f₂, .last hexp hm, rfl, by simp [Expr.codeAll]⟩

theorem arguments_ok {n : Nat} (h : arguments s = .ok n s') :
    ∃ es f, Operands s.front es f ∧ n = es.length ∧ s' = s.advance f (Expr.codeAll es) := by
  simp only [arguments, Action.bind_eq_ok, Action.ite_eq_ok, Action.pure_eq_ok,
    Action.get_eq_ok] at h
  obtain ⟨atEnd, s₁, hr, h⟩ := h
  obtain ⟨c, hc, rfl⟩ := read_ok hr
  obtain ⟨rfl, rfl, rfl⟩ | ⟨hf, h⟩ := h
  · exact ⟨[], _, .none hc, rfl, by simp [Expr.codeAll]⟩
  · obtain rfl : atEnd = false := by simpa using hf
    obtain ⟨_, _, ⟨rfl, rfl⟩, h⟩ := h
    obtain ⟨e, es, f, ha, rfl, rfl⟩ := argumentsFrom_ok h
    refine ⟨e :: es, f, .some hc ha, ?_, by simp⟩
    simp only [List.length_cons]
    omega

theorem printStatement_ok (h : printStatement w s = .ok u s') :
    ∃ es f, Operands s.front es f ∧ es.length ≤ 255 ∧
      s' = s.advance f (Expr.codeAll es ++ [.withByte .print (UInt8.ofNat es.length)]) := by
  simp only [printStatement, Action.bind_eq_ok, argumentCount_eq_ok] at h
  obtain ⟨n, s₁, ha, _, _, ⟨hn, rfl, rfl⟩, h⟩ := h
  obtain ⟨es, f, hes, rfl, rfl⟩ := arguments_ok ha
  exact ⟨es, f, hes, hn, by simpa using emitOpByte_ok rfl h⟩

theorem inputStatement_ok {fuel : Nat} (h : inputStatement fuel s = .ok u s') :
    ∃ ps f, Inputs s.front ps f ∧
      s' = s.advance f (ps.flatMap fun p => [.plain .input, p.store]) := by
  induction fuel generalizing s with
  | zero => simp [inputStatement, failHere_eq_ok] at h
  | succ fuel ih =>
      simp only [inputStatement, Action.bind_eq_ok, Action.ite_eq_ok, Action.pure_eq_ok] at h
      obtain ⟨w, _, hn, id, _, hi, _, _, ho, _, _, ha, comma, _, hc, h⟩ := h
      obtain ⟨c, hw, hk, rfl⟩ := name_ok hn
      obtain ⟨new, st, hst, rfl⟩ := intern_ok hi
      obtain rfl := emitOp_ok rfl ho
      obtain ⟨p, f₁, htarget, rfl⟩ := assign_ok ha
      have hname : Name s.front id ((s.front.goto c).withStore st) := .mk hw hk hst
      obtain ⟨rfl, h⟩ | ⟨hf, _, rfl⟩ := h
      · obtain ⟨f₂, hm, rfl⟩ := symbol_ok hc
        obtain ⟨ps, f₃, hps, rfl⟩ := ih h
        exact ⟨p :: ps, f₃, .more hname htarget hm hps, by simp⟩
      · obtain rfl : comma = false := by simpa using hf
        obtain ⟨f₂, hm, rfl⟩ := symbol_ok_false hc
        exact ⟨[p], f₂, .last hname htarget hm, by simp⟩

end

end Compiler

end CellScript
