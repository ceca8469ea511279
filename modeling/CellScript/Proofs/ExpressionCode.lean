import CellScript.Proofs.Emission
import CellScript.Proofs.Vocabulary

/-!
Expressions compile to the postfix code of their trees.

The operators that wait on the pending stack above the innermost mark are the
spine of a tree whose right edge is still missing: each binary operator has its
left operand behind it, each unary one has nothing, and the operand that comes
next has to bind closer than the topmost of them. `Waiting` says this in terms of
the grammar. Flushing operators closes the spine from its lower end, so that the
operand in hand grows while its code stays a suffix of what has been emitted, and
at the end of the expression the whole spine is one tree.
-/

namespace CellScript

namespace Grammar

/-- An expression that binds close enough for a level does so for every lower one. -/
theorem Level.le {j k : Nat} {f f' : Front} {e : Expr} (h : Level j f e f') (hk : k ≤ j) :
    Level k f e f' := by
  obtain ⟨d, rfl⟩ := Nat.exists_eq_add_of_le hk
  induction d with
  | zero => exact h
  | succ d ih => exact ih (.tighter h) (Nat.le_add_right k d)

/-- `Waiting st f g pre k`: the operators `st` were read from `f` on and wait for an operand
at `g` of level `k` or more; `pre` is the code of the operands that they already have. -/
inductive Waiting : List Pending → Front → Front → Code → Nat → Prop
  | mark {f : Front} : Waiting [] f f [] 0
  | unary {st : List Pending} {f g : Front} {pre : Code} {k : Nat} {t : OperatorToken}
      {c : Cursor} :
      Waiting st f g pre k → g.cursor.unaryOperator = (some t, c) →
      Waiting (.operator t.operator.op t.operator.prec :: st) f (g.goto c) pre t.operator.prec
  | binary {st : List Pending} {f g g' : Front} {pre : Code} {k : Nat} {a : Expr}
      {t : OperatorToken} {c : Cursor} :
      Waiting st f g pre k → k ≤ t.operator.prec → Level t.operator.prec g a g' →
      g'.cursor.binaryOperator = (some t, c) →
      Waiting (.operator t.operator.op t.operator.prec :: st) f (g'.goto c) (pre ++ a.code)
        (t.operator.prec + 1)

/-- No operator binds closer than the unary ones. -/
theorem Waiting.le_eleven {st : List Pending} {f g : Front} {pre : Code} {k : Nat}
    (h : Waiting st f g pre k) : k ≤ 11 := by
  cases h with
  | mark => omega
  | unary _ ht => exact Nat.le_of_eq (Cursor.unaryOperator_some ht).1
  | binary _ _ _ ht => exact Nat.succ_le_succ (Cursor.binaryOperator_some ht).1

end Grammar

namespace Compiler

open Grammar

/-! ### The pending stack -/

theorem emitOp_operation {s s' : Compiler} {u : Unit} {op : Opcode} {n : Nat}
    (ha : op.arity? = some n) (h : emitOp op s = .ok u s') :
    s' = s.advance s.front [.plain op] :=
  emitOp_ok (Opcode.shape_of_arity ha) h

/-- One round of flushing takes the topmost operator off and emits it. -/
theorem flush_operator {s s' : Compiler} {u : Unit} {op : Opcode} {prec n fuel : Nat}
    {incoming : Option Nat} {st : List Pending} (ha : op.arity? = some n)
    (hi : incoming.any (prec < ·) = false) (hs : s.pending.items = .operator op prec :: st)
    (h : flush incoming (fuel + 1) s = .ok u s') :
    flush incoming fuel ((s.advance s.front [.plain op]).withPending st) = .ok u s' := by
  have htop : s.pending.top? = some (.operator op prec) := by simp [BoundedStack.top?, hs]
  simp only [flush, Action.bind_eq_ok, Action.get_eq_ok] at h
  obtain ⟨_, _, ⟨rfl, rfl⟩, h⟩ := h
  simp only [htop, hi, Bool.false_eq_true, if_false, Action.bind_eq_ok, Action.modify_eq_ok] at h
  obtain ⟨_, _, rfl, _, t, ht, h⟩ := h
  have hpop : { s with pending := s.pending.pop } = s.withPending st := by
    simp [withPending, BoundedStack.pop, hs]
  rw [hpop] at ht
  rw [emitOp_operation ha ht] at h
  simpa using h

/-- Before a binary operator of precedence `p`, the operators that bind as close are emitted.
What is left of the spine waits for an operand of level `p`, and there is one. -/
theorem flush_some {s₀ s' : Compiler} {u : Unit} {st rest : List Pending} {f g g' x : Front}
    {pre : Code} {j k p : Nat} {e : Expr} (hw : Waiting st f g pre k) :
    ∀ {fuel : Nat}, Level j g e g' → k ≤ j → p ≤ j → st.length < fuel →
    flush (some p) fuel
      ((s₀.advance x (pre ++ e.code)).withPending (st ++ .mark :: rest)) = .ok u s' →
    ∃ st' g₁ pre' k' e', Waiting st' f g₁ pre' k' ∧ k' ≤ p ∧ Level p g₁ e' g' ∧
      s' = (s₀.advance x (pre' ++ e'.code)).withPending (st' ++ .mark :: rest) := by
  induction hw generalizing e j with
  | @mark f =>
      intro fuel he _ hp hfuel h
      obtain ⟨fuel, rfl⟩ := Nat.exists_eq_succ_of_ne_zero (Nat.ne_of_gt hfuel)
      simp only [flush, Action.bind_eq_ok, Action.get_eq_ok] at h
      obtain ⟨_, _, ⟨rfl, rfl⟩, h⟩ := h
      simp only [BoundedStack.top?, pending_withPending, List.nil_append, List.head?_cons,
        Option.isNone_some, Bool.false_eq_true, if_false, Action.pure_eq_ok] at h
      exact ⟨[], f, [], 0, e, .mark, Nat.zero_le p, he.le hp, h.2.symm⟩
  | @unary st f g pre k t c hw ht ih =>
      intro fuel he hk hp hfuel h
      obtain ⟨fuel, rfl⟩ := Nat.exists_eq_succ_of_ne_zero (Nat.ne_of_gt (Nat.zero_lt_of_lt hfuel))
      by_cases hlt : t.operator.prec < p
      · -- The operator binds looser than the incoming one and stays.
        simp only [flush, Action.bind_eq_ok, Action.get_eq_ok] at h
        obtain ⟨_, _, ⟨rfl, rfl⟩, h⟩ := h
        simp only [BoundedStack.top?, pending_withPending, List.cons_append, List.head?_cons,
          Option.any_some, hlt, decide_true, if_true, Action.pure_eq_ok] at h
        exact ⟨_, _, _, _, e, .unary hw ht, Nat.le_of_lt hlt, he.le hp, h.2.symm⟩
      · have hstep := flush_operator (Cursor.unaryOperator_some ht).2 (by simpa using hlt)
          rfl h
        have hcode : pre ++ e.code ++ [Instr.plain t.operator.op] =
            pre ++ (Expr.apply t.operator.op [e]).code := by
          simp [Expr.code, Expr.codeAll]
        simp only [front_withPending, front_advance, advance_withPending, advance_advance,
          withPending_withPending, hcode] at hstep
        have hprec := (Cursor.unaryOperator_some ht).1
        exact ih (.unary ht (he.le hk)) (hprec ▸ hw.le_eleven) (by omega)
          (by simpa using hfuel) hstep
  | @binary st f g₀ g₁ pre k a t c hw hkt ha ht ih =>
      intro fuel he hk hp hfuel h
      obtain ⟨fuel, rfl⟩ := Nat.exists_eq_succ_of_ne_zero (Nat.ne_of_gt (Nat.zero_lt_of_lt hfuel))
      by_cases hlt : t.operator.prec < p
      · simp only [flush, Action.bind_eq_ok, Action.get_eq_ok] at h
        obtain ⟨_, _, ⟨rfl, rfl⟩, h⟩ := h
        simp only [BoundedStack.top?, pending_withPending, List.cons_append, List.head?_cons,
          Option.any_some, hlt, decide_true, if_true, Action.pure_eq_ok] at h
        exact ⟨_, _, _, _, e, .binary hw hkt ha ht, hlt, he.le hp, h.2.symm⟩
      · have hstep := flush_operator (Cursor.binaryOperator_some ht).2 (by simpa using hlt)
          rfl h
        have hcode : pre ++ a.code ++ e.code ++ [Instr.plain t.operator.op] =
            pre ++ (Expr.apply t.operator.op [a, e]).code := by
          simp [Expr.code, Expr.codeAll]
        simp only [front_withPending, front_advance, advance_withPending, advance_advance,
          withPending_withPending, hcode] at hstep
        exact ih (.binary ha ht (he.le hk)) hkt (by omega) (by simpa using hfuel) hstep

/-- At the end of an expression the whole spine is emitted, and its mark goes. -/
theorem flush_none {s₀ s' : Compiler} {u : Unit} {st rest : List Pending} {f g g' x : Front}
    {pre : Code} {j k : Nat} {e : Expr} (hw : Waiting st f g pre k) :
    ∀ {fuel : Nat}, Level j g e g' → k ≤ j → st.length < fuel →
    flush none fuel
      ((s₀.advance x (pre ++ e.code)).withPending (st ++ .mark :: rest)) = .ok u s' →
    ∃ e', Level 0 f e' g' ∧ s' = (s₀.advance x e'.code).withPending rest := by
  induction hw generalizing e j with
  | @mark f =>
      intro fuel he _ hfuel h
      obtain ⟨fuel, rfl⟩ := Nat.exists_eq_succ_of_ne_zero (Nat.ne_of_gt hfuel)
      simp only [flush, Action.bind_eq_ok, Action.get_eq_ok] at h
      obtain ⟨_, _, ⟨rfl, rfl⟩, h⟩ := h
      simp only [BoundedStack.top?, pending_withPending, List.nil_append, List.head?_cons,
        Option.isNone_none, if_true, Action.modify_eq_ok] at h
      exact ⟨e, he.le (Nat.zero_le j), h.symm⟩
  | @unary st f g pre k t c hw ht ih =>
      intro fuel he hk hfuel h
      obtain ⟨fuel, rfl⟩ := Nat.exists_eq_succ_of_ne_zero (Nat.ne_of_gt (Nat.zero_lt_of_lt hfuel))
      have hstep := flush_operator (Cursor.unaryOperator_some ht).2 (by simp) rfl h
      have hcode : pre ++ e.code ++ [Instr.plain t.operator.op] =
          pre ++ (Expr.apply t.operator.op [e]).code := by
        simp [Expr.code, Expr.codeAll]
      simp only [front_withPending, front_advance, advance_withPending, advance_advance,
        withPending_withPending, hcode] at hstep
      have hprec := (Cursor.unaryOperator_some ht).1
      exact ih (.unary ht (he.le hk)) (hprec ▸ hw.le_eleven) (by simpa using hfuel) hstep
  | @binary st f g₀ g₁ pre k a t c hw hkt ha ht ih =>
      intro fuel he hk hfuel h
      obtain ⟨fuel, rfl⟩ := Nat.exists_eq_succ_of_ne_zero (Nat.ne_of_gt (Nat.zero_lt_of_lt hfuel))
      have hstep := flush_operator (Cursor.binaryOperator_some ht).2 (by simp) rfl h
      have hcode : pre ++ a.code ++ e.code ++ [Instr.plain t.operator.op] =
          pre ++ (Expr.apply t.operator.op [a, e]).code := by
        simp [Expr.code, Expr.codeAll]
      simp only [front_withPending, front_advance, advance_withPending, advance_advance,
        withPending_withPending, hcode] at hstep
      exact ih (.binary ha ht (he.le hk)) hkt (by simpa using hfuel) hstep

/-- The operators in front of an operand join the spine. -/
theorem unaryOperators_ok {s₀ s' : Compiler} {u : Unit} {rest : List Pending} {f : Front} :
    ∀ {fuel : Nat} {st : List Pending} {g : Front} {pre : Code} {k : Nat},
    Waiting st f g pre k →
    unaryOperators fuel ((s₀.advance g pre).withPending (st ++ rest)) = .ok u s' →
    ∃ st' g' k' c, Waiting st' f g' pre k' ∧ g'.cursor.unaryOperator = (none, c) ∧
      s' = (s₀.advance (g'.goto c) pre).withPending (st' ++ rest)
  | 0, st, g, pre, k, _, h => by simp [unaryOperators, failHere_eq_ok] at h
  | fuel + 1, st, g, pre, k, hw, h => by
      simp only [unaryOperators, Action.bind_eq_ok, read_eq_ok] at h
      obtain ⟨_, _, ⟨rfl, rfl⟩, h⟩ := h
      have hread : { (s₀.advance g pre).withPending (st ++ rest) with
            cursor := g.cursor.unaryOperator.2 } =
          (s₀.advance (g.goto g.cursor.unaryOperator.2) pre).withPending (st ++ rest) := rfl
      cases ht : g.cursor.unaryOperator.1 with
      | none =>
          rw [show ((s₀.advance g pre).withPending (st ++ rest)).cursor =
            g.cursor from rfl, ht] at h
          obtain ⟨_, rfl⟩ := Action.pure_eq_ok.1 h
          exact ⟨st, g, k, _, hw, Prod.ext ht rfl, hread⟩
      | some t =>
          rw [show ((s₀.advance g pre).withPending (st ++ rest)).cursor =
            g.cursor from rfl, ht] at h
          simp only [Action.bind_eq_ok] at h
          obtain ⟨_, s₁, h₁, h⟩ := h
          rw [hread] at h₁
          rw [pushPending_ok h₁] at h
          exact unaryOperators_ok (.unary hw (Prod.ext ht rfl)) h

/-! ### Operands -/

theorem numberLiteral_ok {s s' : Compiler} {u : Unit} {n : Number}
    (h : numberLiteral n s = .ok u s') :
    s' = s.advance s.front (Expr.literal (literalOfNumber n)).code := by
  cases n with
  | int n => exact emitOpWord_ok rfl h
  | float x => exact emitOpWord_ok rfl h

theorem stringLiteral_ok {s s' : Compiler} {u : Unit} {t : StringToken}
    (h : stringLiteral t s = .ok u s') :
    ∃ l f, Text s.front t l f ∧ s' = s.advance f (Expr.literal l).code := by
  cases t with
  | empty => exact ⟨.empty, _, .empty, emitOp_ok rfl h⟩
  | char c => exact ⟨.char c, _, .char, emitOpByte_ok rfl h⟩
  | long start raw length =>
      simp only [stringLiteral, Action.bind_eq_ok, onStore_eq_ok] at h
      obtain ⟨offset, _, ⟨st, hst, rfl⟩, h⟩ := h
      obtain ⟨heap, hheap, rfl⟩ : ∃ heap,
          Heap.allocStr (StringLiteral.unescape raw) s.store.heap = .ok offset heap ∧
            st = ⟨heap, s.store.buckets⟩ := by
        simp only [Store.onHeap] at hst
        split at hst
        · rename_i a heap ha
          cases hst
          exact ⟨heap, ha, rfl⟩
        · simp at hst
      exact ⟨.long offset, s.front.withHeap heap, .long hheap, emitOpWord_ok rfl h⟩

theorem arrayLiteral_ok {s s' : Compiler} {u : Unit} {start n : Nat}
    (h : arrayLiteral start n s = .ok u s') :
    n ≤ 255 ∧ s' = s.advance s.front [.withByte .array (UInt8.ofNat n)] := by
  simp only [arrayLiteral, Action.ite_eq_ok, Action.bind_eq_ok, Action.throw_eq_ok, false_and,
    exists_false, and_false, false_or] at h
  exact ⟨by omega, emitOpByte_ok rfl h.2⟩

/-- What each function of the expression compiler does with so much fuel: it reads an
expression, or a part of one, and emits the code of its tree. -/
structure EmitsTrees (fuel : Nat) : Prop where
  expr : ∀ {s s' : Compiler} {u : Unit}, expr fuel s = .ok u s' →
    ∃ e f, Expression s.front e f ∧ s' = s.advance f e.code
  /-- The spine of the expression so far is on the pending stack. -/
  operands : ∀ {s₀ s' : Compiler} {u : Unit} {st : List Pending} {g : Front} {pre : Code} {k : Nat},
    Waiting st s₀.front g pre k →
    operands fuel ((s₀.advance g pre).withPending (st ++ .mark :: s₀.pending.items)) = .ok u s' →
    ∃ e f, Expression s₀.front e f ∧ s' = s₀.advance f e.code
  operand : ∀ {s s' : Compiler} {u : Unit}, operand fuel s = .ok u s' →
    ∃ e f, Operand s.front e f ∧ s' = s.advance f e.code
  /-- The word has been read already. -/
  wordOperand : ∀ {s s' : Compiler} {u : Unit} {f₀ : Front} {w : WordToken} {c : Cursor},
    f₀.cursor.word = (some w, c) → s.front = f₀.goto c → wordOperand fuel w s = .ok u s' →
    ∃ e f, Operand f₀ e f ∧ s' = s.advance f e.code
  exprList : ∀ {s s' : Compiler} {close : UInt8} {n : Nat}, exprList fuel close s = .ok n s' →
    ∃ es f, Listed close s.front es f ∧ n = es.length ∧ s' = s.advance f (Expr.codeAll es)
  exprListFrom : ∀ {s s' : Compiler} {close : UInt8} {n₀ n : Nat},
    exprListFrom fuel close n₀ s = .ok n s' →
    ∃ e es f, ListedFrom close s.front e es f ∧ n = n₀ + (es.length + 1) ∧
      s' = s.advance f (Expr.codeAll (e :: es))
  /-- The code of the indices goes behind that of the variable, whatever it is. -/
  indices : ∀ {s s' : Compiler} {u : Unit}, indices fuel s = .ok u s' →
    ∃ f post, s' = s.advance f post ∧
      ∀ e, ∃ e', Indexed e s.front e' f ∧ e'.code = e.code ++ post

section

variable {fuel : Nat} {s s' : Compiler} {u : Unit}

theorem expr_succ (ih : EmitsTrees fuel) (h : expr (fuel + 1) s = .ok u s') :
    ∃ e f, Expression s.front e f ∧ s' = s.advance f e.code := by
  simp only [expr, Action.bind_eq_ok] at h
  obtain ⟨_, t, ht, h⟩ := h
  rw [pushPending_ok ht] at h
  exact ih.operands .mark (by simpa using h)

theorem operands_succ (ih : EmitsTrees fuel) {s₀ : Compiler} {st : List Pending} {g : Front}
    {pre : Code} {k : Nat} (hw : Waiting st s₀.front g pre k)
    (h : operands (fuel + 1)
      ((s₀.advance g pre).withPending (st ++ .mark :: s₀.pending.items)) = .ok u s') :
    ∃ e f, Expression s₀.front e f ∧ s' = s₀.advance f e.code := by
  simp only [operands, Action.bind_eq_ok, read_eq_ok] at h
  obtain ⟨_, s₁, h₁, _, s₂, h₂, _, _, ⟨rfl, rfl⟩, h⟩ := h
  obtain ⟨st₁, g₁, k₁, c, hw₁, hc, rfl⟩ := unaryOperators_ok hw h₁
  obtain ⟨e, f, he, rfl⟩ := ih.operand h₂
  have hlevel : Level 12 g₁ e f := .operand hc he
  have hk₁ : k₁ ≤ 12 := Nat.le_succ_of_le hw₁.le_eleven
  simp only [advance_withPending, advance_advance] at h
  -- Reading the operator moves the cursor only; the spine ends where the operand did.
  have hread : { (s₀.advance f (pre ++ e.code)).withPending (st₁ ++ .mark :: s₀.pending.items) with
        cursor := f.cursor.binaryOperator.2 } =
      (s₀.advance (f.goto f.cursor.binaryOperator.2) (pre ++ e.code)).withPending
        (st₁ ++ .mark :: s₀.pending.items) := rfl
  rw [show ((s₀.advance f (pre ++ e.code)).withPending
    (st₁ ++ .mark :: s₀.pending.items)).cursor = f.cursor from rfl, hread] at h
  have hfuel : st₁.length < (st₁ ++ Pending.mark :: s₀.pending.items).length + 1 := by
    simp only [List.length_append]
    omega
  cases ht : f.cursor.binaryOperator.1 with
  | none =>
      simp only [ht, Action.bind_eq_ok, Action.get_eq_ok] at h
      obtain ⟨_, _, ⟨rfl, rfl⟩, h⟩ := h
      obtain ⟨e', he', rfl⟩ := flush_none hw₁ hlevel hk₁ hfuel h
      exact ⟨e', _, .mk he' (Prod.ext ht rfl), rfl⟩
  | some t =>
      simp only [ht, Action.bind_eq_ok, Action.get_eq_ok] at h
      obtain ⟨_, _, ⟨rfl, rfl⟩, _, s₃, h₃, _, s₄, h₄, h⟩ := h
      have ht' : f.cursor.binaryOperator = (some t, f.cursor.binaryOperator.2) := Prod.ext ht rfl
      have hprec : t.operator.prec ≤ 12 :=
        Nat.le_trans (Cursor.binaryOperator_some ht').1 (by omega)
      obtain ⟨st₂, g₂, pre₂, k₂, e₂, hw₂, hk₂, he₂, rfl⟩ :=
        flush_some hw₁ hlevel hk₁ hprec hfuel h₃
      rw [pushPending_ok h₄] at h
      exact ih.operands (.binary hw₂ hk₂ he₂ ht') h

/-- A numeral, a string or a word, behind blanks. -/
theorem operand_token (ih : EmitsTrees fuel) {number : Option NumberToken} {s₁ : Compiler}
    (h₁ : tryRead Cursor.number (s.advance s.front.skip []) = .ok number s₁)
    (h : (match number with
      | some t => numberLiteral t.value
      | none => do
        match ← tryRead Cursor.string with
        | some t => stringLiteral t
        | none =>
          match ← read Cursor.word with
          | some w => Compiler.wordOperand fuel w
          | none =>
            if ← read Cursor.atEnd then failHere (.endOfInput .expression)
            else failHere .expectedExpression) s₁ = .ok u s') :
    ∃ e f, Operand s.front e f ∧ s' = s.advance f e.code := by
  obtain ⟨c₁, hnum, rfl⟩ := tryRead_ok h₁
  simp only [front_advance, Front.skip, Front.cursor_goto, Cursor.number_skipBlank, advance_advance,
    Front.goto_goto, List.append_nil] at hnum h
  cases number with
  | some t => exact ⟨_, _, .number hnum, by simpa using numberLiteral_ok h⟩
  | none =>
      obtain rfl := Cursor.number_none hnum
      simp only [Action.bind_eq_ok] at h
      obtain ⟨string, s₂, h₂, h⟩ := h
      obtain ⟨c₂, hstr, rfl⟩ := tryRead_ok h₂
      simp only [front_advance, Front.cursor_goto, Cursor.string_skipBlank, advance_advance,
        Front.goto_goto, List.append_nil] at hstr h
      cases string with
      | some t =>
          obtain ⟨l, f, hl, rfl⟩ := stringLiteral_ok h
          exact ⟨.literal l, f, .text hstr hl, by simp⟩
      | none =>
          obtain rfl := Cursor.string_none hstr
          simp only [Action.bind_eq_ok] at h
          obtain ⟨word, s₃, h₃, h⟩ := h
          obtain ⟨c₃, hword, rfl⟩ := read_ok h₃
          simp only [front_advance, Front.cursor_goto, Cursor.word_skipBlank, advance_advance,
            Front.goto_goto, List.append_nil] at hword h
          cases word with
          | none =>
              simp only [Action.bind_eq_ok, Action.ite_eq_ok, failHere_eq_ok, and_false, or_self,
                exists_false] at h
          | some w =>
              obtain ⟨e, f, he, rfl⟩ := ih.wordOperand hword rfl h
              exact ⟨e, f, he, by simp⟩

theorem operand_succ (ih : EmitsTrees fuel) (h : operand (fuel + 1) s = .ok u s') :
    ∃ e f, Operand s.front e f ∧ s' = s.advance f e.code := by
  simp only [operand, Action.bind_eq_ok] at h
  obtain ⟨paren, s₁, h₁, h⟩ := h
  cases paren with
  | true =>
      obtain ⟨f₁, hf₁, rfl⟩ := symbol_ok h₁
      simp only [if_true, Action.bind_eq_ok] at h
      obtain ⟨_, s₂, h₂, h⟩ := h
      obtain ⟨e, f₂, he, rfl⟩ := ih.expr h₂
      obtain ⟨f₃, hf₃, rfl⟩ := expect_ok h
      exact ⟨e, f₃, .group hf₁ he hf₃, by simp⟩
  | false =>
      obtain ⟨f₁, hf₁, rfl⟩ := symbol_ok_false h₁
      obtain rfl := hf₁.eq_skip
      simp only [Bool.false_eq_true, if_false, Action.bind_eq_ok] at h
      obtain ⟨bracket, s₂, h₂, h⟩ := h
      cases bracket with
      | true =>
          obtain ⟨f₂, hf₂, rfl⟩ := symbol_ok h₂
          simp only [if_true, Action.bind_eq_ok, Action.get_eq_ok] at h
          obtain ⟨_, _, ⟨rfl, rfl⟩, n, s₃, h₃, h⟩ := h
          obtain ⟨es, f₃, hes, rfl, rfl⟩ := ih.exprList h₃
          obtain ⟨hn, rfl⟩ := arrayLiteral_ok h
          exact ⟨.array es, f₃, .array hf₂.of_skip hes hn, by simp [Expr.code]⟩
      | false =>
          obtain ⟨f₂, hf₂, rfl⟩ := symbol_ok_false h₂
          obtain rfl := hf₂.eq_skip
          simp only [Bool.false_eq_true, if_false, Action.bind_eq_ok] at h
          obtain ⟨number, s₃, h₃, h⟩ := h
          simp only [front_advance, Front.skip_skip, advance_advance, List.append_nil] at h₃
          exact operand_token ih h₃ h

theorem wordOperand_succ (ih : EmitsTrees fuel) {f₀ : Front} {w : WordToken} {c : Cursor}
    (hw : f₀.cursor.word = (some w, c)) (hf : s.front = f₀.goto c)
    (h : wordOperand (fuel + 1) w s = .ok u s') :
    ∃ e f, Operand f₀ e f ∧ s' = s.advance f e.code := by
  simp only [wordOperand] at h
  cases hk : Keyword.lookup? w.bytes with
  | some k =>
      obtain ⟨op, cls⟩ := k
      have hcoh := Keyword.coherent_of_lookup? hk
      have hres : Reserved ⟨op, cls⟩ f₀ s.front := hf ▸ .mk hw hk
      cases cls with
      | constant =>
          simp only [hk] at h
          simp only [Keyword.coherent, Bool.or_eq_true, beq_iff_eq] at hcoh
          obtain rfl | rfl := hcoh
          · exact ⟨_, _, .yes hres, emitOp_ok rfl h⟩
          · exact ⟨_, _, .no hres, emitOp_ok rfl h⟩
      | function arity =>
          simp only [hk, Action.bind_eq_ok, Action.ite_eq_ok, failAt_eq_ok, false_and, exists_false,
            and_false, false_or] at h
          obtain ⟨_, s₁, h₁, n, s₂, h₂, hn, h⟩ := h
          obtain ⟨f₁, hf₁, rfl⟩ := expect_ok h₁
          obtain ⟨es, f₂, hes, rfl, rfl⟩ := ih.exprList h₂
          obtain rfl : es.length = arity := by simpa using hn
          have hemit := emitOp_operation (by simpa [Keyword.coherent] using hcoh) h
          exact ⟨.apply op es, f₂, .builtin hres hf₁ hes, by simpa [Expr.code] using hemit⟩
      | command => simp [hk, failAt_eq_ok] at h
      | listCommand => simp [hk, failAt_eq_ok] at h
      | input => simp [hk, failAt_eq_ok] at h
      | control => simp [hk, failAt_eq_ok] at h
  | none =>
      simp only [hk, Action.bind_eq_ok] at h
      obtain ⟨id, s₁, h₁, paren, s₂, h₂, h⟩ := h
      obtain ⟨new, st, hst, rfl⟩ := intern_ok h₁
      have hname : Name f₀ id (s.front.withStore st) := by
        have hstore : f₀.store = s.store := (congrArg Front.store hf).symm
        rw [hf]
        exact .mk hw hk (hstore ▸ hst)
      cases paren with
      | true =>
          obtain ⟨f₂, hf₂, rfl⟩ := symbol_ok h₂
          simp only [if_true, Action.bind_eq_ok, argumentCount_eq_ok] at h
          obtain ⟨n, s₃, h₃, k, _, ⟨hn, rfl, rfl⟩, h⟩ := h
          obtain ⟨es, f₃, hes, rfl, rfl⟩ := ih.exprList h₃
          have hemit := emitCall_ok rfl h
          exact ⟨.call id es, f₃, .call hname hf₂ hes hn, by simpa [Expr.code] using hemit⟩
      | false =>
          obtain ⟨f₂, hf₂, rfl⟩ := symbol_ok_false h₂
          simp only [Bool.false_eq_true, if_false, Action.bind_eq_ok] at h
          obtain ⟨slot, s₃, h₃, h⟩ := h
          obtain ⟨rfl, hslot⟩ := slotOf_resolve h₃
          simp only [advance_advance, List.append_nil, front_advance] at h hslot
          -- Both ways of loading a variable are the load of what its name stands for.
          obtain ⟨s₄, h₄, h⟩ : ∃ s₄, s₄ = s.advance f₂ (Expr.name (f₂.resolve id)).code ∧
              indices fuel s₄ = .ok u s' := by
            cases slot with
            | some k =>
                simp only [Action.bind_eq_ok] at h
                obtain ⟨_, s₄, h₄, h⟩ := h
                exact ⟨s₄, by simpa [hslot, Expr.code, Place.load] using emitOpByte_ok rfl h₄, h⟩
            | none =>
                simp only [Action.bind_eq_ok] at h
                obtain ⟨_, s₄, h₄, h⟩ := h
                exact ⟨s₄, by simpa [hslot, Expr.code, Place.load] using emitOpWord_ok rfl h₄, h⟩
          obtain ⟨f₃, post, rfl, hidx⟩ := ih.indices h
          obtain ⟨e', he', hcode⟩ := hidx (.name (f₂.resolve id))
          rw [h₄, front_advance] at he'
          exact ⟨e', f₃, .variable hname hf₂ he', by simp [h₄, hcode]⟩

theorem exprList_succ (ih : EmitsTrees fuel) {close : UInt8} {n : Nat}
    (h : exprList (fuel + 1) close s = .ok n s') :
    ∃ es f, Listed close s.front es f ∧ n = es.length ∧ s' = s.advance f (Expr.codeAll es) := by
  simp only [exprList, Action.bind_eq_ok] at h
  obtain ⟨closed, s₁, h₁, h⟩ := h
  cases closed with
  | true =>
      obtain ⟨f₁, hf₁, rfl⟩ := symbol_ok h₁
      simp only [if_true, Action.pure_eq_ok] at h
      obtain ⟨rfl, rfl⟩ := h
      exact ⟨[], f₁, .none hf₁, rfl, rfl⟩
  | false =>
      obtain ⟨f₁, hf₁, rfl⟩ := symbol_ok_false h₁
      simp only [Bool.false_eq_true, if_false] at h
      obtain ⟨e, es, f₂, hes, rfl, rfl⟩ := ih.exprListFrom h
      exact ⟨e :: es, f₂, .some hf₁ hes, by simp, by simp⟩

theorem exprListFrom_succ (ih : EmitsTrees fuel) {close : UInt8} {n₀ n : Nat}
    (h : exprListFrom (fuel + 1) close n₀ s = .ok n s') :
    ∃ e es f, ListedFrom close s.front e es f ∧ n = n₀ + (es.length + 1) ∧
      s' = s.advance f (Expr.codeAll (e :: es)) := by
  simp only [exprListFrom, Action.bind_eq_ok] at h
  obtain ⟨_, s₁, h₁, comma, s₂, h₂, h⟩ := h
  obtain ⟨e, f₁, he, rfl⟩ := ih.expr h₁
  cases comma with
  | true =>
      obtain ⟨f₂, hf₂, rfl⟩ := symbol_ok h₂
      simp only [if_true] at h
      obtain ⟨e', es, f₃, hes, rfl, rfl⟩ := ih.exprListFrom h
      exact ⟨e, e' :: es, f₃, .more he hf₂ hes, by simp only [List.length_cons]; omega,
        by simp [Expr.codeAll]⟩
  | false =>
      obtain ⟨f₂, hf₂, rfl⟩ := symbol_ok_false h₂
      simp only [Bool.false_eq_true, if_false, Action.bind_eq_ok, Action.pure_eq_ok] at h
      obtain ⟨_, s₃, h₃, rfl, rfl⟩ := h
      obtain ⟨f₃, hf₃, rfl⟩ := expect_ok h₃
      exact ⟨e, [], f₃, .last he hf₂ hf₃, by simp, by simp [Expr.codeAll]⟩

theorem indices_succ (ih : EmitsTrees fuel) (h : indices (fuel + 1) s = .ok u s') :
    ∃ f post, s' = s.advance f post ∧
      ∀ e, ∃ e', Indexed e s.front e' f ∧ e'.code = e.code ++ post := by
  simp only [indices, Action.bind_eq_ok] at h
  obtain ⟨bracket, s₁, h₁, h⟩ := h
  cases bracket with
  | false =>
      obtain ⟨f₁, hf₁, rfl⟩ := symbol_ok_false h₁
      simp only [Bool.false_eq_true, if_false, Action.pure_eq_ok] at h
      exact ⟨f₁, [], h.2.symm, fun e => ⟨e, .done hf₁, by simp⟩⟩
  | true =>
      obtain ⟨f₁, hf₁, rfl⟩ := symbol_ok h₁
      simp only [if_true, Action.bind_eq_ok] at h
      obtain ⟨_, s₂, h₂, colon, s₃, h₃, h⟩ := h
      obtain ⟨i, f₂, hi, rfl⟩ := ih.expr h₂
      cases colon with
      | true =>
          obtain ⟨f₃, hf₃, rfl⟩ := symbol_ok h₃
          simp only [if_true, Action.bind_eq_ok] at h
          obtain ⟨_, s₄, h₄, _, s₅, h₅, _, s₆, h₆, h⟩ := h
          obtain ⟨j, f₄, hj, rfl⟩ := ih.expr h₄
          obtain ⟨f₅, hf₅, rfl⟩ := expect_ok h₅
          obtain rfl := emitOp_ok rfl h₆
          obtain ⟨f₆, post, rfl, hpost⟩ := ih.indices h
          refine ⟨f₆, i.code ++ j.code ++ [.plain .slice] ++ post, by simp, fun e => ?_⟩
          obtain ⟨e', he', hcode⟩ := hpost (.apply .slice [e, i, j])
          exact ⟨e', .range hf₁ hi hf₃ hj hf₅ he', by simp [hcode, Expr.code, Expr.codeAll]⟩
      | false =>
          obtain ⟨f₃, hf₃, rfl⟩ := symbol_ok_false h₃
          simp only [Bool.false_eq_true, if_false, Action.bind_eq_ok] at h
          obtain ⟨_, s₄, h₄, _, s₅, h₅, h⟩ := h
          obtain ⟨f₄, hf₄, rfl⟩ := expect_ok h₄
          obtain rfl := emitOp_ok rfl h₅
          obtain ⟨f₅, post, rfl, hpost⟩ := ih.indices h
          refine ⟨f₅, i.code ++ [.plain .index] ++ post, by simp, fun e => ?_⟩
          obtain ⟨e', he', hcode⟩ := hpost (.apply .index [e, i])
          exact ⟨e', .index hf₁ hi hf₃ hf₄ he', by simp [hcode, Expr.code, Expr.codeAll]⟩

end

theorem emitsTrees (fuel : Nat) : EmitsTrees fuel := by
  induction fuel with
  | zero =>
      constructor
      all_goals intros; rename_i h
      · simp [expr, failHere_eq_ok] at h
      · simp [operands, failHere_eq_ok] at h
      · simp [operand, failHere_eq_ok] at h
      · simp [wordOperand, failHere_eq_ok] at h
      · simp [exprList, failHere_eq_ok] at h
      · simp [exprListFrom, failHere_eq_ok] at h
      · simp [indices, failHere_eq_ok] at h
  | succ fuel ih =>
      exact ⟨expr_succ ih, operands_succ ih, operand_succ ih, wordOperand_succ ih,
        exprList_succ ih, exprListFrom_succ ih, indices_succ ih⟩

/-- A compiled expression stands in the text as a tree, and its code has been emitted. -/
theorem expression_ok {s s' : Compiler} {u : Unit} (h : expression s = .ok u s') :
    ∃ e f, Expression s.front e f ∧ s' = s.advance f e.code := by
  simp only [expression, Action.bind_eq_ok, Action.get_eq_ok] at h
  obtain ⟨_, _, ⟨rfl, rfl⟩, h⟩ := h
  exact (emitsTrees _).expr h

end Compiler

end CellScript
