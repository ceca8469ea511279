import CellScript.Proofs.Twins

/-!
Compilations side by side.

Every function of the compiler does the same on twin texts. Each lemma says so of
one function and follows from those of the functions that it calls. Where a
function recurs, its fuel on either side covers the bytes that are left there: an
expression spends at most eight calls on a byte, and the loops one turn. So neither
side runs out of fuel, and both may have any amount above that.
-/

namespace CellScript

namespace Twins

open Compiler Ascii

variable {τ : Twins} {α : Type} {k l : Nat} {Q : α → α → Compiler → Compiler → Prop}

/-- A step that does the same on both sides. -/
abbrev Agrees (τ : Twins) (k l : Nat) (x y : Compile α) : Prop :=
  τ.Couples (τ.Like k l) x y (τ.Gives k l)

/-- What stays near stays within wider bounds. -/
theorem Couples.widen {P : Compiler → Compiler → Prop} {k' l' : Nat} {x y : Compile α}
    (h : τ.Couples P x y (τ.Gives k' l')) (hk : k' ≤ k) (hl : l' ≤ l) :
    τ.Couples P x y (τ.Gives k l) :=
  ⟨h.onward, fun hst => (h.outcome hst).mono fun ⟨he, hlike⟩ => ⟨he, hlike.mono hk hl⟩⟩

theorem alike_failWanting (wanted : Wanted) :
    τ.Couples (τ.Like k l) (failWanting wanted : Compile α) (failWanting wanted) Q :=
  alike_atEnd (alike_failHere (by simp)) (alike_failHere (by simp))

theorem alike_expect {b : UInt8} (hb : joins b = true ∨ b = Symbol.semicolon) :
    τ.Couples (τ.Like k l) (expect b) (expect b) (τ.Gives (k - 1) (l - 1)) :=
  .symbol_ite hb (.pure _) (alike_failWanting _)

/-! ### Words -/

/-- Words are spelled the same. -/
abbrev SameWord (w v : WordToken) : Prop := v.bytes = w.bytes

theorem SameWord.text {w v : WordToken} (h : SameWord w v) : v.text = w.text :=
  congrArg Ascii.text h

theorem length_word (c : Cursor) :
    c.word.2.rest.length + 1 * c.word.1.isSome.toNat ≤ c.rest.length := by
  have hskip := (Cursor.onward_skipBlank c).suffix.length_le
  simp only [Cursor.word]
  split
  · rename_i hstart
    cases hrest : c.skipBlank.rest with
    | nil => simp [hrest] at hstart
    | cons b bs =>
        have hb : isWordByte b = true := by
          rw [hrest] at hstart
          simpa [isWordByte] using Or.inl hstart
        simp only [hrest, Cursor.advance, List.takeWhile_cons, hb, if_true, List.length_cons,
          List.drop_succ_cons, List.length_drop] at hskip ⊢
        simp
        omega
  · simpa using hskip

theorem alike_readWord :
    τ.Couples (τ.Like k l) (read Cursor.word) (read Cursor.word) fun a b s t =>
      Option.Rel τ.Word a b ∧ τ.Like (k - 1 * a.isSome.toNat) (l - 1 * b.isSome.toNat) s t :=
  .read recognizes_word Cursor.onward_word (fun o => 1 * o.isSome.toNat) length_word

/-- What a word begins depends on its spelling. -/
theorem Couples.word {f g : Option WordToken → Compile α}
    (hnone : τ.Couples (τ.Like k l) (f none) (g none) Q)
    (hsome : ∀ w v, SameWord w v → τ.Couples (τ.Like (k - 1) (l - 1)) (f (some w)) (g (some v)) Q) :
    τ.Couples (τ.Like k l) (Compiler.read Cursor.word >>= f)
      (Compiler.read Cursor.word >>= g) Q := by
  refine Couples.found (V := SameWord) (n := 1) ?_ (fun _ => rfl) hnone hsome
  refine ⟨onward_word, fun h => ((alike_readWord).outcome h).mono ?_⟩
  rintro a b s t ⟨hrel, hst⟩
  refine ⟨?_, hst⟩
  cases hrel with
  | none => exact .none
  | some hword => exact .some hword.1

/-- A name is read, and the text goes on behind it. -/
theorem Couples.name {wanted : Wanted} {f g : WordToken → Compile α}
    (h : ∀ w v, SameWord w v → τ.Couples (τ.Like (k - 1) (l - 1)) (f w) (g v) Q) :
    τ.Couples (τ.Like k l) (Compiler.name wanted >>= f) (Compiler.name wanted >>= g) Q := by
  have hname : τ.Couples (τ.Like k l) (Compiler.name wanted) (Compiler.name wanted) fun w v s t =>
      SameWord w v ∧ τ.Like (k - 1) (l - 1) s t := by
    unfold Compiler.name
    refine .word (alike_failWanting _) fun w v hw => ?_
    simp only [SameWord.text hw, show v.bytes = w.bytes from hw]
    refine .ite (.bind (Q := fun _ _ _ _ => False) (alike_failAt (by simp)) fun _ _ => ?_) ?_
    · exact ⟨.pure _, False.elim⟩
    · exact ⟨.pure _, fun hst => .ok ⟨hw, hst⟩⟩
  refine hname.bind fun w v => ⟨(h w w rfl).onward, ?_⟩
  rintro s t ⟨hw, hst⟩
  exact (h w v hw).outcome hst

/-! ### Code, names and stacks -/

theorem alike_onCode (act : CodeBuffer.Action α) : τ.Agrees k l (onCode act) (onCode act) := by
  refine ⟨onward_onCode act, fun {s t} h => ?_⟩
  simp only [onCode, h.code]
  cases act s.code with
  | ok a code => exact .ok ⟨rfl, { h with code := rfl }⟩
  | error e code => exact .error rfl (by simp [Cursor.error])

theorem alike_onStore (act : EStateM Heap.Error Store α) :
    τ.Agrees k l (onStore act) (onStore act) := by
  refine ⟨onward_onStore act, fun {s t} h => ?_⟩
  simp only [onStore, h.store]
  cases act s.store with
  | ok a st => exact .ok ⟨rfl, { h with store := rfl }⟩
  | error e st => exact .error rfl (by simp [Cursor.error])

theorem alike_emitOp (op : Opcode) : τ.Agrees k l (emitOp op) (emitOp op) := alike_onCode _

theorem alike_emitOpByte (op : Opcode) (b : UInt8) :
    τ.Agrees k l (emitOpByte op b) (emitOpByte op b) :=
  .andThen (alike_onCode _) fun _ => alike_onCode _

theorem alike_emitOpWord (op : Opcode) (w : UInt16) :
    τ.Agrees k l (emitOpWord op w) (emitOpWord op w) :=
  .andThen (alike_onCode _) fun _ => alike_onCode _

theorem alike_emitCall (op : Opcode) (n : UInt8) (id : Ident) :
    τ.Agrees k l (emitCall op n id) (emitCall op n id) :=
  .andThen (alike_onCode _) fun _ => .andThen (alike_onCode _) fun _ => alike_onCode _

theorem alike_intern (bs : List UInt8) : τ.Agrees k l (intern bs) (intern bs) :=
  .andThen (alike_onStore _) fun _ => .pure _

theorem alike_valueOf (id : Ident) : τ.Agrees k l (valueOf id) (valueOf id) := by
  exact .state (fun _ _ h => by rw [h.store]) fun _ => .pure _

theorem alike_slotOf (id : Ident) : τ.Agrees k l (slotOf id) (slotOf id) := by
  refine ⟨onward_slotOf id, fun {s t} h => ?_⟩
  simp only [slotOf, bind, EStateM.bind, Action.get_apply, h.body, h.store]
  cases s.body with
  | none => exact .ok ⟨rfl, h⟩
  | some body => exact .ok ⟨rfl, h⟩

theorem alike_argumentCount (n : Nat) {w v : WordToken} (hw : SameWord w v) :
    τ.Agrees k l (argumentCount n w) (argumentCount n v) := by
  unfold argumentCount
  rw [SameWord.text hw]
  exact .ite (.pure _) (alike_failAt (by simp))

theorem alike_modifyHeap (f : Heap → Heap) : τ.Agrees k l (modifyHeap f) (modifyHeap f) :=
  .modify (fun _ => rfl) fun _ _ h => { h with store := by simp only [h.store] }

/-- Something is pushed onto a stack that is the same on both sides. -/
theorem alike_push {β : Type} (stack : Compiler → BoundedStack β) (item : Compiler → β)
    (enter : Compiler → BoundedStack β → Compiler) (bound : Bound) {push : Compile Unit}
    (hpush : ∀ s, push s = ((stack s).push? (item s)).elim
      (.error (s.cursor.error (.tooComplex bound)) s) fun st => .ok () (enter s st))
    (hstack : ∀ {s t}, τ.Like k l s t → stack t = stack s)
    (hitem : ∀ {s t}, τ.Like k l s t → item t = item s)
    (henter : ∀ {s t} st, τ.Like k l s t → τ.Like k l (enter s st) (enter t st))
    (hcursor : ∀ s st, (enter s st).cursor = s.cursor) : τ.Agrees k l push push := by
  refine ⟨fun s a s' hok => ?_, fun {s t} h => ?_⟩
  · rw [hpush] at hok
    cases hst : (stack s).push? (item s) with
    | none =>
        rw [hst] at hok
        cases hok
    | some st =>
        rw [hst] at hok
        cases hok
        rw [hcursor]
        exact .refl _
  · rw [hpush, hpush, hstack h, hitem h]
    cases (stack s).push? (item s) with
    | none => exact .error rfl (by simp [Cursor.error])
    | some st => exact .ok ⟨rfl, henter st h⟩

theorem alike_pushPending (p : Pending) : τ.Agrees k l (pushPending p) (pushPending p) :=
  alike_push pending (fun _ => p) (fun s pending => { s with pending }) .pending
    (fun s => by unfold pushPending; split <;> simp [*]) Like.pending
    (fun _ => rfl) (fun _ h => { h with pending := rfl }) fun _ _ => rfl

theorem alike_pushForward (f : Fixup) : τ.Agrees k l (pushForward f) (pushForward f) :=
  alike_push forward (fun _ => f) (fun s forward => { s with forward }) .jumps
    (fun s => by unfold pushForward; split <;> simp [*]) Like.forward
    (fun _ => rfl) (fun _ h => { h with forward := rfl }) fun _ _ => rfl

theorem alike_pushLoopStart (offset : Nat) :
    τ.Agrees k l (pushLoopStart offset) (pushLoopStart offset) :=
  alike_push loopStarts (fun _ => offset) (fun s loopStarts => { s with loopStarts }) .loops
    (fun s => by unfold pushLoopStart; split <;> simp [*]) Like.loopStarts
    (fun _ => rfl) (fun _ h => { h with loopStarts := rfl }) fun _ _ => rfl

theorem alike_saveExits : τ.Agrees k l saveExits saveExits :=
  alike_push savedExits exitCount (fun s savedExits => { s with savedExits, exitCount := 0 }) .loops
    (fun s => by unfold saveExits; split <;> simp [*]) Like.savedExits
    Like.exitCount (fun _ h => { h with savedExits := rfl, exitCount := rfl }) fun _ _ => rfl

theorem alike_pushLoopExit (f : Fixup) : τ.Agrees k l (pushLoopExit f) (pushLoopExit f) :=
  alike_push loopExits (fun _ => f)
    (fun s loopExits => { s with loopExits, exitCount := s.exitCount + 1 }) .jumps
    (fun s => by unfold pushLoopExit; split <;> simp [*]) Like.loopExits
    (fun _ => rfl) (fun _ h => { h with loopExits := rfl, exitCount := by simp only [h.exitCount] })
    fun _ _ => rfl

/-- The words of open blocks may stand at different offsets. -/
theorem alike_pushBlock (c : Construct) (w v : WordToken) :
    τ.Agrees k l (pushBlock c w) (pushBlock c v) := by
  refine ⟨fun s a s' hok => ?_, fun {s t} h => ?_⟩
  · unfold pushBlock at hok
    split at hok
    · cases hok
      exact .refl _
    · cases hok
  · have hsize : t.blocks.size = s.blocks.size := by
      simpa [BoundedStack.size] using congrArg List.length h.blocks
    simp only [pushBlock, BoundedStack.push?, hsize, h.depth]
    split
    · rename_i hs
      split at hs
      · cases hs
      · rename_i hroom
        cases hs
        simp only [if_neg hroom]
        exact .ok ⟨rfl, { h with depth := rfl, blocks := by simp [h.blocks] }⟩
    · rename_i hs
      split at hs
      · rename_i hfull
        simp only [if_pos hfull]
        exact .error rfl (by simp [Cursor.error])
      · cases hs

/-! ### Expressions -/

theorem alike_flush (incoming : Option Nat) (n : Nat) :
    τ.Agrees k l (flush incoming n) (flush incoming n) := by
  induction n with
  | zero => exact .pure _
  | succ n ih =>
      refine ⟨onward_flush incoming (n + 1), fun {s t} h => ?_⟩
      simp only [flush, bind, EStateM.bind, Action.get_apply, h.pending]
      cases s.pending.top? with
      | none => exact .ok ⟨rfl, h⟩
      | some p =>
          have hpop : τ.Agrees k l (modify fun s : Compiler => { s with pending := s.pending.pop })
              (modify fun s : Compiler => { s with pending := s.pending.pop }) :=
            .modify (fun _ => rfl) fun _ _ h => { h with pending := by simp only [h.pending] }
          cases p with
          | mark => exact (Couples.ite hpop (.pure _)).outcome h
          | operator op prec =>
              refine (Couples.ite (.pure _) ?_).outcome h
              exact hpop.andThen fun _ => (alike_emitOp op).andThen fun _ => ih

/-- The operators that wait are as many on both sides. -/
theorem alike_flushAll (incoming : Option Nat) :
    τ.Agrees k l (do flush incoming ((← get).pending.size + 1))
      (do flush incoming ((← get).pending.size + 1)) := by
  exact .state (fun _ _ h => by rw [h.pending]) fun _ => alike_flush _ _

theorem length_operator {table : List Operator.Row} (hr : Operator.Readable table) (c : Cursor) :
    (c.operator table).2.rest.length + 1 * (c.operator table).1.isSome.toNat ≤ c.rest.length := by
  have hskip := (Cursor.onward_skipBlank c).suffix.length_le
  simp only [Cursor.operator]
  split
  · rename_i o n hfound
    obtain ⟨_, r, _, htable, -, hfits, -, rfl⟩ := Operator.match?_eq_some.1 hfound
    have hne := hr.nonempty r (by simp [htable])
    have hpos := List.length_pos_iff.2 hne
    obtain ⟨text, rest, happ, hspells, -⟩ := Operator.Row.fits_iff.1 hfits
    have hlength := hspells.length
    rw [happ] at hskip
    simp only [Cursor.advance, happ, ← hlength, List.drop_left, List.length_append,
      Option.isSome_some, Bool.toNat_true] at hskip ⊢
    omega
  · simpa using hskip

theorem length_unaryOperator (c : Cursor) :
    c.unaryOperator.2.rest.length + 1 * c.unaryOperator.1.isSome.toNat ≤ c.rest.length := by
  have hskip := (Cursor.onward_skipBlank c).suffix.length_le
  simp only [Cursor.unaryOperator]
  split
  · simpa using hskip
  · exact Nat.le_trans (length_operator Operator.readable_unary c.skipBlank) hskip

/-- An operator is pushed, or there is none. -/
theorem Couples.operator {f : Cursor → Option OperatorToken × Cursor}
    (hf : τ.Recognizes (Option.Rel SameOperator) f) (ho : ∀ c : Cursor, c.Onward (f c).2)
    (hlength : ∀ c : Cursor, (f c).2.rest.length + 1 * (f c).1.isSome.toNat ≤ c.rest.length)
    {x y : Option OperatorToken → Compile α}
    (hnone : τ.Couples (τ.Like k l) (x none) (y none) Q)
    (hsome : ∀ t u, SameOperator t u →
      τ.Couples (τ.Like (k - 1) (l - 1)) (x (some t)) (y (some u)) Q) :
    τ.Couples (τ.Like k l) (Compiler.read f >>= x) (Compiler.read f >>= y) Q :=
  .found (V := SameOperator) (n := 1) (.read hf ho (fun o => 1 * o.isSome.toNat) hlength)
    (fun _ => rfl) hnone hsome

/-- Each operator takes a byte at least. -/
theorem alike_unaryOperators {n m : Nat} (hn : k ≤ n) (hm : l ≤ m) :
    τ.Agrees k l (unaryOperators n) (unaryOperators m) := by
  induction n generalizing k l m with
  | zero => exact .never (onward_unaryOperators 0) fun h => by have := h.leftRest; omega
  | succ n ih =>
      cases m with
      | zero => exact .never (onward_unaryOperators _) fun h => by have := h.rightRest; omega
      | succ m =>
          rw [unaryOperators, unaryOperators]
          refine .operator recognizes_unaryOperator Cursor.onward_unaryOperator length_unaryOperator
            (.pure _) fun t u htu => ?_
          simp only [show u.operator = t.operator from htu]
          refine .andThen (alike_pushPending _) fun _ => ?_
          have hrest := ih (k := k - 1) (l := l - 1) (m := m) (by omega) (by omega)
          exact hrest.widen (by omega) (by omega)

theorem alike_numberLiteral (n : Number) :
    τ.Agrees k l (numberLiteral n) (numberLiteral n) := by
  cases n with
  | int n => exact alike_emitOpWord _ _
  | float x => exact alike_emitOpWord _ _

theorem alike_stringLiteral (t : StringToken) :
    τ.Agrees k l (stringLiteral t) (stringLiteral t) := by
  cases t with
  | empty => exact alike_emitOp _
  | char c => exact alike_emitOpByte _ _
  | long start raw length => exact .andThen (alike_onStore _) fun _ => alike_emitOpWord _ _

theorem alike_arrayLiteral (start start' n : Nat) :
    τ.Agrees k l (arrayLiteral start n) (arrayLiteral start' n) := by
  refine .ite (.get_bind fun s t => ?_) (alike_emitOpByte _ _)
  exact .andThen (k := k) (l := l) (.throw rfl (by simp)) fun _ => alike_emitOpByte _ _

/-- The functions for expressions agree, given fuel for the bytes that are left. -/
structure AgreesAt (τ : Twins) (n m : Nat) : Prop where
  expr : ∀ {k l}, 8 * k ≤ n + 5 → 8 * l ≤ m + 5 → τ.Agrees k l (expr n) (expr m)
  operands : ∀ {k l}, 8 * k ≤ n + 6 → 8 * l ≤ m + 6 → τ.Agrees k l (operands n) (operands m)
  operand : ∀ {k l}, 8 * k ≤ n + 7 → 8 * l ≤ m + 7 → τ.Agrees k l (operand n) (operand m)
  wordOperand : ∀ {k l w v}, 8 * k ≤ n + 6 → 8 * l ≤ m + 6 → SameWord w v →
    τ.Agrees k l (wordOperand n w) (wordOperand m v)
  exprList : ∀ {k l close}, 8 * k ≤ n + 3 → 8 * l ≤ m + 3 → joins close = true →
    τ.Agrees k l (exprList n close) (exprList m close)
  exprListFrom : ∀ {k l close} count, 8 * k ≤ n + 4 → 8 * l ≤ m + 4 → joins close = true →
    τ.Agrees k l (exprListFrom n close count) (exprListFrom m close count)
  indices : ∀ {k l}, 8 * k ≤ n + 7 → 8 * l ≤ m + 7 → τ.Agrees k l (indices n) (indices m)

namespace AgreesAt

variable {n m : Nat} (ih : τ.AgreesAt n m)

include ih

theorem operands_succ (hn : 8 * k ≤ n + 7) (hm : 8 * l ≤ m + 7) :
    τ.Agrees k l (Compiler.operands (n + 1)) (Compiler.operands (m + 1)) := by
  rw [Compiler.operands, Compiler.operands]
  refine .andThen (alike_unaryOperators (by omega) (by omega)) fun _ =>
    .andThen (ih.operand hn hm) fun _ => ?_
  refine .operator (recognizes_operator Operator.joins_binary)
    (Cursor.onward_operator Operator.joins_binary) (length_operator Operator.readable_binary)
    (alike_flushAll none) fun t u htu => ?_
  simp only [show u.operator = t.operator from htu]
  refine .state (fun _ _ h => by rw [h.pending]) fun s => ?_
  refine .andThen (alike_flush _ _) fun _ => .andThen (alike_pushPending _) fun _ => ?_
  exact (ih.operands (by omega) (by omega)).widen (by omega) (by omega)

theorem operand_succ (hn : 8 * k ≤ n + 8) (hm : 8 * l ≤ m + 8) :
    τ.Agrees k l (Compiler.operand (n + 1)) (Compiler.operand (m + 1)) := by
  rw [Compiler.operand, Compiler.operand]
  refine .symbol_ite (.inl (by decide)) ?_ (.symbol_ite (.inl (by decide)) ?_ ?_)
  · refine .andThen (ih.expr (by omega) (by omega)) fun _ => ?_
    exact (alike_expect (.inl (by decide))).widen (by omega) (by omega)
  · refine .get_bind fun s t => ?_
    refine .andThen (ih.exprList (by omega) (by omega) (by decide)) fun _ => ?_
    exact (alike_arrayLiteral _ _ _).widen (by omega) (by omega)
  refine .found (V := SameNumber) (k := k) (l := l) (n := 0) ?_ (fun _ => rfl) ?_ fun t u htu => ?_
  · simpa using Couples.tryRead attempts_number Cursor.onward_number
  · refine .found (V := SameString) (k := k) (l := l) (n := 0) ?_ (fun _ => rfl) ?_
      fun t u htu => ?_
    · simpa using Couples.tryRead attempts_string Cursor.onward_string
    · refine .word ?_ fun w v hw => ?_
      · exact alike_atEnd (alike_failHere (by simp)) (alike_failHere (by simp))
      · exact (ih.wordOperand (by omega) (by omega) hw).widen (by omega) (by omega)
    · dsimp only
      rw [show stringLiteral u = stringLiteral t from htu]
      exact alike_stringLiteral t
  · dsimp only
    rw [show u.value = t.value from htu]
    exact alike_numberLiteral _

theorem wordOperand_succ {w v : WordToken} (hn : 8 * k ≤ n + 7) (hm : 8 * l ≤ m + 7)
    (hw : SameWord w v) :
    τ.Agrees k l (Compiler.wordOperand (n + 1) w) (Compiler.wordOperand (m + 1) v) := by
  rw [Compiler.wordOperand, Compiler.wordOperand, show v.bytes = w.bytes from hw,
    SameWord.text hw]
  split
  · exact alike_emitOp _
  · refine .andThen (alike_expect (.inl (by decide))) fun _ => ?_
    refine .andThen (ih.exprList (by omega) (by omega) (by decide)) fun count => .ite ?_ ?_
    · exact .andThen (k := k) (l := l) (alike_failAt (by simp)) fun _ => alike_emitOp _
    · exact (alike_emitOp _).widen (by omega) (by omega)
  · exact alike_failAt (by simp)
  · refine .andThen (alike_intern _) fun id => .symbol_ite (.inl (by decide)) ?_ ?_
    · refine .andThen (ih.exprList (by omega) (by omega) (by decide)) fun count => ?_
      refine .andThen (alike_argumentCount count hw) fun _ => ?_
      exact (alike_emitCall _ _ _).widen (by omega) (by omega)
    · refine .andThen (alike_slotOf id) fun slot => ?_
      cases slot with
      | some slot => exact .andThen (alike_emitOpByte _ _) fun _ => ih.indices hn hm
      | none => exact .andThen (alike_emitOpWord _ _) fun _ => ih.indices hn hm

theorem exprListFrom_succ {close : UInt8} (count : Nat) (hn : 8 * k ≤ n + 5) (hm : 8 * l ≤ m + 5)
    (hc : joins close = true) :
    τ.Agrees k l (Compiler.exprListFrom (n + 1) close count)
      (Compiler.exprListFrom (m + 1) close count) := by
  rw [Compiler.exprListFrom, Compiler.exprListFrom]
  refine .andThen (ih.expr hn hm) fun _ => .symbol_ite (.inl (by decide)) ?_ ?_
  · exact (ih.exprListFrom _ (by omega) (by omega) hc).widen (by omega) (by omega)
  · exact .andThen (alike_expect (.inl hc)) fun _ => (Couples.pure _).widen (by omega) (by omega)

theorem indices_succ (hn : 8 * k ≤ n + 8) (hm : 8 * l ≤ m + 8) :
    τ.Agrees k l (Compiler.indices (n + 1)) (Compiler.indices (m + 1)) := by
  rw [Compiler.indices, Compiler.indices]
  refine .symbol_ite (.inl (by decide)) ?_ (.pure _)
  refine .andThen (ih.expr (by omega) (by omega)) fun _ => .symbol_ite (.inl (by decide)) ?_ ?_
  · refine .andThen (ih.expr (by omega) (by omega)) fun _ => ?_
    refine .andThen (alike_expect (.inl (by decide))) fun _ => .andThen (alike_emitOp _) fun _ => ?_
    exact (ih.indices (by omega) (by omega)).widen (by omega) (by omega)
  · refine .andThen (alike_expect (.inl (by decide))) fun _ => .andThen (alike_emitOp _) fun _ => ?_
    exact (ih.indices (by omega) (by omega)).widen (by omega) (by omega)

theorem succ : τ.AgreesAt (n + 1) (m + 1) where
  expr hn hm := by
    rw [Compiler.expr, Compiler.expr]
    exact .andThen (alike_pushPending _) fun _ => ih.operands hn hm
  operands := ih.operands_succ
  operand := ih.operand_succ
  wordOperand := ih.wordOperand_succ
  exprList hn hm hc := by
    rw [Compiler.exprList, Compiler.exprList]
    refine .symbol_ite (.inl hc) ?_ (ih.exprListFrom 0 hn hm hc)
    exact (Couples.pure _).widen (by omega) (by omega)
  exprListFrom := ih.exprListFrom_succ
  indices := ih.indices_succ

end AgreesAt

/-- Without fuel on one side there is nothing to read on that side. -/
theorem agreesAt_zero {n m : Nat} (h : n = 0 ∨ m = 0) : τ.AgreesAt n m := by
  have hno {k l r : Nat} (hr : r < 8) (hn : 8 * k ≤ n + r) (hm : 8 * l ≤ m + r) (s t : Compiler) :
      ¬ τ.Like k l s t := by
    intro hlike
    have := hlike.leftRest
    have := hlike.rightRest
    omega
  constructor
  · exact fun hn hm => .never (onwardAt n).expr fun h => hno (by decide) hn hm _ _ h
  · exact fun hn hm => .never (onwardAt n).operands fun h => hno (by decide) hn hm _ _ h
  · exact fun hn hm => .never (onwardAt n).operand fun h => hno (by decide) hn hm _ _ h
  · exact fun hn hm _ => .never ((onwardAt n).wordOperand _) fun h => hno (by decide) hn hm _ _ h
  · exact fun hn hm _ => .never ((onwardAt n).exprList _) fun h => hno (by decide) hn hm _ _ h
  · exact fun _ hn hm _ => .never ((onwardAt n).exprListFrom _ _) fun h =>
      hno (by decide) hn hm _ _ h
  · exact fun hn hm => .never (onwardAt n).indices fun h => hno (by decide) hn hm _ _ h

theorem agreesAt (n m : Nat) : τ.AgreesAt n m := by
  induction n generalizing m with
  | zero => exact agreesAt_zero (.inl rfl)
  | succ n ih =>
      cases m with
      | zero => exact agreesAt_zero (.inr rfl)
      | succ m => exact (ih m).succ

/-- A loop with fuel by the bytes that are left on either side. -/
theorem alike_loop (x : Nat → Compile α) (fuel : Nat → Nat)
    (hx : ∀ k l, τ.Agrees (k + 1) (l + 1) (x (fuel k)) (x (fuel l))) :
    τ.Agrees k l (do x (fuel (← get).cursor.rest.length))
      (do x (fuel (← get).cursor.rest.length)) := by
  refine ⟨.get_bind fun s => (hx _ 0).onward, fun {s t} h => ?_⟩
  have hnear : τ.Like (s.cursor.rest.length + 1) (t.cursor.rest.length + 1) s t :=
    { h with leftRest := Nat.lt_succ_self _, rightRest := Nat.lt_succ_self _ }
  exact ((hx _ _).outcome hnear).mono fun ⟨he, hlike⟩ => ⟨he, hlike.mono h.leftRest h.rightRest⟩

/-- Something may follow such a loop. -/
theorem Couples.loop {β : Type} {R : β → β → Compiler → Compiler → Prop} (x : Nat → Compile α)
    (fuel : Nat → Nat) {f g : α → Compile β}
    (hx : ∀ k l, τ.Agrees (k + 1) (l + 1) (x (fuel k)) (x (fuel l)))
    (hf : ∀ a, τ.Couples (τ.Like k l) (f a) (g a) R) :
    τ.Couples (τ.Like k l) (do let s ← get; x (fuel s.cursor.rest.length) >>= f)
      (do let s ← get; x (fuel s.cursor.rest.length) >>= g) R :=
  ⟨.get_bind fun _ => (hx _ 0).onward.bind fun a => (hf a).onward,
    fun h => ((alike_loop x fuel hx).andThen hf).outcome h⟩

theorem alike_expression : τ.Agrees k l expression expression :=
  alike_loop expr (fun n => 8 * (n + 1))
    fun k l => (agreesAt _ _).expr (by omega) (by omega)

/-! ### Storing and listing -/

/-- A guard that only fails. -/
theorem Couples.guarded {P : Compiler → Compiler → Prop} {c : Prop} [Decidable c]
    {x y : Compile Unit} {f g : Unit → Compile α}
    (hx : τ.Couples P x y fun _ _ _ _ => False) (hf : τ.Couples P (f ()) (g ()) Q) :
    τ.Couples P (if c then x >>= f else f ()) (if c then y >>= g else g ()) Q :=
  .ite (hx.bind fun _ _ => ⟨hf.onward, False.elim⟩) hf

theorem alike_redefinition {P : Compiler → Compiler → Prop} (value : Value) {w v : WordToken}
    (hw : SameWord w v) :
    τ.Couples P (redefinition value w : Compile α) (redefinition value v) Q := by
  unfold redefinition
  rw [SameWord.text hw]
  split <;> exact alike_failAt (by simp)

theorem alike_declareLocal (id : Ident) {w v : WordToken} (hw : SameWord w v) :
    τ.Agrees k l (declareLocal id w) (declareLocal id v) := by
  refine .andThen (alike_valueOf id) fun value => .guarded (alike_redefinition value hw) ?_
  refine .state (fun _ _ h => by rw [h.body, h.maxSlots]) fun s => ?_
  cases s.body with
  | none => exact alike_failAt (by simp)
  | some body =>
      refine .guarded (alike_failAt (by simp)) (.andThen (k := k) (l := l) ?_ fun _ =>
        .andThen (alike_modifyHeap _) fun _ => .pure _)
      exact .modify (fun _ => rfl) fun _ _ h => { h with body := rfl }

theorem alike_assign (id : Ident) {w v : WordToken} (hw : SameWord w v) :
    τ.Agrees k l (assign id w) (assign id v) := by
  refine .state (fun _ _ h => by rw [h.body]) fun s => ?_
  cases s.body with
  | none =>
      refine .andThen (alike_valueOf id) fun value => ?_
      exact .guarded (alike_redefinition value hw) (alike_emitOpWord _ _)
  | some body =>
      refine .andThen (alike_slotOf id) fun slot => ?_
      cases slot with
      | some slot => exact alike_emitOpByte _ _
      | none => exact .andThen (alike_declareLocal id hw) fun _ => alike_emitOpByte _ _

theorem alike_atStatementEnd :
    τ.Agrees k l (read Cursor.atStatementEnd) (read Cursor.atStatementEnd) := by
  have hread := Couples.read (k := k) (l := l) (recognizes_atStatementEnd (τ := τ))
    Cursor.onward_skipBlank (fun _ => 0) fun c => (Cursor.onward_skipBlank c).suffix.length_le
  exact ⟨hread.onward, fun h => (hread.outcome h).mono fun ⟨hV, hst⟩ => ⟨hV.symm, hst⟩⟩

theorem alike_argumentsFrom {n m : Nat} (count : Nat) (hn : k ≤ n) (hm : l ≤ m) :
    τ.Agrees k l (argumentsFrom n count) (argumentsFrom m count) := by
  induction n generalizing k l m count with
  | zero => exact .never (onward_argumentsFrom 0 count) fun h => by have := h.leftRest; omega
  | succ n ih =>
      cases m with
      | zero => exact .never (onward_argumentsFrom _ _) fun h => by have := h.rightRest; omega
      | succ m =>
          refine .andThen alike_expression fun _ => .symbol_ite (.inl (by decide)) ?_ (.pure _)
          exact (ih (m := m) _ (by omega) (by omega)).widen (by omega) (by omega)

theorem alike_arguments : τ.Agrees k l arguments arguments := by
  refine .andThen alike_atStatementEnd fun bare => .ite (.pure _) ?_
  exact alike_loop (fun n => argumentsFrom n 0) (fun n => n + 1)
    fun k l => alike_argumentsFrom 0 (by omega) (by omega)

theorem alike_printStatement {w v : WordToken} (hw : SameWord w v) :
    τ.Agrees k l (printStatement w) (printStatement v) :=
  .andThen alike_arguments fun n => .andThen (alike_argumentCount n hw) fun _ =>
    alike_emitOpByte _ _

theorem alike_inputStatement {n m : Nat} (hn : k ≤ n) (hm : l ≤ m) :
    τ.Agrees k l (inputStatement n) (inputStatement m) := by
  induction n generalizing k l m with
  | zero => exact .never (onward_inputStatement 0) fun h => by have := h.leftRest; omega
  | succ n ih =>
      cases m with
      | zero => exact .never (onward_inputStatement _) fun h => by have := h.rightRest; omega
      | succ m =>
          refine .name fun w v hw => ?_
          rw [show v.bytes = w.bytes from hw]
          refine .andThen (alike_intern _) fun id => .andThen (alike_emitOp _) fun _ =>
            .andThen (alike_assign id hw) fun _ => .symbol_ite (.inl (by decide)) ?_ ?_
          · exact (ih (m := m) (by omega) (by omega)).widen (by omega) (by omega)
          · exact (Couples.pure _).widen (by omega) (by omega)

/-! ### Blocks -/

theorem Like.top_blocks {s t : Compiler} (h : τ.Like k l s t) :
    t.blocks.top?.map Block.construct = s.blocks.top?.map Block.construct := by
  simpa [BoundedStack.top?] using congrArg List.head? h.blocks

theorem Like.isEmpty_blocks {s t : Compiler} (h : τ.Like k l s t) :
    t.blocks.isEmpty = s.blocks.isEmpty := by
  simpa [BoundedStack.isEmpty] using congrArg List.isEmpty h.blocks

theorem alike_popBlock {w v : WordToken} (hw : SameWord w v) (opener : Construct)
    (others : List Construct) :
    τ.Agrees k l (popBlock w opener others) (popBlock v opener others) := by
  refine ⟨onward_popBlock w opener others, fun {s t} h => ?_⟩
  have htop := h.top_blocks
  simp only [popBlock, bind, EStateM.bind, Action.get_apply, SameWord.text hw]
  cases hs : s.blocks.top? with
  | none =>
      simp only [hs, Option.map_none, Option.map_eq_none_iff] at htop
      rw [htop]
      exact (alike_failAt (P := τ.Like k l) (by simp)).outcome h
  | some b =>
      simp only [hs, Option.map_some, Option.map_eq_some_iff] at htop
      obtain ⟨b', hb', hconstruct⟩ := htop
      simp only [hb', hconstruct]
      split
      · refine .ok ⟨rfl, { h with depth := h.depth, blocks := ?_ }⟩
        simpa [BoundedStack.pop] using congrArg List.tail h.blocks
      · exact (alike_failAt (P := τ.Like k l) (by simp)).outcome h

theorem alike_popForward : τ.Agrees k l popForward popForward := by
  refine .state (fun _ _ h => by rw [h.forward]) fun s => ?_
  cases s.forward.top? with
  | none => exact alike_failHere (by simp)
  | some f =>
      refine .andThen (k := k) (l := l) (.modify (fun _ => rfl) fun _ _ h => ?_) fun _ => .pure f
      exact { h with forward := by simp only [h.forward] }

theorem alike_beginLoop : τ.Agrees k l beginLoop beginLoop := by
  refine .state (fun _ _ h => by rw [h.code]) fun s => ?_
  exact .andThen (alike_pushLoopStart _) fun _ => alike_saveExits

theorem alike_patchExits (n : Nat) : τ.Agrees k l (patchExits n) (patchExits n) := by
  induction n with
  | zero => exact .pure _
  | succ n ih =>
      refine .state (fun _ _ h => by rw [h.loopExits]) fun s => ?_
      cases s.loopExits.top? with
      | none => exact .pure _
      | some f =>
          refine .andThen (k := k) (l := l) (.modify (fun _ => rfl) fun _ _ h => ?_)
            fun _ => .andThen (alike_onCode _) fun _ => ih
          exact { h with loopExits := by simp only [h.loopExits] }

theorem alike_endLoop (op : Opcode) : τ.Agrees k l (endLoop op) (endLoop op) := by
  refine .state (fun _ _ h => by rw [h.loopStarts]) fun s => ?_
  cases s.loopStarts.top? with
  | none => exact alike_failHere (by simp)
  | some start =>
      refine .andThen (k := k) (l := l) (.modify (fun _ => rfl) fun _ _ h => ?_) fun _ =>
        .andThen (alike_onCode _) fun _ => ?_
      · exact { h with loopStarts := by simp only [h.loopStarts] }
      · refine .state (fun _ _ h => by rw [h.exitCount]) fun s => ?_
        refine .andThen (alike_patchExits _) fun _ => .modify (fun _ => rfl) fun _ _ h => ?_
        exact { h with
          exitCount := by simp only [h.savedExits]
          savedExits := by simp only [h.savedExits] }

theorem alike_ifStatement (w v : WordToken) : τ.Agrees k l (ifStatement w) (ifStatement v) :=
  .andThen (alike_pushBlock _ w v) fun _ => .andThen alike_expression fun _ =>
    .andThen (alike_onCode _) fun f => alike_pushForward f

theorem alike_elseStatement {w v : WordToken} (hw : SameWord w v) :
    τ.Agrees k l (elseStatement w) (elseStatement v) := by
  refine .andThen (alike_popBlock hw _ _) fun _ => .andThen (alike_pushBlock _ w v) fun _ =>
    .andThen alike_popForward fun skip => .state (fun _ _ h => by rw [h.code]) fun s => ?_
  exact .andThen (alike_onCode _) fun _ => .andThen (alike_onCode _) fun f => alike_pushForward f

theorem alike_endifStatement {w v : WordToken} (hw : SameWord w v) :
    τ.Agrees k l (endifStatement w) (endifStatement v) :=
  .andThen (alike_popBlock hw _ _) fun _ => .andThen alike_popForward fun _ => alike_onCode _

theorem alike_whileStatement (w v : WordToken) :
    τ.Agrees k l (whileStatement w) (whileStatement v) :=
  .andThen (alike_pushBlock _ w v) fun _ => .andThen alike_beginLoop fun _ =>
    .andThen alike_expression fun _ => .andThen (alike_onCode _) fun f => alike_pushLoopExit f

theorem alike_wendStatement {w v : WordToken} (hw : SameWord w v) :
    τ.Agrees k l (wendStatement w) (wendStatement v) :=
  .andThen (alike_popBlock hw _ _) fun _ => alike_endLoop _

theorem alike_repeatStatement (w v : WordToken) :
    τ.Agrees k l (repeatStatement w) (repeatStatement v) :=
  .andThen (alike_pushBlock _ w v) fun _ => alike_beginLoop

theorem alike_untilStatement {w v : WordToken} (hw : SameWord w v) :
    τ.Agrees k l (untilStatement w) (untilStatement v) :=
  .andThen (alike_popBlock hw _ _) fun _ => .andThen alike_expression fun _ => alike_endLoop _

theorem alike_breakStatement (w v : WordToken) :
    τ.Agrees k l (breakStatement w) (breakStatement v) := by
  refine .state (fun _ _ h => by rw [h.loopStarts]) fun s => .guarded (alike_failAt (by simp)) ?_
  exact .andThen (alike_onCode _) fun f => alike_pushLoopExit f

/-! ### Bodies -/

theorem alike_parameters {n m : Nat} (hn : k ≤ n) (hm : l ≤ m) :
    τ.Agrees k l (parameters n) (parameters m) := by
  induction n generalizing k l m with
  | zero => exact .never (onward_parameters 0) fun h => by have := h.leftRest; omega
  | succ n ih =>
      cases m with
      | zero => exact .never (onward_parameters _) fun h => by have := h.rightRest; omega
      | succ m =>
          refine .name fun w v hw => ?_
          rw [show v.bytes = w.bytes from hw, SameWord.text hw]
          refine .andThen (alike_intern _) fun id => .andThen (alike_slotOf id) fun slot =>
            .guarded (alike_failAt (by simp)) (.andThen (alike_declareLocal id hw) fun _ => ?_)
          refine .symbol_ite (.inl (by decide)) ?_ ?_
          · exact (ih (m := m) (by omega) (by omega)).widen (by omega) (by omega)
          · exact (Couples.pure _).widen (by omega) (by omega)

theorem alike_parameterList : τ.Agrees k l parameterList parameterList := by
  refine .andThen (alike_expect (.inl (by decide))) fun _ => .symbol_ite (.inl (by decide)) ?_ ?_
  · exact (Couples.pure _).widen (by omega) (by omega)
  · refine Couples.loop parameters (fun n => n + 1)
      (fun k l => alike_parameters (by omega) (by omega)) fun _ => ?_
    exact (alike_expect (.inl (by decide))).widen (by omega) (by omega)

theorem alike_bodyStatement (isFunc : Bool) {w v : WordToken} (hw : SameWord w v) :
    τ.Agrees k l (bodyStatement isFunc w) (bodyStatement isFunc v) := by
  unfold bodyStatement
  rw [SameWord.text hw]
  refine .state (fun _ _ h => by simp only [h.isEmpty_blocks, h.body]) fun s =>
    .guarded (alike_failAt (by simp)) ?_
  refine .andThen (alike_pushBlock _ w v) fun _ => .andThen (alike_onCode _) fun f =>
    .andThen (alike_pushForward f) fun _ => .name fun nw nv hn => ?_
  simp only [show nv.bytes = nw.bytes from hn, SameWord.text hn]
  refine .andThen (alike_intern _) fun id => .andThen (alike_valueOf id) fun value =>
    .guarded (alike_failAt (by simp)) (.state (fun _ _ h => by simp only [h.code]) fun s => ?_)
  refine .guarded (alike_failHere (by simp)) (.andThen (alike_modifyHeap _) fun _ => ?_)
  refine .andThen (k := k) (l := l) (.modify (fun _ => rfl) fun _ _ h => ?_) fun _ =>
    .andThen alike_parameterList fun _ => .state (fun _ _ h => by simp only [h.body]) fun s => ?_
  · exact { h.mono (Nat.sub_le k 1) (Nat.sub_le l 1) with body := rfl }
  · exact alike_modifyHeap _

theorem alike_returnStatement (w v : WordToken) :
    τ.Agrees k l (returnStatement w) (returnStatement v) := by
  refine .state (fun _ _ h => by rw [h.body]) fun s => ?_
  cases s.body with
  | none => exact alike_failAt (by simp)
  | some body =>
      refine .andThen alike_atStatementEnd fun bare => .ite ?_ ?_
      · exact .guarded (alike_failAt (by simp)) (.andThen alike_expression fun _ => alike_emitOp _)
      · exact .ite (alike_emitOp _) (.andThen (k := k) (l := l) (alike_failHere (by simp)) fun _ =>
          alike_emitOp _)

theorem alike_endStatement {w v : WordToken} (hw : SameWord w v) :
    τ.Agrees k l (endStatement w) (endStatement v) := by
  unfold endStatement
  rw [SameWord.text hw]
  refine .andThen (alike_popBlock hw _ _) fun _ => .state (fun _ _ h => by rw [h.body]) fun s => ?_
  cases s.body with
  | none => exact alike_failAt (by simp)
  | some body =>
      refine .andThen (k := k) (l := l) (.modify (fun _ => rfl) fun _ _ h => { h with body := rfl })
        fun _ => .andThen (alike_emitOp _) fun _ => .andThen (alike_modifyHeap _) fun _ => ?_
      exact .andThen alike_popForward fun _ => alike_onCode _

/-! ### Programs -/

theorem alike_controlStatement (op : Opcode) {w v : WordToken} (hw : SameWord w v) :
    τ.Agrees k l (controlStatement op w) (controlStatement op v) := by
  unfold controlStatement
  split
  · exact alike_ifStatement w v
  · exact alike_elseStatement hw
  · exact alike_endifStatement hw
  · exact alike_whileStatement w v
  · exact alike_wendStatement hw
  · exact alike_repeatStatement w v
  · exact alike_untilStatement hw
  · exact alike_breakStatement w v
  · exact alike_bodyStatement true hw
  · exact alike_bodyStatement false hw
  · exact alike_returnStatement w v
  · exact alike_endStatement hw

/-- What a statement enters in the source map corresponds if its word stands at corresponding
places. -/
theorem alike_statementAt {w v : WordToken} (hw : SameWord w v) :
    τ.Couples (fun s t => τ.Like k l s t ∧ τ.Word w v) (statementAt w) (statementAt v)
      (τ.Gives k l) := by
  unfold statementAt
  refine .andThen (k := k) (l := l) (.modify (fun _ => rfl) fun s t h => ?_) fun _ => ?_
  · obtain ⟨h, -, c, d, hcd, hwpos, hvpos, hlength⟩ := h
    refine { h with sourceMap := ?_ }
    simp only [h.left, h.right, h.code, WordToken.stop, hwpos, hvpos,
      show v.bytes = w.bytes from hw]
    exact τ.note _ hcd hlength h.sourceMap
  · rw [show v.bytes = w.bytes from hw, SameWord.text hw]
    split
    · exact alike_emitOp _
    · exact alike_printStatement hw
    · exact alike_loop inputStatement (fun n => n + 1)
        fun k l => alike_inputStatement (by omega) (by omega)
    · exact alike_controlStatement _ hw
    · exact alike_failAt (by simp)
    · refine .andThen (alike_intern _) fun id => .symbol_ite (.inl (by decide)) ?_ ?_
      · refine Couples.widen (.andThen alike_expression fun _ => alike_assign id hw) ?_ ?_
        · exact Nat.sub_le _ _
        · exact Nat.sub_le _ _
      · exact .andThen alike_arguments fun n => .andThen (alike_argumentCount n hw) fun _ =>
          alike_emitCall _ _ _

theorem alike_statement : τ.Agrees k l statement statement := by
  refine (alike_readWord).bind fun a b => ⟨?_, ?_⟩
  · cases a with
    | none => exact onward_failHere _
    | some w => exact (alike_statementAt (τ := τ) (k := k) (l := l) (w := w) rfl).onward
  · rintro s t ⟨hrel, hst⟩
    cases hrel with
    | none => exact (alike_failHere (P := τ.Like k l) (by simp)).outcome hst
    | some hword =>
        exact ((alike_statementAt hword.1).widen (Nat.sub_le _ _) (Nat.sub_le _ _)).outcome
          ⟨hst, hword⟩

theorem alike_statements {n m : Nat} (hn : k ≤ n) (hm : l ≤ m) :
    τ.Agrees k l (statements n) (statements m) := by
  have ho (n : Nat) : Onward (statements n) := by
    induction n with
    | zero => exact onward_failHere _
    | succ n ih =>
        refine onward_atEnd.bind fun _ => .ite (.pure _) ?_
        refine (alike_statement (τ := τ) (k := k) (l := l)).onward.bind fun _ => ?_
        refine (onward_symbol _).bind fun _ => .ite ih ?_
        exact onward_atEnd.bind fun _ => .ite (onward_failHere _) (onward_failHere _)
  induction n generalizing k l m with
  | zero => exact .never (ho 0) fun h => by have := h.leftRest; omega
  | succ n ih =>
      cases m with
      | zero => exact .never (ho _) fun h => by have := h.rightRest; omega
      | succ m =>
          refine alike_atEnd (.pure _) (.andThen alike_statement fun _ =>
            .symbol_ite (.inr rfl) ?_ ?_)
          · exact (ih (m := m) (by omega) (by omega)).widen (by omega) (by omega)
          · exact alike_atEnd (alike_failHere (by simp)) (alike_failHere (by simp))

theorem alike_program : τ.Agrees k l program program := by
  refine Couples.loop statements (fun n => n + 1)
    (fun k l => alike_statements (by omega) (by omega)) fun _ =>
      ⟨.get_bind fun s => ?_, fun {s t} h => ?_⟩
  · cases s.blocks.top? with
    | none => exact onward_emitOp _
    | some block => exact .throw _
  · have htop := h.top_blocks
    simp only [bind, EStateM.bind, Action.get_apply]
    cases hs : s.blocks.top? with
    | none =>
        simp only [hs, Option.map_none, Option.map_eq_none_iff] at htop
        rw [htop]
        exact (alike_emitOp _).outcome h
    | some b =>
        simp only [hs, Option.map_some, Option.map_eq_some_iff] at htop
        obtain ⟨b', hb', hconstruct⟩ := htop
        simp only [hb']
        exact .error (by rw [hconstruct]) (by simp)

end Twins

end CellScript
