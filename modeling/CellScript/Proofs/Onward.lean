import CellScript.Proofs.Outlook
import CellScript.Proofs.Steps

/-!
The compiler reads forward.

No step of the compiler ever goes back in the text: what is left behind it is what
was left before it, less some bytes at the front. The recognizers have this
property, nothing else touches the cursor, and it is closed under everything that
steps are composed of. For the statements that recur it is shown by induction on
their fuel.
-/

namespace CellScript

namespace Compiler

/-- A step that never goes back in the text. -/
def Onward {α : Type} (x : Compile α) : Prop :=
  ∀ (s : Compiler) (a : α) (s' : Compiler), x s = .ok a s' → s.cursor.Onward s'.cursor

namespace Onward

variable {α β : Type}

theorem pure (a : α) : Onward (pure a) := by
  intro s b s' h
  cases h
  exact .refl _

theorem bind {x : Compile α} {f : α → Compile β} (hx : Onward x) (hf : ∀ a, Onward (f a)) :
    Onward (x >>= f) := by
  intro s b s' h
  obtain ⟨a, t, hs, ht⟩ := Action.bind_eq_ok.1 h
  exact (hx _ _ _ hs).trans (hf a _ _ _ ht)

theorem ite {c : Prop} [Decidable c] {x y : Compile α} (hx : Onward x) (hy : Onward y) :
    Onward (if c then x else y) := by
  split
  · exact hx
  · exact hy

theorem get_bind {f : Compiler → Compile α} (hf : ∀ s, Onward (f s)) : Onward (get >>= f) := by
  intro s a s' h
  exact hf s _ _ _ h

theorem throw (e : CompileError) : Onward (throw e : Compile α) := by
  intro s a s' h
  cases h

theorem modify {f : Compiler → Compiler} (hf : ∀ s, (f s).cursor = s.cursor) :
    Onward (modify f) := by
  intro s a s' h
  cases h
  rw [hf]
  exact .refl _

/-- A guard that only fails. -/
theorem guarded {c : Prop} [Decidable c] {x : Compile Unit} {f : Unit → Compile α} (hx : Onward x)
    (hf : Onward (f ())) : Onward (if c then x >>= f else f ()) :=
  .ite (hx.bind fun _ => hf) hf

end Onward

section

variable {α : Type}

/-! ### Reading -/

theorem onward_read {f : Cursor → α × Cursor} (hf : ∀ c : Cursor, c.Onward (f c).2) :
    Onward (read f) := by
  intro s a s' h
  obtain ⟨-, rfl⟩ := read_eq_ok.1 h
  exact hf s.cursor

theorem onward_tryRead {act : Cursor.Action α}
    (hact : ∀ {c a c'}, act c = .ok a c' → Cursor.Onward c c') : Onward (tryRead act) := by
  intro s a s' h
  obtain ⟨c, hc, rfl⟩ := tryRead_eq_ok.1 h
  exact hact hc

theorem onward_failHere (cause : Cause) : Onward (failHere cause : Compile α) := by
  intro s a s' h
  cases h

theorem onward_symbol (b : UInt8) : Onward (symbol b) := onward_read (Cursor.onward_symbol b)

theorem onward_atEnd : Onward (read Cursor.atEnd) := onward_read Cursor.onward_skipBlank

theorem onward_word : Onward (read Cursor.word) := onward_read Cursor.onward_word

theorem onward_failWanting (wanted : Wanted) : Onward (failWanting wanted : Compile α) :=
  onward_atEnd.bind fun _ => .ite (onward_failHere _) (onward_failHere _)

theorem onward_expect (b : UInt8) : Onward (expect b) :=
  (onward_symbol b).bind fun _ => .ite (.pure _) (onward_failWanting _)

theorem onward_name (wanted : Wanted) : Onward (name wanted) := by
  refine onward_word.bind fun w => ?_
  cases w with
  | none => exact onward_failWanting _
  | some w => exact .guarded (.throw _) (.pure _)

/-! ### Steps that do not read -/

theorem onward_onCode (act : CodeBuffer.Action α) : Onward (onCode act) := by
  intro s a s' h
  obtain ⟨b, -, rfl⟩ := onCode_eq_ok.1 h
  exact .refl _

theorem onward_onStore (act : EStateM Heap.Error Store α) : Onward (onStore act) := by
  intro s a s' h
  obtain ⟨st, -, rfl⟩ := onStore_eq_ok.1 h
  exact .refl _

theorem onward_emitOp (op : Opcode) : Onward (emitOp op) := onward_onCode _

theorem onward_emitOpByte (op : Opcode) (b : UInt8) : Onward (emitOpByte op b) :=
  (onward_onCode _).bind fun _ => onward_onCode _

theorem onward_emitOpWord (op : Opcode) (w : UInt16) : Onward (emitOpWord op w) :=
  (onward_onCode _).bind fun _ => onward_onCode _

theorem onward_intern (bs : List UInt8) : Onward (intern bs) :=
  (onward_onStore _).bind fun _ => .pure _

theorem onward_valueOf (id : Ident) : Onward (valueOf id) := .get_bind fun _ => .pure _

theorem onward_slotOf (id : Ident) : Onward (slotOf id) := by
  refine .get_bind fun s => ?_
  cases s.body <;> exact .pure _

theorem onward_pushPending (p : Pending) : Onward (pushPending p) := by
  intro s a s' h
  unfold pushPending at h
  split at h
  · cases h
    exact .refl _
  · cases h

theorem onward_modifyHeap (f : Heap → Heap) : Onward (modifyHeap f) := .modify fun _ => rfl

/-! ### Expressions -/

theorem pervades_onward : Pervades @Onward where
  pure := .pure
  bind := .bind
  get_bind := .get_bind
  throw _ := .throw _
  failHere _ := onward_failHere _
  symbol := onward_symbol
  atEnd := onward_atEnd
  word := onward_word
  unaryOperator := onward_read Cursor.onward_unaryOperator
  binaryOperator := onward_read (Cursor.onward_operator Operator.joins_binary)
  number := onward_tryRead Cursor.onward_number
  string := onward_tryRead Cursor.onward_string
  emit _ := onward_onCode _
  allocStr _ := onward_onStore _
  intern _ := onward_onStore _
  push := onward_pushPending
  pop := .modify fun _ => rfl

theorem onward_flush (incoming : Option Nat) (n : Nat) : Onward (flush incoming n) :=
  pervades_onward.flush incoming n

theorem onward_unaryOperators (n : Nat) : Onward (unaryOperators n) :=
  pervades_onward.unaryOperators n

theorem onwardAt (n : Nat) : ExpressionsAt @Onward n := pervades_onward.expressionsAt n

theorem onward_expression : Onward expression := pervades_onward.expression

/-! ### Statements -/

theorem onward_redefinition (v : Value) (w : WordToken) :
    Onward (redefinition v w : Compile α) := by
  unfold redefinition
  split <;> exact .throw _

theorem onward_declareLocal (id : Ident) (w : WordToken) : Onward (declareLocal id w) := by
  refine (onward_valueOf id).bind fun v =>
    .guarded (onward_redefinition _ _) (.get_bind fun s => ?_)
  cases s.body with
  | none => exact .throw _
  | some body =>
      exact .guarded (.throw _) (.bind (.modify fun _ => rfl) fun _ =>
        (onward_modifyHeap _).bind fun _ => .pure _)

theorem onward_assign (id : Ident) (w : WordToken) : Onward (assign id w) := by
  refine .get_bind fun s => ?_
  cases s.body with
  | none =>
      exact (onward_valueOf id).bind fun v =>
        .guarded (onward_redefinition _ _) (onward_emitOpWord _ _)
  | some body =>
      refine (onward_slotOf id).bind fun slot => ?_
      cases slot with
      | some k => exact onward_emitOpByte _ _
      | none => exact (onward_declareLocal id w).bind fun _ => onward_emitOpByte _ _

theorem onward_argumentsFrom (n count : Nat) : Onward (argumentsFrom n count) := by
  induction n generalizing count with
  | zero => exact onward_failHere _
  | succ n ih =>
      exact onward_expression.bind fun _ => (onward_symbol _).bind fun _ => .ite (ih _) (.pure _)

theorem onward_inputStatement (n : Nat) : Onward (inputStatement n) := by
  induction n with
  | zero => exact onward_failHere _
  | succ n ih =>
      exact (onward_name _).bind fun w => (onward_intern _).bind fun id =>
        (onward_emitOp _).bind fun _ => (onward_assign _ _).bind fun _ =>
          (onward_symbol _).bind fun _ => .ite ih (.pure _)

theorem onward_popBlock (w : WordToken) (opener : Construct) (others : List Construct) :
    Onward (popBlock w opener others) := by
  refine .get_bind fun s => ?_
  cases s.blocks.top? with
  | none => exact .throw _
  | some block => exact .ite (.modify fun _ => rfl) (.throw _)

theorem onward_parameters (n : Nat) : Onward (parameters n) := by
  induction n with
  | zero => exact onward_failHere _
  | succ n ih =>
      exact (onward_name _).bind fun w => (onward_intern _).bind fun id =>
        (onward_slotOf _).bind fun _ => .guarded (.throw _)
          ((onward_declareLocal _ _).bind fun _ => (onward_symbol _).bind fun _ =>
            .ite ih (.pure _))

end

end Compiler

end CellScript
