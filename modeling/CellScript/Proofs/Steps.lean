import CellScript.Compiler.Expression

/-!
The steps that expressions are made of.

All the functions for expressions are put together from a few steps: recognizers are
run, bytes are emitted, operators are pushed and popped, and names and strings get
their records. A property of steps that holds of these and is kept by sequencing
therefore holds of every expression. The induction on the fuel is done here once, for
an arbitrary property.
-/

namespace CellScript

/-- The stacks of the compiler do not describe the blocks that are open. -/
def Cause.IsDisorder : Cause → Prop
  | unbalancedControl | unbalancedLoop | localOutsideBody | code (.unresolved _) => True
  | _ => False

namespace Compiler

/-- A property of the steps from which expressions are put together. -/
structure Pervades (J : ∀ {α : Type}, Compile α → Prop) : Prop where
  pure {α : Type} (a : α) : J (pure a)
  bind {α β : Type} {x : Compile α} {f : α → Compile β} : J x → (∀ a, J (f a)) → J (x >>= f)
  get_bind {α : Type} {f : Compiler → Compile α} : (∀ s, J (f s)) → J (get >>= f)
  throw {α : Type} {e : CompileError} : ¬ e.cause.IsDisorder → J (throw e : Compile α)
  failHere {α : Type} {cause : Cause} : ¬ cause.IsDisorder → J (failHere cause : Compile α)
  symbol (b : UInt8) : J (symbol b)
  atEnd : J (read Cursor.atEnd)
  word : J (read Cursor.word)
  unaryOperator : J (read Cursor.unaryOperator)
  binaryOperator : J (read Cursor.binaryOperator)
  number : J (tryRead Cursor.number)
  string : J (tryRead Cursor.string)
  emit (bytes : List UInt8) : J (onCode (CodeBuffer.emit bytes))
  allocStr (bytes : List UInt8) : J (onStore (Store.onHeap id (Heap.allocStr bytes)))
  intern (bytes : List UInt8) : J (onStore (Store.intern bytes))
  push (p : Pending) : J (pushPending p)
  pop : J (modify fun s => { s with pending := s.pending.pop })

/-- A property of all functions for expressions with this much fuel. -/
structure ExpressionsAt (J : ∀ {α : Type}, Compile α → Prop) (n : Nat) : Prop where
  expr : J (expr n)
  operands : J (operands n)
  operand : J (operand n)
  wordOperand : ∀ w, J (wordOperand n w)
  exprList : ∀ close, J (exprList n close)
  exprListFrom : ∀ close count, J (exprListFrom n close count)
  indices : J (indices n)

namespace Pervades

variable {J : ∀ {α : Type}, Compile α → Prop} {α : Type}

theorem ite (_ : Pervades J) {c : Prop} [Decidable c] {x y : Compile α} (hx : J x) (hy : J y) :
    J (if c then x else y) := by
  split
  · exact hx
  · exact hy

variable (H : Pervades J)

include H

/-- A guard that only fails. -/
theorem guarded {c : Prop} [Decidable c] {x : Compile Unit} {f : Unit → Compile α} (hx : J x)
    (hf : J (f ())) : J (if c then x >>= f else f ()) :=
  H.ite (H.bind hx fun _ => hf) hf

theorem expect (b : UInt8) : J (expect b) :=
  H.bind (H.symbol b) fun _ => H.ite (H.pure _)
    (H.bind H.atEnd fun _ => H.ite (H.failHere id) (H.failHere id))

theorem emitOp (op : Opcode) : J (emitOp op) := H.emit _

theorem emitOpByte (op : Opcode) (b : UInt8) : J (emitOpByte op b) :=
  H.bind (H.emit _) fun _ => H.emit _

theorem emitOpWord (op : Opcode) (w : UInt16) : J (emitOpWord op w) :=
  H.bind (H.emit _) fun _ => H.emit _

theorem emitCall (op : Opcode) (n : UInt8) (id : Ident) : J (emitCall op n id) :=
  H.bind (H.emit _) fun _ => H.bind (H.emit _) fun _ => H.emit _

theorem name (bytes : List UInt8) : J (Compiler.intern bytes) :=
  H.bind (H.intern bytes) fun _ => H.pure _

theorem slotOf (id : Ident) : J (slotOf id) := by
  refine H.get_bind fun s => ?_
  cases s.body <;> exact H.pure _

theorem argumentCount (n : Nat) (w : WordToken) : J (argumentCount n w) :=
  H.ite (H.pure _) (H.throw id)

theorem flush (incoming : Option Nat) (n : Nat) : J (flush incoming n) := by
  induction n with
  | zero => exact H.pure _
  | succ n ih =>
      refine H.get_bind fun s => ?_
      cases s.pending.top? with
      | none => exact H.pure _
      | some p =>
          cases p with
          | mark => exact H.ite H.pop (H.pure _)
          | operator op prec =>
              exact H.ite (H.pure _) (H.bind H.pop fun _ => H.bind (H.emitOp op) fun _ => ih)

theorem unaryOperators (n : Nat) : J (unaryOperators n) := by
  induction n with
  | zero => exact H.failHere id
  | succ n ih =>
      refine H.bind H.unaryOperator fun t => ?_
      cases t with
      | none => exact H.pure _
      | some t => exact H.bind (H.push _) fun _ => ih

theorem numberLiteral (n : Number) : J (numberLiteral n) := by
  cases n <;> exact H.emitOpWord _ _

theorem stringLiteral (t : StringToken) : J (stringLiteral t) := by
  cases t with
  | empty => exact H.emitOp _
  | char c => exact H.emitOpByte _ _
  | long start raw length => exact H.bind (H.allocStr _) fun _ => H.emitOpWord _ _

theorem arrayLiteral (start n : Nat) : J (arrayLiteral start n) :=
  H.ite (H.get_bind fun _ => H.bind (H.throw id) fun _ => H.emitOpByte _ _) (H.emitOpByte _ _)

section

variable {n : Nat} (ih : ExpressionsAt J n)

include ih

theorem operands_succ : J (operands (n + 1)) := by
  refine H.bind (H.unaryOperators n) fun _ => H.bind ih.operand fun _ => ?_
  refine H.bind H.binaryOperator fun t => ?_
  cases t with
  | none => exact H.get_bind fun _ => H.flush _ _
  | some t =>
      exact H.get_bind fun _ => H.bind (H.flush _ _) fun _ => H.bind (H.push _) fun _ =>
        ih.operands

theorem operand_succ : J (operand (n + 1)) := by
  refine H.bind (H.symbol _) fun _ => H.ite ?_ ?_
  · exact H.bind ih.expr fun _ => H.expect _
  refine H.bind (H.symbol _) fun _ => H.ite ?_ ?_
  · exact H.get_bind fun _ => H.bind (ih.exprList _) fun _ => H.arrayLiteral _ _
  refine H.bind H.number fun t => ?_
  cases t with
  | some t => exact H.numberLiteral _
  | none =>
      refine H.bind H.string fun t => ?_
      cases t with
      | some t => exact H.stringLiteral _
      | none =>
          refine H.bind H.word fun w => ?_
          cases w with
          | some w => exact ih.wordOperand w
          | none => exact H.bind H.atEnd fun _ => H.ite (H.failHere id) (H.failHere id)

theorem wordOperand_succ (w : WordToken) : J (wordOperand (n + 1) w) := by
  unfold Compiler.wordOperand
  split
  · exact H.emitOp _
  · exact H.bind (H.expect _) fun _ => H.bind (ih.exprList _) fun _ =>
      H.guarded (H.throw id) (H.emitOp _)
  · exact H.throw id
  · refine H.bind (H.name _) fun id => H.bind (H.symbol _) fun _ => H.ite ?_ ?_
    · exact H.bind (ih.exprList _) fun _ => H.bind (H.argumentCount _ _) fun _ =>
        H.emitCall _ _ _
    · refine H.bind (H.slotOf _) fun slot => ?_
      cases slot with
      | some k => exact H.bind (H.emitOpByte _ _) fun _ => ih.indices
      | none => exact H.bind (H.emitOpWord _ _) fun _ => ih.indices

theorem exprListFrom_succ (close : UInt8) (count : Nat) : J (exprListFrom (n + 1) close count) :=
  H.bind ih.expr fun _ => H.bind (H.symbol _) fun _ =>
    H.ite (ih.exprListFrom _ _) (H.bind (H.expect _) fun _ => H.pure _)

theorem indices_succ : J (indices (n + 1)) := by
  refine H.bind (H.symbol _) fun _ => H.ite ?_ (H.pure _)
  refine H.bind ih.expr fun _ => H.bind (H.symbol _) fun _ => H.ite ?_ ?_
  · exact H.bind ih.expr fun _ => H.bind (H.expect _) fun _ => H.bind (H.emitOp _) fun _ =>
      ih.indices
  · exact H.bind (H.expect _) fun _ => H.bind (H.emitOp _) fun _ => ih.indices

end

theorem expressionsAt (n : Nat) : ExpressionsAt J n := by
  induction n with
  | zero =>
      exact ⟨H.failHere id, H.failHere id, H.failHere id, fun _ => H.failHere id,
        fun _ => H.failHere id, fun _ _ => H.failHere id, H.failHere id⟩
  | succ n ih =>
      exact ⟨H.bind (H.push _) fun _ => ih.operands, H.operands_succ ih, H.operand_succ ih,
        H.wordOperand_succ ih,
        fun close => H.bind (H.symbol _) fun _ => H.ite (H.pure _) (ih.exprListFrom _ _),
        H.exprListFrom_succ ih, H.indices_succ ih⟩

theorem expression : J expression := H.get_bind fun _ => (H.expressionsAt _).expr

end Pervades

end Compiler

end CellScript
