import CellScript.BoundedStack
import CellScript.Cursor
import CellScript.Program
import CellScript.Token.Symbol

/-!
# The state of the compiler

The compiler goes through the text once and emits code as it reads. What it has
to remember in between lies on bounded stacks: operators waiting for their right
operand, open blocks, and jumps that still lack a target. This module holds that
state and the steps that both expressions and statements are made of.
-/

namespace CellScript

inductive Pending where
  /-- The start of an expression; nothing below it belongs to it. -/
  | mark
  /-- An operator that waits for its right operand. -/
  | operator (op : Opcode) (prec : Nat)
  deriving Repr, DecidableEq

inductive Construct where
  | ifBlock
  | elseBlock
  | whileLoop
  | repeatLoop
  | funcBody
  | procBody
  deriving Repr, DecidableEq

def Construct.word : Construct → String
  | ifBlock => "if"
  | elseBlock => "else"
  | whileLoop => "while"
  | repeatLoop => "repeat"
  | funcBody => "func"
  | procBody => "proc"

structure Block where
  construct : Construct
  start : Nat
  stop : Nat
  deriving Repr, DecidableEq

structure Body where
  id : Ident
  isFunc : Bool
  /-- Parameters, then locals; positions are slot numbers. -/
  locals : List Ident
  deriving Repr, DecidableEq

structure Compiler where
  source : Source
  cursor : Cursor
  code : CodeBuffer
  store : Store
  sourceMap : SourceMap
  maxSlots : Nat
  pending : BoundedStack Pending
  blocks : BoundedStack Block
  loopStarts : BoundedStack Nat
  /-- For each open loop, how many exits the loop around it had so far. -/
  savedExits : BoundedStack Nat
  loopExits : BoundedStack Fixup
  /-- How many of these exits leave the innermost loop. -/
  exitCount : Nat
  forward : BoundedStack Fixup
  body : Option Body

abbrev Compile (α : Type) := EStateM CompileError Compiler α

namespace Compiler

def start (source : Source) (limits : Limits) : Compiler where
  source := source
  cursor := .ofSource source
  code := .ofCapacity limits.codeSize
  store := .ofSize limits.heapSize limits.identBuckets
  sourceMap := .empty
  maxSlots := limits.maxSlots
  pending := .ofCapacity limits.pendingOps
  blocks := .ofCapacity limits.controlDepth
  loopStarts := .ofCapacity limits.loopDepth
  savedExits := .ofCapacity limits.loopDepth
  loopExits := .ofCapacity limits.loopExits
  exitCount := 0
  forward := .ofCapacity limits.forwardJumps
  body := none

/-! ### Reading -/

def read {α : Type} (f : Cursor → α × Cursor) : Compile α := fun s =>
  let (a, cursor) := f s.cursor
  .ok a { s with cursor }

def tryRead {α : Type} (act : Cursor.Action α) : Compile α := fun s =>
  match act s.cursor with
  | .ok a cursor => .ok a { s with cursor }
  | .error e cursor => .error e { s with cursor }

/-- Fails at the next byte of the text. -/
def failHere {α : Type} (cause : Cause) : Compile α := fun s =>
  .error (s.cursor.error cause) s

def failAt {α : Type} (w : WordToken) (cause : Cause) : Compile α := throw (w.error cause)

def symbol (b : UInt8) : Compile Bool := read (Cursor.symbol b)

def failWanting {α : Type} (wanted : Wanted) : Compile α := do
  if ← read Cursor.atEnd then failHere (.endOfInput wanted) else failHere (.expected wanted)

def expect (b : UInt8) : Compile Unit := do
  unless ← symbol b do failWanting (.symbol b)

def name (wanted : Wanted) : Compile WordToken := do
  match ← read Cursor.word with
  | none => failWanting wanted
  | some w =>
    if (Keyword.lookup? w.bytes).isSome then failAt w (.reservedWord w.text)
    return w

/-! ### Emitting -/

def onCode {α : Type} (act : CodeBuffer.Action α) : Compile α := fun s =>
  match act s.code with
  | .ok a code => .ok a { s with code }
  | .error e code => .error (s.cursor.error (.code e)) { s with code }

def emitOp (op : Opcode) : Compile Unit := onCode (CodeBuffer.emitOp op)

def emitByte (b : UInt8) : Compile Unit := onCode (CodeBuffer.emitByte b)

def emitWord (w : UInt16) : Compile Unit := onCode (CodeBuffer.emitWord w)

def emitOpByte (op : Opcode) (b : UInt8) : Compile Unit := do
  emitOp op
  emitByte b

def emitOpWord (op : Opcode) (w : UInt16) : Compile Unit := do
  emitOp op
  emitWord w

def emitCall (op : Opcode) (arguments : UInt8) (id : Ident) : Compile Unit := do
  emitOp op
  emitByte arguments
  emitWord id.offset

/-! ### Names -/

def onStore {α : Type} (act : EStateM Heap.Error Store α) : Compile α := fun s =>
  match act s.store with
  | .ok a store => .ok a { s with store }
  | .error e store => .error (s.cursor.error (.heap e)) { s with store }

def modifyHeap (f : Heap → Heap) : Compile Unit :=
  modify fun s => { s with store := { s.store with heap := f s.store.heap } }

def intern (name : List UInt8) : Compile Ident := do
  let (id, _) ← onStore (Store.intern name)
  return id

def valueOf (id : Ident) : Compile Value := do
  return (← get).store.heap.identValue id

/-- The slot of a name in the body being compiled, if it has one there. -/
def slotOf (id : Ident) : Compile (Option UInt8) := do
  let s ← get
  match s.body with
  | some body =>
    return if body.locals.contains id then some (s.store.heap.identSlot id) else none
  | none => return none

def argumentCount (n : Nat) (w : WordToken) : Compile UInt8 :=
  if n ≤ 255 then pure (UInt8.ofNat n) else failAt w (.tooManyArguments w.text n)

/-! ### Stacks -/

def pushPending (p : Pending) : Compile Unit := fun s =>
  match s.pending.push? p with
  | some pending => .ok () { s with pending }
  | none => .error (s.cursor.error (.tooComplex .pending)) s

def pushBlock (c : Construct) (w : WordToken) : Compile Unit := fun s =>
  match s.blocks.push? ⟨c, w.start, w.stop⟩ with
  | some blocks => .ok () { s with blocks }
  | none => .error (s.cursor.error (.tooComplex .control)) s

def pushForward (f : Fixup) : Compile Unit := fun s =>
  match s.forward.push? f with
  | some forward => .ok () { s with forward }
  | none => .error (s.cursor.error (.tooComplex .jumps)) s

def pushLoopStart (offset : Nat) : Compile Unit := fun s =>
  match s.loopStarts.push? offset with
  | some loopStarts => .ok () { s with loopStarts }
  | none => .error (s.cursor.error (.tooComplex .loops)) s

/-- Puts the exits of the loop around aside and starts counting anew. -/
def saveExits : Compile Unit := fun s =>
  match s.savedExits.push? s.exitCount with
  | some savedExits => .ok () { s with savedExits, exitCount := 0 }
  | none => .error (s.cursor.error (.tooComplex .loops)) s

def pushLoopExit (f : Fixup) : Compile Unit := fun s =>
  match s.loopExits.push? f with
  | some loopExits => .ok () { s with loopExits, exitCount := s.exitCount + 1 }
  | none => .error (s.cursor.error (.tooComplex .jumps)) s

end Compiler

end CellScript
