import CellScript.Instruction
import CellScript.Text.Hex

/-!
# The code under construction

Instructions are appended to a bounded buffer. A forward jump is emitted with a
placeholder distance and handed out as a fixup, to be patched once its target
is known; the buffer counts the fixups that are still open and does not release
its code before there are none. A failed operation may have appended the code
byte already, so the buffer stays part of the result.
-/

namespace CellScript

/-- A forward jump whose target is not known yet, by the offset of its operand. -/
structure Fixup where
  operand : Nat
  deriving Repr, DecidableEq

structure CodeBuffer where
  code : Array UInt8
  capacity : Nat
  openFixups : Nat
  deriving DecidableEq, Inhabited

namespace CodeBuffer

inductive Error where
  | overflow (capacity : Nat)
  | jumpOutOfRange (start target : Nat)
  | unresolved (count : Nat)
  deriving Repr, DecidableEq, Inhabited

def Error.message : Error → String
  | overflow capacity => s!"code buffer overflow: program exceeds {capacity} bytes"
  | jumpOutOfRange start target =>
    "jump from " ++ Hex.address 4 start ++ " to " ++ Hex.address 4 target ++ " is out of range"
  | unresolved count => s!"{count} forward jump(s) left unresolved"

abbrev Action (α : Type) := EStateM Error CodeBuffer α

def ofCapacity (capacity : Nat) : CodeBuffer := ⟨#[], capacity, 0⟩

def pos (b : CodeBuffer) : Nat := b.code.size

/-- Appends bytes, all or none. -/
def emit (bytes : List UInt8) : Action Unit := fun b =>
  if b.code.size + bytes.length > b.capacity then .error (.overflow b.capacity) b
  else .ok () { b with code := b.code ++ bytes }

def emitOp (op : Opcode) : Action Unit := emit [op.toByte]

def emitByte (byte : UInt8) : Action Unit := emit [byte]

def emitWord (w : UInt16) : Action Unit := emit (Word.bytes w)

def distance (start target : Nat) : Except Error UInt16 :=
  let d := signedAddress target - signedAddress start
  if -32768 ≤ d ∧ d ≤ 32767 then .ok (Int16.ofInt d).toUInt16
  else .error (.jumpOutOfRange start target)

def emitForward (op : Opcode) : Action Fixup := do
  emitOp op
  let operand := (← get).pos
  emitWord 0
  modify fun b => { b with openFixups := b.openFixups + 1 }
  return ⟨operand⟩

def emitBackward (op : Opcode) (target : Nat) : Action Unit := do
  emitOp op
  match distance ((← get).pos + 2) target with
  | .ok d => emitWord d
  | .error e => throw e

def patchTo (f : Fixup) (target : Nat) : Action Unit := do
  match distance (f.operand + 2) target with
  | .ok d =>
    modify fun b =>
      let code := b.code.setIfInBounds f.operand (Word.hi d)
      { b with
        code := code.setIfInBounds (f.operand + 1) (Word.lo d)
        openFixups := b.openFixups - 1 }
  | .error e => throw e

def patch (f : Fixup) : Action Unit := do
  patchTo f (← get).pos

/-- The finished code, once no fixup is open. -/
def finish (b : CodeBuffer) : Except Error (Array UInt8) :=
  if b.openFixups = 0 then .ok b.code else .error (.unresolved b.openFixups)

end CodeBuffer

end CellScript
