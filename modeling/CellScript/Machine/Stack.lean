import CellScript.Fault

/-!
# The operand stack

A fixed stretch of bytes holds three-byte values and, for calls, two-byte saved
registers. The stack pointer is the offset of the first free byte.
-/

namespace CellScript

structure OperandStack where
  bytes : Array UInt8
  sp : Nat
  deriving DecidableEq, Inhabited

namespace OperandStack

abbrev Action (α : Type) := EStateM Fault OperandStack α

def ofSize (size : Nat) : OperandStack := ⟨Array.replicate size 0, 0⟩

def capacity (s : OperandStack) : Nat := s.bytes.size

def byte (s : OperandStack) (i : Nat) : UInt8 := s.bytes.getD i 0

def write (s : OperandStack) (i : Nat) : List UInt8 → OperandStack
  | [] => s
  | b :: bs => write { s with bytes := s.bytes.setIfInBounds i b } (i + 1) bs

/-- Moves the stack pointer. Bytes that it uncovers are zero, so fresh slots are
unset. -/
def setPointer (sp : Nat) : Action Unit := fun s =>
  if sp > s.bytes.size then .error (.stackOverflow s.bytes.size) s
  else
    let s := s.write s.sp (List.replicate (sp - s.sp) 0)
    .ok () { s with sp }

def pushBytes (data : List UInt8) : Action Unit := fun s =>
  if s.sp + data.length > s.bytes.size then .error (.stackOverflow s.bytes.size) s
  else
    let s := s.write s.sp data
    .ok () { s with sp := s.sp + data.length }

def push (v : Value) : Action Unit := pushBytes v.encode

def pushWord (w : UInt16) : Action Unit := pushBytes (Word.bytes w)

def get (s : OperandStack) (i : Nat) : Except Fault Value :=
  if i + Value.size > s.bytes.size then .error .stackUnderflow
  else
    match Value.decode? (s.byte i) (s.byte (i + 1)) (s.byte (i + 2)) with
    | some v => .ok v
    | none => .error (.corruptValue (s.byte i))

def pop : Action Value := fun s =>
  if s.sp < Value.size then .error .stackUnderflow s
  else
    match s.get (s.sp - Value.size) with
    | .ok v => .ok v { s with sp := s.sp - Value.size }
    | .error e => .error e s

/-- The `n` values from an offset on, the lowest first. -/
def getMany (s : OperandStack) (i : Nat) : (n : Nat) → Except Fault (List Value)
  | 0 => .ok []
  | n + 1 => do
    let v ← s.get i
    let vs ← s.getMany (i + Value.size) n
    return v :: vs

def popMany (n : Nat) : Action (List Value) := fun s =>
  if s.sp < n * Value.size then .error .stackUnderflow s
  else
    match s.getMany (s.sp - n * Value.size) n with
    | .ok vs => .ok vs { s with sp := s.sp - n * Value.size }
    | .error e => .error e s

def set (i : Nat) (v : Value) : Action Unit := fun s =>
  if i + Value.size > s.sp then .error (.stackOverflow s.bytes.size) s
  else .ok () (s.write i v.encode)

def popWord : Action UInt16 := fun s =>
  if s.sp < 2 then .error .stackUnderflow s
  else .ok (Word.ofBytes (s.byte (s.sp - 2)) (s.byte (s.sp - 1))) { s with sp := s.sp - 2 }

end OperandStack

end CellScript
