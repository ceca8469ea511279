import CellScript.Opcode
import CellScript.Word

/-!
# Instructions in a byte sequence

An instruction is a code and its operands. `encode` writes them in the order of
the code's shape, `decode?` reads them back, and `items` walks a whole byte
sequence: every byte belongs to exactly one decoded instruction or stands for
itself.
-/

namespace CellScript

/-- A decoded instruction and where it stands. Operands that its shape does not
have are zero. -/
structure Instruction where
  offset : Nat
  op : Opcode
  byte : UInt8
  word : UInt16
  deriving Repr, DecidableEq

def signedWord (w : UInt16) : Int := w.toInt16.toInt

/-- An address is a sixty-four-bit word, and one in the upper half counts back
from the start of the code. -/
def signedAddress (address : Nat) : Int :=
  if address < 9223372036854775808 then address else address - 18446744073709551616

theorem signedAddress_of_lt {address : Nat} (h : address < 9223372036854775808) :
    signedAddress address = address := by
  simp [signedAddress, h]

namespace Instruction

def next (i : Instruction) : Nat := i.offset + 1 + i.op.shape.size

/-- Where a jump leads; distances count from the following instruction. -/
def jumpTarget (i : Instruction) : Int := i.next + signedWord i.word

/-- The program counter after a jump. A target before the start wraps around in
sixty-four bits, to an address that no code reaches. -/
def jumpCounter (i : Instruction) : Nat := (i.jumpTarget % 18446744073709551616).toNat

def encode (i : Instruction) : List UInt8 :=
  i.op.toByte ::
    match i.op.shape with
    | .none => []
    | .byte => [i.byte]
    | .word => Word.bytes i.word
    | .call => i.byte :: Word.bytes i.word

def wordAt? (code : Array UInt8) (offset : Nat) : Option UInt16 := do
  return Word.ofBytes (← code[offset]?) (← code[offset + 1]?)

/-- The instruction at an offset, unless the byte there is no code or the
operands run past the end. -/
def decode? (code : Array UInt8) (offset : Nat) : Option Instruction := do
  let op ← Opcode.ofByte? (← code[offset]?)
  match op.shape with
  | .none => return ⟨offset, op, 0, 0⟩
  | .byte => return ⟨offset, op, ← code[offset + 1]?, 0⟩
  | .word => return ⟨offset, op, 0, ← wordAt? code (offset + 1)⟩
  | .call => return ⟨offset, op, ← code[offset + 1]?, ← wordAt? code (offset + 2)⟩

theorem offset_lt_next (i : Instruction) : i.offset < i.next := by
  simp only [next]
  omega

end Instruction

inductive CodeItem where
  | instruction (i : Instruction)
  | raw (offset : Nat) (b : UInt8)
  deriving Repr, DecidableEq

namespace CodeItem

def bytes : CodeItem → List UInt8
  | instruction i => i.encode
  | raw _ b => [b]

def offset : CodeItem → Nat
  | instruction i => i.offset
  | raw offset _ => offset

/-- The pieces from `offset` on; each takes a byte at least, so the size of the
code bounds their number. -/
def itemsFrom (code : Array UInt8) : (fuel offset : Nat) → List CodeItem
  | 0, _ => []
  | fuel + 1, offset =>
    match code[offset]? with
    | none => []
    | some b =>
      match Instruction.decode? code offset with
      | some i => .instruction i :: itemsFrom code fuel i.next
      | none => .raw offset b :: itemsFrom code fuel (offset + 1)

def items (code : Array UInt8) : List CodeItem := itemsFrom code code.size 0

end CodeItem

end CellScript
