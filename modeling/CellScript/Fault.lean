import CellScript.Heap

/-!
# Run-time errors

Every run-time error ends the run. A fault is the cause; a trap is a fault with
the address of the instruction that raised it.
-/

namespace CellScript

/-- Why a run ends before its `stop`. -/
inductive Fault where
  | typeMismatch (op : String) (kinds : List String)
  | unknownOpcode (b : UInt8)
  /-- No whole instruction lies at the program counter. -/
  | codeOverrun (pc : Nat)
  | undefinedVariable (name : String)
  | undefinedCallTarget (name : String)
  | badCallTarget (name expected : String)
  | argumentCount (name : String) (expected found : Nat)
  | indexOutOfRange (index : Int) (length : Nat)
  | negativeArgument (op : String) (value : Int)
  | numberOutOfRange (op : String)
  | divisionByZero
  | missingReturn
  | invalidNumber (text : String)
  | stackOverflow (capacity : Nat)
  | stackUnderflow
  | corruptValue (tag : UInt8)
  | heap (e : Heap.Error)
  | endOfInput
  deriving Repr, DecidableEq, Inhabited

namespace Fault

def message : Fault → String
  | typeMismatch op kinds =>
    "type mismatch: '" ++ op ++ "' cannot take " ++ String.intercalate " and " kinds
  | unknownOpcode b => "unknown opcode " ++ Hex.address 2 b.toNat
  | codeOverrun pc => "program counter " ++ Hex.address 4 pc ++ " is outside the code"
  | undefinedVariable name => s!"undefined variable '{name}'"
  | undefinedCallTarget name => s!"'{name}' is not defined"
  | badCallTarget name expected => s!"'{name}' is not a {expected}"
  | argumentCount name expected found =>
    s!"wrong argument count for '{name}': expected {expected}, got {found}"
  | indexOutOfRange index length => s!"index {index} out of range for length {length}"
  | negativeArgument op value => s!"negative argument {value} to '{op}'"
  | numberOutOfRange op => s!"number out of range for '{op}'"
  | divisionByZero => "division by zero"
  | missingReturn => "func ended without 'return'"
  | invalidNumber text => s!"invalid number '{text}'"
  | stackOverflow capacity => s!"operand stack overflow ({capacity} bytes)"
  | stackUnderflow => "operand stack underflow"
  | corruptValue tag => "corrupt value with kind byte " ++ Hex.address 2 tag.toNat
  | heap e => e.message
  | endOfInput => "end of input"

end Fault

structure Trap where
  pc : Nat
  fault : Fault
  deriving Repr, DecidableEq, Inhabited

def Trap.message (t : Trap) : String :=
  t.fault.message ++ " (pc " ++ Hex.address 4 t.pc ++ ")"

end CellScript
