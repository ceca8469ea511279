import CellScript.Fault
import CellScript.Opcode
import CellScript.Text.Ascii
import CellScript.Number.Fixed

/-!
# Strings as byte sequences

Operations see a string only as the bytes it stands for, whichever of the three
kinds it has, and build results through `makeStr`, which picks the kind by
length. Printing is defined here too, since `str` and `print` share it.
-/

namespace CellScript

abbrev Operation (α : Type) := EStateM Fault Heap α

/-- The bytes of a string; `none` for any other value. -/
def Heap.text? (h : Heap) : Value → Option (List UInt8)
  | .strEmpty => some []
  | .strChar c => some [c]
  | .str offset => some (h.strBytes offset)
  | _ => none

namespace Builtin

def onArena {α : Type} (act : Heap.Action α) : Operation α := fun h =>
  match act h with
  | .ok a h => .ok a h
  | .error e h => .error (.heap e) h

def makeStr : List UInt8 → Operation Value
  | [] => pure .strEmpty
  | [c] => pure (.strChar c)
  | bytes => do return .str (← onArena (Heap.allocStr bytes))

def makeArray (elems : List Value) : Operation Value := do
  return .array (← onArena (Heap.allocArray elems))

def mismatch (op : Opcode) (operands : List Value) : Fault :=
  .typeMismatch op.name (operands.map Value.kindName)

/-! ### Printing -/

def commaSeparated : List (List UInt8) → List UInt8
  | [] => []
  | [x] => x
  | x :: xs => x ++ 44 :: commaSeparated xs

def renderWith (h : Heap) : (fuel : Nat) → Value → List UInt8
  | 0, _ => []
  | fuel + 1, v =>
    match v with
    | .unset => Ascii.bytes "<unset>"
    | .bool b => Ascii.bytes (if b then "true" else "false")
    | .int n => Ascii.bytes (toString n.toInt)
    | .float x => Ascii.bytes x.toText
    | .strEmpty => []
    | .strChar c => [c]
    | .str offset => h.strBytes offset
    | .proc _ => Ascii.bytes "<proc>"
    | .func _ => Ascii.bytes "<func>"
    | .array offset =>
      91 :: commaSeparated ((h.arrayElems offset).map (renderWith h fuel)) ++ [93]

/-- The printed form of a value. Elements lie below the array that holds them, so
arrays nest less deep than the heap is high. -/
def render (h : Heap) (v : Value) : List UInt8 := renderWith h (h.top + 1) v

end Builtin

end CellScript
