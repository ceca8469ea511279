import CellScript.Text.Hex
import CellScript.Value

/-!
# The record arena

Compiler and machine share one array of bytes from which blocks are cut off in
order and never returned. A block is known by its sixteen-bit offset. Two kinds
of record are laid out here:

* a string is its length as a word, then its bytes;
* an array is its length as a byte, then its encoded elements.

Offset 0 lies in a reserved stretch that no block covers, so it can end a chain
of identifier records. Operations that can fail run in a state monad that keeps
the heap after a failure: the theory below it has to show that nothing changed.
-/

namespace CellScript

/-- Bytes of the arena and the end of the part handed out so far. -/
structure Heap where
  bytes : Array UInt8
  top : Nat
  deriving DecidableEq, Inhabited

namespace Heap

inductive Error where
  /-- No room for a block, and blocks are never returned. -/
  | exhausted (requested available : Nat)
  | recordTooLarge (length most : Nat)
  | invalidHandle (offset : UInt16)
  deriving Repr, DecidableEq, Inhabited

def Error.message : Error → String
  | exhausted requested available =>
    s!"heap exhausted: {requested} bytes requested, {available} available"
  | recordTooLarge length most => s!"record too large: {length} exceeds {most}"
  | invalidHandle offset => "invalid heap reference " ++ Hex.address 4 offset.toNat

abbrev Action (α : Type) := EStateM Error Heap α

def reserved : Nat := 2

/-- Bytes that a sixteen-bit offset can reach. -/
def addressable : Nat := 65536

def maxStrLength : Nat := 65535

def maxArrayLength : Nat := 255

def ofSize (size : Nat) : Heap := ⟨Array.replicate (max size reserved) 0, reserved⟩

def capacity (h : Heap) : Nat := h.bytes.size

def usedBytes (h : Heap) : List UInt8 := (h.bytes.extract 0 h.top).toList

/-! ### Raw access -/

def byte (h : Heap) (i : Nat) : UInt8 := h.bytes.getD i 0

def word (h : Heap) (i : Nat) : UInt16 := Word.ofBytes (h.byte i) (h.byte (i + 1))

def slice (h : Heap) (i length : Nat) : List UInt8 :=
  (List.range length).map fun k => h.byte (i + k)

/-- The value stored at `i`; a byte that is no kind reads as unset. -/
def valueAt (h : Heap) (i : Nat) : Value :=
  (Value.decode? (h.byte i) (h.byte (i + 1)) (h.byte (i + 2))).getD .unset

def setByte (h : Heap) (i : Nat) (b : UInt8) : Heap :=
  { h with bytes := h.bytes.setIfInBounds i b }

def write (h : Heap) (i : Nat) : List UInt8 → Heap
  | [] => h
  | b :: bs => (h.setByte i b).write (i + 1) bs

def setWord (h : Heap) (i : Nat) (w : UInt16) : Heap := h.write i (Word.bytes w)

def setValueAt (h : Heap) (i : Nat) (v : Value) : Heap := h.write i v.encode

@[simp] theorem top_setByte (h : Heap) (i : Nat) (b : UInt8) : (h.setByte i b).top = h.top := rfl

@[simp] theorem capacity_setByte (h : Heap) (i : Nat) (b : UInt8) :
    (h.setByte i b).capacity = h.capacity := by
  simp [setByte, capacity]

@[simp] theorem top_write (h : Heap) (i : Nat) (bs : List UInt8) : (h.write i bs).top = h.top := by
  induction bs generalizing h i with
  | nil => rfl
  | cons b bs ih => simp [write, ih]

@[simp] theorem capacity_write (h : Heap) (i : Nat) (bs : List UInt8) :
    (h.write i bs).capacity = h.capacity := by
  induction bs generalizing h i with
  | nil => rfl
  | cons b bs ih => simp [write, ih]

/-! ### Blocks -/

/-- The offset of a fresh block of `n` bytes. Nothing past the reach of an offset
is handed out, however large the arena. -/
def alloc (n : Nat) : Action UInt16 := fun h =>
  let available := min h.bytes.size addressable - h.top
  if n > available || h.top ≥ addressable then
    .error (.exhausted n available) h
  else
    .ok (UInt16.ofNat h.top) { h with top := h.top + n }

def inBounds (h : Heap) (i length : Nat) : Bool := reserved ≤ i && i + length ≤ h.top

/-! ### String records -/

def allocStr (data : List UInt8) : Action UInt16 := do
  if data.length > maxStrLength then
    throw (.recordTooLarge data.length maxStrLength)
  let offset ← alloc (2 + data.length)
  modify fun h =>
    (h.setWord offset.toNat (UInt16.ofNat data.length)).write (offset.toNat + 2) data
  return offset

def isStrAt (h : Heap) (offset : UInt16) : Bool :=
  h.inBounds offset.toNat 2 && h.inBounds offset.toNat (2 + (h.word offset.toNat).toNat)

def strBytes (h : Heap) (offset : UInt16) : List UInt8 :=
  h.slice (offset.toNat + 2) (h.word offset.toNat).toNat

def strAt (h : Heap) (offset : UInt16) : Except Error UInt16 :=
  if h.isStrAt offset then .ok offset else .error (.invalidHandle offset)

/-! ### Array records -/

def allocArray (elems : List Value) : Action UInt16 := do
  if elems.length > maxArrayLength then
    throw (.recordTooLarge elems.length maxArrayLength)
  let offset ← alloc (1 + Value.size * elems.length)
  modify fun h =>
    (h.setByte offset.toNat (UInt8.ofNat elems.length)).write (offset.toNat + 1)
      (elems.flatMap Value.encode)
  return offset

def arrayLength (h : Heap) (offset : UInt16) : Nat := (h.byte offset.toNat).toNat

/-- The element at a position, or `none` past the end. -/
def arrayGet? (h : Heap) (offset : UInt16) (i : Nat) : Option Value :=
  if i < h.arrayLength offset then some (h.valueAt (offset.toNat + 1 + i * Value.size)) else none

def arrayElems (h : Heap) (offset : UInt16) : List Value :=
  (List.range (h.arrayLength offset)).filterMap (h.arrayGet? offset)

end Heap

end CellScript
