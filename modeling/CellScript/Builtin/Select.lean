import CellScript.Builtin.Text

/-!
# Parts of strings and arrays

`left`, `right` and `substr` count from the front and clamp at the end of the
string. Indices and ranges apply to strings and arrays alike, count from the end
when negative, and never clamp.
-/

namespace CellScript

namespace Builtin

def intArgument (op : Opcode) : Value → Except Fault Int16
  | .int n => .ok n
  | v => .error (mismatch op [v])

def lift {α : Type} : Except Fault α → Operation α
  | .ok a => pure a
  | .error e => throw e

/-- At most `count` bytes from `start` on; both ends are cut off at the end of the string. -/
def substring (op : Opcode) (s : Value) (start count : Int16) : Operation Value := do
  match (← get).text? s with
  | none => throw (mismatch op [s])
  | some bytes =>
    if start < 0 then throw (.negativeArgument op.name start.toInt)
    if count < 0 then throw (.negativeArgument op.name count.toInt)
    let first := min start.toInt.toNat bytes.length
    let last := first + min count.toInt.toNat (bytes.length - first)
    makeStr (bytes.extract first last)

def left (s n : Value) : Operation Value := do
  let n ← lift (intArgument .left n)
  substring .left s 0 n

/-- The last `n` bytes. Where they begin is a sixteen-bit number like any other. -/
def right (s n : Value) : Operation Value := do
  let n ← lift (intArgument .right n)
  match (← get).text? s with
  | none => throw (mismatch .right [s])
  | some bytes =>
    if n < 0 then throw (.negativeArgument Opcode.right.name n.toInt)
    let count := min n.toInt.toNat bytes.length
    substring .right s (Int16.ofNat (bytes.length - count)) (Int16.ofNat count)

def substr (s start n : Value) : Operation Value := do
  let start ← lift (intArgument .substr start)
  let n ← lift (intArgument .substr n)
  substring .substr s start n

/-- The position that an index means in a sequence of `length` items. -/
def position (i : Int16) (length : Nat) : Int :=
  if i < 0 then length + i.toInt else i.toInt

def itemPosition (i : Int16) (length : Nat) : Except Fault Nat :=
  let k := position i length
  if k < 0 ∨ k ≥ length then .error (.indexOutOfRange i.toInt length) else .ok k.toNat

/-- The position of an end of a range, which may lie behind the last item. -/
def rangePosition (i : Int16) (length : Nat) : Except Fault Nat :=
  let k := position i length
  if k < 0 ∨ k > length then .error (.indexOutOfRange i.toInt length) else .ok k.toNat

def range (i j : Int16) (length : Nat) : Except Fault (Nat × Nat) := do
  let start ← rangePosition i length
  let stop ← rangePosition j length
  if start > stop then .error (.indexOutOfRange j.toInt length) else .ok (start, stop)

def index (h : Heap) (container i : Value) : Except Fault Value := do
  let i ← intArgument .index i
  match container with
  | .array offset =>
    let length := h.arrayLength offset
    let k ← itemPosition i length
    match h.arrayGet? offset k with
    | some v => .ok v
    | none => .error (.indexOutOfRange i.toInt length)
  | _ =>
    match h.text? container with
    | none => .error (mismatch .index [container])
    | some bytes =>
      let k ← itemPosition i bytes.length
      .ok (.strChar (bytes.getD k 0))

def slice (container i j : Value) : Operation Value := do
  let i ← lift (intArgument .slice i)
  let j ← lift (intArgument .slice j)
  let h ← get
  match container with
  | .array offset =>
    let elems := h.arrayElems offset
    let (start, stop) ← lift (range i j elems.length)
    makeArray ((elems.drop start).take (stop - start))
  | _ =>
    match h.text? container with
    | none => throw (mismatch .slice [container])
    | some bytes =>
      let (start, stop) ← lift (range i j bytes.length)
      makeStr ((bytes.drop start).take (stop - start))

end Builtin

end CellScript
