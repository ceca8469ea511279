import CellScript.Builtin.Text
import CellScript.Text.Order

/-!
# Arithmetic, shifts and comparison

Two integers are combined in sixteen bits and wrap. As soon as one operand is a
float both are widened to single precision, and the result is narrowed again.
Where a code selects the operation, one that is not named selects the last.
-/

namespace CellScript

namespace Builtin

inductive Pair where
  | ints (x y : Int16)
  | floats (x y : Single)

/-- Brings two numbers to one representation, an integer to a float if need be. -/
def promote? : Value → Value → Option Pair
  | .int x, .int y => some (.ints x y)
  | .int x, .float y => some (.floats (.ofInt x.toInt) y.widen)
  | .float x, .int y => some (.floats x.widen (.ofInt y.toInt))
  | .float x, .float y => some (.floats x.widen y.widen)
  | _, _ => none

def ofSingle (x : Single) : Value := .float (.narrow x)

def arith (op : Opcode) (a b : Value) : Except Fault Value :=
  match promote? a b with
  | some (.ints x y) =>
    match op with
    | .add => .ok (.int (x + y))
    | .sub => .ok (.int (x - y))
    | .mul => .ok (.int (x * y))
    | _ => if y = 0 then .error .divisionByZero else .ok (.int (x / y))
  | some (.floats x y) =>
    match op with
    | .add => .ok (ofSingle (x.add y))
    | .sub => .ok (ofSingle (x.sub y))
    | .mul => .ok (ofSingle (x.mul y))
    | _ => .ok (ofSingle (x.div y))
  | none => .error (mismatch op [a, b])

/-- The remainder, with the sign of the dividend. -/
def remainder (a b : Value) : Except Fault Value :=
  match a, b with
  | .int x, .int y => if y = 0 then .error .divisionByZero else .ok (.int (x % y))
  | _, _ => .error (mismatch .mod [a, b])

/-- Shifts. To the left and plainly to the right they act on the pattern; the
arithmetic shift keeps the sign. -/
def shift (op : Opcode) (a b : Value) : Except Fault Value :=
  match a, b with
  | .int x, .int n =>
    if n < 0 then .error (.negativeArgument op.name n.toInt)
    else
      let bits := x.toUInt16
      match op with
      | .lsl => .ok (.int (if n ≥ 16 then 0 else (bits <<< n.toUInt16).toInt16))
      | .lsr => .ok (.int (if n ≥ 16 then 0 else (bits >>> n.toUInt16).toInt16))
      | _ => .ok (.int (x >>> (if n ≥ 15 then 15 else n)))
  | _, _ => .error (mismatch op [a, b])

def bitwise (op : Opcode) (a b : Value) : Except Fault Value :=
  match a, b with
  | .int x, .int y =>
    match op with
    | .band => .ok (.int (x &&& y))
    | .bor => .ok (.int (x ||| y))
    | _ => .ok (.int (x ^^^ y))
  | _, _ => .error (mismatch op [a, b])

def logical (op : Opcode) (a b : Value) : Except Fault Value :=
  match a, b with
  | .bool x, .bool y => .ok (.bool (if op = .land then x && y else x || y))
  | _, _ => .error (mismatch op [a, b])

/-- The order of two values: of numbers by value, of strings by their bytes, of
truth values only to tell them apart. Nothing is known of what is not a number. -/
def order (h : Heap) (op : Opcode) (a b : Value) : Except Fault (Option Ordering) :=
  match promote? a b with
  | some (.ints x y) => .ok (some (compare x.toInt y.toInt))
  | some (.floats x y) => .ok (x.compare y)
  | none =>
    match h.text? a, h.text? b with
    | some s, some t => .ok (some (compareBytes s t))
    | _, _ =>
      match a, b with
      | .bool x, .bool y =>
        if op = .eq || op = .ne then .ok (some (compare x y)) else .error (mismatch op [a, b])
      | _, _ => .error (mismatch op [a, b])

def holds (op : Opcode) (o : Option Ordering) : Bool :=
  match op with
  | .lt => o == some .lt
  | .le => o == some .lt || o == some .eq
  | .gt => o == some .gt
  | .ge => o == some .gt || o == some .eq
  | .eq => o == some .eq
  | _ => o != some .eq

def comparison (h : Heap) (op : Opcode) (a b : Value) : Except Fault Value :=
  (order h op a b).map fun o => .bool (holds op o)

end Builtin

end CellScript
