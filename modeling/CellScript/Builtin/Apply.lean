import CellScript.Builtin.Arithmetic
import CellScript.Builtin.Convert
import CellScript.Builtin.Select

/-!
# Operations by code

The one- and two-operand operations, chosen by instruction code. A code that is
no such operation takes no values at all.
-/

namespace CellScript

namespace Builtin

def binary (op : Opcode) (a b : Value) : Operation Value := do
  match op with
  | .add =>
    let h ← get
    match h.text? a, h.text? b with
    | some s, some t => makeStr (s ++ t)
    | _, _ => lift (arith op a b)
  | .sub | .mul | .div => lift (arith op a b)
  | .mod => lift (remainder a b)
  | .lsl | .lsr | .asr => lift (shift op a b)
  | .band | .bor | .beor => lift (bitwise op a b)
  | .land | .lor => lift (logical op a b)
  | .lt | .le | .gt | .ge | .eq | .ne => lift (comparison (← get) op a b)
  | _ => throw (mismatch op [a, b])

def signOf (x : Single) : Int16 :=
  match x.compare (.ofInt 0) with
  | some .gt => 1
  | some .lt => -1
  | _ => 0

/-- The magnitude of an integer; the least one has none and stays. -/
def magnitude (n : Int16) : Int16 := if n < 0 then -n else n

def unary (op : Opcode) (a : Value) : Operation Value := do
  match op, a with
  | .neg, .int n => return .int (-n)
  | .neg, .float x => return ofSingle x.widen.neg
  | .bnot, .int n => return .int (~~~n)
  | .lnot, .bool b => return .bool (!b)
  | .abs, .int n => return .int (magnitude n)
  | .abs, .float x => return .float x.abs
  | .sgn, .int n => return .int (if n > 0 then 1 else if n < 0 then -1 else 0)
  | .sgn, .float x => return .int (signOf x.widen)
  | .sqrt, .int n => return ofSingle (Single.ofInt n.toInt).sqrt
  | .sqrt, .float x => return ofSingle x.widen.sqrt
  | .int, .int n => return .int n
  | .int, .float x => lift (intOfSingle x.widen)
  | .int, _ =>
    match (← get).text? a with
    | some t => lift (intOfText t)
    | none => throw (mismatch op [a])
  | .float, .int n => return ofSingle (.ofInt n.toInt)
  | .float, .float x => return .float x
  | .float, _ =>
    match (← get).text? a with
    | some t => lift (floatOfText t)
    | none => throw (mismatch op [a])
  | .asc, _ =>
    match (← get).text? a with
    | some t => return .int (Int16.ofNat (t.headD 0).toNat)
    | none => throw (mismatch op [a])
  | .chr, .int n => return .strChar n.toUInt16.toUInt8
  | .str, _ => makeStr (render (← get) a)
  | .len, .array offset => lift (ofLength ((← get).arrayLength offset))
  | .len, _ =>
    match (← get).text? a with
    | some t => lift (ofLength t.length)
    | none => throw (mismatch op [a])
  | _, _ => throw (mismatch op [a])

end Builtin

end CellScript
