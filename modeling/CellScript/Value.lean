import CellScript.Number.Half
import CellScript.Word

/-!
# Tagged values

A value is a kind and a sixteen-bit payload. Strings come in three kinds by
length: the empty string and single bytes are held in the payload, longer ones
are references to heap records, as are arrays. The three-byte form is the same
on the operand stack, in identifier records and in array records.
-/

namespace CellScript

inductive Value where
  | unset
  | bool (b : Bool)
  | int (n : Int16)
  | float (h : Half)
  | strEmpty
  | strChar (c : UInt8)
  /-- A string of two or more bytes, by the offset of its heap record. -/
  | str (offset : UInt16)
  | proc (entry : UInt16)
  | func (entry : UInt16)
  | array (offset : UInt16)
  deriving Repr, DecidableEq, Inhabited

namespace Value

def size : Nat := 3

def tag : Value → UInt8
  | unset => 0
  | bool _ => 1
  | int _ => 2
  | float _ => 3
  | strEmpty => 4
  | strChar _ => 5
  | str _ => 6
  | proc _ => 7
  | func _ => 8
  | array _ => 9

def payload : Value → UInt16
  | unset | strEmpty => 0
  | bool b => if b then 1 else 0
  | int n => n.toUInt16
  | float h => h.bits
  | strChar c => c.toUInt16
  | str w | proc w | func w | array w => w

/-- The value of a kind byte and a payload, if there is such a kind. Payload bits
that the kind does not use are dropped. -/
def ofParts? (tag : UInt8) (payload : UInt16) : Option Value :=
  match tag.toNat with
  | 0 => some unset
  | 1 => some (bool (payload != 0))
  | 2 => some (int payload.toInt16)
  | 3 => some (float ⟨payload⟩)
  | 4 => some strEmpty
  | 5 => some (strChar payload.toUInt8)
  | 6 => some (str payload)
  | 7 => some (proc payload)
  | 8 => some (func payload)
  | 9 => some (array payload)
  | _ => none

/-- The name of a value's kind; the three kinds of string are not told apart. -/
def kindName : Value → String
  | unset => "unset"
  | bool _ => "bool"
  | int _ => "int"
  | float _ => "float"
  | strEmpty | strChar _ | str _ => "string"
  | proc _ => "proc"
  | func _ => "func"
  | array _ => "array"

def isString : Value → Bool
  | strEmpty | strChar _ | str _ => true
  | _ => false

/-- The stored form: kind byte, then the payload as a big-endian word. -/
def encode (v : Value) : List UInt8 := v.tag :: Word.bytes v.payload

def decode? (tag hi lo : UInt8) : Option Value := ofParts? tag (Word.ofBytes hi lo)

@[simp] theorem length_encode (v : Value) : v.encode.length = size := rfl

@[simp] theorem ofParts?_tag_payload (v : Value) : ofParts? v.tag v.payload = some v := by
  cases v with
  | bool b => cases b <;> rfl
  | int n => simp [ofParts?, tag, payload]
  | strChar c => simp [ofParts?, tag, payload]
  | _ => rfl

@[simp] theorem decode?_tag_payload (v : Value) :
    decode? v.tag (Word.hi v.payload) (Word.lo v.payload) = some v := by
  simp [decode?]

end Value

end CellScript
