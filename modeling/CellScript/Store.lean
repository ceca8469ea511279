import CellScript.Heap
import CellScript.Text.Utf8

/-!
# Identifier records

Every name of a program has one record in the heap:

```
next(2) hash(2) value(3) slot(1) arguments(1) length(1) name
```

`next` links the records whose hashes fall into the same bucket, in the order in
which the names were first met. `slot` is the place of a parameter or local
while the body that owns it is compiled; on the record of a procedure or
function it is the size of its frame in slots.
-/

namespace CellScript

structure Ident where
  offset : UInt16
  deriving Repr, DecidableEq, Inhabited

namespace Ident

/-- The slot byte of a name that is no local. -/
def noSlot : UInt8 := 0xff

def maxLength : Nat := 255

def hashField : Nat := 2
def valueField : Nat := 4
def slotField : Nat := 7
def argumentsField : Nat := 8
def lengthField : Nat := 9
def nameField : Nat := 10

/-- The hash of a name: a polynomial in its bytes, in sixteen bits. -/
def hash (name : List UInt8) : UInt16 :=
  name.foldl (fun h b => h * 101 + b.toUInt16) 0

end Ident

namespace Heap

/-! ### Fields of a record -/

def identName (h : Heap) (id : Ident) : List UInt8 :=
  h.slice (id.offset.toNat + Ident.nameField) (h.byte (id.offset.toNat + Ident.lengthField)).toNat

def identHash (h : Heap) (id : Ident) : UInt16 := h.word (id.offset.toNat + Ident.hashField)

def identValue (h : Heap) (id : Ident) : Value := h.valueAt (id.offset.toNat + Ident.valueField)

def identSlot (h : Heap) (id : Ident) : UInt8 := h.byte (id.offset.toNat + Ident.slotField)

def identArguments (h : Heap) (id : Ident) : UInt8 :=
  h.byte (id.offset.toNat + Ident.argumentsField)

def identText (h : Heap) (id : Ident) : String := Utf8.text (h.identName id)

def setIdentValue (h : Heap) (id : Ident) (v : Value) : Heap :=
  h.setValueAt (id.offset.toNat + Ident.valueField) v

def setIdentSlot (h : Heap) (id : Ident) (slot : UInt8) : Heap :=
  h.setByte (id.offset.toNat + Ident.slotField) slot

def setIdentArguments (h : Heap) (id : Ident) (n : UInt8) : Heap :=
  h.setByte (id.offset.toNat + Ident.argumentsField) n

def identAt (h : Heap) (offset : UInt16) : Except Error Ident :=
  let i := offset.toNat
  if h.inBounds i Ident.nameField
      && h.inBounds i (Ident.nameField + (h.byte (i + Ident.lengthField)).toNat)
  then .ok ⟨offset⟩
  else .error (.invalidHandle offset)

def isNamed (h : Heap) (name : List UInt8) (id : Ident) : Bool :=
  h.identHash id == Ident.hash name && h.identName id == name

/-- The records linked from `offset` on. Offsets increase along a chain, so the
size of the arena bounds its length. -/
def chainFrom (h : Heap) : (fuel : Nat) → (offset : UInt16) → List Ident
  | 0, _ => []
  | fuel + 1, offset =>
    if offset = 0 then [] else ⟨offset⟩ :: h.chainFrom fuel (h.word offset.toNat)

/-- The bytes of a fresh record: linked to nothing, unset, no local, no arguments. -/
def identRecord (name : List UInt8) : List UInt8 :=
  Word.bytes 0 ++ Word.bytes (Ident.hash name) ++ Value.encode .unset
    ++ [Ident.noSlot, 0, UInt8.ofNat name.length] ++ name

end Heap

/-- What a call comes to: a result, or the message with which everything breaks off. -/
inductive Call (α : Type) where
  | returned (a : α)
  | panicked (message : String)
  deriving Repr, DecidableEq

/-- The largest piece of memory. None is refused that is not larger. -/
def maxAllocation : Nat := 9223372036854775807

structure Store where
  heap : Heap
  buckets : Array UInt16
  deriving DecidableEq, Inhabited

namespace Store

def ofSize (heapSize buckets : Nat) : Store := ⟨.ofSize heapSize, Array.replicate buckets 0⟩

/-- A new store whose table, two bytes a bucket, is allocated in one piece. -/
def allocate (heapSize buckets : Nat) : Call Store :=
  if maxAllocation < 2 * buckets then .panicked "capacity overflow"
  else .returned (ofSize heapSize buckets)

def bucketOf (s : Store) (hash : UInt16) : Nat := hash.toNat &&& (s.buckets.size - 1)

def chain (s : Store) (bucket : Nat) : List Ident :=
  s.heap.chainFrom s.heap.top (s.buckets.getD bucket 0)

def find? (s : Store) (name : List UInt8) : Option Ident :=
  (s.chain (s.bucketOf (Ident.hash name))).find? (s.heap.isNamed name)

def idents (s : Store) : List (Nat × Ident) :=
  (List.range s.buckets.size).flatMap fun b => (s.chain b).map fun id => (b, id)

def onHeap {ε δ α : Type} (wrap : ε → δ) (act : EStateM ε Heap α) : EStateM δ Store α :=
  fun ⟨heap, buckets⟩ =>
    match act heap with
    | .ok a heap => .ok a ⟨heap, buckets⟩
    | .error e heap => .error (wrap e) ⟨heap, buckets⟩

/-- Links a record behind the last one of its bucket. -/
def link (s : Store) (bucket : Nat) (id : Ident) : Store :=
  match (s.chain bucket).getLast? with
  | none => { s with buckets := s.buckets.setIfInBounds bucket id.offset }
  | some last => { s with heap := s.heap.setWord last.offset.toNat id.offset }

/-- The record of a name, made now if the name is new, and whether it is new. -/
def intern (name : List UInt8) : EStateM Heap.Error Store (Ident × Bool) := do
  if name.length > Ident.maxLength then
    throw (.recordTooLarge name.length Ident.maxLength)
  let s ← get
  match s.find? name with
  | some id => return (id, false)
  | none =>
    let offset ← onHeap id (Heap.alloc (Ident.nameField + name.length))
    modify fun s =>
      let s := s.link (s.bucketOf (Ident.hash name)) ⟨offset⟩
      { s with heap := s.heap.write offset.toNat (Heap.identRecord name) }
    return (⟨offset⟩, true)

end Store

end CellScript
