import CellScript.Instruction
import CellScript.Number.Shortest
import CellScript.Store
import CellScript.Text.Quoted

/-!
# Listings

A listing has one line for each piece of the code: the offset, the name and the
operands as a reader wants to see them. Names and string literals are looked up
in the heap; an offset at which no record lies is shown as it is.
-/

namespace CellScript

namespace Listing

def identOperand (h : Heap) (offset : UInt16) : String :=
  match h.identAt offset with
  | .ok id => h.identText id
  | .error _ => "@" ++ Hex.address 4 offset.toNat

def operands (h : Heap) (i : Instruction) : String :=
  match i.op with
  | .litInt => toString (signedWord i.word)
  | .litFloat => (Half.widen ⟨i.word⟩).toText
  | .litStrChar => Quoted.char (Char.ofNat i.byte.toNat)
  | .litStr =>
    match h.strAt i.word with
    | .ok offset => Quoted.string (Utf8.decode (h.strBytes offset))
    | .error _ => "@" ++ Hex.address 4 i.word.toNat
  | .identGet | .identSet => identOperand h i.word
  | .slotGet | .slotSet => "#" ++ toString i.byte.toNat
  | .callProc | .callFunc => identOperand h i.word ++ "/" ++ toString i.byte.toNat
  | .jump | .jfalse => "-> " ++ Hex.padded 4 i.jumpCounter
  | op =>
    match op.shape with
    | .none => ""
    | .byte => toString i.byte.toNat
    | .word => toString i.word.toNat
    | .call => toString i.byte.toNat ++ " " ++ toString i.word.toNat

def line (h : Heap) (item : CodeItem) : String :=
  Hex.padded 4 item.offset ++ " " ++
    match item with
    | .raw _ b => ".byte " ++ Hex.address 2 b.toNat
    | .instruction i =>
      let shown := operands h i
      if shown.isEmpty then i.op.name else i.op.name ++ " " ++ shown

/-- The whole listing, each line ended by a line feed. -/
def ofCode (h : Heap) (code : Array UInt8) : String :=
  String.join ((CodeItem.items code).map fun item => line h item ++ "\n")

end Listing

end CellScript
