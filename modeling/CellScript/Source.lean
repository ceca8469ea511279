import CellScript.Bisect
import CellScript.Text.Ascii
import CellScript.Text.Utf8

/-!
# Program texts and positions

The compiler knows byte offsets only. Lines and columns, counted from one and in
bytes, are worked out from a table of line starts when something is reported. They
have thirty-two bits, which the end of a text of four gigabytes would not fit.
-/

namespace CellScript

instance coeNatOfUInt32 : Coe UInt32 Nat := ⟨UInt32.toNat⟩

instance coeUInt32OfNat : Coe Nat UInt32 := ⟨UInt32.ofNat⟩

structure Span where
  startLine : UInt32
  startCol : UInt32
  endLine : UInt32
  endCol : UInt32
  deriving Repr, DecidableEq, Inhabited

def Span.text (s : Span) : String := toString s.startLine ++ ":" ++ toString s.startCol

structure Source where
  name : String
  bytes : Array UInt8
  lineStarts : Array Nat
  deriving Repr, Inhabited

namespace Source

/-- The offsets just behind each line feed, the first byte being at `offset`. -/
def startsAfter (offset : Nat) : List UInt8 → List Nat
  | [] => []
  | b :: bs =>
    if b = 10 then (offset + 1) :: startsAfter (offset + 1) bs else startsAfter (offset + 1) bs

def ofBytes (name : String) (bytes : List UInt8) : Source :=
  ⟨name, bytes.toArray, (0 :: startsAfter 0 bytes).toArray⟩

def ofText (name text : String) : Source := ofBytes name (Ascii.bytes text)

def size (s : Source) : Nat := s.bytes.size

def lineCount (s : Source) : Nat := s.lineStarts.size

def dropReturn (line : List UInt8) : List UInt8 :=
  if line.getLast? = some 13 then line.dropLast else line

/-- The bytes of a line, counted from one, without its line break. -/
def lineBytes? (s : Source) (n : Nat) : Option (List UInt8) :=
  if n = 0 then none
  else
    match s.lineStarts[n - 1]? with
    | none => none
    | some start =>
      let stop := match s.lineStarts[n]? with
        | some next => next - 1
        | none => s.size
      some (dropReturn (s.bytes.extract start stop).toList)

def line? (s : Source) (n : UInt32) : Option String := (s.lineBytes? n).map Utf8.text

/-- Where an offset is among the line starts: at one of them, or behind the one before. -/
def lineIndex (s : Source) (offset : Nat) : Nat :=
  match binarySearch (fun i => s.lineStarts.getD i 0) s.lineCount offset with
  | .ok i => i
  | .error i => i - 1

/-- The line and column of an offset. An offset past the end stands for the end. -/
def position (s : Source) (offset : Nat) : UInt32 × UInt32 :=
  let offset := min offset s.size
  let index := s.lineIndex offset
  (UInt32.ofNat index + 1, UInt32.ofNat (offset - s.lineStarts.getD index 0) + 1)

/-- The span between two offsets, empty if they are out of order. -/
def span (s : Source) (start stop : Nat) : Span :=
  let (startLine, startCol) := s.position start
  let (endLine, endCol) := s.position (max start stop)
  ⟨startLine, startCol, endLine, endCol⟩

end Source

end CellScript
