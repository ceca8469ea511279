import CellScript.Opcode
import CellScript.Text.Ascii
import CellScript.Text.Order

/-!
# Reserved words

Reserved words are kept in eight buckets, chosen by the low three bits of the
first byte. A bucket is sorted, so the scan for a word stops at the first row
that comes after it.
-/

namespace CellScript

inductive WordClass where
  | function (arity : Nat)
  | constant
  | command
  | listCommand
  | input
  /-- A word that opens, divides or closes a block, or leaves one. -/
  | control
  deriving Repr, DecidableEq

structure Keyword where
  op : Opcode
  cls : WordClass
  deriving Repr, DecidableEq

namespace Keyword

structure Row where
  spelling : String
  keyword : Keyword
  deriving Repr

def row (spelling : String) (op : Opcode) (cls : WordClass) : Row := ⟨spelling, op, cls⟩

def buckets : Array (List Row) := #[
  [row "print" .print .listCommand,
   row "proc" .wordProc .control],
  [row "abs" .abs (.function 1),
   row "asc" .asc (.function 1),
   row "if" .wordIf .control,
   row "input" .input .input,
   row "int" .int (.function 1)],
  [row "break" .wordBreak .control,
   row "repeat" .wordRepeat .control,
   row "return" .wordReturn .control,
   row "right" .right (.function 2),
   row "rnd" .rnd (.function 0)],
  [row "chr" .chr (.function 1),
   row "sgn" .sgn (.function 1),
   row "sqrt" .sqrt (.function 1),
   row "stop" .stop .command,
   row "str" .str (.function 1),
   row "substr" .substr (.function 3)],
  [row "left" .left (.function 2),
   row "len" .len (.function 1),
   row "true" .litTrue .constant],
  [row "else" .wordElse .control,
   row "end" .wordEnd .control,
   row "endif" .wordEndif .control,
   row "until" .wordUntil .control],
  [row "false" .litFalse .constant,
   row "float" .float (.function 1),
   row "func" .wordFunc .control],
  [row "wend" .wordWend .control,
   row "while" .wordWhile .control]]

def rows : List Row := buckets.toList.flatten

/-- The word's row in a sorted list. -/
def scan (word : List UInt8) : List Row → Option Keyword
  | [] => none
  | r :: rs =>
    match compareBytes (Ascii.bytes r.spelling) word with
    | .eq => some r.keyword
    | .gt => none
    | .lt => scan word rs

/-- The meaning of a word, if it is reserved. Case matters. -/
def lookup? : List UInt8 → Option Keyword
  | [] => none
  | b :: bs => scan (b :: bs) (buckets.getD (b.toNat % 8) [])

end Keyword

end CellScript
