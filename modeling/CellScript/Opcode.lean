/-!
# Instruction codes

Codes are the bytes from `0x80` on, in a fixed order that compiler and machine
share. Operators and built-in functions are their own instructions. A reserved
word that only shapes the code around it has a code too, as its identity in the
keyword table, but no instruction is ever emitted for it; those constructors
begin with `word`.
-/

namespace CellScript

inductive Shape where
  | none
  | byte
  | word
  /-- An argument count, then the offset of the callee's record. -/
  | call
  deriving Repr, DecidableEq

namespace Shape

def size : Shape → Nat
  | none => 0
  | byte => 1
  | word => 2
  | call => 3

def name : Shape → String
  | none => "none"
  | byte => "byte"
  | word => "word"
  | call => "call"

end Shape

/-- What an instruction does, in the order of the codes. -/
inductive Opcode where
  | fail | mark | neg | bnot | lnot | mul | div | mod | add | sub | asr | lsr | lsl | le | lt
  | gt | ge | eq | ne | band | bor | beor | land | lor | abs | asc | wordBreak | chr | wordElse
  | wordEnd | wordEndif | litFalse | float | wordFunc | wordIf | input | int | left | len
  | print | wordProc | wordRepeat | wordReturn | right | rnd | sgn | sqrt | stop | str | substr
  | litTrue | wordUntil | wordWend | wordWhile | index | slice | array | callProc | callFunc
  | identGet | identSet | slotGet | slotSet | litInt | litFloat | litStrEmpty | litStrChar
  | litStr | jump | jfalse | returnFunc | returnProc | returnMissing
  deriving Repr, DecidableEq, Inhabited

namespace Opcode

def all : Array Opcode := #[
  fail, mark, neg, bnot, lnot, mul, div, mod, add, sub, asr, lsr, lsl, le, lt, gt, ge, eq, ne,
  band, bor, beor, land, lor, abs, asc, wordBreak, chr, wordElse, wordEnd, wordEndif, litFalse,
  float, wordFunc, wordIf, input, int, left, len, print, wordProc, wordRepeat, wordReturn,
  right, rnd, sgn, sqrt, stop, str, substr, litTrue, wordUntil, wordWend, wordWhile, index,
  slice, array, callProc, callFunc, identGet, identSet, slotGet, slotSet, litInt, litFloat,
  litStrEmpty, litStrChar, litStr, jump, jfalse, returnFunc, returnProc, returnMissing]

def toByte (op : Opcode) : UInt8 := UInt8.ofNat (0x80 + op.ctorIdx)

def ofByte? (b : UInt8) : Option Opcode :=
  if b < 0x80 then none else all[b.toNat - 0x80]?

def name : Opcode → String
  | fail => "fail"
  | mark => "mark"
  | neg => "neg"
  | bnot => "bnot"
  | lnot => "lnot"
  | mul => "mul"
  | div => "div"
  | mod => "mod"
  | add => "add"
  | sub => "sub"
  | asr => "asr"
  | lsr => "lsr"
  | lsl => "lsl"
  | le => "le"
  | lt => "lt"
  | gt => "gt"
  | ge => "ge"
  | eq => "eq"
  | ne => "ne"
  | band => "band"
  | bor => "bor"
  | beor => "beor"
  | land => "land"
  | lor => "lor"
  | abs => "abs"
  | asc => "asc"
  | wordBreak => "break"
  | chr => "chr"
  | wordElse => "else"
  | wordEnd => "end"
  | wordEndif => "endif"
  | litFalse => "false"
  | float => "float"
  | wordFunc => "func"
  | wordIf => "if"
  | input => "input"
  | int => "int"
  | left => "left"
  | len => "len"
  | print => "print"
  | wordProc => "proc"
  | wordRepeat => "repeat"
  | wordReturn => "return"
  | right => "right"
  | rnd => "rnd"
  | sgn => "sgn"
  | sqrt => "sqrt"
  | stop => "stop"
  | str => "str"
  | substr => "substr"
  | litTrue => "true"
  | wordUntil => "until"
  | wordWend => "wend"
  | wordWhile => "while"
  | index => "index"
  | slice => "slice"
  | array => "array"
  | callProc => "call_proc"
  | callFunc => "call_func"
  | identGet => "ident_get"
  | identSet => "ident_set"
  | slotGet => "slot_get"
  | slotSet => "slot_set"
  | litInt => "lit_int"
  | litFloat => "lit_float"
  | litStrEmpty => "lit_str_empty"
  | litStrChar => "lit_str_char"
  | litStr => "lit_str"
  | jump => "jump"
  | jfalse => "jfalse"
  | returnFunc => "return_func"
  | returnProc => "return_proc"
  | returnMissing => "return_missing"

def ofName? (s : String) : Option Opcode := all.find? (·.name == s)

def shape : Opcode → Shape
  | print | array | slotGet | slotSet | litStrChar => .byte
  | identGet | identSet | litInt | litFloat | litStr | jump | jfalse => .word
  | callProc | callFunc => .call
  | _ => .none

def isExecutable : Opcode → Bool
  | fail | mark | wordBreak | wordElse | wordEnd | wordEndif | wordFunc | wordIf | wordProc
  | wordRepeat | wordReturn | wordUntil | wordWend | wordWhile => false
  | _ => true

set_option maxRecDepth 4000 in
@[simp] theorem ofByte?_toByte (op : Opcode) : ofByte? op.toByte = some op := by
  cases op <;> rfl

end Opcode

end CellScript
