import CellScript.Text.Utf8

/-!
# Consoles

A program prints lines and reads lines. Two consoles offer that: one serves
lines from a queue and collects what is printed, the other works on the byte
streams of a terminal session.
-/

namespace CellScript

class Console (κ : Type) where
  writeLine : List UInt8 → κ → κ
  /-- The next line without its line break; `none` at the end of the input. -/
  readLine? : κ → Option (List UInt8 × κ)

structure QueuedConsole where
  output : Array (List UInt8)
  input : List (List UInt8)
  deriving DecidableEq, Inhabited

namespace QueuedConsole

def ofInput (lines : List (List UInt8)) : QueuedConsole := ⟨#[], lines⟩

instance : Console QueuedConsole where
  writeLine line c := { c with output := c.output.push line }
  readLine? c :=
    match c.input with
    | [] => none
    | line :: input => some (line, { c with input })

def lines (c : QueuedConsole) : List String := c.output.toList.map Utf8.text

/-- All that was printed, each line ended by a line feed. -/
def text (c : QueuedConsole) : String := String.join (c.lines.map (· ++ "\n"))

end QueuedConsole

structure StreamConsole where
  input : List UInt8
  output : Array UInt8
  deriving DecidableEq, Inhabited

namespace StreamConsole

def ofInput (input : List UInt8) : StreamConsole := ⟨input, #[]⟩

/-- The bytes up to a line feed, and what follows it if it is there. -/
def splitLine : List UInt8 → List UInt8 × Option (List UInt8)
  | [] => ([], none)
  | b :: bs =>
    if b = 10 then ([], some bs)
    else
      let (line, rest) := splitLine bs
      (b :: line, rest)

def dropReturn (line : List UInt8) : List UInt8 :=
  if line.getLast? = some 13 then line.dropLast else line

instance : Console StreamConsole where
  writeLine line c := { c with output := (c.output ++ line).push 10 }
  readLine? c :=
    if c.input.isEmpty then none
    else
      match splitLine c.input with
      | (line, some input) => some (dropReturn line, { c with input })
      | (line, none) => some (line, { c with input := [] })

end StreamConsole

end CellScript
