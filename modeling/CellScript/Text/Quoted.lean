import CellScript.Text.CharClass.Combining
import CellScript.Text.CharClass.Invisible
import CellScript.Text.Hex

/-!
# Quoted text

Listings show literals between quotes, on one line and unambiguously: the usual
escapes for the null, tab, line-break and backslash characters and for the
quote in use, and `\u` with the code point for whatever would be invisible or
would combine with its neighbour.
-/

namespace CellScript

namespace Quoted

/-- One character inside quotes of kind `quote`. What remains of ASCII after the
named escapes and the controls stands for itself. -/
def escape (quote c : Char) : List Char :=
  if c = Char.ofNat 0 then ['\\', '0']
  else if c = '\t' then ['\\', 't']
  else if c = '\r' then ['\\', 'r']
  else if c = '\n' then ['\\', 'n']
  else if c = '\\' || c = quote then ['\\', c]
  else if ' ' ≤ c && c ≤ '~' then [c]
  else if CharClass.invisible.contains c || CharClass.combining.contains c then
    '\\' :: 'u' :: '{' :: Hex.digitsOnto (c.toNat + 1) c.toNat ['}']
  else [c]

def string (cs : List Char) : String :=
  String.ofList ('"' :: cs.flatMap (escape '"') ++ ['"'])

def char (c : Char) : String :=
  String.ofList ('\'' :: escape '\'' c ++ ['\''])

end Quoted

end CellScript
