/-!
# Byte classes and byte text

Program text is handled as bytes. The grammar only ever asks whether a byte is
an ASCII digit, letter, word byte or blank, so those classes are predicates on
`UInt8`; every byte above 127 is in none of them.
-/

namespace CellScript

namespace Ascii

def isDigit (b : UInt8) : Bool := 48 ≤ b && b ≤ 57

def isUpper (b : UInt8) : Bool := 65 ≤ b && b ≤ 90

def isLower (b : UInt8) : Bool := 97 ≤ b && b ≤ 122

def isLetter (b : UInt8) : Bool := isUpper b || isLower b

def isWordStart (b : UInt8) : Bool := isLetter b || b == 95

def isWordByte (b : UInt8) : Bool := isWordStart b || isDigit b

/-- Space, tab, carriage return and line feed separate tokens. -/
def isBlank (b : UInt8) : Bool := b == 32 || b == 9 || b == 13 || b == 10

/-- The lower-case form of an ASCII letter; other bytes are unchanged. -/
def toLower (b : UInt8) : UInt8 := if isUpper b then b + 32 else b

def digitValue (b : UInt8) : Nat := b.toNat - 48

def bytes (s : String) : List UInt8 := s.toByteArray.data.toList

/-- Shows each byte as the character of that number. On ASCII this is the text itself. -/
def text (bs : List UInt8) : String := String.ofList (bs.map fun b => Char.ofNat b.toNat)

def natOfDigits (ds : List UInt8) : Nat := ds.foldl (fun n d => 10 * n + digitValue d) 0

end Ascii

end CellScript
