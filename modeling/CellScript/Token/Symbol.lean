/-!
# Punctuation

The bytes that separate and group, by name.
-/

namespace CellScript

namespace Symbol

def openParen : UInt8 := 40
def closeParen : UInt8 := 41
def comma : UInt8 := 44
def colon : UInt8 := 58
def semicolon : UInt8 := 59
def equals : UInt8 := 61
def openBracket : UInt8 := 91
def closeBracket : UInt8 := 93

end Symbol

end CellScript
