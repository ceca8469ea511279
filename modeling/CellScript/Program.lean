import CellScript.Listing
import CellScript.SourceMap

/-!
# Compiled programs

A program is all that a run starts from: the code, the store with identifier
and string records, and the source map for error reports. Runs work on copies
of the heap, so a program can be run any number of times.
-/

namespace CellScript

structure Program where
  code : Array UInt8
  store : Store
  sourceMap : SourceMap
  deriving Inhabited

namespace Program

def heap (p : Program) : Heap := p.store.heap

/-- One line per instruction. -/
def listing (p : Program) : String := Listing.ofCode p.heap p.code

end Program

end CellScript
