import CellScript.Json.Reader
import CellScript.Source

/-!
# Source maps

The compiler notes for each statement where its code begins. Looking up an
address finds the last statement that begins at or before it. Statements that
emit no code leave no trace: the next one takes over their entry.
-/

namespace CellScript

structure MapEntry where
  offset : Nat
  span : Span
  deriving Repr, DecidableEq, Inhabited

structure SourceMap where
  entries : Array MapEntry
  deriving Repr, DecidableEq, Inhabited

namespace SourceMap

def empty : SourceMap := ⟨#[]⟩

/-- Notes a statement whose code begins at `offset`. -/
def push (m : SourceMap) (offset : Nat) (span : Span) : SourceMap :=
  match m.entries.back? with
  | some last =>
    if last.offset = offset then ⟨m.entries.pop.push ⟨offset, span⟩⟩
    else ⟨m.entries.push ⟨offset, span⟩⟩
  | none => ⟨m.entries.push ⟨offset, span⟩⟩

def lookup? (m : SourceMap) (pc : Nat) : Option Span :=
  let n := bisect (fun i => decide ((m.entries.getD i default).offset ≤ pc)) m.entries.size
  if n = 0 then none else (m.entries[n - 1]?).map MapEntry.span

/-! ### The JSON form -/

def jsonObject (fields : List (String × String)) : String :=
  "\x7b" ++ String.intercalate "," (fields.map fun (name, v) => "\"" ++ name ++ "\":" ++ v)
    ++ "\x7d"

def entryJson (e : MapEntry) : String :=
  jsonObject [
    ("offset", toString e.offset),
    ("span", jsonObject [
      ("start_line", toString e.span.startLine),
      ("start_col", toString e.span.startCol),
      ("end_line", toString e.span.endLine),
      ("end_col", toString e.span.endCol)])]

def toJson (m : SourceMap) : String :=
  jsonObject [("entries", "[" ++ String.intercalate "," (m.entries.toList.map entryJson) ++ "]")]

/-- Lines and columns have thirty-two bits. -/
def spanOfJson? (j : Json) : Option Span := do
  match ← Json.fields? ["start_line", "start_col", "end_line", "end_col"] j with
  | [a, b, c, d] =>
    let n (j : Json) : Option UInt32 := (Json.natBelow? 4294967296 j).map UInt32.ofNat
    return ⟨← n a, ← n b, ← n c, ← n d⟩
  | _ => none

def entryOfJson? (j : Json) : Option MapEntry := do
  match ← Json.fields? ["offset", "span"] j with
  | [offset, span] =>
    return ⟨← Json.natBelow? 18446744073709551616 offset, ← spanOfJson? span⟩
  | _ => none

/-- Reads the JSON form; members of other names are passed over. -/
def ofJson? (text : String) : Option SourceMap := do
  match ← Json.fields? ["entries"] (← Json.parse? text) with
  | [.array entries] => return ⟨(← entries.mapM entryOfJson?).toArray⟩
  | _ => none

end SourceMap

end CellScript
