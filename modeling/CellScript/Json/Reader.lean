/-!
# Reading JSON

Limits and source maps are exchanged as JSON texts. The reader accepts exactly
the JSON grammar; of numbers it keeps what those documents use, the natural
numbers, and only notes that anything else was there. Every recognizer returns
the rest of the text.
-/

namespace CellScript

inductive Json where
  | null
  | bool (b : Bool)
  | natural (n : Nat)
  | otherNumber
  /-- A string, or `none` if its escapes spell no text. -/
  | string (s : Option String)
  | array (elems : List Json)
  | object (members : List (Option String × Json))
  deriving Inhabited

namespace Json

def skipBlank : List Char → List Char
  | c :: cs => if c = ' ' || c = '\t' || c = '\n' || c = '\r' then skipBlank cs else c :: cs
  | [] => []

def expect : (word : List Char) → List Char → Option (List Char)
  | [], cs => some cs
  | w :: ws, c :: cs => if w = c then expect ws cs else none
  | _ :: _, [] => none

/-! ### Numbers -/

def digits : List Char → List Char × List Char
  | c :: cs =>
    if c.isDigit then
      let (ds, rest) := digits cs
      (c :: ds, rest)
    else ([], c :: cs)
  | [] => ([], [])

def natOfDigits (ds : List Char) : Nat := ds.foldl (fun n d => 10 * n + (d.toNat - 48)) 0

def fraction : List Char → Option (Bool × List Char)
  | '.' :: cs =>
    match digits cs with
    | ([], _) => none
    | (_, rest) => some (true, rest)
  | cs => some (false, cs)

def exponentSign : List Char → List Char
  | '+' :: cs => cs
  | '-' :: cs => cs
  | cs => cs

def exponent : List Char → Option (Bool × List Char)
  | c :: cs =>
    if c = 'e' || c = 'E' then
      match digits (exponentSign cs) with
      | ([], _) => none
      | (_, rest) => some (true, rest)
    else some (false, c :: cs)
  | [] => some (false, [])

/-- A number without sign; a leading zero stands alone. -/
def unsigned (cs : List Char) : Option (Json × List Char) := do
  let (ds, rest) := digits cs
  if ds.isEmpty || (ds.head? == some '0' && ds.length > 1) then none
  let (fractional, rest) ← fraction rest
  let (scaled, rest) ← exponent rest
  return (if fractional || scaled then .otherNumber else .natural (natOfDigits ds), rest)

def number : List Char → Option (Json × List Char)
  | '-' :: cs => (unsigned cs).map fun (_, rest) => (.otherNumber, rest)
  | cs => unsigned cs

/-! ### Strings -/

def hexValue? (c : Char) : Option Nat :=
  if c.isDigit then some (c.toNat - 48)
  else if 'a' ≤ c && c ≤ 'f' then some (c.toNat - 87)
  else if 'A' ≤ c && c ≤ 'F' then some (c.toNat - 55)
  else none

def hex4? (a b c d : Char) : Option Nat := do
  let high := (← hexValue? a) * 16 + (← hexValue? b)
  return high * 256 + (← hexValue? c) * 16 + (← hexValue? d)

def shortEscape? : Char → Option Char
  | '"' => some '"'
  | '\\' => some '\\'
  | '/' => some '/'
  | 'b' => some '\x08'
  | 'f' => some '\x0c'
  | 'n' => some '\n'
  | 'r' => some '\r'
  | 't' => some '\t'
  | _ => none

/-- The sixteen-bit units of a string up to its closing quote, and the rest. A
character that is no escape counts as one unit, whatever its size. -/
def units : List Char → Option (List Nat × List Char)
  | '"' :: cs => some ([], cs)
  | '\\' :: 'u' :: a :: b :: c :: d :: cs => do
    let unit ← hex4? a b c d
    let (us, rest) ← units cs
    return (unit :: us, rest)
  | '\\' :: e :: cs => do
    let ch ← shortEscape? e
    let (us, rest) ← units cs
    return (ch.toNat :: us, rest)
  | c :: cs =>
    if c.toNat < 0x20 || c = '\\' then none
    else do
      let (us, rest) ← units cs
      return (c.toNat :: us, rest)
  | [] => none

/-- Joins surrogate pairs; a lone half spells no text. -/
def textOfUnits? : List Nat → Option (List Char)
  | [] => some []
  | [u] => if 0xD800 ≤ u && u < 0xE000 then none else some [Char.ofNat u]
  | u :: v :: us =>
    if 0xD800 ≤ u && u < 0xDC00 then
      if 0xDC00 ≤ v && v < 0xE000 then
        (textOfUnits? us).map (Char.ofNat (0x10000 + (u - 0xD800) * 1024 + (v - 0xDC00)) :: ·)
      else none
    else if 0xDC00 ≤ u && u < 0xE000 then none
    else (textOfUnits? (v :: us)).map (Char.ofNat u :: ·)

def stringBody (cs : List Char) : Option (Option String × List Char) :=
  (units cs).map fun (us, rest) => ((textOfUnits? us).map String.ofList, rest)

/-! ### Documents -/

mutual

/-- A value behind blanks. The length of the text is always enough fuel. -/
def value : (fuel : Nat) → List Char → Option (Json × List Char)
  | 0, _ => none
  | fuel + 1, cs =>
    match skipBlank cs with
    | '{' :: cs =>
      match skipBlank cs with
      | '}' :: cs => some (.object [], cs)
      | cs => (members fuel cs).map fun (ms, rest) => (.object ms, rest)
    | '[' :: cs =>
      match skipBlank cs with
      | ']' :: cs => some (.array [], cs)
      | cs => (elements fuel cs).map fun (es, rest) => (.array es, rest)
    | '"' :: cs => (stringBody cs).map fun (s, rest) => (.string s, rest)
    | 'n' :: cs => (expect ['u', 'l', 'l'] cs).map fun rest => (.null, rest)
    | 't' :: cs => (expect ['r', 'u', 'e'] cs).map fun rest => (.bool true, rest)
    | 'f' :: cs => (expect ['a', 'l', 's', 'e'] cs).map fun rest => (.bool false, rest)
    | cs => number cs

def elements : (fuel : Nat) → List Char → Option (List Json × List Char)
  | 0, _ => none
  | fuel + 1, cs => do
    let (v, rest) ← value fuel cs
    match skipBlank rest with
    | ']' :: rest => return ([v], rest)
    | ',' :: rest =>
      let (vs, rest) ← elements fuel rest
      return (v :: vs, rest)
    | _ => none

def members : (fuel : Nat) → List Char → Option (List (Option String × Json) × List Char)
  | 0, _ => none
  | fuel + 1, cs => do
    match skipBlank cs with
    | '"' :: cs =>
      let (key, rest) ← stringBody cs
      match skipBlank rest with
      | ':' :: rest =>
        let (v, rest) ← value fuel rest
        match skipBlank rest with
        | '}' :: rest => return ([(key, v)], rest)
        | ',' :: rest =>
          let (ms, rest) ← members fuel rest
          return ((key, v) :: ms, rest)
        | _ => none
      | _ => none
    | _ => none

end

def parse? (text : String) : Option Json := do
  let cs := text.toList
  let (v, rest) ← value (2 * cs.length + 2) cs
  if (skipBlank rest).isEmpty then return v else none

/-! ### Records

A record is written as an object with its fields in any order, or as an array of
its fields in order. -/

/-- The value of the field with a name; a field that occurs twice is refused. -/
def field? (members : List (Option String × Json)) (name : String) : Option (Option Json) :=
  match members.filter (·.1 == some name) with
  | [] => some none
  | [(_, v)] => some (some v)
  | _ => none

def natBelow? (bound : Nat) : Json → Option Nat
  | .natural n => if n < bound then some n else none
  | _ => none

/-- The required fields of a record, in the order of `names`. Fields of other
names are passed over, unless their names spell no text. -/
def fields? (names : List String) : Json → Option (List Json)
  | .array elems => if elems.length = names.length then some elems else none
  | .object members =>
    if members.all (·.1.isSome) then
      names.mapM fun name => do
        match ← field? members name with
        | some v => some v
        | none => none
    else none
  | _ => none

end Json

end CellScript
