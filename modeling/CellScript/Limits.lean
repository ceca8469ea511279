import CellScript.Json.Reader

/-!
# Capacities

Every stack, table and buffer of the compiler and of the machine is bounded by a
number from one record. Exceeding a bound is an error that is reported, and a
record that could not work with sixteen-bit offsets and one-byte slots is
refused beforehand.
-/

namespace CellScript

structure Limits where
  heapSize : Nat
  codeSize : Nat
  stackSize : Nat
  /-- Buckets of the identifier table, a power of two. -/
  identBuckets : Nat
  pendingOps : Nat
  controlDepth : Nat
  loopDepth : Nat
  /-- Jumps out of loops that are still open. -/
  loopExits : Nat
  /-- Forward jumps of conditionals and bodies that are still open. -/
  forwardJumps : Nat
  maxSlots : Nat
  seed : UInt64
  deriving Repr, DecidableEq

namespace Limits

inductive Error where
  | outOfRange (field : String) (least most found : Nat)
  | notPowerOfTwo (found : Nat)
  | zero (field : String)
  deriving Repr, DecidableEq

def Error.message : Error → String
  | outOfRange field least most found =>
    s!"{field} must be in {least}..={most}, got {found}"
  | notPowerOfTwo found => s!"ident_buckets must be a power of two, got {found}"
  | zero field => s!"{field} must be at least 1"

instance : Inhabited Limits where
  default :=
    { heapSize := 4096, codeSize := 4096, stackSize := 1536, identBuckets := 32
      pendingOps := 32, controlDepth := 32, loopDepth := 32, loopExits := 32, forwardJumps := 32
      maxSlots := 64, seed := 0 }

def isPowerOfTwo (n : Nat) : Bool := n != 0 && Nat.pow 2 (Nat.log2 n) == n

def checkRange (field : String) (least most found : Nat) : Except Error Unit :=
  if found < least || most < found then .error (.outOfRange field least most found) else .ok ()

def checkPositive (field : String) (found : Nat) : Except Error Unit :=
  if found = 0 then .error (.zero field) else .ok ()

/-- Names the first field that is unusable, if there is one. -/
def validate (l : Limits) : Except Error Unit := do
  checkRange "heap_size" 16 65535 l.heapSize
  checkRange "code_size" 1 65535 l.codeSize
  checkRange "stack_size" 3 65535 l.stackSize
  unless isPowerOfTwo l.identBuckets do throw (.notPowerOfTwo l.identBuckets)
  checkRange "max_slots" 1 255 l.maxSlots
  checkPositive "pending_ops" l.pendingOps
  checkPositive "control_depth" l.controlDepth
  checkPositive "loop_depth" l.loopDepth
  checkPositive "loop_exits" l.loopExits
  checkPositive "forward_jumps" l.forwardJumps

/-! ### The JSON form -/

def fieldNames : List String := [
  "heap_size", "code_size", "stack_size", "ident_buckets", "pending_ops", "control_depth",
  "loop_depth", "loop_exits", "forward_jumps", "max_slots", "seed"]

def toList (l : Limits) : List Nat := [
  l.heapSize, l.codeSize, l.stackSize, l.identBuckets, l.pendingOps, l.controlDepth,
  l.loopDepth, l.loopExits, l.forwardJumps, l.maxSlots, l.seed.toNat]

/-- Limits from the values of the fields; `none` stands for the default. -/
def ofFields? : List (Option Nat) → Option Limits
  | [heap, code, stack, buckets, pending, control, loops, exits, forward, slots, seed] =>
    let d : Limits := default
    some
      { heapSize := heap.getD d.heapSize, codeSize := code.getD d.codeSize
        stackSize := stack.getD d.stackSize, identBuckets := buckets.getD d.identBuckets
        pendingOps := pending.getD d.pendingOps, controlDepth := control.getD d.controlDepth
        loopDepth := loops.getD d.loopDepth, loopExits := exits.getD d.loopExits
        forwardJumps := forward.getD d.forwardJumps, maxSlots := slots.getD d.maxSlots
        seed := (seed.map UInt64.ofNat).getD d.seed }
  | _ => none

def wordBound : Nat := 18446744073709551616

/-- Limits of a document: an object of some of the fields and nothing else, or an
array of values for the first fields. -/
def ofDocument? : Json → Option Limits
  | .object members => do
    if members.all fun (name, _) => fieldNames.any fun f => name == some f then
      let values ← fieldNames.mapM fun f => do
        match ← Json.field? members f with
        | some v => some (some (← Json.natBelow? wordBound v))
        | none => some none
      ofFields? values
    else none
  | .array elems => do
    let values ← elems.mapM (Json.natBelow? wordBound)
    ofFields? (values.map some ++ List.replicate (fieldNames.length - values.length) none)
  | _ => none

inductive LoadError where
  | malformed
  | refused (e : Error)
  deriving Repr, DecidableEq

def ofJson (text : String) : Except LoadError Limits :=
  match (Json.parse? text).bind ofDocument? with
  | none => .error .malformed
  | some l =>
    match l.validate with
    | .ok () => .ok l
    | .error e => .error (.refused e)

end Limits

end CellScript
