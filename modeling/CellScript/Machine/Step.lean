import CellScript.Builtin.Apply
import CellScript.Console
import CellScript.Instruction
import CellScript.Limits
import CellScript.Machine.Stack
import CellScript.Program
import CellScript.Random

/-!
# The machine

The machine fetches an instruction, moves the program counter behind it and
carries it out on a byte stack. A call leaves its arguments where they are; they
become the first slots of the callee's frame:

```
fp: slot 0 | slot 1 | ... | slot n-1 | saved fp | saved sp | return pc | temporaries
```

A fault leaves the machine as it was at that moment, and its heap is still
looked at, so steps keep their state when they fail.
-/

namespace CellScript

structure Machine (κ : Type) where
  heap : Heap
  stack : OperandStack
  random : Random
  pc : Nat
  /-- Where the slots of the current frame begin. -/
  fp : Nat
  depth : Nat
  console : κ
  deriving Inhabited

inductive Flow where
  | next
  | halt
  deriving Repr, DecidableEq

abbrev Step (κ α : Type) := EStateM Fault (Machine κ) α

namespace Machine

variable {κ α : Type}

def start (p : Program) (limits : Limits) (console : κ) : Machine κ where
  heap := p.heap
  stack := .ofSize limits.stackSize
  random := .ofSeed limits.seed
  pc := 0
  fp := 0
  depth := 0
  console := console

/-! ### Parts of the state -/

def onStack (act : OperandStack.Action α) : Step κ α :=
  fun ⟨heap, stack, random, pc, fp, depth, console⟩ =>
    match act stack with
    | .ok a stack => .ok a ⟨heap, stack, random, pc, fp, depth, console⟩
    | .error e stack => .error e ⟨heap, stack, random, pc, fp, depth, console⟩

def onHeap (act : Operation α) : Step κ α :=
  fun ⟨heap, stack, random, pc, fp, depth, console⟩ =>
    match act heap with
    | .ok a heap => .ok a ⟨heap, stack, random, pc, fp, depth, console⟩
    | .error e heap => .error e ⟨heap, stack, random, pc, fp, depth, console⟩

def askHeap (f : Heap → Except Heap.Error α) : Step κ α := fun m =>
  match f m.heap with
  | .ok a => .ok a m
  | .error e => .error (.heap e) m

def push (v : Value) : Step κ Unit := onStack (OperandStack.push v)

def pop : Step κ Value := onStack OperandStack.pop

def popMany (n : Nat) : Step κ (List Value) := onStack (OperandStack.popMany n)

def jumpTo (pc : Nat) : Step κ Unit := modify fun m => { m with pc }

def draw : Step κ UInt16 := fun m =>
  let (w, random) := m.random.next
  .ok w { m with random }

def writeLine [Console κ] (line : List UInt8) : Step κ Unit :=
  modify fun m => { m with console := Console.writeLine line m.console }

def readLine [Console κ] : Step κ (List UInt8) := fun m =>
  match Console.readLine? m.console with
  | some (line, console) => .ok line { m with console }
  | none => .error .endOfInput m

/-! ### Fetching -/

def fetch (code : Array UInt8) (pc : Nat) : Except Fault Instruction :=
  match Instruction.decode? code pc with
  | some i => if i.op.isExecutable then .ok i else .error (.unknownOpcode i.op.toByte)
  | none =>
    match code[pc]? with
    | some b =>
      if (Opcode.ofByte? b).isNone then .error (.unknownOpcode b) else .error (.codeOverrun pc)
    | none => .error (.codeOverrun pc)

/-! ### Variables and calls -/

def slotOffset (m : Machine κ) (slot : UInt8) : Nat := m.fp + Value.size * slot.toNat

def getGlobal (offset : UInt16) : Step κ Unit := do
  let id ← askHeap (·.identAt offset)
  let heap := (← get).heap
  match heap.identValue id with
  | .unset => throw (.undefinedVariable (heap.identText id))
  | v => push v

def setGlobal (offset : UInt16) : Step κ Unit := do
  let id ← askHeap (·.identAt offset)
  let v ← pop
  modify fun m => { m with heap := m.heap.setIdentValue id v }

def getSlot (slot : UInt8) : Step κ Unit := do
  let m ← get
  match m.stack.get (m.slotOffset slot) with
  | .error e => throw e
  | .ok .unset => throw (.undefinedVariable ("local #" ++ toString slot.toNat))
  | .ok v => push v

def setSlot (slot : UInt8) : Step κ Unit := do
  let v ← pop
  let offset := (← get).slotOffset slot
  onStack (OperandStack.set offset v)

def entryOf (heap : Heap) (id : Ident) (isProc : Bool) : Except Fault UInt16 :=
  match heap.identValue id, isProc with
  | .unset, _ => .error (.undefinedCallTarget (heap.identText id))
  | .proc entry, true => .ok entry
  | .func entry, false => .ok entry
  | _, _ => .error (.badCallTarget (heap.identText id) (if isProc then "proc" else "func"))

/-- Enters a procedure or function with so many arguments on the stack. The frame
has as many slots as the record named by the call says; those behind the
arguments start unset. -/
def call (isProc : Bool) (arguments : UInt8) (offset : UInt16) : Step κ Unit := do
  let id ← askHeap (·.identAt offset)
  let heap := (← get).heap
  match entryOf heap id isProc with
  | .error e => throw e
  | .ok entry =>
    let expected := heap.identArguments id
    if arguments ≠ expected then
      throw (.argumentCount (heap.identText id) expected.toNat arguments.toNat)
    let sp := (← get).stack.sp
    if sp < Value.size * arguments.toNat then throw .stackUnderflow
    let base := sp - Value.size * arguments.toNat
    onStack (OperandStack.setPointer (base + Value.size * (heap.identSlot id).toNat))
    let m ← get
    onStack (OperandStack.pushWord (UInt16.ofNat m.fp))
    onStack (OperandStack.pushWord (UInt16.ofNat base))
    onStack (OperandStack.pushWord (UInt16.ofNat m.pc))
    modify fun m => { m with fp := base, pc := entry.toNat, depth := m.depth + 1 }

def leave : Step κ Unit := do
  let pc ← onStack OperandStack.popWord
  let sp ← onStack OperandStack.popWord
  let fp ← onStack OperandStack.popWord
  onStack (OperandStack.setPointer sp.toNat)
  modify fun m => { m with fp := fp.toNat, pc := pc.toNat, depth := m.depth - 1 }

/-! ### Instructions -/

def printedLine (h : Heap) : List Value → List UInt8
  | [] => []
  | [v] => Builtin.render h v
  | v :: vs => Builtin.render h v ++ 32 :: printedLine h vs

def unary (op : Opcode) : Step κ Unit := do
  let a ← pop
  push (← onHeap (Builtin.unary op a))

def binary (op : Opcode) : Step κ Unit := do
  let b ← pop
  let a ← pop
  push (← onHeap (Builtin.binary op a b))

def branch (target : Nat) : Step κ Unit := do
  match ← pop with
  | .bool true => return
  | .bool false => jumpTo target
  | v => throw (.typeMismatch "condition" [v.kindName])

/-- Carries out an instruction; the program counter is already behind it. -/
def execute [Console κ] (i : Instruction) : Step κ Unit := do
  match i.op with
  | .litInt => push (.int i.word.toInt16)
  | .litFloat => push (.float ⟨i.word⟩)
  | .litStrEmpty => push .strEmpty
  | .litStrChar => push (.strChar i.byte)
  | .litStr => push (.str (← askHeap (·.strAt i.word)))
  | .rnd => push (.int (← draw).toInt16)
  | .litTrue => push (.bool true)
  | .litFalse => push (.bool false)
  | .array =>
    let elems ← popMany i.byte.toNat
    push (← onHeap (Builtin.makeArray elems))
  | .identGet => getGlobal i.word
  | .identSet => setGlobal i.word
  | .slotGet => getSlot i.byte
  | .slotSet => setSlot i.byte
  | .neg | .bnot | .lnot | .abs | .sgn | .sqrt | .int | .float | .asc | .chr | .str | .len =>
    unary i.op
  | .mul | .div | .mod | .add | .sub | .asr | .lsr | .lsl | .le | .lt | .gt | .ge | .eq | .ne
  | .band | .bor | .beor | .land | .lor =>
    binary i.op
  | .left =>
    let n ← pop
    let s ← pop
    push (← onHeap (Builtin.left s n))
  | .right =>
    let n ← pop
    let s ← pop
    push (← onHeap (Builtin.right s n))
  | .substr =>
    let n ← pop
    let start ← pop
    let s ← pop
    push (← onHeap (Builtin.substr s start n))
  | .index =>
    let k ← pop
    let c ← pop
    match Builtin.index (← get).heap c k with
    | .ok v => push v
    | .error e => throw e
  | .slice =>
    let j ← pop
    let k ← pop
    let c ← pop
    push (← onHeap (Builtin.slice c k j))
  | .print =>
    let values ← popMany i.byte.toNat
    writeLine (printedLine (← get).heap values)
  | .input =>
    let line ← readLine
    push (← onHeap (Builtin.makeStr line))
  | .jump => jumpTo i.jumpCounter
  | .jfalse => branch i.jumpCounter
  | .callProc => call true i.byte i.word
  | .callFunc => call false i.byte i.word
  | .returnFunc =>
    let v ← pop
    leave
    push v
  | .returnProc => leave
  | .returnMissing => throw .missingReturn
  | op => throw (.unknownOpcode op.toByte)

def step [Console κ] (code : Array UInt8) : Step κ Flow := do
  match fetch code (← get).pc with
  | .error e => throw e
  | .ok i =>
    jumpTo i.next
    if i.op = .stop then return .halt
    execute i
    return .next

end Machine

inductive Progress (κ : Type) where
  | running (m : Machine κ)
  | halted (m : Machine κ)
  | trapped (t : Trap) (m : Machine κ)

namespace Machine

variable {κ : Type}

/-- At most `fuel` steps. -/
def run [Console κ] (code : Array UInt8) : (fuel : Nat) → Machine κ → Progress κ
  | 0, m => .running m
  | fuel + 1, m =>
    let pc := m.pc
    match step code m with
    | .ok .next m => run code fuel m
    | .ok .halt m => .halted m
    | .error e m => .trapped ⟨pc, e⟩ m

theorem run_add [Console κ] (code : Array UInt8) (a b : Nat) (m : Machine κ) :
    run code (a + b) m =
      match run code a m with
      | .running m => run code b m
      | ended => ended := by
  induction a generalizing m with
  | zero => simp [run]
  | succ a ih =>
    rw [Nat.succ_add]
    simp only [run]
    cases step code m with
    | ok flow m' => cases flow <;> simp [ih]
    | error e m' => rfl

end Machine

end CellScript
