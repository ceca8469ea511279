import CellScript.Compiler.Expression

/-!
# Statements

Blocks become jumps. A jump forward is patched when its block closes:

```
if c; A; else; B; endif;     c  jfalse L1  A  jump L2  L1: B  L2:
while c; A; wend;            L0: c  jfalse L1  A  jump L0  L1:
repeat; A; until c;          L0: A  c  jfalse L0
func f(a); A; end;           jump L1  A  return_missing  L1:
```

`break` and the way out of `while` are exits of a loop: they are collected and
patched together when the loop closes.
-/

namespace CellScript

namespace Compiler

/-! ### Storing -/

def redefinition {α : Type} (v : Value) (w : WordToken) : Compile α :=
  match v with
  | .func _ => failAt w (.definedAs w.text "func")
  | _ => failAt w (.definedAs w.text "proc")

def isBody : Value → Bool
  | .proc _ | .func _ => true
  | _ => false

/-- Gives a name the next slot of the body being compiled. The record of the body
keeps the number of its slots. -/
def declareLocal (id : Ident) (w : WordToken) : Compile UInt8 := do
  let v ← valueOf id
  if isBody v then redefinition v w
  let s ← get
  match s.body with
  | none => failAt w .localOutsideBody
  | some body =>
    if body.locals.length ≥ s.maxSlots then failAt w (.tooManyLocals s.maxSlots)
    let slot := UInt8.ofNat body.locals.length
    let locals := body.locals ++ [id]
    modify fun s => { s with body := some { body with locals } }
    modifyHeap fun h =>
      (h.setIdentSlot id slot).setIdentSlot body.id (UInt8.ofNat locals.length)
    return slot

/-- Stores the value on the stack into a name. In a body, a name without a slot
becomes a new local. -/
def assign (id : Ident) (w : WordToken) : Compile Unit := do
  match (← get).body with
  | none =>
    let v ← valueOf id
    if isBody v then redefinition v w
    emitOpWord .identSet id.offset
  | some _ =>
    match ← slotOf id with
    | some slot => emitOpByte .slotSet slot
    | none => emitOpByte .slotSet (← declareLocal id w)

/-! ### Commands -/

def argumentsFrom : (fuel n : Nat) → Compile Nat
  | 0, _ => failHere .outOfFuel
  | fuel + 1, n => do
    expression
    if ← symbol Symbol.comma then argumentsFrom fuel (n + 1) else return n + 1

def arguments : Compile Nat := do
  if ← read Cursor.atStatementEnd then return 0
  argumentsFrom ((← get).cursor.rest.length + 1) 0

def printStatement (w : WordToken) : Compile Unit := do
  let n ← arguments
  emitOpByte .print (← argumentCount n w)

def inputStatement : (fuel : Nat) → Compile Unit
  | 0 => failHere .outOfFuel
  | fuel + 1 => do
    let w ← name .inputVariable
    let id ← intern w.bytes
    emitOp .input
    assign id w
    if ← symbol Symbol.comma then inputStatement fuel

/-! ### Blocks -/

def popBlock (w : WordToken) (opener : Construct) (others : List Construct) : Compile Unit := do
  match (← get).blocks.top? with
  | none => failAt w (.unopened w.text opener.word)
  | some block =>
    if (opener :: others).contains block.construct then
      modify fun s => { s with blocks := s.blocks.pop }
    else failAt w (.mismatched w.text block.construct.word)

def popForward : Compile Fixup := do
  match (← get).forward.top? with
  | none => failHere .unbalancedControl
  | some f =>
    modify fun s => { s with forward := s.forward.pop }
    return f

def beginLoop : Compile Unit := do
  pushLoopStart (← get).code.pos
  saveExits

def patchExits : (n : Nat) → Compile Unit
  | 0 => return
  | n + 1 => do
    match (← get).loopExits.top? with
    | none => return
    | some f =>
      modify fun s => { s with loopExits := s.loopExits.pop }
      onCode (CodeBuffer.patch f)
      patchExits n

def endLoop (op : Opcode) : Compile Unit := do
  match (← get).loopStarts.top? with
  | none => failHere .unbalancedLoop
  | some start =>
    modify fun s => { s with loopStarts := s.loopStarts.pop }
    onCode (CodeBuffer.emitBackward op start)
    patchExits (← get).exitCount
    modify fun s =>
      { s with exitCount := s.savedExits.top?.getD 0, savedExits := s.savedExits.pop }

/-- Opens a conditional: the jump over the branch is patched by `else` or `endif`. -/
def ifStatement (w : WordToken) : Compile Unit := do
  pushBlock .ifBlock w
  expression
  pushForward (← onCode (CodeBuffer.emitForward .jfalse))

/-- Opens the other branch: the condition's jump lands behind the jump that is emitted here. -/
def elseStatement (w : WordToken) : Compile Unit := do
  popBlock w .ifBlock []
  pushBlock .elseBlock w
  let skip ← popForward
  onCode (CodeBuffer.patchTo skip ((← get).code.pos + 3))
  pushForward (← onCode (CodeBuffer.emitForward .jump))

def endifStatement (w : WordToken) : Compile Unit := do
  popBlock w .ifBlock [.elseBlock]
  onCode (CodeBuffer.patch (← popForward))

def whileStatement (w : WordToken) : Compile Unit := do
  pushBlock .whileLoop w
  beginLoop
  expression
  pushLoopExit (← onCode (CodeBuffer.emitForward .jfalse))

def wendStatement (w : WordToken) : Compile Unit := do
  popBlock w .whileLoop []
  endLoop .jump

def repeatStatement (w : WordToken) : Compile Unit := do
  pushBlock .repeatLoop w
  beginLoop

def untilStatement (w : WordToken) : Compile Unit := do
  popBlock w .repeatLoop []
  expression
  endLoop .jfalse

def breakStatement (w : WordToken) : Compile Unit := do
  if (← get).loopStarts.isEmpty then failAt w .breakOutsideLoop
  pushLoopExit (← onCode (CodeBuffer.emitForward .jump))

/-! ### Bodies -/

def parameters : (fuel : Nat) → Compile Unit
  | 0 => failHere .outOfFuel
  | fuel + 1 => do
    let w ← name .parameter
    let id ← intern w.bytes
    if (← slotOf id).isSome then failAt w (.duplicateParameter w.text)
    let _ ← declareLocal id w
    if ← symbol Symbol.comma then parameters fuel

def parameterList : Compile Unit := do
  expect Symbol.openParen
  unless ← symbol Symbol.closeParen do
    parameters ((← get).cursor.rest.length + 1)
    expect Symbol.closeParen

/-- Opens a function or procedure with its parameters. The record is complete before the body
is compiled, so a body can call itself. -/
def bodyStatement (isFunc : Bool) (w : WordToken) : Compile Unit := do
  let s ← get
  if !s.blocks.isEmpty || s.body.isSome then failAt w (.notAtTopLevel w.text)
  pushBlock (if isFunc then .funcBody else .procBody) w
  pushForward (← onCode (CodeBuffer.emitForward .jump))
  let nameWord ← name (.bodyName w.text)
  let id ← intern nameWord.bytes
  if (← valueOf id) ≠ .unset then failAt nameWord (.alreadyDefined nameWord.text)
  let pos := (← get).code.pos
  if pos > 65535 then failHere .entryOutOfRange
  let entry := UInt16.ofNat pos
  modifyHeap fun h =>
    (h.setIdentValue id (if isFunc then .func entry else .proc entry)).setIdentSlot id 0
  modify fun s => { s with body := some { id, isFunc, locals := [] } }
  parameterList
  let count := ((← get).body.map fun b => b.locals.length).getD 0
  modifyHeap fun h => h.setIdentArguments id (UInt8.ofNat count)

def returnStatement (w : WordToken) : Compile Unit := do
  match (← get).body with
  | none => failAt w .returnOutsideBody
  | some body =>
    let bare ← read Cursor.atStatementEnd
    if body.isFunc then
      if bare then failAt w .returnWithoutValue
      expression
      emitOp .returnFunc
    else
      unless bare do failHere .returnWithValue
      emitOp .returnProc

/-- Closes the body and gives its slots back. A function that runs to its
end has no value to return. -/
def endStatement (w : WordToken) : Compile Unit := do
  popBlock w .funcBody [.procBody]
  match (← get).body with
  | none => failAt w (.unopened w.text Construct.funcBody.word)
  | some body =>
    modify fun s => { s with body := none }
    emitOp (if body.isFunc then .returnMissing else .returnProc)
    modifyHeap fun h => body.locals.foldl (fun h id => h.setIdentSlot id Ident.noSlot) h
    onCode (CodeBuffer.patch (← popForward))

/-! ### Programs -/

def controlStatement (op : Opcode) (w : WordToken) : Compile Unit :=
  match op with
  | .wordIf => ifStatement w
  | .wordElse => elseStatement w
  | .wordEndif => endifStatement w
  | .wordWhile => whileStatement w
  | .wordWend => wendStatement w
  | .wordRepeat => repeatStatement w
  | .wordUntil => untilStatement w
  | .wordBreak => breakStatement w
  | .wordFunc => bodyStatement true w
  | .wordProc => bodyStatement false w
  | .wordReturn => returnStatement w
  | _ => endStatement w

def statementAt (w : WordToken) : Compile Unit := do
  modify fun s =>
    { s with sourceMap := s.sourceMap.push s.code.pos (s.source.span w.start w.stop) }
  match Keyword.lookup? w.bytes with
  | some ⟨op, .command⟩ => emitOp op
  | some ⟨_, .listCommand⟩ => printStatement w
  | some ⟨_, .input⟩ => inputStatement ((← get).cursor.rest.length + 1)
  | some ⟨op, .control⟩ => controlStatement op w
  | some _ => failAt w (.keywordStartsStatement w.text)
  | none =>
    let id ← intern w.bytes
    if ← symbol Symbol.equals then
      expression
      assign id w
    else
      let n ← arguments
      emitCall .callProc (← argumentCount n w) id

def statement : Compile Unit := do
  match ← read Cursor.word with
  | none => failHere .expectedStatement
  | some w => statementAt w

def statements : (fuel : Nat) → Compile Unit
  | 0 => failHere .outOfFuel
  | fuel + 1 => do
    unless ← read Cursor.atEnd do
      statement
      if ← symbol Symbol.semicolon then statements fuel
      else if ← read Cursor.atEnd then failHere (.endOfInput (.symbol Symbol.semicolon))
      else failHere .trailingInput

/-- The whole text, then `stop`. No block may be left open. -/
def program : Compile Unit := do
  statements ((← get).cursor.rest.length + 1)
  match (← get).blocks.top? with
  | some block => throw ⟨.unterminated block.construct.word, block.start, block.stop⟩
  | none => emitOp .stop

end Compiler

namespace Program

def compileWith (s : Compiler) : Except CompileError Program :=
  match Compiler.program s with
  | .error e _ => .error e
  | .ok () s =>
    match s.code.finish with
    | .error e => .error ⟨.code e, 0, 0⟩
    | .ok code => .ok { code, store := s.store, sourceMap := s.sourceMap }

def compile (source : Source) (limits : Limits) : Except CompileError Program :=
  match limits.validate with
  | .error e => .error ⟨.limits e, 0, 0⟩
  | .ok () => compileWith (.start source limits)

/-- Compiling as a call, with the allocation between the check and the text: limits that pass
the check can ask for a table that is too large for any memory. -/
def compileCall (source : Source) (limits : Limits) : Call (Except CompileError Program) :=
  match limits.validate with
  | .error e => .returned (.error ⟨.limits e, 0, 0⟩)
  | .ok () =>
    match Store.allocate limits.heapSize limits.identBuckets with
    | .panicked message => .panicked message
    | .returned store => .returned (compileWith { Compiler.start source limits with store })

end Program

end CellScript
