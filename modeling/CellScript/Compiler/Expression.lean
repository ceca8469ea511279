import CellScript.Compiler.State

/-!
# Expressions

Expressions are compiled to postfix code by operator precedence. An operator
waits on the pending stack until one that binds no closer arrives, or the
expression ends. Each expression, hence each group, argument and index, starts
by pushing a mark, and popping never goes below it.

Recursion follows the text: between two calls of the same function at least one
byte is consumed, so the fuel that `expression` hands out is never used up.
-/

namespace CellScript

namespace Compiler

/-- Emits the operators that do not have to wait for one of precedence `incoming`.
At the end of the expression that is all of them, and the mark goes too. -/
def flush (incoming : Option Nat) : (fuel : Nat) → Compile Unit
  | 0 => return
  | fuel + 1 => do
    match (← get).pending.top? with
    | none => return
    | some .mark =>
      if incoming.isNone then modify fun s => { s with pending := s.pending.pop }
    | some (.operator op prec) =>
      if incoming.any (prec < ·) then return
      modify fun s => { s with pending := s.pending.pop }
      emitOp op
      flush incoming fuel

def unaryOperators : (fuel : Nat) → Compile Unit
  | 0 => failHere .outOfFuel
  | fuel + 1 => do
    match ← read Cursor.unaryOperator with
    | none => return
    | some t =>
      pushPending (.operator t.operator.op t.operator.prec)
      unaryOperators fuel

def numberLiteral : Number → Compile Unit
  | .int n => emitOpWord .litInt n.toUInt16
  | .float h => emitOpWord .litFloat h.bits

def stringLiteral : StringToken → Compile Unit
  | .empty => emitOp .litStrEmpty
  | .char c => emitOpByte .litStrChar c
  | .long _ raw _ => do
    let offset ← onStore (Store.onHeap id (Heap.allocStr (StringLiteral.unescape raw)))
    emitOpWord .litStr offset

def arrayLiteral (start n : Nat) : Compile Unit := do
  if n > 255 then throw ⟨.arrayTooLong n, start, (← get).cursor.pos⟩
  emitOpByte .array (UInt8.ofNat n)

mutual

def expr : (fuel : Nat) → Compile Unit
  | 0 => failHere .outOfFuel
  | fuel + 1 => do
    pushPending .mark
    operands fuel

/-- Operands with operators between them, up to the end of the expression. -/
def operands : (fuel : Nat) → Compile Unit
  | 0 => failHere .outOfFuel
  | fuel + 1 => do
    unaryOperators fuel
    operand fuel
    match ← read Cursor.binaryOperator with
    | none => flush none ((← get).pending.size + 1)
    | some t =>
      flush (some t.operator.prec) ((← get).pending.size + 1)
      pushPending (.operator t.operator.op t.operator.prec)
      operands fuel

def operand : (fuel : Nat) → Compile Unit
  | 0 => failHere .outOfFuel
  | fuel + 1 => do
    if ← symbol Symbol.openParen then
      expr fuel
      expect Symbol.closeParen
    else if ← symbol Symbol.openBracket then
      let start := (← get).cursor.pos - 1
      let n ← exprList fuel Symbol.closeBracket
      arrayLiteral start n
    else
      match ← tryRead Cursor.number with
      | some t => numberLiteral t.value
      | none =>
        match ← tryRead Cursor.string with
        | some t => stringLiteral t
        | none =>
          match ← read Cursor.word with
          | some w => wordOperand fuel w
          | none =>
            if ← read Cursor.atEnd then failHere (.endOfInput .expression)
            else failHere .expectedExpression

def wordOperand : (fuel : Nat) → WordToken → Compile Unit
  | 0, _ => failHere .outOfFuel
  | fuel + 1, w => do
    match Keyword.lookup? w.bytes with
    | some ⟨op, .constant⟩ => emitOp op
    | some ⟨op, .function arity⟩ =>
      expect Symbol.openParen
      let n ← exprList fuel Symbol.closeParen
      if n ≠ arity then failAt w (.builtinArguments w.text arity n)
      emitOp op
    | some _ => failAt w (.keywordInExpression w.text)
    | none =>
      let id ← intern w.bytes
      if ← symbol Symbol.openParen then
        let n ← exprList fuel Symbol.closeParen
        emitCall .callFunc (← argumentCount n w) id
      else
        match ← slotOf id with
        | some slot => emitOpByte .slotGet slot
        | none => emitOpWord .identGet id.offset
        indices fuel

def exprList : (fuel : Nat) → (close : UInt8) → Compile Nat
  | 0, _ => failHere .outOfFuel
  | fuel + 1, close => do
    if ← symbol close then return 0
    exprListFrom fuel close 0

/-- The same with `n` expressions before; one more has to come. -/
def exprListFrom : (fuel : Nat) → (close : UInt8) → (n : Nat) → Compile Nat
  | 0, _, _ => failHere .outOfFuel
  | fuel + 1, close, n => do
    expr fuel
    if ← symbol Symbol.comma then exprListFrom fuel close (n + 1)
    else
      expect close
      return n + 1

def indices : (fuel : Nat) → Compile Unit
  | 0 => failHere .outOfFuel
  | fuel + 1 => do
    if ← symbol Symbol.openBracket then
      expr fuel
      if ← symbol Symbol.colon then
        expr fuel
        expect Symbol.closeBracket
        emitOp .slice
      else
        expect Symbol.closeBracket
        emitOp .index
      indices fuel

end

/-- One expression, with fuel by the length of the text that is left. -/
def expression : Compile Unit := do
  expr (8 * ((← get).cursor.rest.length + 1))

end Compiler

end CellScript
