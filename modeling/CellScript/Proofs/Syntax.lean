import Mathlib.Algebra.GroupWithZero.Nat
import CellScript.Compiler.Statement

/-!
Programs as trees.

The compiler has no syntax tree: it emits code while it reads. This module holds
the trees that it never builds, and the code that belongs to each of them. Names
are resolved already, to a record of the store or to a slot of the body around
them, and a long string literal is known by its record, so that a tree together
with a heap is all that is needed to say what a program means.

The code of a tree is a list of instructions without places. Expressions have the
same code everywhere. The code of a statement depends on the address `a` where it
begins and on the address where the loop around it ends, since jumps are stored
as distances; `none` stands for an end that is not known yet, and a jump there
has distance zero. The number of bytes depends on neither, which is what lets a
target behind a block be written down before the block.
-/

namespace CellScript

/-! ### Instructions without a place -/

/-- A code and its operands. Operands that the shape of the code does not have are
not looked at. -/
structure Instr where
  op : Opcode
  byte : UInt8
  word : UInt16
  deriving Repr, DecidableEq

namespace Instr

def size (i : Instr) : Nat := 1 + i.op.shape.size

/-- The instruction as it is fetched from address `a`. -/
def place (i : Instr) (a : Nat) : Instruction :=
  match i.op.shape with
  | .none => ⟨a, i.op, 0, 0⟩
  | .byte => ⟨a, i.op, i.byte, 0⟩
  | .word => ⟨a, i.op, 0, i.word⟩
  | .call => ⟨a, i.op, i.byte, i.word⟩

theorem op_place (i : Instr) (a : Nat) : (i.place a).op = i.op := by
  unfold place
  split <;> rfl

theorem next_place (i : Instr) (a : Nat) : (i.place a).next = a + i.size := by
  unfold place Instruction.next size
  split <;> exact Nat.add_assoc ..

def bytes (i : Instr) : List UInt8 := (i.place 0).encode

/-- A code without operands. -/
def plain (op : Opcode) : Instr := ⟨op, 0, 0⟩

/-- A code with a byte operand. -/
def withByte (op : Opcode) (b : UInt8) : Instr := ⟨op, b, 0⟩

/-- A code with a word operand. -/
def withWord (op : Opcode) (w : UInt16) : Instr := ⟨op, 0, w⟩

/-- The operand of a jump that ends at `start` and leads to `target`. -/
def distanceWord (start target : Nat) : UInt16 :=
  (Int16.ofInt (signedAddress target - signedAddress start)).toUInt16

/-- The distance fits the operand. -/
def InReach (start target : Nat) : Prop :=
  -32768 ≤ signedAddress target - signedAddress start ∧
    signedAddress target - signedAddress start ≤ 32767

/-- A jump at address `a`. Without a target its operand is zero. -/
def jump (op : Opcode) (a : Nat) : Option Nat → Instr
  | none => withWord op 0
  | some target => withWord op (distanceWord (a + 3) target)

end Instr

/-- A piece of code. -/
abbrev Code := List Instr

namespace Code

def size (code : Code) : Nat := (code.map Instr.size).sum

def bytes (code : Code) : List UInt8 := code.flatMap Instr.bytes

@[simp] theorem size_nil : size [] = 0 := rfl

@[simp] theorem size_cons (i : Instr) (code : Code) : size (i :: code) = i.size + size code := by
  simp [size]

@[simp] theorem size_append (c d : Code) : size (c ++ d) = size c + size d := by
  simp [size]

@[simp] theorem bytes_nil : bytes [] = [] := rfl

@[simp] theorem bytes_cons (i : Instr) (code : Code) :
    bytes (i :: code) = i.bytes ++ bytes code := by
  simp [bytes]

@[simp] theorem bytes_append (c d : Code) : bytes (c ++ d) = bytes c ++ bytes d := by
  simp [bytes]

end Code

namespace Instr

theorem length_bytes (i : Instr) : i.bytes.length = i.size := by
  simp only [bytes, place, size]
  split <;> rename_i h <;> simp [Instruction.encode, h, Shape.size]

theorem bytes_plain {op : Opcode} (h : op.shape = .none) : (plain op).bytes = [op.toByte] := by
  simp [plain, bytes, place, h, Instruction.encode]

theorem bytes_withByte {op : Opcode} (h : op.shape = .byte) (b : UInt8) :
    (withByte op b).bytes = [op.toByte, b] := by
  simp [withByte, bytes, place, h, Instruction.encode]

theorem bytes_withWord {op : Opcode} (h : op.shape = .word) (w : UInt16) :
    (withWord op w).bytes = [op.toByte, Word.hi w, Word.lo w] := by
  simp [withWord, bytes, place, h, Instruction.encode, Word.bytes]

theorem bytes_call {op : Opcode} (h : op.shape = .call) (b : UInt8) (w : UInt16) :
    (Instr.mk op b w).bytes = [op.toByte, b, Word.hi w, Word.lo w] := by
  simp [bytes, place, h, Instruction.encode, Word.bytes]

/-- The target does not show in the size. -/
@[simp] theorem size_jump (op : Opcode) (a : Nat) (target : Option Nat) :
    (jump op a target).size = 1 + op.shape.size := by
  cases target <;> rfl

@[simp] theorem op_jump (op : Opcode) (a : Nat) (target : Option Nat) :
    (jump op a target).op = op := by
  cases target <;> rfl

end Instr

namespace Code

@[simp] theorem length_bytes (code : Code) : code.bytes.length = code.size := by
  induction code with
  | nil => rfl
  | cons i code ih => simp [Instr.length_bytes, ih]

end Code

/-! ### Expressions -/

/-- Where the value of a name is kept. -/
inductive Place where
  /-- In a record of the store. -/
  | global (id : Ident)
  /-- In a slot of the frame of the body around. -/
  | slot (k : UInt8)
  deriving Repr, DecidableEq

def Place.load : Place → Instr
  | global id => .withWord .identGet id.offset
  | slot k => .withByte .slotGet k

def Place.store : Place → Instr
  | global id => .withWord .identSet id.offset
  | slot k => .withByte .slotSet k

inductive Literal where
  | int (n : Int16)
  | float (h : Half)
  | truth (b : Bool)
  | empty
  | char (c : UInt8)
  /-- Two bytes or more, by the offset of their record. -/
  | long (offset : UInt16)
  deriving Repr, DecidableEq

def Literal.instr : Literal → Instr
  | int n => .withWord .litInt n.toUInt16
  | float h => .withWord .litFloat h.bits
  | truth b => .plain (if b then .litTrue else .litFalse)
  | empty => .plain .litStrEmpty
  | char c => .withByte .litStrChar c
  | long offset => .withWord .litStr offset

inductive Expr where
  | literal (l : Literal)
  | name (p : Place)
  /-- An operator, a built-in function, an index or a range. -/
  | apply (op : Opcode) (args : List Expr)
  | array (elems : List Expr)
  /-- A call of a function. -/
  | call (id : Ident) (args : List Expr)

namespace Expr

mutual

/-- Postfix code: arguments from left to right, then what is done with them. -/
def code : Expr → Code
  | literal l => [l.instr]
  | name p => [p.load]
  | apply op args => codeAll args ++ [.plain op]
  | array elems => codeAll elems ++ [.withByte .array (UInt8.ofNat elems.length)]
  | call id args => codeAll args ++ [⟨.callFunc, UInt8.ofNat args.length, id.offset⟩]

def codeAll : List Expr → Code
  | [] => []
  | e :: es => code e ++ codeAll es

end

end Expr

/-! ### Statements -/

/-- What a definition says of its procedure or function. -/
structure Definition where
  id : Ident
  isFunc : Bool
  /-- The number of parameters. -/
  params : Nat
  /-- The number of parameters and locals. -/
  slots : Nat
  deriving Repr, DecidableEq

inductive Stmt where
  | skip
  | seq (first second : Stmt)
  | assign (p : Place) (e : Expr)
  | print (es : List Expr)
  | input (ps : List Place)
  /-- A call of a procedure. -/
  | perform (id : Ident) (args : List Expr)
  | ifThen (c : Expr) (a : Stmt)
  | ifElse (c : Expr) (a b : Stmt)
  | whileDo (c : Expr) (a : Stmt)
  | repeatUntil (a : Stmt) (c : Expr)
  /-- Leaves the innermost loop. -/
  | exitLoop
  | halt
  | returnValue (e : Expr)
  | returnBare
  | define (d : Definition) (a : Stmt)

namespace Stmt

/-- The number of bytes of the code. -/
def size : Stmt → Nat
  | skip => 0
  | seq s t => s.size + t.size
  | assign p e => e.code.size + p.store.size
  | print es => (Expr.codeAll es).size + 2
  | input ps => (ps.map fun p => 1 + p.store.size).sum
  | perform _ args => (Expr.codeAll args).size + 4
  | ifThen c s => c.code.size + 3 + s.size
  | ifElse c s t => c.code.size + 3 + s.size + 3 + t.size
  | whileDo c s => c.code.size + 3 + s.size + 3
  | repeatUntil s c => s.size + c.code.size + 3
  | exitLoop => 3
  | halt => 1
  | returnValue e => e.code.size + 1
  | returnBare => 1
  | define _ s => 3 + s.size + 1

/-- The instruction at which a body ends. -/
def bodyEnd (isFunc : Bool) : Instr := .plain (if isFunc then .returnMissing else .returnProc)

/-- The code at address `a`, in a loop that ends at `exit`. -/
def code (exit : Option Nat) (a : Nat) : Stmt → Code
  | skip => []
  | seq s t => s.code exit a ++ t.code exit (a + s.size)
  | assign p e => e.code ++ [p.store]
  | print es => Expr.codeAll es ++ [.withByte .print (UInt8.ofNat es.length)]
  | input ps => ps.flatMap fun p => [.plain .input, p.store]
  | perform id args =>
      Expr.codeAll args ++ [⟨.callProc, UInt8.ofNat args.length, id.offset⟩]
  | ifThen c s =>
      let a' := a + c.code.size
      c.code ++ .jump .jfalse a' (some (a' + 3 + s.size)) :: s.code exit (a' + 3)
  | ifElse c s t =>
      let a' := a + c.code.size
      let b := a' + 3 + s.size
      c.code ++ .jump .jfalse a' (some (b + 3)) :: s.code exit (a' + 3) ++
        .jump .jump b (some (b + 3 + t.size)) :: t.code exit (b + 3)
  | whileDo c s =>
      let a' := a + c.code.size
      let b := a' + 3 + s.size
      c.code ++ .jump .jfalse a' (some (b + 3)) :: s.code (some (b + 3)) (a' + 3) ++
        [.jump .jump b (some a)]
  | repeatUntil s c =>
      let b := a + s.size + c.code.size
      s.code (some (b + 3)) a ++ c.code ++ [.jump .jfalse b (some a)]
  | exitLoop => [.jump .jump a exit]
  | halt => [.plain .stop]
  | returnValue e => e.code ++ [.plain .returnFunc]
  | returnBare => [.plain .returnProc]
  | define d s =>
      .jump .jump a (some (a + 3 + s.size + 1)) :: s.code none (a + 3) ++ [bodyEnd d.isFunc]

@[simp] theorem size_code (exit : Option Nat) (a : Nat) (s : Stmt) :
    (s.code exit a).size = s.size := by
  induction s generalizing exit a with
  | skip => rfl
  | seq s t ihs iht => simp [code, size, ihs, iht]
  | assign p e => simp [code, size]
  | print es => simp [code, size, Instr.withByte, Instr.size, Opcode.shape, Shape.size]
  | input ps =>
      induction ps with
      | nil => rfl
      | cons p ps ih =>
          have hin : (Instr.plain .input).size = 1 := rfl
          simp only [code, size, List.flatMap_cons, List.map_cons, List.sum_cons] at ih ⊢
          simp only [Code.size_append, Code.size_cons, Code.size_nil, ih, hin]
          omega
  | perform id args => simp [code, size, Instr.size, Opcode.shape, Shape.size]
  | ifThen c s ih => simp [code, size, ih, Opcode.shape, Shape.size, Nat.add_assoc]
  | ifElse c s t ihs iht => simp [code, size, ihs, iht, Opcode.shape, Shape.size, Nat.add_assoc]
  | whileDo c s ih => simp [code, size, ih, Opcode.shape, Shape.size, Nat.add_assoc]
  | repeatUntil s c ih => simp [code, size, ih, Opcode.shape, Shape.size, Nat.add_assoc]
  | exitLoop => simp [code, size, Opcode.shape, Shape.size]
  | halt => rfl
  | returnValue e => simp [code, size, Instr.plain, Instr.size, Opcode.shape, Shape.size]
  | returnBare => rfl
  | define d s ih =>
      cases h : d.isFunc <;>
        simp [code, size, ih, bodyEnd, h, Instr.plain, Instr.size, Opcode.shape, Shape.size] <;>
        omega

end Stmt

end CellScript
