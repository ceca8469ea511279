import CellScript.Proofs.Layout
import CellScript.Proofs.Operands
import CellScript.Proofs.Scopes

/-!
What single instructions do.

Besides its registers and its stack a machine has what its program can observe:
the heap, the random numbers and the console. `World` is that part. Most
instructions take some values from the stack, compute one from them in the world,
and put it on the stack; they differ only in the computation, and `Produces` says
what the machine does with it. The others are described one by one. No statement
mentions a stack pointer or an offset: the stack is the list of its bytes.
-/

namespace CellScript

/-- What a program can observe of a machine. -/
structure World (κ : Type) where
  heap : Heap
  random : Random
  console : κ

/-- A computation on values. -/
abbrev Computation (κ : Type) := EStateM Fault (World κ) Value

namespace World

variable {κ : Type}

/-- Runs an operation on values. -/
def onHeap (act : Operation Value) : Computation κ := fun w =>
  match act w.heap with
  | .ok v heap => .ok v { w with heap }
  | .error e heap => .error e { w with heap }

/-- The value of a name that has one. -/
def lookup (id : Ident) : Computation κ := fun w =>
  match w.heap.identValue id with
  | .unset => .error (.undefinedVariable (w.heap.identText id)) w
  | v => .ok v w

/-- The next pseudo-random number. -/
def draw : Computation κ := fun w =>
  .ok (.int w.random.next.1.toInt16) { w with random := w.random.next.2 }

def index (c k : Value) : Computation κ := fun w =>
  match Builtin.index w.heap c k with
  | .ok v => .ok v w
  | .error e => .error e w

/-- The next line of the console as a string. -/
def readLine [Console κ] : Computation κ := fun w =>
  match Console.readLine? w.console with
  | some (line, console) => onHeap (Builtin.makeStr line) { w with console }
  | none => .error .endOfInput w

/-- What an operator, a built-in function, an index or a range makes of its operands. A code
with another number of operands stands for nothing. -/
def operate (op : Opcode) (args : List Value) : Computation κ :=
  match op, args with
  | .rnd, [] => draw
  | .left, [s, n] => onHeap (Builtin.left s n)
  | .right, [s, n] => onHeap (Builtin.right s n)
  | .index, [c, k] => index c k
  | .substr, [s, start, n] => onHeap (Builtin.substr s start n)
  | .slice, [c, i, j] => onHeap (Builtin.slice c i j)
  | op, [a] => onHeap (Builtin.unary op a)
  | op, [a, b] => onHeap (Builtin.binary op a b)
  | op, _ => fun w => .error (.unknownOpcode op.toByte) w

/-- The kinds of operation. Those with one operand all work alike, and so do those with two but
for three of them. -/
inductive Applied (κ : Type) : Opcode → List Value → Prop
  | rnd : Applied κ .rnd []
  | left {s n : Value} : Applied κ .left [s, n]
  | right {s n : Value} : Applied κ .right [s, n]
  | index {c k : Value} : Applied κ .index [c, k]
  | substr {s start n : Value} : Applied κ .substr [s, start, n]
  | slice {c i j : Value} : Applied κ .slice [c, i, j]
  | unary {op : Opcode} {a : Value} : op.arity? = some 1 →
      (operate op [a] : Computation κ) = onHeap (Builtin.unary op a) → Applied κ op [a]
  | binary {op : Opcode} {a b : Value} :
      op.arity? = some 2 → op ≠ .left → op ≠ .right → op ≠ .index →
      (operate op [a, b] : Computation κ) = onHeap (Builtin.binary op a b) → Applied κ op [a, b]

theorem applied_cases {op : Opcode} {args : List Value} (ha : op.arity? = some args.length) :
    Applied κ op args := by
  obtain _ | ⟨x, _ | ⟨y, _ | ⟨z, _ | ⟨u, rest⟩⟩⟩⟩ := args
  · cases op <;> first | (cases ha; done) | exact .rnd
  · refine .unary ha ?_
    cases op <;> first | (cases ha; done) | rfl
  · cases op
    case left => exact .left
    case right => exact .right
    case index => exact .index
    all_goals first | (cases ha; done) | exact .binary ha (by simp) (by simp) (by simp) rfl
  · cases op <;> first | (cases ha; done) | exact .substr | exact .slice
  · cases op <;> cases ha

end World

/-- The value of a literal. -/
def Literal.value : Literal → Value
  | int n => .int n
  | float h => .float h
  | truth b => .bool b
  | empty => .strEmpty
  | char c => .strChar c
  | long offset => .str offset

namespace Machine

variable {κ : Type}

def world (m : Machine κ) : World κ := ⟨m.heap, m.random, m.console⟩

def withWorld (m : Machine κ) (w : World κ) : Machine κ :=
  { m with heap := w.heap, random := w.random, console := w.console }

def withStack (m : Machine κ) (s : OperandStack) : Machine κ := { m with stack := s }

@[simp] theorem world_withWorld (m : Machine κ) (w : World κ) : (m.withWorld w).world = w := rfl

@[simp] theorem withWorld_world (m : Machine κ) : m.withWorld m.world = m := rfl

@[simp] theorem world_withStack (m : Machine κ) (s : OperandStack) :
    (m.withStack s).world = m.world :=
  rfl

@[simp] theorem heap_withStack (m : Machine κ) (s : OperandStack) : (m.withStack s).heap = m.heap :=
  rfl

/-- A step does what the instruction at the program counter says. -/
theorem step_eq [Console κ] {code : Array UInt8} {m : Machine κ} {i : Instr}
    (hd : Instruction.decode? code m.pc = some (i.place m.pc)) (he : i.op.isExecutable = true)
    (hop : i.op ≠ .stop) :
    step code m =
      match execute (i.place m.pc) { m with pc := m.pc + i.size } with
      | .ok _ m' => .ok .next m'
      | .error e m' => .error e m' := by
  have hplace : (i.place m.pc).op = i.op := by
    unfold Instr.place
    split <;> rfl
  have hnext : (i.place m.pc).next = m.pc + i.size := by
    have hoffset : (i.place m.pc).offset = m.pc := by
      unfold Instr.place
      split <;> rfl
    rw [Instruction.next, hplace, hoffset, Instr.size, Nat.add_assoc]
  have hfetch : fetch code m.pc = .ok (i.place m.pc) := by
    rw [fetch, hd]
    simp only [hplace, he, if_true]
  simp only [step, bind, EStateM.bind, Action.get_apply, hfetch, jumpTo,
    Action.modify_apply, hnext, hplace, hop, if_false,
    pure, EStateM.pure]
  generalize execute (i.place m.pc) { m with pc := m.pc + i.size } = r
  cases r <;> rfl

theorem step_stop [Console κ] {code : Array UInt8} {m : Machine κ}
    (hd : Instruction.decode? code m.pc = some ((Instr.plain .stop).place m.pc)) :
    step code m = .ok .halt { m with pc := m.pc + 1 } := by
  have hfetch : fetch code m.pc = .ok ((Instr.plain .stop).place m.pc) := by
    rw [fetch, hd]
    rfl
  simp only [step, bind, EStateM.bind, Action.get_apply, hfetch]
  rfl

/-! ### Instructions that produce a value -/

/-- A computation is run in the world of `m`, and its value is put on a stack that holds `l`
otherwise. -/
def Produces (x : EStateM.Result Fault (Machine κ) Unit) (m : Machine κ) (cap : Nat)
    (l : List UInt8) : EStateM.Result Fault (World κ) Value → Prop
  | .ok v w =>
      (l.length + 3 ≤ cap → ∃ s : OperandStack, s.Holds cap (l ++ v.encode) ∧
        x = .ok () ((m.withStack s).withWorld w)) ∧
      (cap < l.length + 3 → ∃ m', x = .error (.stackOverflow cap) m' ∧ m'.world = w)
  | .error e w => ∃ m', x = .error e m' ∧ m'.world = w

variable {m : Machine κ} {cap : Nat} {l : List UInt8}

theorem produces_push {s : OperandStack} (hs : s.Holds cap l) (v : Value) (w : World κ) :
    Produces (push v ((m.withStack s).withWorld w)) m cap l (.ok v w) := by
  have hlen : v.encode.length = 3 := rfl
  refine ⟨fun hfit => ?_, fun hfull => ?_⟩
  · obtain ⟨s', hpush, hs'⟩ :=
      OperandStack.pushBytes_ok hs (show l.length + v.encode.length ≤ cap by omega)
    refine ⟨s', hs', ?_⟩
    simp only [push, onStack, OperandStack.push, withStack, withWorld, hpush]
  · have hpush := OperandStack.pushBytes_full hs (show cap < l.length + v.encode.length by omega)
    refine ⟨(m.withStack s).withWorld w, ?_, rfl⟩
    simp only [push, onStack, OperandStack.push, withStack, withWorld, hpush]

/-- Running an operation and putting its value on the stack. -/
theorem produces_onHeap {s : OperandStack} (hs : s.Holds cap l) (act : Operation Value)
    (w : World κ) :
    Produces ((onHeap act >>= push) ((m.withStack s).withWorld w)) m cap l
      (World.onHeap act w) := by
  simp only [bind, EStateM.bind, onHeap, World.onHeap, withStack, withWorld]
  cases act w.heap with
  | ok v heap => exact produces_push hs v { w with heap }
  | error e heap => exact ⟨_, rfl, rfl⟩

theorem pop_eq {v : Value} (hs : m.stack.Holds cap (l ++ v.encode)) :
    ∃ s : OperandStack, s.Holds cap l ∧ pop m = .ok v (m.withStack s) := by
  obtain ⟨s, hpop, hs'⟩ := OperandStack.pop_ok hs
  refine ⟨s, hs', ?_⟩
  simp only [pop, onStack, hpop, withStack]

theorem popMany_eq {vs : List Value} (hs : m.stack.Holds cap (l ++ Value.encodeAll vs)) :
    ∃ s : OperandStack, s.Holds cap l ∧ popMany vs.length m = .ok vs (m.withStack s) := by
  obtain ⟨s, hpop, hs'⟩ := OperandStack.popMany_ok hs
  refine ⟨s, hs', ?_⟩
  simp only [popMany, onStack, hpop, withStack]

theorem unary_produces {op : Opcode} {a : Value}
    (hs : m.stack.Holds cap (l ++ Value.encodeAll [a])) :
    Produces (unary op m) m cap l (World.onHeap (Builtin.unary op a) m.world) := by
  obtain ⟨s, hs', hpop⟩ := pop_eq (by simpa using hs)
  simp only [unary, bind, EStateM.bind, hpop]
  exact produces_onHeap hs' _ m.world

/-- Two operands are taken, the second one first. -/
theorem pop_two {a b : Value} (hs : m.stack.Holds cap (l ++ Value.encodeAll [a, b])) :
    ∃ s s' : OperandStack, s'.Holds cap l ∧ pop m = .ok b (m.withStack s) ∧
      pop (m.withStack s) = .ok a (m.withStack s') := by
  obtain ⟨s, hs₁, hpop₁⟩ := @pop_eq κ m cap (l ++ a.encode) b
    (by simpa [Value.encodeAll_cons] using hs)
  obtain ⟨s', hs₂, hpop₂⟩ := @pop_eq κ (m.withStack s) cap l a hs₁
  exact ⟨s, s', hs₂, hpop₁, hpop₂⟩

theorem pop_three {a b c : Value} (hs : m.stack.Holds cap (l ++ Value.encodeAll [a, b, c])) :
    ∃ s s' s'' : OperandStack, s''.Holds cap l ∧ pop m = .ok c (m.withStack s) ∧
      pop (m.withStack s) = .ok b (m.withStack s') ∧
      pop (m.withStack s') = .ok a (m.withStack s'') := by
  obtain ⟨s, hs₁, hpop₁⟩ := @pop_eq κ m cap (l ++ Value.encodeAll [a, b]) c
    (by simpa [Value.encodeAll_cons] using hs)
  obtain ⟨s', s'', hs₂, hpop₂, hpop₃⟩ := @pop_two κ (m.withStack s) cap l a b hs₁
  exact ⟨s, s', s'', hs₂, hpop₁, hpop₂, hpop₃⟩

theorem binary_produces {op : Opcode} {a b : Value}
    (hs : m.stack.Holds cap (l ++ Value.encodeAll [a, b])) :
    Produces (binary op m) m cap l (World.onHeap (Builtin.binary op a b) m.world) := by
  obtain ⟨s, s', hs', hpop, hpop'⟩ := pop_two hs
  simp only [binary, bind, EStateM.bind, hpop, hpop']
  exact produces_onHeap hs' _ m.world

section

variable [Console κ]

theorem execute_literal (hs : m.stack.Holds cap l) (a : Nat) {lit : Literal}
    (hstr : ∀ o, lit = .long o → m.heap.strAt o = .ok o) :
    Produces (execute (lit.instr.place a) m) m cap l (.ok lit.value m.world) := by
  have hpush := produces_push (m := m) hs lit.value m.world
  cases lit with
  | int n =>
      show Produces (push (.int n.toUInt16.toInt16) m) _ _ _ _
      rw [Int16.toInt16_toUInt16]
      exact hpush
  | float x => exact hpush
  | truth b => cases b <;> exact hpush
  | empty => exact hpush
  | char c => exact hpush
  | long o =>
      have hask : (askHeap (·.strAt o) : Step κ UInt16) m = .ok o m := by
        simp only [askHeap, hstr o rfl]
      show Produces ((askHeap (·.strAt o) >>= fun o => push (.str o)) m) _ _ _ _
      simp only [bind, EStateM.bind, hask]
      exact hpush

theorem execute_global (hs : m.stack.Holds cap l) (a : Nat) {id : Ident}
    (hid : m.heap.identAt id.offset = .ok id) :
    Produces (execute ((Place.global id).load.place a) m) m cap l (World.lookup id m.world) := by
  show Produces (getGlobal id.offset m) _ _ _ _
  simp only [getGlobal, askHeap, hid, bind, EStateM.bind, Action.get_apply,
    World.lookup, world]
  cases m.heap.identValue id with
  | unset => exact ⟨m, rfl, rfl⟩
  | _ => exact produces_push (m := m) hs _ m.world

theorem execute_array (a : Nat) {vs : List Value} (hlen : vs.length ≤ 255)
    (hs : m.stack.Holds cap (l ++ Value.encodeAll vs)) :
    Produces (execute ((Instr.withByte .array (UInt8.ofNat vs.length)).place a) m) m cap l
      (World.onHeap (Builtin.makeArray vs) m.world) := by
  have hcount : (UInt8.ofNat vs.length).toNat = vs.length := by
    rw [UInt8.toNat_ofNat']
    omega
  obtain ⟨s, hs', hpop⟩ := popMany_eq hs
  show Produces ((popMany (UInt8.ofNat vs.length).toNat >>= fun elems =>
    onHeap (Builtin.makeArray elems) >>= push) m) _ _ _ _
  rw [hcount]
  simp only [bind, EStateM.bind, hpop]
  exact produces_onHeap hs' _ m.world

theorem execute_input (hs : m.stack.Holds cap l) (a : Nat) :
    Produces (execute ((Instr.plain .input).place a) m) m cap l (World.readLine m.world) := by
  show Produces ((readLine >>= fun line => onHeap (Builtin.makeStr line) >>= push) m) _ _ _ _
  simp only [bind, EStateM.bind, readLine, World.readLine, world]
  cases Console.readLine? m.console with
  | none => exact ⟨m, rfl, rfl⟩
  | some x => exact produces_onHeap hs _ { m.world with console := x.2 }

theorem execute_unary {op : Opcode} (ha : op.arity? = some 1) (a : Nat) :
    (execute ((Instr.plain op).place a) : Step κ Unit) = unary op := by
  cases op <;> first | (cases ha; done) | rfl

theorem execute_binary {op : Opcode} (ha : op.arity? = some 2) (h₁ : op ≠ .left) (h₂ : op ≠ .right)
    (h₃ : op ≠ .index) (a : Nat) :
    (execute ((Instr.plain op).place a) : Step κ Unit) = binary op := by
  cases op <;> first | (cases ha; done) | rfl | exact absurd rfl ‹_ ≠ _›

theorem execute_left (a : Nat) {s n : Value}
    (hs : m.stack.Holds cap (l ++ Value.encodeAll [s, n])) :
    Produces (execute ((Instr.plain .left).place a) m) m cap l
      (World.onHeap (Builtin.left s n) m.world) := by
  obtain ⟨s₁, s₂, hs₂, hpop₁, hpop₂⟩ := pop_two hs
  show Produces ((do
    let n ← pop
    let s ← pop
    push (← onHeap (Builtin.left s n))) m) _ _ _ _
  simp only [bind, EStateM.bind, hpop₁, hpop₂]
  exact produces_onHeap hs₂ _ m.world

theorem execute_right (a : Nat) {s n : Value}
    (hs : m.stack.Holds cap (l ++ Value.encodeAll [s, n])) :
    Produces (execute ((Instr.plain .right).place a) m) m cap l
      (World.onHeap (Builtin.right s n) m.world) := by
  obtain ⟨s₁, s₂, hs₂, hpop₁, hpop₂⟩ := pop_two hs
  show Produces ((do
    let n ← pop
    let s ← pop
    push (← onHeap (Builtin.right s n))) m) _ _ _ _
  simp only [bind, EStateM.bind, hpop₁, hpop₂]
  exact produces_onHeap hs₂ _ m.world

theorem execute_index (a : Nat) {c k : Value}
    (hs : m.stack.Holds cap (l ++ Value.encodeAll [c, k])) :
    Produces (execute ((Instr.plain .index).place a) m) m cap l (World.index c k m.world) := by
  obtain ⟨s₁, s₂, hs₂, hpop₁, hpop₂⟩ := pop_two hs
  show Produces ((do
    let k ← pop
    let c ← pop
    match Builtin.index (← get).heap c k with
    | .ok v => push v
    | .error e => throw e) m) _ _ _ _
  simp only [bind, EStateM.bind, hpop₁, hpop₂, Action.get_apply,
    World.index, world, heap_withStack]
  cases Builtin.index m.heap c k with
  | ok v => exact produces_push (m := m) hs₂ v m.world
  | error e => exact ⟨_, rfl, rfl⟩

theorem execute_substr (a : Nat) {s start n : Value}
    (hs : m.stack.Holds cap (l ++ Value.encodeAll [s, start, n])) :
    Produces (execute ((Instr.plain .substr).place a) m) m cap l
      (World.onHeap (Builtin.substr s start n) m.world) := by
  obtain ⟨s₁, s₂, s₃, hs₃, hpop₁, hpop₂, hpop₃⟩ := pop_three hs
  show Produces ((do
    let n ← pop
    let start ← pop
    let s ← pop
    push (← onHeap (Builtin.substr s start n))) m) _ _ _ _
  simp only [bind, EStateM.bind, hpop₁, hpop₂, hpop₃]
  exact produces_onHeap hs₃ _ m.world

theorem execute_slice (a : Nat) {c i j : Value}
    (hs : m.stack.Holds cap (l ++ Value.encodeAll [c, i, j])) :
    Produces (execute ((Instr.plain .slice).place a) m) m cap l
      (World.onHeap (Builtin.slice c i j) m.world) := by
  obtain ⟨s₁, s₂, s₃, hs₃, hpop₁, hpop₂, hpop₃⟩ := pop_three hs
  show Produces ((do
    let j ← pop
    let k ← pop
    let c ← pop
    push (← onHeap (Builtin.slice c k j))) m) _ _ _ _
  simp only [bind, EStateM.bind, hpop₁, hpop₂, hpop₃]
  exact produces_onHeap hs₃ _ m.world

theorem execute_rnd (a : Nat) (hs : m.stack.Holds cap l) :
    Produces (execute ((Instr.plain .rnd).place a) m) m cap l (World.draw m.world) :=
  produces_push (m := m) hs _ { m.world with random := m.random.next.2 }

/-- An operation takes its operands and puts its result in their place. -/
theorem execute_apply (a : Nat) {op : Opcode} {args : List Value}
    (ha : op.arity? = some args.length) (hs : m.stack.Holds cap (l ++ Value.encodeAll args)) :
    Produces (execute ((Instr.plain op).place a) m) m cap l (World.operate op args m.world) := by
  cases World.applied_cases ha with
  | rnd =>
      simp only [Value.encodeAll_nil, List.append_nil] at hs
      exact execute_rnd a hs
  | left => exact execute_left a hs
  | right => exact execute_right a hs
  | index => exact execute_index a hs
  | substr => exact execute_substr a hs
  | slice => exact execute_slice a hs
  | unary ha ho =>
      rw [execute_unary ha, ho]
      exact unary_produces hs
  | binary ha h₁ h₂ h₃ ho =>
      rw [execute_binary ha h₁ h₂ h₃, ho]
      exact binary_produces hs

/-! ### Storing, printing and jumping -/

theorem execute_setGlobal (a : Nat) {id : Ident} {v : Value}
    (hid : m.heap.identAt id.offset = .ok id) (hs : m.stack.Holds cap (l ++ v.encode)) :
    ∃ s : OperandStack, s.Holds cap l ∧ execute ((Place.global id).store.place a) m =
      .ok () { m.withStack s with heap := m.heap.setIdentValue id v } := by
  obtain ⟨s, hs', hpop⟩ := pop_eq hs
  refine ⟨s, hs', ?_⟩
  show setGlobal id.offset m = _
  simp only [setGlobal, askHeap, hid, bind, EStateM.bind, hpop]
  rfl

/-- A slot of the current frame is somewhere in the middle of the stack. -/
theorem execute_getSlot (a : Nat) {k : UInt8} {v : Value} {pre post : List UInt8}
    (hs : m.stack.Holds cap l) (hl : l = pre ++ v.encode ++ post)
    (hpre : pre.length = m.fp + 3 * k.toNat) :
    Produces (execute ((Place.slot k).load.place a) m) m cap l
      (match v with
      | .unset => .error (.undefinedVariable ("local #" ++ toString k.toNat)) m.world
      | v => .ok v m.world) := by
  have hget : m.stack.get (m.slotOffset k) = .ok v := OperandStack.get_ok hs hl hpre.symm
  show Produces (getSlot k m) _ _ _ _
  simp only [getSlot, bind, EStateM.bind, Action.get_apply, hget]
  cases v with
  | unset => exact ⟨m, rfl, rfl⟩
  | _ => exact produces_push (m := m) hs _ m.world

theorem execute_setSlot (a : Nat) {k : UInt8} {v w : Value} {pre post : List UInt8}
    (hs : m.stack.Holds cap (l ++ v.encode)) (hl : l = pre ++ w.encode ++ post)
    (hpre : pre.length = m.fp + 3 * k.toNat) :
    ∃ s : OperandStack, s.Holds cap (pre ++ v.encode ++ post) ∧
      execute ((Place.slot k).store.place a) m = .ok () (m.withStack s) := by
  obtain ⟨s, hs', hpop⟩ := pop_eq hs
  obtain ⟨s', hset, hs''⟩ := OperandStack.set_ok (v := v) hs' hl hpre.symm
  refine ⟨s', hs'', ?_⟩
  show setSlot k m = _
  simp only [setSlot, bind, EStateM.bind, hpop, Action.get_apply]
  simp only [onStack, slotOffset, Value.size, withStack, hset]

theorem execute_print (a : Nat) {vs : List Value} (hlen : vs.length ≤ 255)
    (hs : m.stack.Holds cap (l ++ Value.encodeAll vs)) :
    ∃ s : OperandStack, s.Holds cap l ∧
      execute ((Instr.withByte .print (UInt8.ofNat vs.length)).place a) m =
        .ok () { m.withStack s with
          console := Console.writeLine (printedLine m.heap vs) m.console } := by
  have hcount : (UInt8.ofNat vs.length).toNat = vs.length := by
    rw [UInt8.toNat_ofNat']
    omega
  obtain ⟨s, hs', hpop⟩ := popMany_eq hs
  refine ⟨s, hs', ?_⟩
  show (do
    let values ← popMany (UInt8.ofNat vs.length).toNat
    writeLine (printedLine (← get).heap values) : Step κ Unit) m = _
  rw [hcount]
  simp only [bind, EStateM.bind, hpop]
  rfl

theorem execute_jump (a : Nat) (w : UInt16) :
    execute ((Instr.withWord .jump w).place a) m =
      .ok () { m with pc := ((Instr.withWord .jump w).place a).jumpCounter } :=
  rfl

/-- A branch asks for a truth value. -/
def branched (m : Machine κ) (target : Nat) : Value → EStateM.Result Fault (Machine κ) Unit
  | .bool true => .ok () m
  | .bool false => .ok () { m with pc := target }
  | v => .error (.typeMismatch "condition" [v.kindName]) m

theorem execute_branch (a : Nat) (w : UInt16) {v : Value} (hs : m.stack.Holds cap (l ++ v.encode)) :
    ∃ s : OperandStack, s.Holds cap l ∧ execute ((Instr.withWord .jfalse w).place a) m =
      branched (m.withStack s) ((Instr.withWord .jfalse w).place a).jumpCounter v := by
  obtain ⟨s, hs', hpop⟩ := pop_eq hs
  refine ⟨s, hs', ?_⟩
  show branch ((Instr.withWord .jfalse w).place a).jumpCounter m = _
  simp only [branch, bind, EStateM.bind, hpop]
  cases v with
  | bool b => cases b <;> rfl
  | _ => rfl

end

end Machine

end CellScript
