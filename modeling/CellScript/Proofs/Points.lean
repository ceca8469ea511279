import CellScript.Proofs.Layout
import CellScript.Proofs.Scopes

/-!
The points of a program.

At every address of the code of a tree two things are fixed that the bytes do not
show: which body the address belongs to, and how many operands lie on the stack
when control is there. `points` lists them together with the instructions. The
module then says what each instruction needs of its point and to which points it
leads (`Flows`), and shows that in the code of a fine tree every instruction finds
what it needs and leads to points only.
-/

namespace CellScript

/-- A place of control: an address, the body that it belongs to, and the number of operands. -/
structure Point where
  addr : Nat
  body : Option Definition
  height : Nat

/-- The body around as the names in it see it. -/
def Definition.scope (b : Option Definition) : Scope := b.map fun d => (d.isFunc, d.slots)

/-- Where there is a scope, there is a body around. -/
theorem Definition.body_of_scope {b : Option Definition} {isFunc : Bool} {n : Nat}
    (h : Definition.scope b = some (isFunc, n)) :
    ∃ d, b = some d ∧ d.isFunc = isFunc ∧ d.slots = n := by
  cases b with
  | none => cases h
  | some d =>
      cases h
      exact ⟨d, rfl, rfl, rfl⟩

/-! ### Listing the points -/

mutual

def Expr.points (b : Option Definition) (a h : Nat) : Expr → List (Point × Instr)
  | .literal l => [(⟨a, b, h⟩, l.instr)]
  | .name p => [(⟨a, b, h⟩, p.load)]
  | .apply op args =>
      Expr.pointsAll b a h args ++
        [(⟨a + (Expr.codeAll args).size, b, h + args.length⟩, .plain op)]
  | .array elems =>
      Expr.pointsAll b a h elems ++
        [(⟨a + (Expr.codeAll elems).size, b, h + elems.length⟩,
          .withByte .array (UInt8.ofNat elems.length))]
  | .call id args =>
      Expr.pointsAll b a h args ++
        [(⟨a + (Expr.codeAll args).size, b, h + args.length⟩,
          ⟨.callFunc, UInt8.ofNat args.length, id.offset⟩)]

def Expr.pointsAll (b : Option Definition) (a h : Nat) : List Expr → List (Point × Instr)
  | [] => []
  | e :: es => Expr.points b a h e ++ Expr.pointsAll b (a + e.code.size) (h + 1) es

end

/-- A line is put on the stack and stored at once. -/
def Place.inputPoints (b : Option Definition) (a : Nat) : List Place → List (Point × Instr)
  | [] => []
  | p :: ps =>
      (⟨a, b, 0⟩, .plain .input) :: (⟨a + 1, b, 1⟩, p.store) ::
        inputPoints b (a + 1 + p.store.size) ps

def Stmt.points (exit : Option Nat) (b : Option Definition) (a : Nat) : Stmt → List (Point × Instr)
  | skip => []
  | seq s t => s.points exit b a ++ t.points exit b (a + s.size)
  | assign p e => e.points b a 0 ++ [(⟨a + e.code.size, b, 1⟩, p.store)]
  | print es =>
      Expr.pointsAll b a 0 es ++
        [(⟨a + (Expr.codeAll es).size, b, es.length⟩, .withByte .print (UInt8.ofNat es.length))]
  | input ps => Place.inputPoints b a ps
  | perform id args =>
      Expr.pointsAll b a 0 args ++
        [(⟨a + (Expr.codeAll args).size, b, args.length⟩,
          ⟨.callProc, UInt8.ofNat args.length, id.offset⟩)]
  | ifThen c s =>
      let a' := a + c.code.size
      c.points b a 0 ++ (⟨a', b, 1⟩, .jump .jfalse a' (some (a' + 3 + s.size))) ::
        s.points exit b (a' + 3)
  | ifElse c s t =>
      let a' := a + c.code.size
      let e := a' + 3 + s.size
      c.points b a 0 ++ (⟨a', b, 1⟩, .jump .jfalse a' (some (e + 3))) ::
        s.points exit b (a' + 3) ++ (⟨e, b, 0⟩, .jump .jump e (some (e + 3 + t.size))) ::
        t.points exit b (e + 3)
  | whileDo c s =>
      let a' := a + c.code.size
      let e := a' + 3 + s.size
      c.points b a 0 ++ (⟨a', b, 1⟩, .jump .jfalse a' (some (e + 3))) ::
        s.points (some (e + 3)) b (a' + 3) ++ [(⟨e, b, 0⟩, .jump .jump e (some a))]
  | repeatUntil s c =>
      let e := a + s.size + c.code.size
      s.points (some (e + 3)) b a ++ c.points b (a + s.size) 0 ++
        [(⟨e, b, 1⟩, .jump .jfalse e (some a))]
  | exitLoop => [(⟨a, b, 0⟩, .jump .jump a exit)]
  | halt => [(⟨a, b, 0⟩, .plain .stop)]
  | returnValue e => e.points b a 0 ++ [(⟨a + e.code.size, b, 1⟩, .plain .returnFunc)]
  | returnBare => [(⟨a, b, 0⟩, .plain .returnProc)]
  | define d s =>
      (⟨a, b, 0⟩, .jump .jump a (some (a + 3 + s.size + 1))) :: s.points none (some d) (a + 3) ++
        [(⟨a + 3 + s.size, some d, 0⟩, bodyEnd d.isFunc)]

/-! ### Points and code -/

/-- The address and the instruction of a point. -/
def Point.key (x : Point × Instr) : Nat × Instr := (x.1.addr, x.2)

mutual

/-- The points of an expression are its code. -/
theorem Expr.points_layout (b : Option Definition) :
    ∀ (e : Expr) (a h : Nat), (e.points b a h).map Point.key = Code.layout a e.code
  | .literal _, _, _ => rfl
  | .name _, _, _ => rfl
  | .apply _ args, a, h => by
      rw [Expr.points, Expr.code, List.map_append, Code.layout_append, pointsAll_layout b args]
      rfl
  | .array elems, a, h => by
      rw [Expr.points, Expr.code, List.map_append, Code.layout_append, pointsAll_layout b elems]
      rfl
  | .call _ args, a, h => by
      rw [Expr.points, Expr.code, List.map_append, Code.layout_append, pointsAll_layout b args]
      rfl

theorem Expr.pointsAll_layout (b : Option Definition) :
    ∀ (es : List Expr) (a h : Nat),
      (Expr.pointsAll b a h es).map Point.key = Code.layout a (Expr.codeAll es)
  | [], _, _ => rfl
  | e :: es, a, h => by
      rw [Expr.pointsAll, Expr.codeAll, List.map_append, Code.layout_append, points_layout b e,
        pointsAll_layout b es]

end

theorem Place.inputPoints_layout (b : Option Definition) (ps : List Place) (a : Nat) :
    (inputPoints b a ps).map Point.key =
      Code.layout a (ps.flatMap fun p => [.plain .input, p.store]) := by
  induction ps generalizing a with
  | nil => rfl
  | cons p ps ih =>
      simp only [inputPoints, List.map_cons, ih]
      rfl

theorem Instr.size_wordJump {op : Opcode} (h : op.shape = .word) (a : Nat) (target : Option Nat) :
    (Instr.jump op a target).size = 3 := by
  rw [size_jump, h]
  rfl

/-- The points of a statement are its code. -/
theorem Stmt.points_layout (s : Stmt) (exit : Option Nat) (b : Option Definition) (a : Nat) :
    (s.points exit b a).map Point.key = Code.layout a (s.code exit a) := by
  have hfalse := @Instr.size_wordJump .jfalse rfl
  have hjump := @Instr.size_wordJump .jump rfl
  induction s generalizing exit b a with
  | skip => rfl
  | seq s t ihs iht =>
    simp only [points, code, List.map_append, Code.layout_append, ihs, iht, size_code]
  | assign p e =>
      rw [points, code, List.map_append, Code.layout_append, e.points_layout]
      rfl
  | print es =>
      rw [points, code, List.map_append, Code.layout_append, Expr.pointsAll_layout]
      rfl
  | input ps => exact Place.inputPoints_layout b ps a
  | perform id args =>
      rw [points, code, List.map_append, Code.layout_append, Expr.pointsAll_layout]
      rfl
  | ifThen c s ih =>
      simp only [points, code, List.map_append, List.map_cons, Code.layout_append, Code.layout,
        c.points_layout, ih, hfalse, Point.key]
  | ifElse c s t ihs iht =>
      simp only [points, code, List.map_append, List.map_cons, Code.layout_append, Code.layout,
        c.points_layout, ihs, iht, hfalse, hjump, Point.key, size_code, List.append_assoc,
        List.cons_append, Nat.add_assoc]
  | whileDo c s ih =>
      simp only [points, code, List.map_append, List.map_cons, Code.layout_append, Code.layout,
        c.points_layout, ih, hfalse, Point.key, size_code, List.append_assoc, List.cons_append,
        Nat.add_assoc, List.map_nil]
  | repeatUntil s c ih =>
      simp only [points, code, List.map_append, List.map_cons, Code.layout_append, Code.layout,
        c.points_layout, ih, Point.key, Code.size_append, size_code, List.map_nil, Nat.add_assoc]
  | exitLoop | halt | returnBare => rfl
  | returnValue e =>
      rw [points, code, List.map_append, Code.layout_append, e.points_layout]
      rfl
  | define d s ih =>
      simp only [points, code, List.map_append, List.map_cons, Code.layout_append, Code.layout, ih,
        hjump, Point.key, size_code, List.cons_append, List.map_nil, Nat.add_assoc]

/-! ### Where instructions lead -/

/-- An instruction has what it needs at its point, and each point behind it is in `S`. Operations
take their operands from the stack and leave their result there; how many operands a point has
is known, so that none is ever missing. -/
inductive Flows (rs : List Record) (S : Point → Prop) : Point → Instr → Prop
  | literal {a h : Nat} {b : Option Definition} {l : Literal} :
      l.Fine rs → S ⟨a + l.instr.size, b, h + 1⟩ → Flows rs S ⟨a, b, h⟩ l.instr
  | load {a h : Nat} {b : Option Definition} {p : Place} :
      p.Fine rs (Definition.scope b) → S ⟨a + p.load.size, b, h + 1⟩ → Flows rs S ⟨a, b, h⟩ p.load
  | store {a h : Nat} {b : Option Definition} {p : Place} :
      p.Writable rs (Definition.scope b) → S ⟨a + p.store.size, b, h⟩ →
      Flows rs S ⟨a, b, h + 1⟩ p.store
  | apply {a h n : Nat} {b : Option Definition} {op : Opcode} :
      op.arity? = some n → S ⟨a + 1, b, h + 1⟩ → Flows rs S ⟨a, b, h + n⟩ (.plain op)
  | array {a h n : Nat} {b : Option Definition} :
      n ≤ 255 → S ⟨a + 2, b, h + 1⟩ →
      Flows rs S ⟨a, b, h + n⟩ (.withByte .array (UInt8.ofNat n))
  | callFunc {a h n : Nat} {b : Option Definition} {id : Ident} :
      HasIdent rs id → n ≤ 255 → S ⟨a + 4, b, h + 1⟩ →
      Flows rs S ⟨a, b, h + n⟩ ⟨.callFunc, UInt8.ofNat n, id.offset⟩
  | callProc {a h n : Nat} {b : Option Definition} {id : Ident} :
      HasIdent rs id → n ≤ 255 → S ⟨a + 4, b, h⟩ →
      Flows rs S ⟨a, b, h + n⟩ ⟨.callProc, UInt8.ofNat n, id.offset⟩
  | print {a h n : Nat} {b : Option Definition} :
      n ≤ 255 → S ⟨a + 2, b, h⟩ → Flows rs S ⟨a, b, h + n⟩ (.withByte .print (UInt8.ofNat n))
  | input {a h : Nat} {b : Option Definition} :
      S ⟨a + 1, b, h + 1⟩ → Flows rs S ⟨a, b, h⟩ (.plain .input)
  | jump {a h target : Nat} {b : Option Definition} {w : UInt16} :
      ((Instr.withWord .jump w).place a).jumpCounter = target → S ⟨target, b, h⟩ →
      Flows rs S ⟨a, b, h⟩ (.withWord .jump w)
  | branch {a h target : Nat} {b : Option Definition} {w : UInt16} :
      ((Instr.withWord .jfalse w).place a).jumpCounter = target → S ⟨a + 3, b, h⟩ →
      S ⟨target, b, h⟩ → Flows rs S ⟨a, b, h + 1⟩ (.withWord .jfalse w)
  | halt {p : Point} : Flows rs S p (.plain .stop)
  | returnValue {a : Nat} {d : Definition} :
      d.isFunc = true → Flows rs S ⟨a, some d, 1⟩ (.plain .returnFunc)
  | returnBare {a : Nat} {d : Definition} :
      d.isFunc = false → Flows rs S ⟨a, some d, 0⟩ (.plain .returnProc)
  | missing {a : Nat} {d : Definition} :
      d.isFunc = true → Flows rs S ⟨a, some d, 0⟩ (.plain .returnMissing)

section

variable {rs : List Record} {S : Point → Prop}

/-- All instructions of a list flow. -/
def FlowAll (rs : List Record) (S : Point → Prop) (xs : List (Point × Instr)) : Prop :=
  ∀ x ∈ xs, Flows rs S x.1 x.2

theorem FlowAll.append {xs ys : List (Point × Instr)} (hx : FlowAll rs S xs)
    (hy : FlowAll rs S ys) : FlowAll rs S (xs ++ ys) := by
  intro x hm
  obtain hm | hm := List.mem_append.1 hm
  · exact hx x hm
  · exact hy x hm

theorem FlowAll.cons {p : Point} {i : Instr} {xs : List (Point × Instr)} (h : Flows rs S p i)
    (hx : FlowAll rs S xs) : FlowAll rs S ((p, i) :: xs) := by
  intro x hm
  obtain rfl | hm := List.mem_cons.1 hm
  · exact h
  · exact hx x hm

theorem FlowAll.singleton {p : Point} {i : Instr} (h : Flows rs S p i) : FlowAll rs S [(p, i)] :=
  FlowAll.cons h (by simp [FlowAll])

/-- All points of a list are in the set. -/
def InAll (S : Point → Prop) (xs : List (Point × Instr)) : Prop := ∀ x ∈ xs, S x.1

theorem InAll.append {xs ys : List (Point × Instr)} (h : InAll S (xs ++ ys)) :
    InAll S xs ∧ InAll S ys :=
  ⟨fun x hm => h x (List.mem_append_left _ hm), fun x hm => h x (List.mem_append_right _ hm)⟩

theorem InAll.cons {x : Point × Instr} {xs : List (Point × Instr)} (h : InAll S (x :: xs)) :
    S x.1 ∧ InAll S xs :=
  ⟨h x (List.mem_cons_self ..), fun y hm => h y (List.mem_cons_of_mem _ hm)⟩

/-- A jump with a target that it reaches. -/
theorem Flows.jumpTo {a h target : Nat} {b : Option Definition} (hr : Instr.InReach (a + 3) target)
    (ha : a + 3 ≤ 65535) (ht : target ≤ 65535) (hs : S ⟨target, b, h⟩) :
    Flows rs S ⟨a, b, h⟩ (.jump .jump a (some target)) :=
  .jump (Instr.jumpCounter_place rfl hr ha ht) hs

theorem Flows.branchTo {a h target : Nat} {b : Option Definition}
    (hr : Instr.InReach (a + 3) target) (ha : a + 3 ≤ 65535) (ht : target ≤ 65535)
    (hs : S ⟨a + 3, b, h⟩) (hs' : S ⟨target, b, h⟩) :
    Flows rs S ⟨a, b, h + 1⟩ (.jump .jfalse a (some target)) :=
  .branch (Instr.jumpCounter_place rfl hr ha ht) hs hs'

end

/-- An instruction that reads or writes a slot is for a slot of the body. -/
theorem Flows.slot {rs : List Record} {S : Point → Prop} {q : Point} {i : Instr}
    (h : Flows rs S q i) (hi : i.op = .slotGet ∨ i.op = .slotSet) :
    ∃ k : UInt8, (∀ a, (i.place a).byte = k) ∧
      (Place.slot k).Fine rs (Definition.scope q.body) := by
  cases h with
  | @load _ _ _ q hq =>
      cases q with
      | slot k => exact ⟨k, fun _ => rfl, hq⟩
      | global id => simp [Place.load, Instr.withWord] at hi
  | @store _ _ _ q hq =>
      cases q with
      | slot k => exact ⟨k, fun _ => rfl, hq⟩
      | global id => simp [Place.store, Instr.withWord] at hi
  | @literal _ _ _ l =>
      cases l with
      | truth b => cases b <;> simp [Literal.instr, Instr.plain] at hi
      | _ => simp [Literal.instr, Instr.plain, Instr.withByte, Instr.withWord] at hi
  | @apply _ _ _ _ op ha => cases op <;> first | (cases ha; done) | simp [Instr.plain] at hi
  | _ => simp [Instr.plain, Instr.withByte, Instr.withWord] at hi

/-! ### Expressions -/

mutual

/-- Control enters an expression at a point. -/
theorem Expr.enter {S : Point → Prop} {b : Option Definition} :
    ∀ (e : Expr) {a h : Nat}, InAll S (e.points b a h) → S ⟨a, b, h⟩
  | .literal _, _, _, hp => hp.cons.1
  | .name _, _, _, hp => hp.cons.1
  | .apply _ args, _, _, hp => Expr.enterAll args hp.append.1 hp.append.2.cons.1
  | .array elems, _, _, hp => Expr.enterAll elems hp.append.1 hp.append.2.cons.1
  | .call _ args, _, _, hp => Expr.enterAll args hp.append.1 hp.append.2.cons.1

theorem Expr.enterAll {S : Point → Prop} {b : Option Definition} :
    ∀ (es : List Expr) {a h : Nat}, InAll S (Expr.pointsAll b a h es) →
      S ⟨a + (Expr.codeAll es).size, b, h + es.length⟩ → S ⟨a, b, h⟩
  | [], _, _, _, hs => hs
  | e :: _, _, _, hp, _ => Expr.enter e hp.append.1

end

mutual

/-- Every instruction of a fine expression flows, if there is a point behind it with one
operand more. -/
theorem Expr.flows {rs : List Record} {S : Point → Prop} {b : Option Definition} :
    ∀ (e : Expr) {a h : Nat}, e.Fine rs (Definition.scope b) → InAll S (e.points b a h) →
      S ⟨a + e.code.size, b, h + 1⟩ → FlowAll rs S (e.points b a h)
  | .literal l, a, h, hf, _, hs => FlowAll.singleton (.literal hf (by simpa [Expr.code] using hs))
  | .name p, a, h, hf, _, hs => FlowAll.singleton (.load hf (by simpa [Expr.code] using hs))
  | .apply op args, a, h, hf, hp, hs => by
      obtain ⟨ha, hfs⟩ := hf
      have hsize : (Instr.plain op).size = 1 := by
        rw [Instr.plain, Instr.size, Opcode.shape_of_arity ha]
        rfl
      rw [Expr.code, Code.size_append, Code.size_cons, hsize, Code.size_nil] at hs
      exact FlowAll.append (Expr.flowsAll args hfs hp.append.1 hp.append.2.cons.1)
        (FlowAll.singleton (.apply ha hs))
  | .array elems, a, h, hf, hp, hs => by
      rw [Expr.code, Code.size_append] at hs
      exact FlowAll.append (Expr.flowsAll elems hf.2 hp.append.1 hp.append.2.cons.1)
        (FlowAll.singleton (.array hf.1 hs))
  | .call id args, a, h, hf, hp, hs => by
      rw [Expr.code, Code.size_append] at hs
      exact FlowAll.append (Expr.flowsAll args hf.2.2 hp.append.1 hp.append.2.cons.1)
        (FlowAll.singleton (.callFunc hf.1 hf.2.1 hs))

theorem Expr.flowsAll {rs : List Record} {S : Point → Prop} {b : Option Definition} :
    ∀ (es : List Expr) {a h : Nat}, Expr.FineAll rs (Definition.scope b) es →
      InAll S (Expr.pointsAll b a h es) → S ⟨a + (Expr.codeAll es).size, b, h + es.length⟩ →
      FlowAll rs S (Expr.pointsAll b a h es)
  | [], _, _, _, _, _ => by simp [Expr.pointsAll, FlowAll]
  | e :: es, a, h, hf, hp, hs => by
      have hs' : S ⟨a + e.code.size + (Expr.codeAll es).size, b, h + 1 + es.length⟩ := by
        rw [Expr.codeAll, Code.size_append, List.length_cons] at hs
        rwa [Nat.add_assoc, Nat.add_assoc, Nat.add_comm 1]
      exact FlowAll.append (Expr.flows e hf.1 hp.append.1 (Expr.enterAll es hp.append.2 hs'))
        (Expr.flowsAll es hf.2 hp.append.2 hs')

end

/-! ### Statements -/

theorem Place.enterInputs {S : Point → Prop} {b : Option Definition} {ps : List Place} {a : Nat}
    (hp : InAll S (inputPoints b a ps))
    (hs : S ⟨a + (ps.map fun p => 1 + p.store.size).sum, b, 0⟩) : S ⟨a, b, 0⟩ := by
  cases ps with
  | nil => exact hs
  | cons p ps => exact hp.cons.1

theorem Place.flowsInputs {rs : List Record} {S : Point → Prop} {b : Option Definition}
    {ps : List Place} {a : Nat} (hf : ∀ p ∈ ps, p.Writable rs (Definition.scope b))
    (hp : InAll S (inputPoints b a ps))
    (hs : S ⟨a + (ps.map fun p => 1 + p.store.size).sum, b, 0⟩) :
    FlowAll rs S (inputPoints b a ps) := by
  induction ps generalizing a with
  | nil => simp [inputPoints, FlowAll]
  | cons p ps ih =>
      have hs' : S ⟨a + 1 + p.store.size + (ps.map fun p => 1 + p.store.size).sum, b, 0⟩ := by
        rw [List.map_cons, List.sum_cons] at hs
        rwa [Nat.add_assoc, Nat.add_assoc, ← Nat.add_assoc 1]
      obtain ⟨hp₁, hp⟩ := hp.cons
      obtain ⟨hp₂, hp⟩ := hp.cons
      exact FlowAll.cons (.input hp₂) (FlowAll.cons
        (.store (hf p (List.mem_cons_self ..)) (enterInputs hp hs'))
        (ih (fun p hm => hf p (List.mem_cons_of_mem _ hm)) hp hs'))

/-- Control enters a statement at a point, if there is one behind it. -/
theorem Stmt.enter {S : Point → Prop} {s : Stmt} {exit : Option Nat} {b : Option Definition}
    {a : Nat} (hp : InAll S (s.points exit b a)) (hs : S ⟨a + s.size, b, 0⟩) : S ⟨a, b, 0⟩ := by
  induction s generalizing exit b a with
  | skip => exact hs
  | seq s t ihs iht =>
      rw [size, ← Nat.add_assoc] at hs
      exact ihs hp.append.1 (iht hp.append.2 hs)
  | assign p e => exact e.enter hp.append.1
  | print es =>
      refine Expr.enterAll es hp.append.1 ?_
      rw [Nat.zero_add]
      exact hp.append.2.cons.1
  | input ps => exact Place.enterInputs hp hs
  | perform id args =>
      refine Expr.enterAll args hp.append.1 ?_
      rw [Nat.zero_add]
      exact hp.append.2.cons.1
  | ifThen c s => exact c.enter hp.append.1
  | ifElse c s t => exact c.enter hp.append.1.append.1
  | whileDo c s => exact c.enter hp.append.1.append.1
  | repeatUntil s c ih => exact ih hp.append.1.append.1 (c.enter hp.append.1.append.2)
  | exitLoop | halt | returnBare => exact hp.cons.1
  | returnValue e => exact e.enter hp.append.1
  | define d s => exact hp.append.1.cons.1

/-- Every instruction of a fine statement flows, if there are points behind it and at the end of
the loop around. -/
theorem Stmt.flows {rs : List Record} {S : Point → Prop} {s : Stmt} {exit : Option Nat}
    {b : Option Definition} {a : Nat} (hf : s.Fine rs (Definition.scope b)) (hfit : s.Fits exit a)
    (henc : s.Enclosed) (hsize : a + s.size ≤ 65535) (hp : InAll S (s.points exit b a))
    (hs : S ⟨a + s.size, b, 0⟩) (hclosed : exit = none → s.breaks a = [])
    (hexit : ∀ target, exit = some target → target ≤ 65535 ∧ S ⟨target, b, 0⟩) :
    FlowAll rs S (s.points exit b a) := by
  induction s generalizing exit b a with
  | skip => simp [points, FlowAll]
  | seq s t ihs iht =>
      rw [size, ← Nat.add_assoc] at hs hsize
      obtain ⟨hp₁, hp₂⟩ := hp.append
      simp only [breaks, List.append_eq_nil_iff] at hclosed
      -- An empty block has no point of its own: `enter` then falls back on the one behind it.
      have hs' := t.enter hp₂ hs
      exact FlowAll.append
        (ihs hf.1 hfit.1 henc.1 (by omega) hp₁ hs' (fun h => (hclosed h).1) hexit)
        (iht hf.2 hfit.2 henc.2 hsize hp₂ hs (fun h => (hclosed h).2) hexit)
  | assign p e =>
      obtain ⟨hp₁, hp₂⟩ := hp.append
      rw [size, ← Nat.add_assoc] at hs
      exact FlowAll.append (e.flows hf.1 hp₁ hp₂.cons.1) (FlowAll.singleton (.store hf.2 hs))
  | print es =>
      obtain ⟨hp₁, hp₂⟩ := hp.append
      rw [size, ← Nat.add_assoc] at hs
      have hflow := @Flows.print rs S _ 0 es.length b hf.1 hs
      rw [Nat.zero_add] at hflow
      refine FlowAll.append (Expr.flowsAll es hf.2 hp₁ ?_) (FlowAll.singleton hflow)
      rw [Nat.zero_add]
      exact hp₂.cons.1
  | input ps => exact Place.flowsInputs hf hp hs
  | perform id args =>
      obtain ⟨hp₁, hp₂⟩ := hp.append
      rw [size, ← Nat.add_assoc] at hs
      have hflow := @Flows.callProc rs S _ 0 args.length b id hf.1 hf.2.1 hs
      rw [Nat.zero_add] at hflow
      refine FlowAll.append (Expr.flowsAll args hf.2.2 hp₁ ?_) (FlowAll.singleton hflow)
      rw [Nat.zero_add]
      exact hp₂.cons.1
  | ifThen c s ih =>
      obtain ⟨hp₁, hp₂⟩ := hp.append
      obtain ⟨hp₂, hp₃⟩ := hp₂.cons
      simp only [size, ← Nat.add_assoc] at hs hsize
      exact FlowAll.append (c.flows hf.1 hp₁ hp₂) (FlowAll.cons
        (.branchTo hfit.1 (by omega) hsize (s.enter hp₃ hs) hs)
        (ih hf.2 hfit.2 henc hsize hp₃ hs hclosed hexit))
  | ifElse c s t ihs iht =>
      obtain ⟨hp, hp₄⟩ := hp.append
      obtain ⟨hp₁, hp₂⟩ := hp.append
      obtain ⟨hp₂, hp₃⟩ := hp₂.cons
      obtain ⟨hp₄, hp₅⟩ := hp₄.cons
      obtain ⟨hfit₁, hfit₂, hfit₃, hfit₄⟩ := hfit
      simp only [size, ← Nat.add_assoc] at hs hsize
      simp only [breaks, List.append_eq_nil_iff] at hclosed
      have hs' := t.enter hp₅ hs
      exact FlowAll.append (FlowAll.append (c.flows hf.1 hp₁ hp₂) (FlowAll.cons
          (.branchTo hfit₁ (by omega) (by omega) (s.enter hp₃ hp₄) hs')
          (ihs hf.2.1 hfit₂ henc.1 (by omega) hp₃ hp₄ (fun h => (hclosed h).1) hexit)))
        (FlowAll.cons (.jumpTo hfit₃ (by omega) hsize hs)
          (iht hf.2.2 hfit₄ henc.2 hsize hp₅ hs (fun h => (hclosed h).2) hexit))
  | whileDo c s ih =>
      obtain ⟨hp, hp₄⟩ := hp.append
      obtain ⟨hp₁, hp₂⟩ := hp.append
      obtain ⟨hp₂, hp₃⟩ := hp₂.cons
      obtain ⟨hp₄, -⟩ := hp₄.cons
      obtain ⟨hfit₁, hfit₂, hfit₃⟩ := hfit
      simp only [size, ← Nat.add_assoc] at hs hsize
      refine FlowAll.append (FlowAll.append (c.flows hf.1 hp₁ hp₂) (FlowAll.cons
          (.branchTo hfit₁ (by omega) hsize (s.enter hp₃ hp₄) hs)
          (ih hf.2 hfit₂ henc (by omega) hp₃ hp₄ (by simp) ?_)))
        (FlowAll.singleton (.jumpTo hfit₃ (by omega) (by omega) (c.enter hp₁)))
      rintro _ ⟨⟩
      exact ⟨hsize, hs⟩
  | repeatUntil s c ih =>
      obtain ⟨hp, hp₃⟩ := hp.append
      obtain ⟨hp₁, hp₂⟩ := hp.append
      obtain ⟨hp₃, -⟩ := hp₃.cons
      obtain ⟨hfit₁, hfit₂⟩ := hfit
      simp only [size, ← Nat.add_assoc] at hs hsize
      have hs' := c.enter hp₂
      refine FlowAll.append (FlowAll.append (ih hf.2 hfit₁ henc (by omega) hp₁ hs' (by simp) ?_)
          (c.flows hf.1 hp₂ hp₃))
        (FlowAll.singleton (.branchTo hfit₂ hsize (by omega) hs (s.enter hp₁ hs')))
      rintro _ ⟨⟩
      exact ⟨hsize, hs⟩
  | exitLoop =>
      cases exit with
      | none => simp [breaks] at hclosed
      | some target =>
          obtain ⟨ht, hs'⟩ := hexit target rfl
          exact FlowAll.singleton (.jumpTo (hfit target rfl) hsize ht hs')
  | halt => exact FlowAll.singleton .halt
  | returnValue e =>
      obtain ⟨hp₁, hp₂⟩ := hp.append
      obtain ⟨hf, n, hb⟩ := hf
      obtain ⟨d, rfl, hd, -⟩ := Definition.body_of_scope hb
      exact FlowAll.append (e.flows hf hp₁ hp₂.cons.1) (FlowAll.singleton (.returnValue hd))
  | returnBare =>
      obtain ⟨n, hb⟩ := hf
      obtain ⟨d, rfl, hd, -⟩ := Definition.body_of_scope hb
      exact FlowAll.singleton (.returnBare hd)
  | define d s ih =>
      obtain ⟨hp, hp₃⟩ := hp.append
      obtain ⟨hp₁, hp₂⟩ := hp.cons
      obtain ⟨hp₃, -⟩ := hp₃.cons
      obtain ⟨-, -, -, hf⟩ := hf
      simp only [size, ← Nat.add_assoc] at hs hsize
      -- The end of a body is reached by control as well: it returns, or stops for want of a value.
      have hend : Flows rs S ⟨a + 3 + s.size, some d, 0⟩ (bodyEnd d.isFunc) := by
        cases hd : d.isFunc with
        | false => exact .returnBare hd
        | true => exact .missing hd
      exact FlowAll.append (FlowAll.cons (.jumpTo hfit.1 (by omega) hsize hs)
          (ih hf hfit.2 henc.2 (by omega) hp₂ hp₃ (fun _ => henc.1 _) (by simp)))
        (FlowAll.singleton hend)

/-! ### Programs -/

/-- The points of a program; the last one is that of the final `stop`. -/
def Stmt.programPoints (t : Stmt) : List (Point × Instr) :=
  t.points none none 0 ++ [(⟨t.size, none, 0⟩, .plain .stop)]

/-- Control can be at the point. -/
def Stmt.HasPoint (t : Stmt) (p : Point) : Prop := ∃ i, (p, i) ∈ t.programPoints

/-- The whole code of a program. -/
def Stmt.program (t : Stmt) : Code := t.code none 0 ++ [.plain .stop]

theorem Stmt.programPoints_layout (t : Stmt) :
    t.programPoints.map Point.key = Code.layout 0 t.program := by
  rw [programPoints, program, List.map_append, Code.layout_append, t.points_layout, size_code,
    Nat.zero_add]
  rfl

theorem Stmt.mem_layout {t : Stmt} {x : Point × Instr} (hx : x ∈ t.programPoints) :
    (x.1.addr, x.2) ∈ Code.layout 0 t.program := by
  rw [← t.programPoints_layout]
  exact List.mem_map_of_mem hx

/-- The address of a point says which body it belongs to and how many operands it has. -/
theorem Stmt.HasPoint.unique {t : Stmt} {p q : Point} (hp : t.HasPoint p) (hq : t.HasPoint q)
    (h : p.addr = q.addr) : p = q := by
  obtain ⟨i, hi⟩ := hp
  obtain ⟨j, hj⟩ := hq
  have hinc : t.programPoints.Pairwise fun x y => x.1.addr < y.1.addr := by
    have hlayout := Code.layout_increasing 0 t.program
    rw [← t.programPoints_layout, List.pairwise_map] at hlayout
    exact hlayout
  -- Of two different points one has the lower address.
  rw [List.pairwise_iff_getElem] at hinc
  obtain ⟨m, hm, hi⟩ := List.mem_iff_getElem.1 hi
  obtain ⟨n, hn, hj⟩ := List.mem_iff_getElem.1 hj
  obtain hlt | rfl | hlt := Nat.lt_trichotomy m n
  · have := hinc m n hm hn hlt
    rw [hi, hj] at this
    exact absurd h (Nat.ne_of_lt this)
  · exact congrArg Prod.fst (hi.symm.trans hj)
  · have := hinc n m hn hm hlt
    rw [hi, hj] at this
    exact absurd h (Nat.ne_of_gt this)

/-- Every instruction of a program flows. -/
theorem Program.IsCodeOf.flowAll {p : Program} {t : Stmt} {rs : List Record} (h : p.IsCodeOf t)
    (hf : t.Fine rs none) : FlowAll rs t.HasPoint t.programPoints := by
  have hin : InAll t.HasPoint t.programPoints := fun x hx => ⟨x.2, hx⟩
  obtain ⟨hpoints, hlast⟩ := hin.append
  have hlt := h.size_lt
  refine FlowAll.append (t.flows hf h.fits h.enclosed (by omega) hpoints ?_ (fun _ => h.closed)
    (by simp)) (FlowAll.singleton .halt)
  rw [Nat.zero_add]
  exact hlast.cons.1

/-- Every point of a program has its instruction, which flows. -/
theorem Program.IsCodeOf.flows {p : Program} {t : Stmt} {rs : List Record} (h : p.IsCodeOf t)
    (hf : t.Fine rs none) {q : Point} (hq : t.HasPoint q) :
    ∃ i : Instr, (q, i) ∈ t.programPoints ∧
      Instruction.decode? p.code q.addr = some (i.place q.addr) ∧ Flows rs t.HasPoint q i := by
  obtain ⟨i, hi⟩ := hq
  exact ⟨i, hi, h.placed.decode? (Stmt.mem_layout hi), h.flowAll hf _ hi⟩

/-! ### Statements and bodies among the points -/

/-- No operand is left where a statement begins. -/
theorem Stmt.starts_point {S : Point → Prop} {s : Stmt} {exit : Option Nat} {b : Option Definition}
    {a x : Nat} (hp : InAll S (s.points exit b a)) (hs : S ⟨a + s.size, b, 0⟩)
    (hx : x ∈ s.starts a) : ∃ b', S ⟨x, b', 0⟩ := by
  -- The first statement of a block begins where the block does.
  have hfirst := s.enter hp hs
  induction s generalizing exit b a with
  | skip => cases hx
  | seq s t ihs iht =>
      rw [size, ← Nat.add_assoc] at hs
      obtain ⟨hp₁, hp₂⟩ := hp.append
      have hs' := t.enter hp₂ hs
      obtain hx | hx := List.mem_append.1 hx
      · exact ihs hp₁ hs' hx hfirst
      · exact iht hp₂ hs hx hs'
  | ifThen c s ih =>
      obtain ⟨-, hp₂⟩ := hp.append
      obtain ⟨-, hp₃⟩ := hp₂.cons
      simp only [size, ← Nat.add_assoc] at hs
      simp only [starts, List.cons_append, List.mem_cons, List.mem_append, List.not_mem_nil,
        or_false] at hx
      obtain rfl | hx | rfl := hx
      · exact ⟨b, hfirst⟩
      · exact ih hp₃ hs hx (s.enter hp₃ hs)
      · exact ⟨b, hs⟩
  | ifElse c s t ihs iht =>
      obtain ⟨hp, hp₄⟩ := hp.append
      obtain ⟨-, hp₂⟩ := hp.append
      obtain ⟨-, hp₃⟩ := hp₂.cons
      obtain ⟨hp₄, hp₅⟩ := hp₄.cons
      simp only [size, ← Nat.add_assoc] at hs
      simp only [starts, List.cons_append, List.append_assoc, List.mem_cons, List.mem_append,
        List.not_mem_nil, or_false] at hx
      obtain rfl | hx | rfl | hx | rfl := hx
      · exact ⟨b, hfirst⟩
      · exact ihs hp₃ hp₄ hx (s.enter hp₃ hp₄)
      · exact ⟨b, hp₄⟩
      · exact iht hp₅ hs hx (t.enter hp₅ hs)
      · exact ⟨b, hs⟩
  | whileDo c s ih =>
      obtain ⟨hp, hp₄⟩ := hp.append
      obtain ⟨-, hp₂⟩ := hp.append
      obtain ⟨-, hp₃⟩ := hp₂.cons
      obtain ⟨hp₄, -⟩ := hp₄.cons
      simp only [starts, List.cons_append, List.mem_cons, List.mem_append, List.not_mem_nil,
        or_false] at hx
      obtain rfl | hx | rfl := hx
      · exact ⟨b, hfirst⟩
      · exact ih hp₃ hp₄ hx (s.enter hp₃ hp₄)
      · exact ⟨b, hp₄⟩
  | repeatUntil s c ih =>
      obtain ⟨hp, -⟩ := hp.append
      obtain ⟨hp₁, hp₂⟩ := hp.append
      simp only [starts, List.cons_append, List.mem_cons, List.mem_append, List.not_mem_nil,
        or_false] at hx
      obtain rfl | hx | rfl := hx
      · exact ⟨b, hfirst⟩
      · exact ih hp₁ (c.enter hp₂) hx hfirst
      · exact ⟨b, c.enter hp₂⟩
  | define d s ih =>
      obtain ⟨hp, hp₃⟩ := hp.append
      obtain ⟨-, hp₂⟩ := hp.cons
      obtain ⟨hp₃, -⟩ := hp₃.cons
      simp only [starts, List.cons_append, List.mem_cons, List.mem_append, List.not_mem_nil,
        or_false] at hx
      obtain rfl | hx | rfl := hx
      · exact ⟨b, hfirst⟩
      · exact ih hp₂ hp₃ hx (s.enter hp₂ hp₃)
      · exact ⟨some d, hp₃⟩
  | _ =>
      obtain rfl := List.mem_singleton.1 hx
      exact ⟨b, hfirst⟩

/-- The body of a definition begins at a point of its own. -/
theorem Stmt.definitions_point {S : Point → Prop} {s : Stmt} {exit : Option Nat}
    {b : Option Definition} {a : Nat} {d : Definition × Nat} (hp : InAll S (s.points exit b a))
    (hd : d ∈ s.definitions a) : S ⟨d.2, some d.1, 0⟩ := by
  induction s generalizing exit b a with
  | seq s t ihs iht =>
      obtain hd | hd := List.mem_append.1 hd
      · exact ihs hp.append.1 hd
      · exact iht hp.append.2 hd
  | define d s ih =>
      obtain rfl := List.mem_singleton.1 hd
      obtain ⟨hp, hp₃⟩ := hp.append
      exact s.enter hp.cons.2 hp₃.cons.1
  | _ => cases hd

theorem Stmt.hasPoint_start {t : Stmt} {x : Nat} (hx : x ∈ t.starts 0) :
    ∃ b, t.HasPoint ⟨x, b, 0⟩ := by
  have hin : InAll t.HasPoint t.programPoints := fun x hx => ⟨x.2, hx⟩
  refine Stmt.starts_point hin.append.1 ?_ hx
  rw [Nat.zero_add]
  exact hin.append.2.cons.1

theorem Stmt.hasPoint_zero (t : Stmt) : t.HasPoint ⟨0, none, 0⟩ := by
  have hin : InAll t.HasPoint t.programPoints := fun x hx => ⟨x.2, hx⟩
  refine Stmt.enter hin.append.1 ?_
  rw [Nat.zero_add]
  exact hin.append.2.cons.1

theorem Stmt.hasPoint_definition {t : Stmt} {d : Definition × Nat} (hd : d ∈ t.definitions 0) :
    t.HasPoint ⟨d.2, some d.1, 0⟩ := by
  have hin : InAll t.HasPoint t.programPoints := fun x hx => ⟨x.2, hx⟩
  exact Stmt.definitions_point hin.append.1 hd

/-! ### The body around an address -/

/-- The innermost definition in whose body an address lies, in a statement whose code begins
at `a`. -/
def Stmt.bodyAt (pc a : Nat) : Stmt → Option Definition
  | seq s t => (s.bodyAt pc a).or (t.bodyAt pc (a + s.size))
  | ifThen c s | whileDo c s => s.bodyAt pc (a + c.code.size + 3)
  | ifElse c s t =>
      (s.bodyAt pc (a + c.code.size + 3)).or (t.bodyAt pc (a + c.code.size + 3 + s.size + 3))
  | repeatUntil s _ => s.bodyAt pc a
  | define d s =>
      if a + 3 ≤ pc ∧ pc ≤ a + 3 + s.size then (s.bodyAt pc (a + 3)).or (some d) else none
  | _ => none

theorem Stmt.bodyAt_outside {s : Stmt} {pc a : Nat} (h : pc < a ∨ a + s.size ≤ pc) :
    s.bodyAt pc a = none := by
  induction s generalizing a with
  | seq s t ihs iht =>
      simp only [size] at h
      rw [bodyAt, ihs (by omega), iht (by omega)]
      rfl
  | ifThen c s ih | whileDo c s ih =>
      simp only [size] at h
      exact ih (by omega)
  | ifElse c s t ihs iht =>
      simp only [size] at h
      rw [bodyAt, ihs (by omega), iht (by omega)]
      rfl
  | repeatUntil s c ih =>
      simp only [size] at h
      exact ih (by omega)
  | define d s ih =>
      simp only [size] at h
      rw [bodyAt, if_neg (by omega)]
  | _ => rfl

mutual

theorem Expr.points_body {b : Option Definition} {x : Point × Instr} :
    ∀ (e : Expr) {a h : Nat}, x ∈ e.points b a h → x.1.body = b
  | .literal _, _, _, hx => by
      obtain rfl := List.mem_singleton.1 hx
      rfl
  | .name _, _, _, hx => by
      obtain rfl := List.mem_singleton.1 hx
      rfl
  | .apply _ args, _, _, hx => Expr.pointsAll_body args hx
  | .array elems, _, _, hx => Expr.pointsAll_body elems hx
  | .call _ args, _, _, hx => Expr.pointsAll_body args hx

/-- Several expressions and the instruction behind them. -/
theorem Expr.pointsAll_body {b : Option Definition} {x : Point × Instr} :
    ∀ (es : List Expr) {a h a' h' : Nat} {i : Instr},
      x ∈ Expr.pointsAll b a h es ++ [(⟨a', b, h'⟩, i)] → x.1.body = b
  | [], _, _, _, _, _, hx => by
      obtain rfl := List.mem_singleton.1 hx
      rfl
  | e :: es, a, h, a', h', i, hx => by
      rw [Expr.pointsAll, List.append_assoc] at hx
      obtain hx | hx := List.mem_append.1 hx
      · exact Expr.points_body e hx
      · exact Expr.pointsAll_body es hx

end

theorem Place.inputPoints_body {b : Option Definition} {x : Point × Instr}
    {ps : List Place} {a : Nat} (hx : x ∈ inputPoints b a ps) : x.1.body = b := by
  induction ps generalizing a with
  | nil => cases hx
  | cons p ps ih =>
      obtain rfl | hx := List.mem_cons.1 hx
      · rfl
      · obtain rfl | hx := List.mem_cons.1 hx
        · rfl
        · exact ih hx

theorem Expr.points_within {e : Expr} {b : Option Definition} {a h : Nat} {x : Point × Instr}
    (hx : x ∈ e.points b a h) : a ≤ x.1.addr ∧ x.1.addr < a + e.code.size := by
  have hkey : Point.key x ∈ Code.layout a e.code := by
    rw [← e.points_layout b a h]
    exact List.mem_map_of_mem hx
  exact ⟨Code.layout_le hkey, Code.layout_lt hkey⟩

theorem Stmt.points_within {s : Stmt} {exit : Option Nat} {b : Option Definition} {a : Nat}
    {x : Point × Instr} (hx : x ∈ s.points exit b a) : a ≤ x.1.addr ∧ x.1.addr < a + s.size := by
  have hkey : Point.key x ∈ Code.layout a (s.code exit a) := by
    rw [← s.points_layout exit b a]
    exact List.mem_map_of_mem hx
  refine ⟨Code.layout_le hkey, ?_⟩
  rw [← s.size_code exit a]
  exact Code.layout_lt hkey

/-- A point belongs to the body around its address. -/
theorem Stmt.points_body {s : Stmt} {exit : Option Nat} {b : Option Definition} {a : Nat}
    {x : Point × Instr} (hx : x ∈ s.points exit b a) : x.1.body = (s.bodyAt x.1.addr a).or b := by
  -- Only the part that holds the address can hold a body around it; the others are `none`.
  have hwithin := points_within hx
  induction s generalizing exit b a with
  | skip => cases hx
  | seq s t ihs iht =>
      rw [bodyAt]
      obtain hx | hx := List.mem_append.1 hx
      · have hw := points_within hx
        rw [ihs hx hw, t.bodyAt_outside (by omega), Option.or_none]
      · have hw := points_within hx
        rw [iht hx hw, s.bodyAt_outside (by omega), Option.none_or]
  | assign p e =>
      obtain hx | hx := List.mem_append.1 hx
      · exact e.points_body hx
      · obtain rfl := List.mem_singleton.1 hx
        rfl
  | print es => exact Expr.pointsAll_body es hx
  | input ps => exact Place.inputPoints_body hx
  | perform id args => exact Expr.pointsAll_body args hx
  | ifThen c s ih =>
      obtain hx | hx := List.mem_append.1 hx
      · have hw := Expr.points_within hx
        rw [c.points_body hx, bodyAt, s.bodyAt_outside (by omega)]
        rfl
      · obtain rfl | hx := List.mem_cons.1 hx
        · simp only [bodyAt]
          rw [s.bodyAt_outside (by omega)]
          rfl
        · exact ih hx (points_within hx)
  | ifElse c s t ihs iht =>
      obtain hx | hx := List.mem_append.1 hx
      · obtain hx | hx := List.mem_append.1 hx
        · have hw := Expr.points_within hx
          rw [c.points_body hx, bodyAt, s.bodyAt_outside (by omega), t.bodyAt_outside (by omega)]
          rfl
        · obtain rfl | hx := List.mem_cons.1 hx
          · simp only [bodyAt]
            rw [s.bodyAt_outside (by omega), t.bodyAt_outside (by omega)]
            rfl
          · have hw := points_within hx
            rw [ihs hx hw, bodyAt, t.bodyAt_outside (by omega), Option.or_none]
      · obtain rfl | hx := List.mem_cons.1 hx
        · simp only [bodyAt]
          rw [s.bodyAt_outside (by omega), t.bodyAt_outside (by omega)]
          rfl
        · have hw := points_within hx
          rw [iht hx hw, bodyAt, s.bodyAt_outside (by omega), Option.none_or]
  | whileDo c s ih =>
      obtain hx | hx := List.mem_append.1 hx
      · obtain hx | hx := List.mem_append.1 hx
        · have hw := Expr.points_within hx
          rw [c.points_body hx, bodyAt, s.bodyAt_outside (by omega)]
          rfl
        · obtain rfl | hx := List.mem_cons.1 hx
          · simp only [bodyAt]
            rw [s.bodyAt_outside (by omega)]
            rfl
          · exact ih hx (points_within hx)
      · obtain rfl := List.mem_singleton.1 hx
        simp only [bodyAt]
        rw [s.bodyAt_outside (by omega)]
        rfl
  | repeatUntil s c ih =>
      obtain hx | hx := List.mem_append.1 hx
      · obtain hx | hx := List.mem_append.1 hx
        · exact ih hx (points_within hx)
        · have hw := Expr.points_within hx
          rw [c.points_body hx, bodyAt, s.bodyAt_outside (by omega)]
          rfl
      · obtain rfl := List.mem_singleton.1 hx
        simp only [bodyAt]
        rw [s.bodyAt_outside (by omega)]
        rfl
  | exitLoop | halt | returnBare =>
      obtain rfl := List.mem_singleton.1 hx
      rfl
  | returnValue e =>
      obtain hx | hx := List.mem_append.1 hx
      · exact e.points_body hx
      · obtain rfl := List.mem_singleton.1 hx
        rfl
  | define d s ih =>
      obtain hx | hx := List.mem_append.1 hx
      · obtain rfl | hx := List.mem_cons.1 hx
        · simp only [bodyAt]
          rw [if_neg (by omega)]
          rfl
        · have hw := points_within hx
          rw [ih hx hw, bodyAt, if_pos (by omega), Option.or_assoc, Option.some_or]
      · obtain rfl := List.mem_singleton.1 hx
        simp only [bodyAt]
        rw [if_pos (by omega), s.bodyAt_outside (by omega)]
        rfl

theorem Stmt.HasPoint.body_eq {t : Stmt} {p : Point} (h : t.HasPoint p) :
    p.body = t.bodyAt p.addr 0 := by
  obtain ⟨i, hi⟩ := h
  obtain hi | hi := List.mem_append.1 hi
  · have := points_body hi
    rwa [Option.or_none] at this
  · cases List.mem_singleton.1 hi
    simp only
    rw [t.bodyAt_outside (by omega)]

theorem Stmt.HasPoint.addr_le {t : Stmt} {p : Point} (h : t.HasPoint p) : p.addr ≤ t.size := by
  obtain ⟨i, hi⟩ := h
  obtain hi | hi := List.mem_append.1 hi
  · have hlt := (points_within hi).2
    rw [Nat.zero_add] at hlt
    exact Nat.le_of_lt hlt
  · cases List.mem_singleton.1 hi
    exact Nat.le_refl _

end CellScript
