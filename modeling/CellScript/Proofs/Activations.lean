import CellScript.Proofs.Calls
import CellScript.Proofs.Points

/-!
The state of a run.

A machine knows its stack only as bytes. Behind them stand the calls that are
active, each with its slots and with the operands that its caller had left under
the arguments, and the operands of the innermost call. `image` is the stack that
belongs to such a description, and `Running` says that a machine is described: it
is at a point of the program with as many operands as the point has, its stack is
the image, every return address is a point of the caller, and all values are
sound. The rest of the module shows that a step leads from one described machine
to another and lists the ways in which the description can change (`Moves`). The
only thing that is not shown here is that a call reserves enough slots for the
body it enters; it is a hypothesis on the step, `Wide`.
-/

namespace CellScript

/-- An active call. -/
structure Activation where
  body : Definition
  slots : List Value
  below : List Value
  ret : Nat

namespace Activation

/-- The body that is running. -/
def bodyOf : List Activation → Option Definition
  | [] => none
  | a :: _ => some a.body

mutual

/-- The stack of active calls, innermost first, and of the operands of the innermost one. -/
def image : List Activation → List Value → List UInt8
  | [], ops => Value.encodeAll ops
  | a :: as, ops =>
      Machine.framed (image as a.below) a.slots (base as) a.ret ++ Value.encodeAll ops

/-- Where the slots of the innermost call begin. -/
def base : List Activation → Nat
  | [] => 0
  | a :: as => (image as a.below).length

end

theorem image_append (as : List Activation) (ops ops' : List Value) :
    image as (ops ++ ops') = image as ops ++ Value.encodeAll ops' := by
  cases as with
  | nil => simp only [image, Value.encodeAll_append]
  | cons a as => simp only [image, Value.encodeAll_append, List.append_assoc]

theorem base_le_length (as : List Activation) (ops : List Value) :
    base as ≤ (image as ops).length := by
  cases as with
  | nil => exact Nat.zero_le _
  | cons a as =>
      rw [base, image, List.length_append, Machine.length_framed]
      omega

theorem length_image (a : Activation) (as : List Activation) (ops : List Value) :
    (image (a :: as) ops).length =
      base (a :: as) + 3 * a.slots.length + 6 + 3 * ops.length := by
  rw [image, List.length_append, Machine.length_framed, Value.length_encodeAll, base]

/-- Callers go on at points of theirs, with the result of a function as one operand more, and
every frame has the slots that its body needs. -/
def Linked (t : Stmt) : List Activation → Prop
  | [] => True
  | a :: as =>
      t.HasPoint ⟨a.ret, bodyOf as, a.below.length + (if a.body.isFunc then 1 else 0)⟩ ∧
        a.body.slots ≤ a.slots.length ∧ Linked t as

end Activation

/-- What is known of a program before it runs: its code is that of a tree, the names in the tree
have their records, and the records say what the definitions declare. -/
structure Program.Checked (p : Program) (t : Stmt) (rs : List Record) : Prop where
  code : p.IsCodeOf t
  fine : t.Fine rs none
  declares : p.heap.Declares rs (t.definitions 0)

/-- Every program that compiles is of this kind, and its table of names is in order. -/
theorem Program.stored_of_compile {source : Source} {limits : Limits} {p : Program}
    (h : compile source limits = .ok p) :
    ∃ t rs, Grammar.Reads source limits t p.store ∧ p.Checked t rs ∧ p.store.Ok rs := by
  obtain ⟨hv, -, t, hreads, hcode⟩ := compile_ok h
  have hvalid := Limits.valid_of_validate hv
  obtain ⟨rs, hstore, hdeclares, hfine⟩ :=
    hreads.declares hvalid.maxSlots.2 (Limits.buckets_pos hv)
  exact ⟨t, rs, hreads, ⟨hcode, hfine, hdeclares⟩, hstore⟩

theorem Program.checked_of_compile {source : Source} {limits : Limits} {p : Program}
    (h : compile source limits = .ok p) :
    ∃ t rs, Grammar.Reads source limits t p.store ∧ p.Checked t rs := by
  obtain ⟨t, rs, hreads, hp, -⟩ := stored_of_compile h
  exact ⟨t, rs, hreads, hp⟩

namespace Program.Checked

variable {p : Program} {t : Stmt} {rs : List Record}

/-- The frame of a call has room for its arguments, whatever name is called. -/
theorem arguments_le_slot (h : p.Checked t rs) {id : Ident} (hid : HasIdent rs id) :
    (p.heap.identArguments id).toNat ≤ (p.heap.identSlot id).toNat := by
  by_cases hdef : ∃ d ∈ t.definitions 0, d.1.id = id
  · obtain ⟨d, hd, rfl⟩ := hdef
    obtain ⟨hparams, hslots⟩ := h.fine.definitions hd
    have hentry := (h.declares.defined d hd).2
    have hs : p.heap.identSlot d.1.id = UInt8.ofNat d.1.slots := congrArg Entry.slot hentry
    have ha : p.heap.identArguments d.1.id = UInt8.ofNat d.1.params :=
      congrArg Entry.arguments hentry
    rw [hs, ha, UInt8.toNat_ofNat', UInt8.toNat_ofNat']
    omega
  · have hentry := h.declares.others id hid fun d hd he => hdef ⟨d, hd, he⟩
    have ha : p.heap.identArguments id = 0 := congrArg Entry.arguments hentry
    rw [ha]
    exact Nat.zero_le _

theorem entry_toNat (h : p.Checked t rs) {d : Definition × Nat} (hd : d ∈ t.definitions 0) :
    (UInt16.ofNat d.2).toNat = d.2 := by
  have hlt := (Stmt.definitions_within hd).2
  have hsize := h.code.size_lt
  rw [UInt16.toNat_ofNat']
  omega

/-- The value of a record that leads to a body tells which. -/
theorem entry_inj (h : p.Checked t rs) {d d' : Definition × Nat} (hd : d ∈ t.definitions 0)
    (hd' : d' ∈ t.definitions 0) (he : (d.1.entry d.2).value = (d'.1.entry d'.2).value) :
    d = d' := by
  have haddr : UInt16.ofNat d.2 = UInt16.ofNat d'.2 := by
    simp only [Definition.entry] at he
    split at he <;> split at he <;> injection he
  have := congrArg UInt16.toNat haddr
  rw [h.entry_toNat hd, h.entry_toNat hd'] at this
  exact Stmt.definitions_inj hd hd' this

theorem definition_of_id (h : p.Checked t rs) {d d' : Definition × Nat} (hd : d ∈ t.definitions 0)
    (hd' : d' ∈ t.definitions 0) (hid : d.1.id = d'.1.id) : d = d' := by
  have he := (h.declares.defined d hd).2
  rw [hid, (h.declares.defined d' hd').2] at he
  exact h.entry_inj hd hd' (congrArg Entry.value he.symm)

end Program.Checked

open Activation

/-- A machine that runs the program `p`, of which `t` is the tree. The heap has the records `rs`;
those of the names are among `rs₀`. -/
structure Running {κ : Type} (p : Program) (t : Stmt) (rs₀ : List Record) (cap : Nat)
    (rs : List Record) (m : Machine κ) (as : List Activation) (ops : List Value) : Prop where
  point : t.HasPoint ⟨m.pc, bodyOf as, ops.length⟩
  stack : m.stack.Holds cap (image as ops)
  fp : m.fp = base as
  depth : m.depth = as.length
  linked : Linked t as
  records : ∀ r ∈ rs₀, r ∈ rs
  heap : m.heap.Sound rs (t.definitions 0)
  operands : ∀ v ∈ ops, v.Sound rs (t.definitions 0)
  frames : ∀ a ∈ as, ∀ v, v ∈ a.slots ∨ v ∈ a.below → v.Sound rs (t.definitions 0)
  values : ∀ id, HasIdent rs₀ id → (m.heap.identValue id).Sound rs (t.definitions 0)
  counts : ∀ id, HasIdent rs₀ id → m.heap.identSlot id = p.heap.identSlot id ∧
    m.heap.identArguments id = p.heap.identArguments id

/-- How a step changes the description of a machine. -/
inductive Moves {κ : Type} (p : Program) (t : Stmt) (rs₀ : List Record) (m m' : Machine κ) :
    List Activation → List Value → List Activation → List Value → Prop
  | stay {as : List Activation} {ops ops' : List Value} :
      m.heap.Grows m'.heap → Moves p t rs₀ m m' as ops as ops'
  /-- A name gets a value. -/
  | assign {ops ops' : List Value} {id : Ident} {v : Value} :
      HasIdent rs₀ id →
      Instruction.decode? p.code m.pc = some ((Place.global id).store.place m.pc) →
      m'.heap = m.heap.setIdentValue id v → Moves p t rs₀ m m' [] ops [] ops'
  | slot {a : Activation} {as : List Activation} {ops ops' : List Value} {slots : List Value} :
      slots.length = a.slots.length → m'.heap = m.heap →
      Moves p t rs₀ m m' (a :: as) ops ({ a with slots } :: as) ops'
  | enter {a : Activation} {as : List Activation} {args : List Value} {id : Ident} {isProc : Bool} :
      Instruction.decode? p.code m.pc = some (Instr.place
        ⟨if isProc then .callProc else .callFunc, UInt8.ofNat args.length, id.offset⟩ m.pc) →
      (a.body, m'.pc) ∈ t.definitions 0 → a.body.isFunc = !isProc → a.ret = m.pc + 4 →
      args.length ≤ (m.heap.identSlot id).toNat →
      a.slots = Machine.slotsOf args (m.heap.identSlot id).toNat → m'.heap = m.heap →
      Moves p t rs₀ m m' as (a.below ++ args) (a :: as) []
  | leave {a : Activation} {as : List Activation} {ops result : List Value} :
      m'.pc = a.ret → result.length = (if a.body.isFunc then 1 else 0) → m'.heap = m.heap →
      Moves p t rs₀ m m' (a :: as) ops as (a.below ++ result)

namespace Machine

variable {κ : Type} {code : Array UInt8} {m : Machine κ}

/-- The name that a call at the program counter goes through. -/
def called (code : Array UInt8) (m : Machine κ) : Option Ident :=
  (Instruction.decode? code m.pc).map fun i => ⟨i.word⟩

/-- The slots that a call at the program counter reserves. -/
def calledSlots (code : Array UInt8) (m : Machine κ) : Nat :=
  match m.called code with
  | some id => (m.heap.identSlot id).toNat
  | none => 0

theorem called_eq {isProc : Bool} {id : Ident} {n : UInt8}
    (hd : Instruction.decode? code m.pc = some (Instr.place
      ⟨if isProc then .callProc else .callFunc, n, id.offset⟩ m.pc)) :
    m.called code = some id := by
  rw [called, hd]
  cases isProc <;> rfl

theorem calledSlots_eq {id : Ident} (h : m.called code = some id) :
    m.calledSlots code = (m.heap.identSlot id).toNat := by
  rw [calledSlots, h]

end Machine

/-- If the next step is a call, it reserves as many slots at least as the body that it enters
has parameters and locals. -/
def Wide {κ : Type} [Console κ] (p : Program) (t : Stmt) (m : Machine κ) : Prop :=
  ∀ m' d, Machine.step p.code m = .ok .next m' → m.depth < m'.depth →
    (d, m'.pc) ∈ t.definitions 0 → d.slots ≤ m.calledSlots p.code

end CellScript
