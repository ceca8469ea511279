import CellScript.Proofs.Layout

/-!
Jumps are patched in any order.

A `Draft` is a code buffer together with the jumps that have been emitted into it and what has
become of each of them. The buffer is extended, and the jumps are patched, each at most once, in
any order and to any address; operations that fail are passed over. Whatever has been done, each
jump stands in bytes of its own, and one with a target leads there (`Draft.Sound`). So patching
one of them disturbs none of the others, and what was right stays right.
-/

namespace CellScript

/-- The code of a jump whose target may follow later. -/
abbrev JumpOp := { op : Opcode // op = .jump ∨ op = .jfalse }

theorem JumpOp.shape_eq (op : JumpOp) : op.val.shape = .word := by
  obtain ⟨op, rfl | rfl⟩ := op <;> rfl

/-- What a jump may be told to lead to. Addresses are words of sixty-four bits with a sign. -/
abbrev Address := Fin (2 ^ 63)

/-- What has become of a jump. -/
inductive Fate where
  | pending
  /-- Its fixup was used up by a patch that failed. -/
  | lost
  | patched (target : Nat)
  /-- It was emitted with its target. -/
  | backward (target : Nat)
  deriving DecidableEq

namespace Fate

def target? : Fate → Option Nat
  | pending | lost => none
  | patched target | backward target => some target

/-- A fixup was issued for the jump, and no patch has succeeded. -/
def isOpen : Fate → Bool
  | pending | lost => true
  | patched _ | backward _ => false

end Fate

/-- A jump that was emitted, by the offset of its operand. -/
structure Jump where
  operand : Nat
  op : JumpOp
  fate : Fate
  deriving DecidableEq

/-- An operation on a buffer. Jumps are counted in the order in which they were emitted. -/
inductive Edit where
  | op (op : Opcode)
  | byte (b : UInt8)
  | word (w : UInt16)
  | forward (op : JumpOp)
  | backward (op : JumpOp) (target : Address)
  | patch (jump : Nat)
  | patchTo (jump : Nat) (target : Address)

/-- A buffer and its jumps. -/
structure Draft where
  buffer : CodeBuffer
  jumps : List Jump

namespace Draft

def emit (t : Draft) (act : CodeBuffer.Action Unit) : Draft :=
  match act t.buffer with
  | .ok _ b | .error _ b => { t with buffer := b }

/-- Uses the fixup of a jump, if it is at hand. -/
def use (t : Draft) (jump target : Nat) (act : Fixup → CodeBuffer.Action Unit) : Draft :=
  match t.jumps[jump]? with
  | some ⟨operand, op, .pending⟩ =>
    match act ⟨operand⟩ t.buffer with
    | .ok _ b => ⟨b, t.jumps.set jump ⟨operand, op, .patched target⟩⟩
    | .error _ b => ⟨b, t.jumps.set jump ⟨operand, op, .lost⟩⟩
  | _ => t

def step (t : Draft) : Edit → Draft
  | .op op => t.emit (CodeBuffer.emitOp op)
  | .byte b => t.emit (CodeBuffer.emitByte b)
  | .word w => t.emit (CodeBuffer.emitWord w)
  | .forward op =>
    match CodeBuffer.emitForward op t.buffer with
    | .ok f b => ⟨b, t.jumps ++ [⟨f.operand, op, .pending⟩]⟩
    | .error _ b => { t with buffer := b }
  | .backward op target =>
    match CodeBuffer.emitBackward op target t.buffer with
    | .ok _ b => ⟨b, t.jumps ++ [⟨t.buffer.pos + 1, op, .backward target⟩]⟩
    | .error _ b => { t with buffer := b }
  | .patch jump => t.use jump t.buffer.pos CodeBuffer.patch
  | .patchTo jump target => t.use jump target fun f => CodeBuffer.patchTo f target

def run (capacity : Nat) (edits : List Edit) : Draft :=
  edits.foldl step ⟨.ofCapacity capacity, []⟩

end Draft

/-- The instruction that is read where the jump was emitted leads to the target. -/
def Jump.Leads (j : Jump) (target : Nat) (code : Array UInt8) : Prop :=
  ∃ i, Instruction.decode? code (j.operand - 1) = some i ∧ i.op = j.op ∧
    i.jumpTarget = target ∧ i.jumpCounter = target

/-- The distance fits a signed word of sixteen bits. -/
def CodeBuffer.Fits (start target : Nat) : Prop :=
  -32768 ≤ (target : Int) - start ∧ (target : Int) - start ≤ 32767

/-! ### Single operations -/

namespace CodeBuffer

variable {b b' : CodeBuffer} {start target : Nat}

theorem inReach_iff_fits (hstart : start < 2 ^ 63) (htarget : target < 2 ^ 63) :
    Instr.InReach start target ↔ Fits start target := by
  rw [Instr.InReach, signedAddress_of_lt hstart, signedAddress_of_lt htarget, Fits]

/-- A distance that fits is what the operand says. -/
theorem distance_of_fits (hstart : start < 2 ^ 63) (htarget : target < 2 ^ 63)
    (h : Fits start target) :
    ∃ w, distance start target = .ok w ∧ signedWord w = (target : Int) - start := by
  have hreach := (inReach_iff_fits hstart htarget).2 h
  refine ⟨Instr.distanceWord start target, if_pos hreach, ?_⟩
  rw [signedWord_distanceWord hreach, signedAddress_of_lt hstart, signedAddress_of_lt htarget]

theorem distance_of_not_fits (hstart : start < 2 ^ 63) (htarget : target < 2 ^ 63)
    (h : ¬ Fits start target) : distance start target = .error (.jumpOutOfRange start target) :=
  if_neg (mt (inReach_iff_fits hstart htarget).1 h)

/-- The buffer with more bytes. -/
def extend (b : CodeBuffer) (bytes : List UInt8) : CodeBuffer := { b with code := b.code ++ bytes }

def settle (b : CodeBuffer) (operand : Nat) (w : UInt16) : CodeBuffer :=
  { b with
    code := (b.code.setIfInBounds operand (Word.hi w)).setIfInBounds (operand + 1) (Word.lo w)
    openFixups := b.openFixups - 1 }

/-- What a failed operation leaves: bytes may have been appended, as long as there was room. -/
def Spoilt (b b' : CodeBuffer) : Prop :=
  ∃ bytes, b' = b.extend bytes ∧ (b.code.size ≤ b.capacity → b'.code.size ≤ b.capacity)

theorem spoilt_refl (b : CodeBuffer) : b.Spoilt b := ⟨[], by simp [extend], id⟩

theorem emit_cases (bytes : List UInt8) (b : CodeBuffer) :
    (emit bytes b = .ok () (b.extend bytes) ∧ b.code.size + bytes.length ≤ b.capacity) ∨
      (emit bytes b = .error (.overflow b.capacity) b ∧
        b.capacity < b.code.size + bytes.length) := by
  unfold emit
  by_cases h : b.code.size + bytes.length > b.capacity
  · exact .inr ⟨if_pos h, h⟩
  · exact .inl ⟨if_neg h, by omega⟩

theorem extend_append (b : CodeBuffer) (bytes bytes' : List UInt8) :
    (b.extend bytes).extend bytes' = b.extend (bytes ++ bytes') := by
  simp [extend, Compiler.append_list_append]

theorem pos_extend (b : CodeBuffer) (bytes : List UInt8) :
    (b.extend bytes).pos = b.pos + bytes.length :=
  Compiler.size_append_list b.code bytes

theorem spoilt_extend {bytes : List UInt8} (h : b.code.size + bytes.length ≤ b.capacity) :
    b.Spoilt (b.extend bytes) :=
  ⟨bytes, rfl, fun _ => Nat.le_trans (Nat.le_of_eq (b.pos_extend bytes)) h⟩

/-- A jump is three bytes; where only the first one fits, it stays. -/
theorem emitForward_cases (op : Opcode) (b : CodeBuffer) :
    (emitForward op b = .ok ⟨b.pos + 1⟩
        { b.extend (op.toByte :: Word.bytes 0) with openFixups := b.openFixups + 1 } ∧
      b.code.size + 3 ≤ b.capacity) ∨
    ∃ b', emitForward op b = .error (.overflow b.capacity) b' ∧ b.Spoilt b' := by
  simp only [emitForward, emitOp, emitWord, bind, EStateM.bind]
  obtain ⟨hop, hroom⟩ | ⟨hop, -⟩ := emit_cases [op.toByte] b
  · simp only [hop]
    have hpos : (b.extend [op.toByte]).pos = b.pos + 1 := b.pos_extend _
    obtain ⟨hword, hroom'⟩ | ⟨hword, -⟩ := emit_cases (Word.bytes 0) (b.extend [op.toByte])
    · left
      rw [extend_append, List.singleton_append] at hword
      simp only [Action.get_apply, hword, hpos]
      exact ⟨rfl, Nat.le_trans (Nat.le_of_eq (congrArg (· + 2) hpos.symm)) hroom'⟩
    · right
      simp only [Action.get_apply, hword]
      exact ⟨_, rfl, spoilt_extend hroom⟩
  · simp only [hop]
    exact .inr ⟨b, rfl, b.spoilt_refl⟩

theorem emitBackward_cases (op : Opcode) (b : CodeBuffer) (hstart : b.pos + 3 < 2 ^ 63)
    (htarget : target < 2 ^ 63) :
    (∃ w, emitBackward op target b = .ok () (b.extend (op.toByte :: Word.bytes w)) ∧
      signedWord w = (target : Int) - (b.pos + 3 : Nat) ∧ b.code.size + 3 ≤ b.capacity) ∨
    (∃ b', emitBackward op target b = .error (.overflow b.capacity) b' ∧ b.Spoilt b') ∨
    ∃ b', emitBackward op target b = .error (.jumpOutOfRange (b.pos + 3) target) b' ∧
      b.Spoilt b' ∧ ¬ Fits (b.pos + 3) target := by
  simp only [emitBackward, emitOp, emitWord, bind, EStateM.bind]
  obtain ⟨hop, hroom⟩ | ⟨hop, -⟩ := emit_cases [op.toByte] b
  · have hpos : (b.extend [op.toByte]).pos + 2 = b.pos + 3 := by simp [extend, pos]
    simp only [hop, Action.get_apply, hpos]
    by_cases hfits : Fits (b.pos + 3) target
    · obtain ⟨w, hdistance, hw⟩ := distance_of_fits hstart htarget hfits
      rw [hdistance]
      obtain ⟨hword, hroom'⟩ | ⟨hword, -⟩ := emit_cases (Word.bytes w) (b.extend [op.toByte])
      · left
        rw [extend_append, List.singleton_append] at hword
        exact ⟨w, hword, hw, Nat.le_trans (Nat.le_of_eq hpos.symm) hroom'⟩
      · exact .inr (.inl ⟨_, hword, spoilt_extend hroom⟩)
    · rw [distance_of_not_fits hstart htarget hfits]
      exact .inr (.inr ⟨_, rfl, spoilt_extend hroom, hfits⟩)
  · simp only [hop]
    exact .inr (.inl ⟨b, rfl, b.spoilt_refl⟩)

theorem patchTo_of_fits {operand : Nat} (b : CodeBuffer) (hstart : operand + 2 < 2 ^ 63)
    (htarget : target < 2 ^ 63) (h : Fits (operand + 2) target) :
    ∃ w, patchTo ⟨operand⟩ target b = .ok () (b.settle operand w) ∧
      signedWord w = (target : Int) - (operand + 2 : Nat) := by
  obtain ⟨w, hdistance, hw⟩ := distance_of_fits hstart htarget h
  refine ⟨w, ?_, hw⟩
  unfold patchTo
  rw [hdistance]
  rfl

theorem patchTo_of_not_fits {operand : Nat} (b : CodeBuffer) (hstart : operand + 2 < 2 ^ 63)
    (htarget : target < 2 ^ 63) (h : ¬ Fits (operand + 2) target) :
    patchTo ⟨operand⟩ target b = .error (.jumpOutOfRange (operand + 2) target) b := by
  unfold patchTo
  rw [distance_of_not_fits hstart htarget h]
  rfl

theorem getElem?_settle_of_ne {operand i : Nat} (b : CodeBuffer) (w : UInt16) (h : i ≠ operand)
    (h' : i ≠ operand + 1) : (b.settle operand w).code[i]? = b.code[i]? := by
  rw [settle, Array.getElem?_setIfInBounds_ne h'.symm, Array.getElem?_setIfInBounds_ne h.symm]

theorem size_settle (b : CodeBuffer) (operand : Nat) (w : UInt16) :
    (b.settle operand w).code.size = b.code.size := by
  rw [settle, Array.size_setIfInBounds, Array.size_setIfInBounds]

end CodeBuffer

/-! ### Jumps in the code -/

namespace Jump

variable {j : Jump} {w : UInt16} {code code' : Array UInt8} {target : Nat}

/-- The bytes of the jump, with an operand. -/
structure Stands (j : Jump) (w : UInt16) (code : Array UInt8) : Prop where
  pos : 0 < j.operand
  op : code[j.operand - 1]? = some j.op.val.toByte
  hi : code[j.operand]? = some (Word.hi w)
  lo : code[j.operand + 1]? = some (Word.lo w)

theorem Stands.lt_size (h : j.Stands w code) : j.operand + 1 < code.size :=
  (Array.getElem?_eq_some_iff.1 h.lo).1

theorem Stands.congr (h : j.Stands w code)
    (hcode : ∀ i, j.operand ≤ i + 1 → i ≤ j.operand + 1 → code'[i]? = code[i]?) :
    j.Stands w code' where
  pos := h.pos
  op := (hcode _ (by omega) (by omega)).trans h.op
  hi := (hcode _ (by omega) (by omega)).trans h.hi
  lo := (hcode _ (by omega) (by omega)).trans h.lo

theorem Stands.decode? (h : j.Stands w code) :
    Instruction.decode? code (j.operand - 1) = some ⟨j.operand - 1, j.op, 0, w⟩ := by
  have hpos := h.pos
  have hoperand : j.operand - 1 + 1 = j.operand := by omega
  simp [Instruction.decode?, Instruction.wordAt?, h.op, j.op.shape_eq, hoperand, h.hi, h.lo]

theorem Stands.of_fate {operand : Nat} {op : JumpOp} {fate fate' : Fate}
    (h : Stands ⟨operand, op, fate⟩ w code) : Stands ⟨operand, op, fate'⟩ w code :=
  ⟨h.pos, h.op, h.hi, h.lo⟩

/-- The operand counts from the end of the instruction. -/
theorem Stands.leads (h : j.Stands w code) (htarget : target < 2 ^ 63)
    (hw : signedWord w = (target : Int) - (j.operand + 2 : Nat)) : j.Leads target code := by
  have hpos := h.pos
  have hjump : (⟨j.operand - 1, j.op, 0, w⟩ : Instruction).jumpTarget = target := by
    simp only [Instruction.jumpTarget, Instruction.next, j.op.shape_eq, Shape.size, hw]
    omega
  refine ⟨_, h.decode?, rfl, hjump, ?_⟩
  rw [Instruction.jumpCounter, hjump]
  omega

/-- The jump stands in the code, and if it has a target, its operand is the distance. -/
def Settled (j : Jump) (code : Array UInt8) : Prop :=
  ∃ w, j.Stands w code ∧ ∀ target, j.fate.target? = some target →
    target < 2 ^ 63 ∧ signedWord w = (target : Int) - (j.operand + 2 : Nat)

theorem Settled.congr (h : j.Settled code)
    (hcode : ∀ i, j.operand ≤ i + 1 → i ≤ j.operand + 1 → code'[i]? = code[i]?) :
    j.Settled code' := by
  obtain ⟨w, hstands, htarget⟩ := h
  exact ⟨w, hstands.congr hcode, htarget⟩

theorem Settled.lt_size (h : j.Settled code) : j.operand + 1 < code.size := by
  obtain ⟨w, hstands, -⟩ := h
  exact hstands.lt_size

theorem Settled.append (h : j.Settled code) (bytes : List UInt8) : j.Settled (code ++ bytes) := by
  have hlt := h.lt_size
  refine h.congr fun i _ hi => ?_
  rw [← Array.getElem?_toList, Array.toList_appendList,
    List.getElem?_append_left (by rw [Array.length_toList]; omega), Array.getElem?_toList]

theorem Settled.leads (h : j.Settled code) (htarget : j.fate.target? = some target) :
    j.Leads target code := by
  obtain ⟨w, hstands, hw⟩ := h
  exact hstands.leads (hw target htarget).1 (hw target htarget).2

theorem stands_emitted {b : CodeBuffer} (h : j.operand = b.pos + 1) :
    j.Stands w (b.extend (j.op.val.toByte :: Word.bytes w)).code := by
  have hget (k : Nat) : (b.extend (j.op.val.toByte :: Word.bytes w)).code[b.pos + k]? =
      (j.op.val.toByte :: Word.bytes w)[k]? := by
    rw [← Array.getElem?_toList, CodeBuffer.extend, Array.toList_appendList, CodeBuffer.pos,
      List.getElem?_append_right (by rw [Array.length_toList]; omega), Array.length_toList,
      Nat.add_sub_cancel_left]
  constructor
  · omega
  · rw [h, Nat.add_sub_cancel]
    exact hget 0
  · rw [h]
    exact hget 1
  · rw [h]
    exact hget 2

theorem Stands.settle {b : CodeBuffer} (h : j.Stands w b.code) (w' : UInt16) :
    j.Stands w' (b.settle j.operand w').code := by
  have hpos := h.pos
  have hlt := h.lt_size
  constructor
  · exact hpos
  · rw [CodeBuffer.getElem?_settle_of_ne b w' (by omega) (by omega)]
    exact h.op
  · rw [CodeBuffer.settle, Array.getElem?_setIfInBounds_ne (by omega),
      Array.getElem?_setIfInBounds_self_of_lt (by omega)]
  · rw [CodeBuffer.settle, Array.getElem?_setIfInBounds_self_of_lt (by simpa using hlt)]

end Jump

/-! ### Whole drafts -/

namespace Draft

variable {t : Draft} {b b' : CodeBuffer} {capacity operand target : Nat} {op : JumpOp}
  {front back : List Jump}

/-- The open jumps are counted, no two share a byte, and each is as it should be. -/
structure Sound (capacity : Nat) (t : Draft) : Prop where
  bound : t.buffer.capacity = capacity
  size_le : t.buffer.code.size ≤ capacity
  openFixups : t.buffer.openFixups = t.jumps.countP (·.fate.isOpen)
  settled : ∀ j ∈ t.jumps, j.Settled t.buffer.code
  apart : t.jumps.Pairwise fun j j' => j.operand + 2 < j'.operand

theorem Sound.spoil (h : t.Sound capacity) (hb : t.buffer.Spoilt b') :
    Sound capacity { t with buffer := b' } := by
  obtain ⟨bytes, rfl, hroom⟩ := hb
  rw [h.bound] at hroom
  exact ⟨h.bound, hroom h.size_le, h.openFixups, fun j hj => (h.settled j hj).append bytes,
    h.apart⟩

theorem Sound.emit (h : t.Sound capacity) (bytes : List UInt8) :
    (t.emit (CodeBuffer.emit bytes)).Sound capacity := by
  unfold Draft.emit
  obtain ⟨hemit, hroom⟩ | ⟨hemit, -⟩ := CodeBuffer.emit_cases bytes t.buffer
  · rw [hemit]
    exact h.spoil (CodeBuffer.spoilt_extend hroom)
  · rw [hemit]
    exact h

theorem Sound.add (h : t.Sound capacity) {fate : Fate} {w : UInt16} {n : Nat}
    (hroom : t.buffer.code.size + 3 ≤ capacity)
    (hn : n = t.buffer.openFixups + if fate.isOpen then 1 else 0)
    (hw : ∀ target, fate.target? = some target →
      target < 2 ^ 63 ∧ signedWord w = (target : Int) - (t.buffer.pos + 3 : Nat)) :
    Sound capacity ⟨{ t.buffer.extend (op.val.toByte :: Word.bytes w) with openFixups := n },
      t.jumps ++ [⟨t.buffer.pos + 1, op, fate⟩]⟩ where
  bound := h.bound
  size_le := Nat.le_trans (Nat.le_of_eq (t.buffer.pos_extend _)) hroom
  openFixups := by rw [List.countP_append, List.countP_singleton, ← h.openFixups, ← hn]
  settled j hj := by
    obtain hj | hj := List.mem_append.1 hj
    · exact (h.settled j hj).append _
    · obtain rfl := List.mem_singleton.1 hj
      exact ⟨w, Jump.stands_emitted rfl, hw⟩
  apart := by
    refine List.pairwise_append.2 ⟨h.apart, List.pairwise_singleton _ _, fun j hj j' hj' => ?_⟩
    obtain rfl := List.mem_singleton.1 hj'
    exact Nat.succ_lt_succ (h.settled j hj).lt_size

/-- A jump in the middle gets another fate. The others do not reach into its operand. -/
theorem Sound.replace (h : Sound capacity ⟨b, front ++ ⟨operand, op, .pending⟩ :: back⟩)
    {fate : Fate} (hbound : b'.capacity = b.capacity) (hsize : b'.code.size = b.code.size)
    (hopen : b'.openFixups + 1 = b.openFixups + if fate.isOpen then 1 else 0)
    (hcode : ∀ i, i ≠ operand → i ≠ operand + 1 → b'.code[i]? = b.code[i]?)
    (hsettled : Jump.Settled ⟨operand, op, fate⟩ b'.code) :
    Sound capacity ⟨b', front ++ ⟨operand, op, fate⟩ :: back⟩ := by
  obtain ⟨hfront, hjump, hacross⟩ := List.pairwise_append.1 h.apart
  obtain ⟨hbehind, hback⟩ := List.pairwise_cons.1 hjump
  constructor
  · exact hbound.trans h.bound
  · exact Nat.le_trans (Nat.le_of_eq hsize) h.size_le
  · have hcount := h.openFixups
    have hpending : Fate.pending.isOpen = true := rfl
    simp only [List.countP_append, List.countP_cons, hpending, if_true] at hcount ⊢
    omega
  · -- The jumps before it end in front of its operand, and those behind it begin after that.
    intro j hj
    obtain hj | hj := List.mem_append.1 hj
    · have hlt : j.operand + 2 < operand := hacross j hj _ List.mem_cons_self
      exact (h.settled j (List.mem_append_left _ hj)).congr fun i _ _ =>
        hcode i (by omega) (by omega)
    · obtain rfl | hj := List.mem_cons.1 hj
      · exact hsettled
      · have hlt : operand + 2 < j.operand := hbehind j hj
        exact (h.settled j (List.mem_append_right _ (List.mem_cons_of_mem _ hj))).congr
          fun i _ _ => hcode i (by omega) (by omega)
  · refine List.pairwise_append.2 ⟨hfront, List.pairwise_cons.2 ⟨hbehind, hback⟩, ?_⟩
    intro j hj j' hj'
    obtain rfl | hj' := List.mem_cons.1 hj'
    · exact hacross j hj ⟨operand, op, .pending⟩ List.mem_cons_self
    · exact hacross j hj j' (List.mem_cons_of_mem _ hj')

theorem Sound.lt_of_mem (h : t.Sound capacity) (hcapacity : capacity ≤ 65535) {j : Jump}
    (hj : j ∈ t.jumps) : j.operand + 2 < 2 ^ 63 := by
  have hlt := (h.settled j hj).lt_size
  have hsize := h.size_le
  omega

theorem Sound.openFixups_pos (h : t.Sound capacity) {j : Jump} (hj : j ∈ t.jumps)
    (hopen : j.fate.isOpen = true) : 0 < t.buffer.openFixups := by
  rw [h.openFixups]
  exact List.countP_pos_iff.2 ⟨j, hj, hopen⟩

theorem set_split {js : List Jump} {jump : Nat} {j : Jump} (h : js[jump]? = some j) :
    ∃ front back, js = front ++ j :: back ∧ ∀ j', js.set jump j' = front ++ j' :: back := by
  obtain ⟨hlt, hget⟩ := List.getElem?_eq_some_iff.1 h
  refine ⟨js.take jump, js.drop (jump + 1), ?_, fun j' => ?_⟩
  · rw [← hget, List.getElem_cons_drop, List.take_append_drop]
  · rw [List.set_eq_take_append_cons_drop, if_pos hlt]

/-- Using a fixup settles its jump or changes nothing in the buffer. -/
theorem Sound.use (h : t.Sound capacity) (hcapacity : capacity ≤ 65535) (jump : Nat)
    (htarget : target < 2 ^ 63) {act : Fixup → CodeBuffer.Action Unit}
    (hact : ∀ f, act f t.buffer = CodeBuffer.patchTo f target t.buffer) :
    (t.use jump target act).Sound capacity := by
  unfold Draft.use
  split
  · rename_i operand op hjump
    have hmem : ⟨operand, op, .pending⟩ ∈ t.jumps := List.mem_of_getElem? hjump
    have hstart : operand + 2 < 2 ^ 63 := h.lt_of_mem hcapacity hmem
    obtain ⟨w, hstands, -⟩ := h.settled _ hmem
    obtain ⟨front, back, hjumps, hset⟩ := set_split hjump
    have h' : Sound capacity ⟨t.buffer, front ++ ⟨operand, op, .pending⟩ :: back⟩ := by
      rw [← hjumps]
      exact h
    rw [hact]
    by_cases hfits : CodeBuffer.Fits (operand + 2) target
    · obtain ⟨w', hpatch, hw'⟩ := CodeBuffer.patchTo_of_fits t.buffer hstart htarget hfits
      have hpos := h.openFixups_pos hmem rfl
      simp only [hpatch, hset]
      refine h'.replace rfl (CodeBuffer.size_settle _ _ _) (Nat.sub_add_cancel hpos)
        (fun i => CodeBuffer.getElem?_settle_of_ne t.buffer w')
        ⟨w', (hstands.settle w').of_fate, ?_⟩
      rintro _ ⟨⟩
      exact ⟨htarget, hw'⟩
    · simp only [CodeBuffer.patchTo_of_not_fits t.buffer hstart htarget hfits, hset]
      exact h'.replace rfl rfl rfl (fun _ _ _ => rfl) ⟨w, hstands.of_fate, nofun⟩
  · exact h

theorem Sound.pos_lt (h : t.Sound capacity) (hcapacity : capacity ≤ 65535) :
    t.buffer.pos + 3 < 2 ^ 63 := by
  have hsize : t.buffer.pos ≤ capacity := h.size_le
  omega

theorem Sound.step (h : t.Sound capacity) (hcapacity : capacity ≤ 65535) (e : Edit) :
    (t.step e).Sound capacity := by
  have hpos := h.pos_lt hcapacity
  cases e with
  | op op => exact h.emit _
  | byte b => exact h.emit _
  | word w => exact h.emit _
  | forward op =>
      simp only [Draft.step]
      obtain ⟨hemit, hroom⟩ | ⟨b', hemit, hspoilt⟩ := CodeBuffer.emitForward_cases op t.buffer
      · rw [hemit]
        exact h.add (h.bound ▸ hroom) rfl nofun
      · rw [hemit]
        exact h.spoil hspoilt
  | backward op target =>
      simp only [Draft.step]
      obtain ⟨w, hemit, hw, hroom⟩ | ⟨b', hemit, hspoilt⟩ | ⟨b', hemit, hspoilt, -⟩ :=
        CodeBuffer.emitBackward_cases op t.buffer hpos target.isLt
      · rw [hemit]
        refine h.add (n := t.buffer.openFixups) (h.bound ▸ hroom) rfl ?_
        rintro _ ⟨⟩
        exact ⟨target.isLt, hw⟩
      · rw [hemit]
        exact h.spoil hspoilt
      · rw [hemit]
        exact h.spoil hspoilt
  | patch jump => exact h.use hcapacity jump (by omega) fun f => rfl
  | patchTo jump target => exact h.use hcapacity jump target.isLt fun f => rfl

theorem sound_run (hcapacity : capacity ≤ 65535) (edits : List Edit) :
    (run capacity edits).Sound capacity := by
  have hrun (t : Draft) (h : t.Sound capacity) : (edits.foldl Draft.step t).Sound capacity := by
    induction edits generalizing t with
    | nil => exact h
    | cons e edits ih => exact ih _ (h.step hcapacity e)
  exact hrun _ ⟨rfl, Nat.zero_le _, rfl, nofun, .nil⟩

/-! ### What a sound draft says -/

/-- Code and jumps agree, and so they will whatever is done next. -/
structure Exact (capacity : Nat) (t : Draft) : Prop where
  size_le : t.buffer.code.size ≤ capacity
  /-- The buffer counts the fixups that were issued and not patched. -/
  openFixups : t.buffer.openFixups = (t.jumps.filter fun j => j.fate.isOpen).length
  /-- Jumps with a target lead there. -/
  leads (j : Jump) (target : Nat) : j ∈ t.jumps → j.fate.target? = some target →
    j.Leads target t.buffer.code
  /-- A patch in reach succeeds, leads the jump to the target and changes the two bytes of its
  operand only. -/
  patchTo_ok (j : Jump) (target : Address) : j ∈ t.jumps → j.fate = .pending →
    CodeBuffer.Fits (j.operand + 2) target → ∃ b,
      CodeBuffer.patchTo ⟨j.operand⟩ target t.buffer = .ok () b ∧ j.Leads target b.code ∧
        b.code.size = t.buffer.code.size ∧
        (∀ i, i ≠ j.operand → i ≠ j.operand + 1 → b.code[i]? = t.buffer.code[i]?) ∧
        b.openFixups + 1 = t.buffer.openFixups
  patchTo_error (j : Jump) (target : Address) : j ∈ t.jumps → j.fate = .pending →
    ¬ CodeBuffer.Fits (j.operand + 2) target → CodeBuffer.patchTo ⟨j.operand⟩ target t.buffer =
      .error (.jumpOutOfRange (j.operand + 2) target) t.buffer
  /-- To patch is to patch to the next byte, which is an address. -/
  patch : t.buffer.pos < 2 ^ 63 ∧
    ∀ f, CodeBuffer.patch f t.buffer = CodeBuffer.patchTo f t.buffer.pos t.buffer
  emitBackward_ok (op : JumpOp) (target : Address) (b : CodeBuffer) :
    CodeBuffer.emitBackward op target t.buffer = .ok () b →
      Jump.Leads ⟨t.buffer.pos + 1, op, .backward target⟩ target b.code
  /-- It is out of range only where the distance does not fit. -/
  emitBackward_error (op : JumpOp) (target : Address) (start stop : Nat) (b : CodeBuffer) :
    CodeBuffer.emitBackward op target t.buffer = .error (.jumpOutOfRange start stop) b →
      start = t.buffer.pos + 3 ∧ stop = target ∧ ¬ CodeBuffer.Fits start stop
  /-- The code is released when every fixup that was issued has been patched. -/
  finish (code : Array UInt8) : t.buffer.finish = .ok code ↔
    code = t.buffer.code ∧ ∀ j ∈ t.jumps, j.fate.isOpen = false

theorem Sound.exact (h : t.Sound capacity) (hcapacity : capacity ≤ 65535) : t.Exact capacity where
  size_le := h.size_le
  openFixups := h.openFixups.trans List.countP_eq_length_filter
  leads j target hj htarget := (h.settled j hj).leads htarget
  patchTo_ok j target hj hfate hfits := by
    obtain ⟨w, hpatch, hw⟩ := CodeBuffer.patchTo_of_fits t.buffer (h.lt_of_mem hcapacity hj)
      target.isLt hfits
    obtain ⟨w', hstands, -⟩ := h.settled j hj
    have hpos := h.openFixups_pos hj (by rw [hfate]; rfl)
    exact ⟨_, hpatch, (hstands.settle w).leads target.isLt hw, CodeBuffer.size_settle _ _ _,
      fun i => CodeBuffer.getElem?_settle_of_ne t.buffer w, Nat.sub_add_cancel hpos⟩
  patchTo_error j target hj _ hfits :=
    CodeBuffer.patchTo_of_not_fits t.buffer (h.lt_of_mem hcapacity hj) target.isLt hfits
  patch := ⟨Nat.lt_of_le_of_lt (Nat.le_trans h.size_le hcapacity) (by decide), fun _ => rfl⟩
  emitBackward_ok op target b hb := by
    obtain ⟨w, hemit, hw, -⟩ | ⟨_, hemit, -⟩ | ⟨_, hemit, -⟩ :=
      CodeBuffer.emitBackward_cases op t.buffer (h.pos_lt hcapacity) target.isLt
    · rw [hemit] at hb
      cases hb
      exact (Jump.stands_emitted rfl).leads target.isLt hw
    all_goals
      rw [hemit] at hb
      cases hb
  emitBackward_error op target start stop b hb := by
    obtain ⟨w, hemit, -⟩ | ⟨_, hemit, -⟩ | ⟨_, hemit, -, hfits⟩ :=
      CodeBuffer.emitBackward_cases op t.buffer (h.pos_lt hcapacity) target.isLt
    · rw [hemit] at hb
      cases hb
    · rw [hemit] at hb
      cases hb
    · rw [hemit] at hb
      cases hb
      exact ⟨rfl, rfl, hfits⟩
  finish code := by
    have hopen : t.buffer.openFixups = 0 ↔ ∀ j ∈ t.jumps, j.fate.isOpen = false := by
      rw [h.openFixups, List.countP_eq_zero]
      simp
    unfold CodeBuffer.finish
    split
    · rename_i hzero
      rw [Except.ok.injEq]
      exact ⟨fun hcode => ⟨hcode.symm, hopen.1 hzero⟩, fun hall => hall.1.symm⟩
    · rename_i hne
      exact ⟨nofun, fun hall => absurd (hopen.2 hall.2) hne⟩

/-- What a jump leads to once is never taken back. -/
theorem mem_step {j : Jump} (hj : j ∈ t.jumps) (htarget : j.fate.target?.isSome) (e : Edit) :
    j ∈ (t.step e).jumps := by
  have hemit (act : CodeBuffer.Action Unit) : j ∈ (t.emit act).jumps := by
    unfold Draft.emit
    split <;> exact hj
  have huse (jump target : Nat) (act : Fixup → CodeBuffer.Action Unit) :
      j ∈ (t.use jump target act).jumps := by
    unfold Draft.use
    split
    · rename_i operand op hjump
      have hset (j' : Jump) : j ∈ t.jumps.set jump j' := by
        obtain ⟨front, back, hjs, hset⟩ := set_split hjump
        rw [hset]
        rw [hjs] at hj
        obtain hj | hj := List.mem_append.1 hj
        · exact List.mem_append_left _ hj
        · obtain rfl | hj := List.mem_cons.1 hj
          · -- The fixup that is used belongs to a jump without a target.
            cases htarget
          · exact List.mem_append_right _ (List.mem_cons_of_mem _ hj)
      split <;> exact hset _
    · exact hj
  cases e with
  | op op => exact hemit _
  | byte b => exact hemit _
  | word w => exact hemit _
  | forward op =>
      simp only [Draft.step]
      split
      · exact List.mem_append_left _ hj
      · exact hj
  | backward op target =>
      simp only [Draft.step]
      split
      · exact List.mem_append_left _ hj
      · exact hj
  | patch jump => exact huse _ _ _
  | patchTo jump target => exact huse _ _ _

theorem mem_foldl {j : Jump} (hj : j ∈ t.jumps) (htarget : j.fate.target?.isSome)
    (later : List Edit) : j ∈ (later.foldl step t).jumps := by
  induction later generalizing t with
  | nil => exact hj
  | cons e later ih => exact ih (mem_step hj htarget e)

/-- Whatever is done to a buffer and in whatever order, the jumps lead where they were told to,
and they still do after all that is done later. -/
theorem backpatching_exact (capacity : Nat) (hcapacity : capacity ≤ 65535)
    (edits later : List Edit) :
    (run capacity edits).Exact capacity ∧
      ∀ j ∈ (run capacity edits).jumps, ∀ target, j.fate.target? = some target →
        j.Leads target (run capacity (edits ++ later)).buffer.code := by
  refine ⟨(sound_run hcapacity edits).exact hcapacity, fun j hj target htarget => ?_⟩
  have hlater : j ∈ (run capacity (edits ++ later)).jumps := by
    rw [run, List.foldl_append]
    exact mem_foldl hj (htarget ▸ rfl) later
  exact ((sound_run hcapacity (edits ++ later)).settled j hlater).leads htarget

/-- The longest distance fits, and the next one does not. -/
theorem backpatching_exact_at_edge :
    let jump : JumpOp := ⟨.jump, .inl rfl⟩
    let jfalse : JumpOp := ⟨.jfalse, .inr rfl⟩
    let edits : List Edit := [.forward jfalse, .forward jump, .patchTo 1 32773, .patchTo 0 32771,
      .backward jump 3]
    (run 10 edits).jumps =
        [⟨1, jfalse, .lost⟩, ⟨4, jump, .patched 32773⟩, ⟨7, jump, .backward 3⟩] ∧
      (run 10 edits).buffer.openFixups = 1 ∧
      Jump.Leads ⟨4, jump, .patched 32773⟩ 32773 (run 10 (edits ++ [.op .stop])).buffer.code := by
  intro jump jfalse edits
  have hjumps : (run 10 edits).jumps =
      [⟨1, jfalse, .lost⟩, ⟨4, jump, .patched 32773⟩, ⟨7, jump, .backward 3⟩] := by
    decide
  obtain ⟨hexact, hlater⟩ := backpatching_exact 10 (by decide) edits [.op .stop]
  refine ⟨hjumps, hexact.openFixups.trans ?_, hlater _ ?_ 32773 rfl⟩
  · rw [hjumps]
    rfl
  · rw [hjumps]
    simp

end Draft

end CellScript
