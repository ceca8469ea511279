import CellScript.Proofs.Activations
import CellScript.Proofs.Regions

/-!
Compiled programs are well formed.

A program is bytes: code, a heap, and a table of names. Well-formedness is what
holds of these bytes and can be checked without a tree. The code is a row of
instructions and ends with `stop`, jumps lead to instructions, operands that should
be offsets of records are, and each body that a record of the table speaks of is a
stretch of code behind a jump around it, with the instructions that belong into a
body of its kind and no way in or out but by calls and returns.
-/

namespace CellScript

/-- Instructions lie one behind the other from one address to another. -/
def Instruction.Tiles : (start : Nat) → List Instruction → (stop : Nat) → Prop
  | a, [], b => a = b
  | a, i :: is, b => i.offset = a ∧ Tiles i.next is b

/-- The word operand is the offset of the record of a name. -/
def Opcode.namesRecord : Opcode → Bool
  | .identGet | .identSet | .callProc | .callFunc => true
  | _ => false

namespace Program

/-- The instructions of the code, in order. -/
def instructions (p : Program) : List Instruction :=
  (CodeItem.items p.code).filterMap fun
    | .instruction i => some i
    | .raw .. => none

/-- The records in the table of names. -/
def names (p : Program) : List Ident := p.store.idents.map Prod.snd

/-- The body that a record speaks of: it ends where the jump in front of it leads. -/
def region? (p : Program) (id : Ident) : Option Region :=
  let ending (isFunc : Bool) (entry : UInt16) :=
    (Instruction.decode? p.code (entry.toNat - 3)).map fun skip =>
      ⟨id, isFunc, entry.toNat, skip.jumpCounter⟩
  match p.heap.identValue id with
  | .func entry => ending true entry
  | .proc entry => ending false entry
  | _ => none

def regions (p : Program) : List Region := p.names.filterMap p.region?

/-- Code, heap and table of a program fit together. The heap has the records `rs`. -/
structure WellFormed (p : Program) (limits : Limits) (rs : List Record) : Prop where
  tiles : Instruction.Tiles 0 p.instructions p.code.size
  decoded : ∀ i ∈ p.instructions,
    Instruction.decode? p.code i.offset = some i ∧ i.op.isExecutable = true
  ends : p.instructions.getLast?.map (·.op) = some .stop
  code_le : p.code.size ≤ limits.codeSize
  heap_le : p.heap.top ≤ limits.heapSize
  ledger : Ledger p.heap rs
  table : ∀ id, id ∈ p.names ↔ HasIdent rs id
  jumps : ∀ i ∈ p.instructions, i.op = .jump ∨ i.op = .jfalse →
    ∃ j ∈ p.instructions, i.jumpTarget = j.offset
  named : ∀ i ∈ p.instructions, i.op.namesRecord = true → ⟨i.word⟩ ∈ p.names
  texts : ∀ i ∈ p.instructions, i.op = .litStr → ∃ n, 2 ≤ n ∧ ⟨.text, i.word.toNat, n⟩ ∈ rs
  /-- The record of a body leads behind the jump around it. -/
  bodies : ∀ id ∈ p.names, Compiler.isBody (p.heap.identValue id) = true →
    (∃ r ∈ p.regions, r.id = id ∧ r.entry < r.stop ∧ ∃ skip ∈ p.instructions,
      skip.op = .jump ∧ skip.next = r.entry ∧ skip.jumpTarget = r.stop) ∧
    (p.heap.identArguments id).toNat ≤ (p.heap.identSlot id).toNat ∧
    (p.heap.identSlot id).toNat ≤ limits.maxSlots
  /-- Every other record is as it was made. -/
  others : ∀ id ∈ p.names, Compiler.isBody (p.heap.identValue id) = false →
    p.heap.identValue id = .unset ∧ p.heap.identSlot id = Ident.noSlot ∧
      p.heap.identArguments id = 0
  apart : ∀ r ∈ p.regions, ∀ r' ∈ p.regions, r = r' ∨ r.stop ≤ r'.entry ∨ r'.stop ≤ r.entry
  slots : ∀ i ∈ p.instructions, i.op = .slotGet ∨ i.op = .slotSet →
    ∃ r ∈ p.regions, r.Holds i.offset ∧ i.byte.toNat < (p.heap.identSlot r.id).toNat
  assignments : ∀ i ∈ p.instructions, i.op = .identSet → ∀ r ∈ p.regions, ¬ r.Holds i.offset
  functions : ∀ i ∈ p.instructions, i.op = .returnFunc ∨ i.op = .returnMissing →
    ∃ r ∈ p.regions, r.isFunc = true ∧ r.Holds i.offset
  procedures : ∀ i ∈ p.instructions, i.op = .returnProc →
    ∃ r ∈ p.regions, r.isFunc = false ∧ r.Holds i.offset
  /-- The jump around a body is the only one that passes it. -/
  keeps : ∀ i ∈ p.instructions, i.op = .jump ∨ i.op = .jfalse → ∀ r ∈ p.regions,
    i.next = r.entry ∨ r.Keeps i.offset i.jumpTarget.toNat

end Program

/-! ### Instructions in their places -/

namespace Instr

@[simp] theorem offset_place (i : Instr) (a : Nat) : (i.place a).offset = a := by
  unfold place
  split <;> rfl

/-- What an instruction needs where it stands. -/
structure Suits (rs : List Record) (q : Point) (i : Instr) : Prop where
  executable : i.op.isExecutable = true
  name : i.op.namesRecord = true → HasIdent rs ⟨(i.place q.addr).word⟩
  text : i.op = .litStr → HasText rs (i.place q.addr).word
  slot : i.op = .slotGet ∨ i.op = .slotSet →
    ∃ d, q.body = some d ∧ (i.place q.addr).byte.toNat < d.slots
  assignment : i.op = .identSet → q.body = none
  value : i.op = .returnFunc ∨ i.op = .returnMissing → ∃ d, q.body = some d ∧ d.isFunc = true
  bare : i.op = .returnProc → ∃ d, q.body = some d ∧ d.isFunc = false

/-- An instruction of no special kind. -/
theorem Suits.plain {rs : List Record} {q : Point} {i : Instr} (he : i.op.isExecutable = true)
    (hop : i.op ∉ [Opcode.identGet, .identSet, .callProc, .callFunc, .litStr, .slotGet, .slotSet,
      .returnFunc, .returnMissing, .returnProc]) : i.Suits rs q := by
  simp only [List.mem_cons, List.not_mem_nil, or_false, not_or] at hop
  obtain ⟨h₁, h₂, h₃, h₄, h₅, h₆, h₇, h₈, h₉, h₁₀⟩ := hop
  refine ⟨he, fun h => ?_, fun h => absurd h h₅, ?_, fun h => absurd h h₂, ?_,
    fun h => absurd h h₁₀⟩
  · unfold Opcode.namesRecord at h
    split at h <;> contradiction
  · rintro (h | h)
    · exact absurd h h₆
    · exact absurd h h₇
  · rintro (h | h)
    · exact absurd h h₈
    · exact absurd h h₉

end Instr

theorem Flows.suits {rs : List Record} {S : Point → Prop} {q : Point} {i : Instr}
    (h : Flows rs S q i) : i.Suits rs q := by
  cases h with
  | @literal a h b l hl =>
      cases l with
      | long offset =>
          refine ⟨rfl, ?_, fun _ => hl, ?_, ?_, ?_, ?_⟩ <;>
            simp [Literal.instr, Instr.withWord, Opcode.namesRecord]
      | truth b => cases b <;> exact .plain rfl (by decide)
      | _ => exact .plain rfl (by simp [Literal.instr, Instr.plain, Instr.withByte, Instr.withWord])
  | @load a h b p hp =>
      cases p with
      | global id =>
          refine ⟨rfl, fun _ => hp, ?_, ?_, ?_, ?_, ?_⟩ <;>
            simp [Place.load, Instr.withWord]
      | slot k =>
          obtain ⟨isFunc, n, hscope, hk⟩ := hp
          obtain ⟨d, rfl, -, rfl⟩ := Definition.body_of_scope hscope
          refine ⟨rfl, ?_, ?_, fun _ => ⟨d, rfl, hk⟩, ?_, ?_, ?_⟩ <;>
            simp [Place.load, Instr.withByte, Opcode.namesRecord]
  | @store a h b p hp =>
      cases p with
      | global id =>
          obtain ⟨hscope, hid⟩ := hp
          have hb : b = none := by simpa [Definition.scope] using hscope
          refine ⟨rfl, fun _ => hid, ?_, ?_, fun _ => hb, ?_, ?_⟩ <;>
            simp [Place.store, Instr.withWord]
      | slot k =>
          obtain ⟨isFunc, n, hscope, hk⟩ := hp
          obtain ⟨d, rfl, -, rfl⟩ := Definition.body_of_scope hscope
          refine ⟨rfl, ?_, ?_, fun _ => ⟨d, rfl, hk⟩, ?_, ?_, ?_⟩ <;>
            simp [Place.store, Instr.withByte, Opcode.namesRecord]
  | @apply a h n b op ha =>
      refine .plain (i := .plain op) ?_ ?_
      · cases op <;> first | (cases ha; done) | rfl
      · cases op <;> first | (cases ha; done) | decide
  | callFunc hid | callProc hid =>
      refine ⟨rfl, fun _ => hid, ?_, ?_, ?_, ?_, ?_⟩ <;>
        simp
  | array | print | input | jump | branch | halt =>
      exact .plain rfl (by simp [Instr.plain, Instr.withByte, Instr.withWord])
  | @returnValue a d hd | @missing a d hd =>
      refine ⟨rfl, ?_, ?_, ?_, ?_, fun _ => ⟨d, rfl, hd⟩, ?_⟩ <;>
        simp [Instr.plain, Opcode.namesRecord]
  | @returnBare a d hd =>
      refine ⟨rfl, ?_, ?_, ?_, ?_, ?_, fun _ => ⟨d, rfl, hd⟩⟩ <;>
        simp [Instr.plain, Opcode.namesRecord]

theorem Code.tiles_layout (a : Nat) (c : Code) :
    Instruction.Tiles a ((layout a c).map fun x => x.2.place x.1) (a + c.size) := by
  induction c generalizing a with
  | nil => exact rfl
  | cons i c ih =>
      refine ⟨i.offset_place a, ?_⟩
      rw [Instr.next_place, size_cons, ← Nat.add_assoc]
      exact ih (a + i.size)

/-- Near the start of the code no jump wraps around. -/
theorem Instruction.jumpTarget_eq {i : Instruction} (h : i.jumpCounter ≤ 65535)
    (hn : i.next ≤ 65539) : i.jumpTarget = i.jumpCounter := by
  have hlo : -32768 ≤ signedWord i.word := Int16.le_toInt _
  have hhi : signedWord i.word < 32768 := Int16.toInt_lt _
  simp only [jumpCounter, jumpTarget] at h ⊢
  omega

/-! ### The program and its tree -/

theorem Stmt.regions_reach {t : Stmt} {exit : Option Nat} {a : Nat} (h : t.Fits exit a)
    {d : Definition} {r : Region} (hr : (d, r) ∈ t.regions a) : Instr.InReach r.entry r.stop := by
  induction t generalizing exit a with
  | seq s t ihs iht =>
      obtain hr | hr := List.mem_append.1 hr
      · exact ihs h.1 hr
      · exact iht h.2 hr
  | define d s ih =>
      cases List.mem_singleton.1 hr
      exact h.1
  | _ => cases hr

namespace Program.Checked

variable {p : Program} {t : Stmt} {rs : List Record}

theorem instructions_eq (hp : p.Checked t rs) :
    p.instructions = t.programPoints.map fun x => x.2.place x.1.addr := by
  have hlayout : (Code.layout 0 t.program).map (fun x => x.2.place x.1) =
      t.programPoints.map fun x => x.2.place x.1.addr := by
    rw [← t.programPoints_layout, List.map_map]
    rfl
  rw [instructions, hp.code.items, List.filterMap_map, ← hlayout, ← List.filterMap_eq_map]
  rfl

theorem point_of_mem (hp : p.Checked t rs) {i : Instruction} (hi : i ∈ p.instructions) :
    ∃ x ∈ t.programPoints, x.2.place x.1.addr = i := by
  rw [hp.instructions_eq] at hi
  exact List.mem_map.1 hi

theorem mem_of_point (hp : p.Checked t rs) {q : Point} (hq : t.HasPoint q) :
    ∃ i ∈ p.instructions, i.offset = q.addr := by
  obtain ⟨i, hi⟩ := hq
  rw [hp.instructions_eq]
  exact ⟨i.place q.addr, List.mem_map.2 ⟨(q, i), hi, rfl⟩, i.offset_place q.addr⟩

/-- A jump is taken as it stands. -/
theorem jumpTarget_eq (hp : p.Checked t rs) {x : Point × Instr} (hx : x ∈ t.programPoints)
    (hi : x.2.op = .jump ∨ x.2.op = .jfalse) :
    (x.2.place x.1.addr).jumpTarget = (x.2.place x.1.addr).jumpCounter := by
  have hsize := hp.code.size_lt
  obtain ⟨height, hpoint⟩ := (hp.code.flowAll hp.fine x hx).target hi
  have hle := hpoint.addr_le
  have hat : x.1.addr ≤ t.size := Stmt.HasPoint.addr_le ⟨x.2, hx⟩
  refine Instruction.jumpTarget_eq (by simp only at hle; omega) ?_
  have hsize' : x.2.size = 3 := by
    obtain h | h := hi <;> rw [Instr.size, h] <;> rfl
  rw [Instr.next_place, hsize']
  omega

/-- The jump around a body. -/
theorem skip (hp : p.Checked t rs) {d : Definition} {r : Region} (hr : (d, r) ∈ t.regions 0) :
    ∃ i ∈ p.instructions, Instruction.decode? p.code (r.entry - 3) = some i ∧ i.op = .jump ∧
      i.next = r.entry ∧ i.jumpCounter = r.stop ∧ i.jumpTarget = r.stop := by
  have hsize := hp.code.size_lt
  have hwithin := Stmt.regions_within hr
  have hmem : (r.entry - 3, Instr.jump .jump (r.entry - 3) (some r.stop)) ∈
      Code.layout 0 t.program := by
    rw [Stmt.program, Code.layout_append]
    exact List.mem_append_left _ (Stmt.regions_skip hr)
  have hreach := Stmt.regions_reach hp.code.fits hr
  rw [show r.entry = r.entry - 3 + 3 by omega] at hreach
  have hcounter := Instr.jumpCounter_place (show Opcode.jump.shape = .word from rfl) hreach
    (by omega) (by omega)
  have hnext : ((Instr.jump .jump (r.entry - 3) (some r.stop)).place (r.entry - 3)).next =
      r.entry := by
    rw [Instr.next_place, Instr.size_wordJump rfl]
    omega
  refine ⟨(Instr.jump .jump (r.entry - 3) (some r.stop)).place (r.entry - 3), ?_,
    hp.code.placed.decode? hmem, by rw [Instr.op_place, Instr.op_jump], hnext, hcounter, ?_⟩
  · rw [← t.programPoints_layout] at hmem
    obtain ⟨x, hx, hkey⟩ := List.mem_map.1 hmem
    rw [hp.instructions_eq]
    obtain ⟨haddr, hinstr⟩ := Prod.mk.inj hkey
    exact List.mem_map.2 ⟨x, hx, by rw [haddr, hinstr]⟩
  · rw [Instruction.jumpTarget_eq (by rw [hcounter]; omega) (by rw [hnext]; omega), hcounter]

theorem mem_names (hs : p.store.Ok rs) (id : Ident) : id ∈ p.names ↔ HasIdent rs id := by
  simp only [names, List.mem_map]
  constructor
  · rintro ⟨⟨b, _⟩, hm, rfl⟩
    exact hs.hasIdent_of_mem hm
  · intro hid
    obtain ⟨b, hm⟩ := hs.mem_idents hid
    exact ⟨(b, id), hm, rfl⟩

/-- The record of a definition speaks of its body. -/
theorem region?_eq (hp : p.Checked t rs) {d : Definition} {r : Region}
    (hr : (d, r) ∈ t.regions 0) : p.region? d.id = some r := by
  obtain ⟨hd, hid, hfunc⟩ := Stmt.definition_of_region hr
  have hvalue : p.heap.identValue d.id = (d.entry r.entry).value :=
    congrArg Entry.value (hp.declares.defined _ hd).2
  have hsize := hp.code.size_lt
  have hwithin := Stmt.regions_within hr
  have hword : (UInt16.ofNat r.entry).toNat = r.entry := by
    rw [UInt16.toNat_ofNat']
    omega
  obtain ⟨i, -, hdecode, -, -, hstop, -⟩ := hp.skip hr
  have hending (isFunc : Bool) (h : d.isFunc = isFunc) :
      (⟨d.id, isFunc, r.entry, i.jumpCounter⟩ : Region) = r := by
    rw [hstop, ← hid, ← h, ← hfunc]
  unfold region?
  cases hkind : d.isFunc with
  | true =>
      simp only [Definition.entry, hkind, if_true] at hvalue
      simp only [hvalue, hword, hdecode, Option.map_some, hending true hkind]
  | false =>
      simp only [Definition.entry, hkind, Bool.false_eq_true, if_false] at hvalue
      simp only [hvalue, hword, hdecode, Option.map_some, hending false hkind]

/-- A record of the table that speaks of no body is as it was made, and the others are those of
the definitions. -/
theorem record_cases (hp : p.Checked t rs) {id : Ident} (hid : HasIdent rs id) :
    (∃ d r, (d, r) ∈ t.regions 0 ∧ d.id = id) ∨ p.heap.entry id = .fresh := by
  by_cases hdef : ∃ d ∈ t.definitions 0, d.1.id = id
  · obtain ⟨⟨d, entry⟩, hd, rfl⟩ := hdef
    obtain ⟨r, hr, -⟩ := Stmt.region_of_definition hd
    exact .inl ⟨d, r, hr, rfl⟩
  · exact .inr (hp.declares.others id hid fun d hd he => hdef ⟨d, hd, he⟩)

theorem mem_regions (hp : p.Checked t rs) (hs : p.store.Ok rs) {r : Region} :
    r ∈ p.regions ↔ ∃ d, (d, r) ∈ t.regions 0 := by
  simp only [regions, List.mem_filterMap]
  constructor
  · rintro ⟨id, hid, hr⟩
    obtain ⟨d, r', hr', rfl⟩ | hfresh := hp.record_cases ((mem_names hs id).1 hid)
    · rw [hp.region?_eq hr'] at hr
      cases hr
      exact ⟨d, hr'⟩
    · have hunset : p.heap.identValue id = .unset := congrArg Entry.value hfresh
      rw [region?, hunset] at hr
      cases hr
  · rintro ⟨d, hr⟩
    refine ⟨d.id, (mem_names hs d.id).2 ?_, hp.region?_eq hr⟩
    exact (hp.declares.defined _ (Stmt.definition_of_region hr).1).1

/-- A point is in a body if the region of the body holds its address. -/
theorem body_iff {q : Point} (hq : t.HasPoint q) (hflat : t.Flat) {d : Definition} :
    q.body = some d ↔ ∃ r, (d, r) ∈ t.regions 0 ∧ r.Holds q.addr := by
  rw [hq.body_eq, hflat.bodyAt_eq_some_iff]

theorem entry_of_region (hp : p.Checked t rs) {d : Definition} {r : Region}
    (hr : (d, r) ∈ t.regions 0) :
    (p.heap.identSlot d.id).toNat = d.slots ∧ (p.heap.identArguments d.id).toNat = d.params ∧
      d.params ≤ d.slots := by
  have hd := (Stmt.definition_of_region hr).1
  have hentry := (hp.declares.defined _ hd).2
  have hslot : p.heap.identSlot d.id = UInt8.ofNat d.slots := congrArg Entry.slot hentry
  have hargs : p.heap.identArguments d.id = UInt8.ofNat d.params := congrArg Entry.arguments hentry
  obtain ⟨hparams, hslots⟩ := hp.fine.definitions hd
  simp only at hparams hslots
  rw [hslot, hargs, UInt8.toNat_ofNat', UInt8.toNat_ofNat']
  omega

theorem suits (hp : p.Checked t rs) {x : Point × Instr} (hx : x ∈ t.programPoints) :
    x.2.Suits rs x.1 :=
  (hp.code.flowAll hp.fine x hx).suits

theorem tiles_instructions (hp : p.Checked t rs) :
    Instruction.Tiles 0 p.instructions p.code.size := by
  have hsize : Code.size t.program = p.code.size := by
    rw [← Code.length_bytes, Stmt.program, ← hp.code.code, Array.length_toList]
  have htiles := Code.tiles_layout 0 t.program
  rw [Nat.zero_add, hsize, ← t.programPoints_layout, List.map_map] at htiles
  rw [hp.instructions_eq]
  exact htiles

theorem decode?_of_mem (hp : p.Checked t rs) {i : Instruction} (hi : i ∈ p.instructions) :
    Instruction.decode? p.code i.offset = some i := by
  obtain ⟨x, hx, rfl⟩ := hp.point_of_mem hi
  rw [Instr.offset_place]
  exact hp.code.placed.decode? (Stmt.mem_layout hx)

/-- A jump leads to an instruction. -/
theorem exists_target (hp : p.Checked t rs) {i : Instruction} (hi : i ∈ p.instructions)
    (hop : i.op = .jump ∨ i.op = .jfalse) : ∃ j ∈ p.instructions, i.jumpTarget = j.offset := by
  obtain ⟨x, hx, rfl⟩ := hp.point_of_mem hi
  rw [Instr.op_place] at hop
  obtain ⟨height, hpoint⟩ := (hp.code.flowAll hp.fine x hx).target hop
  obtain ⟨j, hj, hoffset⟩ := hp.mem_of_point hpoint
  exact ⟨j, hj, by rw [hp.jumpTarget_eq hx hop, hoffset]⟩

/-- The body of a point begins and ends with a region that a record speaks of. -/
theorem exists_region (hp : p.Checked t rs) (hs : p.store.Ok rs) (hflat : t.Flat)
    {x : Point × Instr} (hx : x ∈ t.programPoints) {d : Definition} (hb : x.1.body = some d) :
    ∃ r ∈ p.regions, (d, r) ∈ t.regions 0 ∧ r.Holds (x.2.place x.1.addr).offset := by
  obtain ⟨r, hr, hholds⟩ := (body_iff ⟨x.2, hx⟩ hflat).1 hb
  refine ⟨r, (hp.mem_regions hs).2 ⟨d, hr⟩, hr, ?_⟩
  rwa [Instr.offset_place]

/-- What the record of a body says. -/
theorem body_record (hp : p.Checked t rs) (hs : p.store.Ok rs) {n : Nat}
    (hmax : ∀ d ∈ t.definitions 0, d.1.slots ≤ n) {id : Ident} (hid : id ∈ p.names)
    (hbody : Compiler.isBody (p.heap.identValue id) = true) :
    (∃ r ∈ p.regions, r.id = id ∧ r.entry < r.stop ∧ ∃ skip ∈ p.instructions,
      skip.op = .jump ∧ skip.next = r.entry ∧ skip.jumpTarget = r.stop) ∧
    (p.heap.identArguments id).toNat ≤ (p.heap.identSlot id).toNat ∧
    (p.heap.identSlot id).toNat ≤ n := by
  obtain ⟨d, r, hr, rfl⟩ | hfresh := hp.record_cases ((mem_names hs id).1 hid)
  · obtain ⟨hd, hrid, -⟩ := Stmt.definition_of_region hr
    obtain ⟨skip, hskip, -, hop, hnext, -, htarget⟩ := hp.skip hr
    obtain ⟨hslot, hargs, hle⟩ := hp.entry_of_region hr
    refine ⟨⟨r, (hp.mem_regions hs).2 ⟨d, hr⟩, hrid, (Stmt.regions_within hr).2.1, skip, hskip,
      hop, hnext, htarget⟩, ?_, ?_⟩
    · rw [hslot, hargs]
      exact hle
    · rw [hslot]
      exact hmax _ hd
  · rw [show p.heap.identValue id = .unset from congrArg Entry.value hfresh] at hbody
    cases hbody

theorem other_record (hp : p.Checked t rs) (hs : p.store.Ok rs) {id : Ident} (hid : id ∈ p.names)
    (hbody : Compiler.isBody (p.heap.identValue id) = false) :
    p.heap.identValue id = .unset ∧ p.heap.identSlot id = Ident.noSlot ∧
      p.heap.identArguments id = 0 := by
  obtain ⟨d, r, hr, rfl⟩ | hfresh := hp.record_cases ((mem_names hs id).1 hid)
  · have hvalue : p.heap.identValue d.id = (d.entry r.entry).value :=
      congrArg Entry.value (hp.declares.defined _ (Stmt.definition_of_region hr).1).2
    rw [hvalue, Definition.isBody_entry] at hbody
    cases hbody
  · exact ⟨congrArg Entry.value hfresh, congrArg Entry.slot hfresh, congrArg Entry.arguments hfresh⟩

theorem keeps_of_jump (hp : p.Checked t rs) (hs : p.store.Ok rs) {i : Instruction}
    (hi : i ∈ p.instructions) (hop : i.op = .jump ∨ i.op = .jfalse) {r : Region}
    (hr : r ∈ p.regions) : i.next = r.entry ∨ r.Keeps i.offset i.jumpTarget.toNat := by
  obtain ⟨x, hx, rfl⟩ := hp.point_of_mem hi
  rw [Instr.op_place] at hop
  obtain ⟨d, hr⟩ := (hp.mem_regions hs).1 hr
  have hsize := hp.code.size_lt
  have hsize' : x.2.size = 3 := by
    obtain h | h := hop <;> rw [Instr.size, h] <;> rfl
  rw [Instr.next_place, hsize', Instr.offset_place, hp.jumpTarget_eq hx hop, Int.toNat_natCast]
  obtain hx | hx := List.mem_append.1 hx
  · exact Stmt.jump_keeps hp.fine hp.code.fits hp.code.enclosed (by omega) hp.code.closed hx hop hr
  · obtain rfl := List.mem_singleton.1 hx
    simp [Instr.plain] at hop

/-- The program of a flat tree is well formed. -/
theorem wellFormed (hp : p.Checked t rs) (hs : p.store.Ok rs) (hflat : t.Flat) {limits : Limits}
    (hcode : p.code.size ≤ limits.codeSize) (hheap : p.heap.top ≤ limits.heapSize)
    (hmax : ∀ d ∈ t.definitions 0, d.1.slots ≤ limits.maxSlots) : p.WellFormed limits rs := by
  constructor
  case tiles => exact hp.tiles_instructions
  case decoded =>
    intro i hi
    refine ⟨hp.decode?_of_mem hi, ?_⟩
    obtain ⟨x, hx, rfl⟩ := hp.point_of_mem hi
    rw [Instr.op_place]
    exact (hp.suits hx).executable
  case ends =>
    rw [hp.instructions_eq, Stmt.programPoints, List.map_append, List.map_singleton,
      List.getLast?_append]
    rfl
  case code_le => exact hcode
  case heap_le => exact hheap
  case ledger => exact hs.ledger
  case table => exact mem_names hs
  case jumps => exact fun i hi hop => hp.exists_target hi hop
  case named =>
    intro i hi hop
    obtain ⟨x, hx, rfl⟩ := hp.point_of_mem hi
    rw [Instr.op_place] at hop
    exact (mem_names hs _).2 ((hp.suits hx).name hop)
  case texts =>
    intro i hi hop
    obtain ⟨x, hx, rfl⟩ := hp.point_of_mem hi
    rw [Instr.op_place] at hop
    exact (hp.suits hx).text hop
  case bodies => exact fun id hid hbody => hp.body_record hs hmax hid hbody
  case others => exact fun id hid hbody => hp.other_record hs hid hbody
  case apart =>
    intro r hr r' hr'
    obtain ⟨d, hr⟩ := (hp.mem_regions hs).1 hr
    obtain ⟨d', hr'⟩ := (hp.mem_regions hs).1 hr'
    exact (Stmt.regions_apart hr hr').imp_left (congrArg Prod.snd)
  case slots =>
    intro i hi hop
    obtain ⟨x, hx, rfl⟩ := hp.point_of_mem hi
    rw [Instr.op_place] at hop
    obtain ⟨d, hb, hlt⟩ := (hp.suits hx).slot hop
    obtain ⟨r, hmem, hr, hholds⟩ := hp.exists_region hs hflat hx hb
    refine ⟨r, hmem, hholds, ?_⟩
    rw [(Stmt.definition_of_region hr).2.1, (hp.entry_of_region hr).1]
    exact hlt
  case assignments =>
    intro i hi hop r hr hholds
    obtain ⟨x, hx, rfl⟩ := hp.point_of_mem hi
    rw [Instr.op_place] at hop
    rw [Instr.offset_place] at hholds
    obtain ⟨d, hr⟩ := (hp.mem_regions hs).1 hr
    -- An assignment to a global stands outside of every body.
    have hbody := (body_iff ⟨x.2, hx⟩ hflat).2 ⟨r, hr, hholds⟩
    rw [(hp.suits hx).assignment hop] at hbody
    cases hbody
  case functions =>
    intro i hi hop
    obtain ⟨x, hx, rfl⟩ := hp.point_of_mem hi
    rw [Instr.op_place] at hop
    obtain ⟨d, hb, hfunc⟩ := (hp.suits hx).value hop
    obtain ⟨r, hmem, hr, hholds⟩ := hp.exists_region hs hflat hx hb
    exact ⟨r, hmem, (Stmt.definition_of_region hr).2.2.trans hfunc, hholds⟩
  case procedures =>
    intro i hi hop
    obtain ⟨x, hx, rfl⟩ := hp.point_of_mem hi
    rw [Instr.op_place] at hop
    obtain ⟨d, hb, hfunc⟩ := (hp.suits hx).bare hop
    obtain ⟨r, hmem, hr, hholds⟩ := hp.exists_region hs hflat hx hb
    exact ⟨r, hmem, (Stmt.definition_of_region hr).2.2.trans hfunc, hholds⟩
  case keeps => exact fun i hi hop r hr => hp.keeps_of_jump hs hi hop hr

end Program.Checked

/-- Every compiled program is well formed. -/
theorem Program.wellFormed_of_compile {source : Source} {limits : Limits} {p : Program}
    (h : compile source limits = .ok p) : ∃ rs, p.WellFormed limits rs := by
  obtain ⟨t, rs, hreads, hp, hs⟩ := stored_of_compile h
  obtain ⟨hv, hcode, -⟩ := compile_ok h
  obtain ⟨f, hitems, -, hstore⟩ := hreads
  obtain ⟨hflat, -, hsize, -, hmax⟩ := hitems.flat rfl
  have hheap : p.heap.bytes.size = limits.heapSize := by
    rw [Program.heap, ← hstore, hsize]
    have := (Limits.valid_of_validate hv).heapSize.1
    simp only [Grammar.start, Store.ofSize, Heap.ofSize, Array.size_replicate, Heap.reserved]
    omega
  exact ⟨rs, hp.wellFormed hs hflat hcode (hheap ▸ hs.ledger.top_le_size) hmax⟩

/-- A program with a function that has a local, a procedure and a loop. -/
theorem Program.wellFormed_of_two_bodies : ∃ (p : Program) (rs : List Record),
    compile (.ofText "m" "func f(x); y = x; return y; end; proc p(); print \"ab\"; end;
      while f(1) < 2; p; break; wend;") default = .ok p ∧
    p.regions.map (fun r : Region => (r.isFunc, r.entry, r.stop)) =
      [(true, 3, 11), (false, 14, 20)] ∧
    p.WellFormed default rs := by
  obtain ⟨p, hc, htest⟩ := exists_of_compile
    (.ofText "m" "func f(x); y = x; return y; end; proc p(); print \"ab\"; end;
      while f(1) < 2; p; break; wend;") default
    (fun p => p.regions.map (fun r : Region => (r.isFunc, r.entry, r.stop)) =
      [(true, 3, 11), (false, 14, 20)])
    (by decide +kernel)
  obtain ⟨rs, hwell⟩ := wellFormed_of_compile hc
  exact ⟨p, rs, hc, of_decide_eq_true htest, hwell⟩

end CellScript
