import CellScript.Listing
import CellScript.Machine.Step

/-!
The listing covers any byte sequence, and the machine reads what it shows.

Nothing is assumed of the bytes here: they need not be the code of a program. The
walk of the listing puts a piece on every byte, once and in order, and the pieces
written one after the other are the bytes again. That rests on one fact about
`decode?`: the instruction that it finds, encoded, is what stands at the offset,
and the rest of the code follows behind it.

The machine reads at a single offset and need not stand where a piece begins.
There it tells apart what cannot be read because the byte is no code, what could
be read but is never carried out, and what the end of the code cuts off.
-/

namespace CellScript

namespace Opcode

theorem ctorIdx_of_getElem? {k : Nat} {op : Opcode} (h : all[k]? = some op) : op.ctorIdx = k := by
  have hall : ∀ j : Fin all.size, all[j].ctorIdx = j := by decide
  obtain ⟨hk, rfl⟩ := Array.getElem?_eq_some_iff.1 h
  exact hall ⟨k, hk⟩

/-- The byte of a code is the one that was read. -/
theorem toByte_of_ofByte? {b : UInt8} {op : Opcode} (h : ofByte? b = some op) : op.toByte = b := by
  unfold ofByte? at h
  split at h
  · cases h
  · rename_i hb
    have hb : 128 ≤ b.toNat := by simpa [UInt8.lt_iff_toNat_lt] using hb
    apply UInt8.toNat_inj.1
    have := b.toNat_lt
    simp only [toByte, ctorIdx_of_getElem? h, UInt8.toNat_ofNat']
    omega

end Opcode

namespace Instruction

variable {code : Array UInt8} {offset : Nat} {i : Instruction}

@[simp] theorem length_encode (i : Instruction) : i.encode.length = 1 + i.op.shape.size := by
  unfold encode
  cases i.op.shape <;> rfl

theorem next_eq (i : Instruction) : i.next = i.offset + i.encode.length := by
  rw [length_encode, next, Nat.add_assoc]

/-- A code stands at an offset and the byte sequence holds all of its operands. -/
def Whole (code : Array UInt8) (offset : Nat) (op : Opcode) : Prop :=
  (∃ b, code[offset]? = some b ∧ Opcode.ofByte? b = some op) ∧ offset + op.shape.size < code.size

theorem wordAt?_eq_some_iff {w : UInt16} :
    wordAt? code offset = some w ↔
      code[offset]? = some (Word.hi w) ∧ code[offset + 1]? = some (Word.lo w) := by
  simp only [wordAt?, bind, Option.bind_eq_some_iff, pure, Option.some.injEq]
  constructor
  · rintro ⟨hi, h₁, lo, h₂, rfl⟩
    rw [Word.hi_ofBytes, Word.lo_ofBytes]
    exact ⟨h₁, h₂⟩
  · rintro ⟨h₁, h₂⟩
    exact ⟨_, h₁, _, h₂, Word.ofBytes_hi_lo w⟩

theorem exists_wordAt? (h : offset + 1 < code.size) : ∃ w, wordAt? code offset = some w := by
  refine ⟨Word.ofBytes code[offset] code[offset + 1], wordAt?_eq_some_iff.2 ⟨?_, ?_⟩⟩
  · rw [Word.hi_ofBytes, Array.getElem?_eq_getElem]
  · rw [Word.lo_ofBytes, Array.getElem?_eq_getElem]

/-- A byte and what follows it. -/
theorem drop_of_getElem? {b : UInt8} (h : code[offset]? = some b) :
    code.toList.drop offset = b :: code.toList.drop (offset + 1) := by
  obtain ⟨hlt, rfl⟩ := Array.getElem?_eq_some_iff.1 h
  rw [List.drop_eq_getElem_cons (by simpa using hlt), Array.getElem_toList]

theorem drop_of_wordAt? {w : UInt16} (h : wordAt? code offset = some w) :
    code.toList.drop offset = Word.bytes w ++ code.toList.drop (offset + 2) := by
  obtain ⟨hhi, hlo⟩ := wordAt?_eq_some_iff.1 h
  rw [drop_of_getElem? hhi, drop_of_getElem? hlo]
  rfl

/-- The instruction that is found, encoded, stands in front of the rest of the code. -/
theorem drop_of_decode? (h : decode? code offset = some i) :
    i.offset = offset ∧ code.toList.drop offset = i.encode ++ code.toList.drop i.next := by
  simp only [decode?, bind, Option.bind_eq_some_iff] at h
  obtain ⟨b, hb, op, hop, h⟩ := h
  have hcode := drop_of_getElem? hb
  rw [← Opcode.toByte_of_ofByte? hop] at hcode
  cases hs : op.shape with
  | none =>
      simp only [hs, pure, Option.some.injEq] at h
      subst h
      simp [encode, next, hs, Shape.size, hcode]
  | byte =>
      simp only [hs, Option.bind_eq_some_iff, pure, Option.some.injEq] at h
      obtain ⟨x, hx, rfl⟩ := h
      simp [encode, next, hs, Shape.size, hcode, drop_of_getElem? hx]
  | word =>
      simp only [hs, Option.bind_eq_some_iff, pure, Option.some.injEq] at h
      obtain ⟨w, hw, rfl⟩ := h
      simp [encode, next, hs, Shape.size, hcode, drop_of_wordAt? hw]
  | call =>
      simp only [hs, Option.bind_eq_some_iff, pure, Option.some.injEq] at h
      obtain ⟨x, hx, w, hw, rfl⟩ := h
      simp [encode, next, hs, Shape.size, hcode, drop_of_getElem? hx, drop_of_wordAt? hw]

/-- An instruction with a given code is found exactly where the code stands with
all its operands. -/
theorem exists_decode?_iff {op : Opcode} :
    (∃ i, decode? code offset = some i ∧ i.op = op) ↔ Whole code offset op := by
  constructor
  · rintro ⟨i, hi, rfl⟩
    obtain ⟨-, hdrop⟩ := drop_of_decode? hi
    have hlen := congrArg List.length hdrop
    have hhead := congrArg List.head? hdrop
    simp only [List.length_drop, List.length_append, length_encode, Array.length_toList] at hlen
    rw [List.head?_drop, Array.getElem?_toList] at hhead
    exact ⟨⟨i.op.toByte, hhead, Opcode.ofByte?_toByte i.op⟩, by omega⟩
  · rintro ⟨⟨b, hb, hop⟩, hsize⟩
    simp only [decode?, hb, hop, bind, Option.bind]
    cases hs : op.shape with
    | none => exact ⟨_, rfl, rfl⟩
    | byte =>
        rw [hs, Shape.size] at hsize
        simp only [Array.getElem?_eq_getElem hsize]
        exact ⟨_, rfl, rfl⟩
    | word =>
        rw [hs, Shape.size] at hsize
        obtain ⟨w, hw⟩ : ∃ w, wordAt? code (offset + 1) = some w := exists_wordAt? hsize
        simp only [hw]
        exact ⟨_, rfl, rfl⟩
    | call =>
        rw [hs, Shape.size] at hsize
        have hbyte : offset + 1 < code.size := by omega
        obtain ⟨w, hw⟩ : ∃ w, wordAt? code (offset + 2) = some w := exists_wordAt? hsize
        simp only [Array.getElem?_eq_getElem hbyte, hw]
        exact ⟨_, rfl, rfl⟩

end Instruction

namespace CodeItem

variable {code : Array UInt8}

/-- The offsets of the bytes that a piece takes up. -/
def stretch (x : CodeItem) : List Nat := List.range' x.offset x.bytes.length

/-- A piece shows what stands in the code: the instruction that is found at its
offset, or the byte there if none is. -/
def Shows (code : Array UInt8) : CodeItem → Prop
  | instruction i => Instruction.decode? code i.offset = some i
  | raw offset b => Instruction.decode? code offset = none ∧ code[offset]? = some b

/-- What the walk leaves behind it when it has started at an offset: pieces that
show the code and together make up all of it from there on. -/
structure Tiles (code : Array UInt8) (offset : Nat) (xs : List CodeItem) : Prop where
  stretch : xs.flatMap stretch = List.range' offset (code.size - offset)
  bytes : xs.flatMap bytes = code.toList.drop offset
  shows : ∀ x ∈ xs, x.Shows code

theorem Tiles.nil {offset : Nat} (h : code.size ≤ offset) : Tiles code offset [] where
  stretch := by rw [Nat.sub_eq_zero_of_le h]; rfl
  bytes := by rw [List.drop_eq_nil_of_le (by simpa using h)]; rfl
  shows := nofun

/-- A piece in front of the pieces that begin where it ends. -/
theorem Tiles.cons {x : CodeItem} {xs : List CodeItem} {next : Nat}
    (hnext : next = x.offset + x.bytes.length) (hx : x.Shows code)
    (hdrop : code.toList.drop x.offset = x.bytes ++ code.toList.drop next)
    (h : Tiles code next xs) : Tiles code x.offset (x :: xs) where
  stretch := by
    have hlen := congrArg List.length hdrop
    simp only [List.length_append, List.length_drop, Array.length_toList] at hlen
    rw [List.flatMap_cons, h.stretch, CodeItem.stretch, hnext, List.range'_append_1]
    congr 1
    omega
  bytes := by rw [List.flatMap_cons, h.bytes, hdrop]
  shows := by
    intro y hy
    obtain rfl | hy := List.mem_cons.1 hy
    · exact hx
    · exact h.shows y hy

/-- Every piece takes a byte, so the walk ends before its bound on the number of
pieces does. -/
theorem tiles_itemsFrom {fuel offset : Nat} (h : code.size ≤ offset + fuel) :
    Tiles code offset (itemsFrom code fuel offset) := by
  induction fuel generalizing offset with
  | zero => exact .nil h
  | succ fuel ih =>
      unfold itemsFrom
      cases hb : code[offset]? with
      | none => exact .nil (Array.getElem?_eq_none_iff.1 hb)
      | some b =>
          cases hi : Instruction.decode? code offset with
          | none =>
              have hdrop := Instruction.drop_of_getElem? hb
              have hlater : Tiles code (offset + 1) _ := ih (by omega)
              exact Tiles.cons (x := .raw offset b) rfl ⟨hi, hb⟩ hdrop hlater
          | some i =>
              obtain ⟨rfl, hdrop⟩ := Instruction.drop_of_decode? hi
              have hlt := i.offset_lt_next
              exact Tiles.cons (x := .instruction i) i.next_eq hi hdrop (ih (by omega))

theorem tiles_items (code : Array UInt8) : Tiles code 0 (items code) :=
  tiles_itemsFrom (Nat.zero_add _ ▸ Nat.le_refl _)

end CodeItem

namespace Machine

variable {code : Array UInt8} {pc : Nat}

/-- The byte at an address is no code, or it is one that is never carried out and
its operands are there. -/
def Unknown (code : Array UInt8) (pc : Nat) (b : UInt8) : Prop :=
  code[pc]? = some b ∧
    (Opcode.ofByte? b = none ∨ ∃ op, Opcode.ofByte? b = some op ∧ op.isExecutable = false ∧
      Instruction.Whole code pc op)

/-- An instruction that is carried out is not unknown. -/
theorem Unknown.isExecutable_eq_false {b : UInt8} {i : Instruction} (h : Unknown code pc b)
    (hi : Instruction.decode? code pc = some i) : i.op.isExecutable = false := by
  obtain ⟨⟨c, hc, hop⟩, -⟩ := Instruction.exists_decode?_iff.1 ⟨i, hi, rfl⟩
  obtain ⟨hb, hnone | ⟨op, hsome, hx, -⟩⟩ := h
  · obtain rfl := Option.some.inj (hc.symm.trans hb)
    cases hop.symm.trans hnone
  · obtain rfl := Option.some.inj (hc.symm.trans hb)
    rwa [← Option.some.inj (hop.symm.trans hsome)] at hx

/-- The byte at an address, if it is unknown, is the only one. -/
theorem Unknown.unique {b c : UInt8} (hb : Unknown code pc b) (hc : Unknown code pc c) : b = c :=
  Option.some.inj (hb.1.symm.trans hc.1)

/-- The three outcomes of a fetch, each with what stands at the address. -/
inductive Fetches (code : Array UInt8) (pc : Nat) : Except Fault Instruction → Prop
  | taken {i : Instruction} (h : Instruction.decode? code pc = some i) (hx : i.op.isExecutable) :
      Fetches code pc (.ok i)
  | unknown {b : UInt8} (h : Unknown code pc b) : Fetches code pc (.error (.unknownOpcode b))
  | overrun (htaken : ¬∃ i, Instruction.decode? code pc = some i ∧ i.op.isExecutable)
      (hunknown : ¬∃ b, Unknown code pc b) : Fetches code pc (.error (.codeOverrun pc))

theorem fetches (code : Array UInt8) (pc : Nat) : Fetches code pc (fetch code pc) := by
  unfold fetch
  cases hd : Instruction.decode? code pc with
  | some i =>
      by_cases hx : i.op.isExecutable
      · simp only [hx, if_true]
        exact .taken hd hx
      · have hwhole := Instruction.exists_decode?_iff.1 ⟨i, hd, rfl⟩
        obtain ⟨c, hc, hop⟩ := hwhole.1
        simp only [hx, Opcode.toByte_of_ofByte? hop]
        exact .unknown ⟨hc, .inr ⟨i.op, hop, Bool.eq_false_iff.2 hx, hwhole⟩⟩
  | none =>
      have htaken : ¬∃ i, Instruction.decode? code pc = some i ∧ i.op.isExecutable := by
        simp [hd]
      have hcut {op : Opcode} : ¬Instruction.Whole code pc op := by
        intro h
        obtain ⟨i, hi, -⟩ := Instruction.exists_decode?_iff.2 h
        cases hd.symm.trans hi
      cases hb : code[pc]? with
      | none => exact .overrun htaken (by simp [Unknown, hb])
      | some b =>
          by_cases hop : Opcode.ofByte? b = none
          · simp only [hop, Option.isNone_none, if_true]
            exact .unknown ⟨hb, .inl hop⟩
          · simp only [Option.isNone_iff_eq_none, hop, if_false]
            exact .overrun htaken (by simp [Unknown, hb, hop, hcut])

theorem fetch_eq_ok_iff {i : Instruction} :
    fetch code pc = .ok i ↔ Instruction.decode? code pc = some i ∧ i.op.isExecutable := by
  have hf := fetches code pc
  constructor
  · intro h
    rw [h] at hf
    obtain ⟨hi, hx⟩ := hf
    exact ⟨hi, hx⟩
  · rintro ⟨hi, hx⟩
    generalize fetch code pc = r at hf ⊢
    cases hf with
    | taken hj => rw [Option.some.inj (hi.symm.trans hj)]
    | unknown hu => cases hx.symm.trans (hu.isExecutable_eq_false hi)
    | overrun htaken => exact absurd ⟨i, hi, hx⟩ htaken

theorem fetch_eq_unknownOpcode_iff {b : UInt8} :
    fetch code pc = .error (.unknownOpcode b) ↔ Unknown code pc b := by
  have hf := fetches code pc
  constructor
  · intro h
    rw [h] at hf
    cases hf
    assumption
  · intro hu
    generalize fetch code pc = r at hf ⊢
    cases hf with
    | taken hi hx => cases hx.symm.trans (hu.isExecutable_eq_false hi)
    | unknown hc => rw [hu.unique hc]
    | overrun _ hunknown => exact absurd ⟨b, hu⟩ hunknown

theorem fetch_eq_codeOverrun_iff :
    fetch code pc = .error (.codeOverrun pc) ↔
      (¬∃ i, Instruction.decode? code pc = some i ∧ i.op.isExecutable) ∧
        ¬∃ b, Unknown code pc b := by
  have hf := fetches code pc
  constructor
  · intro h
    rw [h] at hf
    cases hf
    exact ⟨‹_›, ‹_›⟩
  · rintro ⟨htaken, hunknown⟩
    generalize fetch code pc = r at hf ⊢
    cases hf with
    | taken hi hx => exact absurd ⟨_, hi, hx⟩ htaken
    | unknown hu => exact absurd ⟨_, hu⟩ hunknown
    | overrun => rfl

end Machine

namespace Listing

/-- The listing of any byte sequence has one line for each piece of the walk. The
pieces cover every byte once and in order, show what stands there and give the
bytes back. At every address, inside the code or not, the machine takes what is
read there if it is ever carried out; a byte that is no code, or that is a whole
instruction never carried out, is unknown to it; and anything else runs past the
end of the code. -/
theorem tiles_code_as_fetched (h : Heap) (code : Array UInt8) :
    ofCode h code = String.join ((CodeItem.items code).map fun x => line h x ++ "\n") ∧
    (CodeItem.items code).flatMap CodeItem.stretch = List.range code.size ∧
    (∀ x ∈ CodeItem.items code, x.Shows code) ∧
    (CodeItem.items code).flatMap CodeItem.bytes = code.toList ∧
    ∀ pc,
      (∀ i, Machine.fetch code pc = .ok i ↔
        Instruction.decode? code pc = some i ∧ i.op.isExecutable) ∧
      (∀ b, Machine.fetch code pc = .error (.unknownOpcode b) ↔ Machine.Unknown code pc b) ∧
      (Machine.fetch code pc = .error (.codeOverrun pc) ↔
        (¬∃ i, Instruction.decode? code pc = some i ∧ i.op.isExecutable) ∧
          ¬∃ b, Machine.Unknown code pc b) := by
  have hitems := CodeItem.tiles_items code
  refine ⟨rfl, ?_, hitems.shows, hitems.bytes, fun pc =>
    ⟨fun i => Machine.fetch_eq_ok_iff, fun b => Machine.fetch_eq_unknownOpcode_iff,
      Machine.fetch_eq_codeOverrun_iff⟩⟩
  rw [hitems.stretch, List.range_eq_range', Nat.sub_zero]

end Listing

end CellScript
