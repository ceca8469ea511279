import Mathlib.Algebra.GroupWithZero.Nat
import CellScript.Proofs.Action
import CellScript.Builtin.Text

/-!
The records of the arena.

The arena is an array of bytes, and nothing in it says where one record ends and
the next one begins: an offset is checked by looking at the length that should
lie there. A `Ledger` is the knowledge that is missing in the bytes. It lists the
records that were handed out, and it says that they lie apart from each other and
that each of them still carries its length. From the ledger follows what programs
rely on, that the offset of a record stays one as long as the program runs.

Two kinds of change are all that ever happens to an arena. A new record is cut off
at the top (`Heap.Grows`), or some bytes of one record are overwritten
(`Heap.SameOutside`).
-/

namespace CellScript

namespace Heap

/-! ### Bytes after a change -/

/-- The bytes outside of a stretch are the same. -/
structure SameOutside (lo hi : Nat) (h h' : Heap) : Prop where
  top : h'.top = h.top
  size : h'.bytes.size = h.bytes.size
  byte : ∀ j, j < lo ∨ hi ≤ j → h'.byte j = h.byte j

/-- Nothing below the old top has changed, and the top may be higher. -/
structure Grows (h h' : Heap) : Prop where
  top : h.top ≤ h'.top
  size : h'.bytes.size = h.bytes.size
  byte : ∀ j, j < h.top → h'.byte j = h.byte j

theorem Grows.refl (h : Heap) : Grows h h := ⟨Nat.le_refl _, rfl, fun _ _ => rfl⟩

theorem Grows.trans {h h' h'' : Heap} (a : Grows h h') (b : Grows h' h'') : Grows h h'' where
  top := Nat.le_trans a.top b.top
  size := b.size.trans a.size
  byte j hj := by
    have := a.top
    rw [b.byte j (by omega), a.byte j hj]

theorem byte_setByte (h : Heap) (i j : Nat) (b : UInt8) :
    (h.setByte i b).byte j = if i = j ∧ j < h.bytes.size then b else h.byte j := by
  simp only [byte, setByte, Array.getD_eq_getD_getElem?, Array.getElem?_setIfInBounds]
  grind

@[simp] theorem size_setByte (h : Heap) (i : Nat) (b : UInt8) :
    (h.setByte i b).bytes.size = h.bytes.size := by
  simp [setByte]

@[simp] theorem size_write (h : Heap) (i : Nat) (bs : List UInt8) :
    (h.write i bs).bytes.size = h.bytes.size :=
  capacity_write h i bs

theorem byte_write_outside {h : Heap} {i j : Nat} {bs : List UInt8}
    (hj : j < i ∨ i + bs.length ≤ j) : (h.write i bs).byte j = h.byte j := by
  induction bs generalizing h i with
  | nil => rfl
  | cons b bs ih =>
      simp only [List.length_cons] at hj
      rw [write, ih (by omega), byte_setByte, if_neg (by omega)]

theorem byte_write_inside {h : Heap} {i k : Nat} {d : List UInt8} (hk : k < d.length)
    (hs : i + k < h.bytes.size) : (h.write i d).byte (i + k) = d[k] := by
  induction d generalizing h i k with
  | nil => simp at hk
  | cons b d ih =>
      rw [write]
      cases k with
      | zero =>
          rw [byte_write_outside (by omega), byte_setByte, if_pos (by omega)]
          rfl
      | succ k =>
          have hk' : k < d.length := by simpa using hk
          have hs' : i + 1 + k < (h.setByte i b).bytes.size := by
            rw [size_setByte]
            omega
          rw [show i + (k + 1) = i + 1 + k by omega, ih hk' hs']
          rfl

theorem sameOutside_write (h : Heap) (i : Nat) (bs : List UInt8) :
    SameOutside i (i + bs.length) h (h.write i bs) :=
  ⟨top_write h i bs, size_write h i bs, fun _ hj => byte_write_outside hj⟩

theorem sameOutside_setByte (h : Heap) (i : Nat) (b : UInt8) :
    SameOutside i (i + 1) h (h.setByte i b) :=
  ⟨rfl, size_setByte h i b, fun j hj => by rw [byte_setByte, if_neg (by omega)]⟩

theorem sameOutside_setWord (h : Heap) (i : Nat) (w : UInt16) :
    SameOutside i (i + 2) h (h.setWord i w) :=
  sameOutside_write h i (Word.bytes w)

theorem inBounds_iff {h : Heap} {i n : Nat} :
    h.inBounds i n = true ↔ reserved ≤ i ∧ i + n ≤ h.top := by
  simp [inBounds]

/-- Bytes that are written at the top do not show below it. -/
theorem grows_write {h : Heap} {i n : Nat} (bs : List UInt8) (hi : h.top ≤ i) :
    Grows h ({ h with top := h.top + n }.write i bs) where
  top := by
    rw [top_write]
    exact Nat.le_add_right _ _
  size := size_write _ _ _
  byte j hj := byte_write_outside (by omega)

theorem slice_congr {h h' : Heap} {i n : Nat}
    (hb : ∀ k < n, h'.byte (i + k) = h.byte (i + k)) : h'.slice i n = h.slice i n :=
  List.map_congr_left fun k hk => hb k (List.mem_range.1 hk)

section

variable {lo hi : Nat} {h h' : Heap}

theorem SameOutside.word (a : SameOutside lo hi h h') {i : Nat} (hi : i + 2 ≤ lo ∨ hi ≤ i) :
    h'.word i = h.word i := by
  simp only [Heap.word, a.byte i (by omega), a.byte (i + 1) (by omega)]

theorem SameOutside.valueAt (a : SameOutside lo hi h h') {i : Nat} (hi : i + 3 ≤ lo ∨ hi ≤ i) :
    h'.valueAt i = h.valueAt i := by
  simp only [Heap.valueAt, a.byte i (by omega), a.byte (i + 1) (by omega),
    a.byte (i + 2) (by omega)]

theorem Grows.word (a : Grows h h') {i : Nat} (hi : i + 2 ≤ h.top) : h'.word i = h.word i := by
  simp only [Heap.word, a.byte i (by omega), a.byte (i + 1) (by omega)]

theorem Grows.valueAt (a : Grows h h') {i : Nat} (hi : i + 3 ≤ h.top) :
    h'.valueAt i = h.valueAt i := by
  simp only [Heap.valueAt, a.byte i (by omega), a.byte (i + 1) (by omega),
    a.byte (i + 2) (by omega)]

theorem word_write {i : Nat} {w : UInt16} (hs : i + 2 ≤ h.bytes.size) :
    (h.write i (Word.bytes w)).word i = w := by
  have h₀ := byte_write_inside (h := h) (i := i) (k := 0) (d := Word.bytes w) (by simp) (by omega)
  have h₁ := byte_write_inside (h := h) (i := i) (k := 1) (d := Word.bytes w) (by simp) (by omega)
  simp only [Nat.add_zero, Word.bytes, List.getElem_cons_zero, List.getElem_cons_succ] at h₀ h₁
  simp only [Heap.word, Word.bytes, h₀, h₁, Word.ofBytes_hi_lo]

theorem valueAt_write {i : Nat} {v : Value} (hs : i + 3 ≤ h.bytes.size) :
    (h.write i v.encode).valueAt i = v := by
  have h₀ := byte_write_inside (h := h) (i := i) (k := 0) (d := v.encode) (by simp [Value.size])
    (by omega)
  have h₁ := byte_write_inside (h := h) (i := i) (k := 1) (d := v.encode) (by simp [Value.size])
    (by omega)
  have h₂ := byte_write_inside (h := h) (i := i) (k := 2) (d := v.encode) (by simp [Value.size])
    (by omega)
  simp only [Nat.add_zero, Value.encode, Word.bytes, List.getElem_cons_zero,
    List.getElem_cons_succ] at h₀ h₁ h₂
  simp only [Heap.valueAt, Value.encode, Word.bytes, h₀, h₁, h₂, Value.decode?_tag_payload,
    Option.getD_some]

end

end Heap

/-! ### Records -/

inductive RecordKind where
  | ident
  | text
  | array
  deriving Repr, DecidableEq

/-- A record by its place. The length counts the bytes of a name or a string and the elements
of an array. -/
structure Record where
  kind : RecordKind
  start : Nat
  length : Nat
  deriving Repr, DecidableEq

namespace Record

def size (r : Record) : Nat :=
  match r.kind with
  | .ident => Ident.nameField + r.length
  | .text => 2 + r.length
  | .array => 1 + Value.size * r.length

def stop (r : Record) : Nat := r.start + r.size

/-- The record carries its length. -/
def LengthIn (h : Heap) (r : Record) : Prop :=
  match r.kind with
  | .ident => (h.byte (r.start + Ident.lengthField)).toNat = r.length
  | .text => (h.word r.start).toNat = r.length
  | .array => (h.byte r.start).toNat = r.length

theorem LengthIn.of_grows {h h' : Heap} {r : Record} (a : Heap.Grows h h') (hr : r.stop ≤ h.top)
    (hl : r.LengthIn h) : r.LengthIn h' := by
  obtain ⟨kind, start, length⟩ := r
  cases kind <;> simp only [LengthIn, stop, size, Ident.nameField, Ident.lengthField] at hl hr ⊢
  · rw [a.byte _ (by omega), hl]
  · rw [a.word (by omega), hl]
  · rw [a.byte _ (by omega), hl]

/-- Overwriting bytes outside of the record leaves its length alone. -/
theorem LengthIn.of_outside {h h' : Heap} {lo hi : Nat} {r : Record}
    (a : Heap.SameOutside lo hi h h') (hr : r.stop ≤ lo ∨ hi ≤ r.start) (hl : r.LengthIn h) :
    r.LengthIn h' := by
  obtain ⟨kind, start, length⟩ := r
  cases kind <;> simp only [LengthIn, stop, size, Ident.nameField, Ident.lengthField] at hl hr ⊢
  · rw [a.byte _ (by omega), hl]
  · rw [a.word (by omega), hl]
  · rw [a.byte _ (by omega), hl]

/-- The fields of an identifier record before its length can be overwritten. -/
theorem LengthIn.of_fields {h h' : Heap} {lo hi : Nat} {r : Record}
    (a : Heap.SameOutside lo hi h h') (hk : r.kind = .ident)
    (hr : hi ≤ r.start + Ident.lengthField) (hl : r.LengthIn h) : r.LengthIn h' := by
  obtain ⟨kind, start, length⟩ := r
  subst hk
  simp only [LengthIn] at hl ⊢
  rw [a.byte _ (.inr hr), hl]

end Record

/-- The records of a heap: they fill it up to its top, without gaps between them. -/
structure Ledger (h : Heap) (rs : List Record) : Prop where
  top_le_size : h.top ≤ h.bytes.size
  top_le : h.top ≤ Heap.addressable
  reserved_le : Heap.reserved ≤ h.top
  within : ∀ r ∈ rs, Heap.reserved ≤ r.start ∧ r.stop ≤ h.top
  /-- Nothing was handed out but the records. -/
  filled : Heap.reserved + (rs.map Record.size).sum = h.top
  apart : ∀ r ∈ rs, ∀ r' ∈ rs, r = r' ∨ r.stop ≤ r'.start ∨ r'.stop ≤ r.start
  lengths : ∀ r ∈ rs, r.LengthIn h

namespace Ledger

variable {h h' : Heap} {rs : List Record}

theorem ofSize (n : Nat) : Ledger (.ofSize n) [] where
  top_le_size := by
    simp only [Heap.ofSize, Array.size_replicate]
    omega
  top_le := show 2 ≤ 65536 by decide
  reserved_le := Nat.le_refl _
  within := by simp
  filled := rfl
  apart := by simp
  lengths := by simp

/-- A new record at the top. -/
theorem cons (l : Ledger h rs) (a : Heap.Grows h h') {r : Record} (hs : h'.top ≤ h'.bytes.size)
    (ht : h'.top ≤ Heap.addressable) (hr : r.start = h.top) (hr' : r.stop = h'.top)
    (hl : r.LengthIn h') : Ledger h' (r :: rs) where
  top_le_size := hs
  top_le := ht
  reserved_le := Nat.le_trans l.reserved_le a.top
  within := by
    intro s hs
    obtain rfl | hs := List.mem_cons.1 hs
    · exact ⟨by rw [hr]; exact l.reserved_le, Nat.le_of_eq hr'⟩
    · exact ⟨(l.within s hs).1, Nat.le_trans (l.within s hs).2 a.top⟩
  filled := by
    rw [List.map_cons, List.sum_cons, ← hr', Record.stop, hr, ← l.filled]
    omega
  apart := by
    intro s hs s' hs'
    obtain e | hm := List.mem_cons.1 hs <;> obtain e' | hm' := List.mem_cons.1 hs'
    · exact .inl (e.trans e'.symm)
    · exact .inr (.inr (by rw [e, hr]; exact (l.within s' hm').2))
    · exact .inr (.inl (by rw [e', hr]; exact (l.within s hm).2))
    · exact l.apart s hm s' hm'
  lengths := by
    intro s hs
    obtain rfl | hs := List.mem_cons.1 hs
    · exact hl
    · exact (l.lengths s hs).of_grows a (l.within s hs).2

/-- Fields of an identifier record before its length are overwritten. -/
theorem setField (l : Ledger h rs) {lo hi : Nat} (a : Heap.SameOutside lo hi h h') {r : Record}
    (hr : r ∈ rs) (hk : r.kind = .ident) (hlo : r.start ≤ lo)
    (hhi : hi ≤ r.start + Ident.lengthField) : Ledger h' rs where
  top_le_size := by
    rw [a.top, a.size]
    exact l.top_le_size
  top_le := by
    rw [a.top]
    exact l.top_le
  reserved_le := by
    rw [a.top]
    exact l.reserved_le
  within := by
    rw [a.top]
    exact l.within
  filled := by
    rw [a.top]
    exact l.filled
  apart := l.apart
  lengths := by
    intro s hs
    have hstop : r.start + Ident.nameField ≤ r.stop := by
      simp only [Record.stop, Record.size, hk]
      omega
    simp only [Ident.nameField, Ident.lengthField] at hstop hhi
    obtain rfl | hd | hd := l.apart r hr s hs
    · exact (l.lengths r hr).of_fields a hk hhi
    · exact (l.lengths s hs).of_outside a (.inr (by omega))
    · exact (l.lengths s hs).of_outside a (.inl (by omega))

end Ledger

/-! ### Offsets of records -/

/-- The record of a name is in the list. -/
def HasIdent (rs : List Record) (id : Ident) : Prop :=
  ∃ n, ⟨.ident, id.offset.toNat, n⟩ ∈ rs

/-- A string record is in the list. Shorter strings than two bytes need none. -/
def HasText (rs : List Record) (offset : UInt16) : Prop :=
  ∃ n, 2 ≤ n ∧ ⟨.text, offset.toNat, n⟩ ∈ rs

def HasArray (rs : List Record) (offset : UInt16) : Prop :=
  ∃ n, ⟨.array, offset.toNat, n⟩ ∈ rs

theorem HasIdent.mono {rs rs' : List Record} (hr : ∀ r ∈ rs, r ∈ rs') {id : Ident}
    (h : HasIdent rs id) : HasIdent rs' id := by
  obtain ⟨n, hn⟩ := h
  exact ⟨n, hr _ hn⟩

namespace Ledger

variable {h h' : Heap} {rs : List Record}

/-- The offset of a record of a name is accepted. -/
theorem identAt (l : Ledger h rs) {id : Ident} (hid : HasIdent rs id) :
    h.identAt id.offset = .ok id := by
  obtain ⟨n, hn⟩ := hid
  have hlength := l.lengths _ hn
  have hwithin := l.within _ hn
  simp only [Record.LengthIn, Record.stop, Record.size, Ident.nameField] at hlength hwithin
  unfold Heap.identAt
  rw [if_pos]
  rw [Bool.and_eq_true, Heap.inBounds_iff, Heap.inBounds_iff, hlength]
  simp only [Ident.nameField]
  omega

/-- The offset of a string record is accepted. -/
theorem strAt (l : Ledger h rs) {offset : UInt16} (ho : HasText rs offset) :
    h.strAt offset = .ok offset := by
  obtain ⟨n, -, hn⟩ := ho
  have hlength := l.lengths _ hn
  have hwithin := l.within _ hn
  simp only [Record.LengthIn, Record.stop, Record.size] at hlength hwithin
  unfold Heap.strAt
  rw [if_pos]
  rw [Heap.isStrAt, Bool.and_eq_true, Heap.inBounds_iff, Heap.inBounds_iff, hlength]
  omega

end Ledger

/-! ### New records -/

namespace Heap

variable {h h' : Heap} {n : Nat} {o : UInt16} {e : Error}

theorem alloc_ok (hs : h.top ≤ h.bytes.size) (ha : alloc n h = .ok o h') :
    o.toNat = h.top ∧ h' = { h with top := h.top + n } ∧ h.top + n ≤ h.bytes.size ∧
      h.top + n ≤ addressable := by
  simp only [alloc, Bool.or_eq_true, decide_eq_true_eq] at ha
  split at ha
  · simp at ha
  · rename_i hroom
    cases ha
    rw [show addressable = 65536 from rfl] at hroom ⊢
    have hmin : min h.bytes.size 65536 ≤ h.bytes.size := Nat.min_le_left _ _
    have hmin' : min h.bytes.size 65536 ≤ 65536 := Nat.min_le_right _ _
    refine ⟨?_, rfl, by omega, by omega⟩
    rw [UInt16.toNat_ofNat']
    omega

/-- A block that is not empty lies within the arena, whatever the heap was. -/
theorem alloc_block (hn : 0 < n) (ha : alloc n h = .ok o h') :
    o.toNat = h.top ∧ h' = { h with top := h.top + n } ∧ h.top + n ≤ h.bytes.size ∧
      h.top + n ≤ addressable := by
  refine alloc_ok ?_ ha
  simp only [alloc, Bool.or_eq_true, decide_eq_true_eq] at ha
  split at ha
  · simp at ha
  · rename_i hroom
    have hmin : min h.bytes.size addressable ≤ h.bytes.size := Nat.min_le_left _ _
    omega

/-- Where there is room, a block is handed out. -/
theorem alloc_of_le (hn : 0 < n) (ho : o.toNat = h.top) (hs : h.top + n ≤ h.bytes.size)
    (ha : h.top + n ≤ addressable) : alloc n h = .ok o { h with top := h.top + n } := by
  have hoffset : UInt16.ofNat h.top = o := by rw [← ho, UInt16.ofNat_toNat]
  have hroom : ¬ (n > min h.bytes.size addressable - h.top ∨ h.top ≥ addressable) := by
    omega
  simp only [alloc, Bool.or_eq_true, decide_eq_true_eq, if_neg hroom, hoffset]

theorem alloc_of_lt (hn : min h.bytes.size addressable - h.top < n) :
    alloc n h = .error (.exhausted n (min h.bytes.size addressable - h.top)) h := by
  simp only [alloc, Bool.or_eq_true, decide_eq_true_eq, gt_iff_lt, hn, true_or, if_true]

theorem alloc_error (ha : alloc n h = .error e h') :
    h' = h ∧ ∃ m, e = .exhausted n m := by
  simp only [alloc] at ha
  split at ha
  · cases ha
    exact ⟨rfl, _, rfl⟩
  · simp at ha

/-- The record is refused for its length, or there is no room for it. -/
theorem allocStr_refused {data : List UInt8} (ha : allocStr data h = .error e h') :
    h' = h ∧ (maxStrLength < data.length ∧ e = .recordTooLarge data.length maxStrLength ∨
      data.length ≤ maxStrLength ∧ ∃ m, e = .exhausted (2 + data.length) m) := by
  unfold allocStr at ha
  split at ha
  · rename_i hlong
    cases ha
    exact ⟨rfl, .inl ⟨hlong, rfl⟩⟩
  · rename_i hshort
    cases halloc : alloc (2 + data.length) h with
    | ok o t => simp [bind, EStateM.bind, halloc, CellScript.Action.modify_apply, pure,
        EStateM.pure] at ha
    | error e' t =>
        obtain ⟨rfl, m, rfl⟩ := alloc_error halloc
        simp only [bind, EStateM.bind, halloc] at ha
        cases ha
        exact ⟨rfl, .inr ⟨Nat.le_of_not_lt hshort, m, rfl⟩⟩

theorem allocArray_refused {elems : List Value} (ha : allocArray elems h = .error e h') :
    h' = h ∧ (maxArrayLength < elems.length ∧ e = .recordTooLarge elems.length maxArrayLength ∨
      elems.length ≤ maxArrayLength ∧ ∃ m, e = .exhausted (1 + Value.size * elems.length) m) := by
  unfold allocArray at ha
  split at ha
  · rename_i hlong
    cases ha
    exact ⟨rfl, .inl ⟨hlong, rfl⟩⟩
  · rename_i hshort
    cases halloc : alloc (1 + Value.size * elems.length) h with
    | ok o t => simp [bind, EStateM.bind, halloc, CellScript.Action.modify_apply, pure,
        EStateM.pure] at ha
    | error e' t =>
        obtain ⟨rfl, m, rfl⟩ := alloc_error halloc
        simp only [bind, EStateM.bind, halloc] at ha
        cases ha
        exact ⟨rfl, .inr ⟨Nat.le_of_not_lt hshort, m, rfl⟩⟩

/-- A failed allocation changes nothing, and no offset was refused. -/
theorem allocStr_error {data : List UInt8} (ha : allocStr data h = .error e h') :
    h' = h ∧ ∀ o, e ≠ .invalidHandle o := by
  obtain ⟨rfl, ⟨-, rfl⟩ | ⟨-, m, rfl⟩⟩ := allocStr_refused ha <;> exact ⟨rfl, by simp⟩

theorem allocArray_error {elems : List Value} (ha : allocArray elems h = .error e h') :
    h' = h ∧ ∀ o, e ≠ .invalidHandle o := by
  obtain ⟨rfl, ⟨-, rfl⟩ | ⟨-, m, rfl⟩⟩ := allocArray_refused ha <;> exact ⟨rfl, by simp⟩

/-- A block of `n` bytes was cut off at the top and filled in. -/
structure Extends (h h' : Heap) (o : UInt16) (n : Nat) : Prop where
  grows : Grows h h'
  start : o.toNat = h.top
  stop : h'.top = h.top + n
  size : h'.top ≤ h'.bytes.size
  reach : h'.top ≤ addressable
  /-- Nothing is written past the block. -/
  beyond : ∀ j, h'.top ≤ j → h'.byte j = h.byte j

/-- What has been written reads back. -/
theorem slice_write {i : Nat} {bs : List UInt8} (hs : i + bs.length ≤ h.bytes.size) :
    (h.write i bs).slice i bs.length = bs := by
  refine List.ext_getElem (by simp [slice]) fun k hk hk' => ?_
  simp only [slice, List.getElem_map, List.getElem_range]
  exact byte_write_inside hk' (by omega)

/-- A new string record reads as the bytes it was made of. -/
theorem allocStr_made {data : List UInt8} (ha : allocStr data h = .ok o h') :
    Extends h h' o (2 + data.length) ∧ (h'.word o.toNat).toNat = data.length ∧
      h'.strBytes o = data := by
  simp only [allocStr, Action.ite_eq_ok, Action.bind_eq_ok, Action.throw_eq_ok, false_and,
    exists_false, and_false, false_or, Action.modify_eq_ok, Action.pure_eq_ok] at ha
  obtain ⟨hlen, o', _, halloc, _, _, rfl, rfl, rfl⟩ := ha
  obtain ⟨ho, rfl, hsize, hreach⟩ := alloc_block (by omega) halloc
  simp only [maxStrLength, Nat.not_lt] at hlen
  have hword : (UInt16.ofNat data.length).toNat = data.length := by
    rw [UInt16.toNat_ofNat']
    omega
  -- The heap with the length; the bytes follow it.
  generalize hg : { h with top := h.top + (2 + data.length) }.setWord o'.toNat
    (UInt16.ofNat data.length) = g
  have htop : g.top = h.top + (2 + data.length) := by
    rw [← hg, setWord, top_write]
  have hgsize : g.bytes.size = h.bytes.size := by
    rw [← hg, setWord, size_write]
  have hfirst : g.word o'.toNat = UInt16.ofNat data.length := by
    rw [← hg, setWord, word_write]
    simp only
    omega
  have hgrow : Grows h (g.write (o'.toNat + 2) data) := by
    refine ⟨by rw [top_write]; omega, by rw [size_write, hgsize], fun j hj => ?_⟩
    rw [byte_write_outside (by omega), ← hg]
    exact byte_write_outside (by omega)
  have hlength : ((g.write (o'.toNat + 2) data).word o'.toNat).toNat = data.length := by
    rw [(sameOutside_write g (o'.toNat + 2) data).word (by omega), hfirst, hword]
  refine ⟨⟨hgrow, ho, by rw [top_write, htop],
    by rw [top_write, size_write, htop, hgsize]; exact hsize,
    by rw [top_write, htop]; exact hreach, fun j hj => ?_⟩, hlength, ?_⟩
  · rw [top_write] at hj
    rw [byte_write_outside (by omega), ← hg]
    refine byte_write_outside (.inr ?_)
    rw [Word.length_bytes]
    omega
  rw [strBytes, hlength]
  exact slice_write (by omega)

theorem allocStr_ok {rs : List Record} {data : List UInt8} (l : Ledger h rs)
    (ha : allocStr data h = .ok o h') :
    Grows h h' ∧ Ledger h' (⟨.text, o.toNat, data.length⟩ :: rs) := by
  obtain ⟨hmade, hlength, -⟩ := allocStr_made ha
  refine ⟨hmade.grows, l.cons hmade.grows hmade.size hmade.reach hmade.start ?_ hlength⟩
  rw [hmade.stop, ← hmade.start]
  rfl

theorem write_append (h : Heap) (i : Nat) (bs cs : List UInt8) :
    h.write i (bs ++ cs) = (h.write i bs).write (i + bs.length) cs := by
  induction bs generalizing h i with
  | nil => rfl
  | cons b bs ih =>
      simp only [List.cons_append, write, List.length_cons]
      rw [ih, show i + 1 + bs.length = i + (bs.length + 1) by omega]

theorem length_encodeAll (elems : List Value) :
    (elems.flatMap Value.encode).length = Value.size * elems.length := by
  induction elems with
  | nil => rfl
  | cons v vs ih =>
      simp only [List.flatMap_cons, List.length_append, Value.length_encode, ih, List.length_cons,
        Value.size]
      omega

/-- Elements that are written one after the other read back. -/
theorem valueAt_writeAll {i k : Nat} {vs : List Value} (hk : k < vs.length)
    (hs : i + Value.size * vs.length ≤ h.bytes.size) :
    (h.write i (vs.flatMap Value.encode)).valueAt (i + k * Value.size) = vs[k] := by
  induction vs generalizing h i k with
  | nil => simp at hk
  | cons v vs ih =>
      simp only [List.length_cons, Value.size] at hk hs
      rw [List.flatMap_cons, write_append, Value.length_encode]
      cases k with
      | zero =>
          rw [Nat.zero_mul, Nat.add_zero]
          have hrest := (sameOutside_write (h.write i v.encode) (i + Value.size)
            (vs.flatMap Value.encode)).valueAt (i := i) (by simp only [Value.size]; omega)
          rw [hrest, valueAt_write (by omega)]
          rfl
      | succ k =>
          have hk' : k < vs.length := by omega
          have hs' : i + Value.size + Value.size * vs.length ≤ (h.write i v.encode).bytes.size := by
            rw [size_write]
            simp only [Value.size]
            omega
          rw [show i + (k + 1) * Value.size = i + Value.size + k * Value.size by
            simp only [Value.size]; omega, ih hk' hs']
          rfl

/-- A new array record holds the values it was made of. -/
theorem allocArray_made {elems : List Value} (ha : allocArray elems h = .ok o h') :
    Extends h h' o (1 + Value.size * elems.length) ∧ h'.arrayLength o = elems.length ∧
      ∀ k (hk : k < elems.length), h'.valueAt (o.toNat + 1 + k * Value.size) = elems[k] := by
  simp only [allocArray, Action.ite_eq_ok, Action.bind_eq_ok, Action.throw_eq_ok, false_and,
    exists_false, and_false, false_or, Action.modify_eq_ok, Action.pure_eq_ok] at ha
  obtain ⟨hlen, o', _, halloc, _, _, rfl, rfl, rfl⟩ := ha
  obtain ⟨ho, rfl, hsize, hreach⟩ := alloc_block (by omega) halloc
  simp only [maxArrayLength, Nat.not_lt] at hlen
  have hbyte : (UInt8.ofNat elems.length).toNat = elems.length := by
    rw [UInt8.toNat_ofNat']
    omega
  -- The heap with the length byte; the elements follow it.
  generalize hg : { h with top := h.top + (1 + Value.size * elems.length) }.setByte o'.toNat
    (UInt8.ofNat elems.length) = g
  have htop : g.top = h.top + (1 + Value.size * elems.length) := by rw [← hg, top_setByte]
  have hgsize : g.bytes.size = h.bytes.size := by rw [← hg, size_setByte]
  have hbytes : ∀ j, j ≠ o'.toNat → g.byte j = h.byte j := by
    intro j hj
    rw [← hg, byte_setByte, if_neg (by omega)]
    rfl
  have hfirst : g.byte o'.toNat = UInt8.ofNat elems.length := by
    rw [← hg, byte_setByte, if_pos ⟨rfl, by simp only; omega⟩]
  have hgrow : Grows h (g.write (o'.toNat + 1) (elems.flatMap Value.encode)) := by
    refine ⟨?_, ?_, ?_⟩
    · rw [top_write, htop]
      omega
    · rw [size_write, hgsize]
    · intro j hj
      rw [byte_write_outside (by omega), hbytes j (by omega)]
  refine ⟨⟨hgrow, ho, by rw [top_write, htop],
    by rw [top_write, size_write, htop, hgsize]; exact hsize,
    by rw [top_write, htop]; exact hreach, fun j hj => ?_⟩, ?_, ?_⟩
  · rw [top_write] at hj
    rw [byte_write_outside (.inr ?_), hbytes j (by omega)]
    rw [length_encodeAll]
    omega
  · rw [arrayLength, byte_write_outside (by omega), hfirst, hbyte]
  · intro k hk
    refine valueAt_writeAll hk ?_
    rw [hgsize]
    omega

theorem allocArray_ok {rs : List Record} {elems : List Value} (l : Ledger h rs)
    (ha : allocArray elems h = .ok o h') :
    Grows h h' ∧ Ledger h' (⟨.array, o.toNat, elems.length⟩ :: rs) ∧ o.toNat = h.top ∧
      ∀ k (hk : k < elems.length), h'.valueAt (o.toNat + 1 + k * Value.size) = elems[k] := by
  obtain ⟨hmade, hlength, hread⟩ := allocArray_made ha
  refine ⟨hmade.grows, l.cons hmade.grows hmade.size hmade.reach hmade.start ?_ hlength,
    hmade.start, hread⟩
  rw [hmade.stop, ← hmade.start]
  rfl

end Heap

/-- Linking a record writes the link of a record of its bucket, if there is one. -/
theorem Store.heap_link (s : Store) (bucket : Nat) (id : Ident) :
    (s.link bucket id).heap = s.heap ∨ ∃ last ∈ s.chain bucket,
      (s.link bucket id).heap = s.heap.setWord last.offset.toNat id.offset := by
  unfold link
  split
  · exact .inl rfl
  · rename_i last hlast
    exact .inr ⟨last, List.mem_of_getLast? hlast, rfl⟩

theorem Store.size_link (s : Store) (bucket : Nat) (id : Ident) :
    (s.link bucket id).heap.bytes.size = s.heap.bytes.size := by
  obtain h | ⟨last, -, h⟩ := s.heap_link bucket id
  · rw [h]
  · rw [h]
    exact Heap.size_write _ _ _

theorem Store.top_link (s : Store) (bucket : Nat) (id : Ident) :
    (s.link bucket id).heap.top = s.heap.top := by
  obtain h | ⟨last, -, h⟩ := s.heap_link bucket id
  · rw [h]
  · rw [h]
    exact Heap.top_write _ _ _

end CellScript
