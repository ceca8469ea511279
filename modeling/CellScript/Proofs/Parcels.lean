import CellScript.Proofs.Extracts
import CellScript.Proofs.Interning

/-!
The arena loses, overlaps and corrupts nothing.

The bytes of the arena do not say what they were handed out for. A `Parcel` does: it
is a block with what was stored in it. Along a sequence of requests the parcels fill the
arena from the reserved bytes up to the top, one behind the other (`Session.Keeps`), and
each of them still reads as it was stored.

Two kinds of write go into parcels that are there already, and both go into the record of
a name: the link of the record that was the last one of its bucket, and the value, the slot
and the arguments (`Heap.InFields`). None of these bytes is read as part of a name, and no
other parcel has any of them, since parcels lie apart.
-/

namespace CellScript

/-- What a block is cut off for. -/
inductive Content where
  | plain (n : Nat)
  | text (data : List UInt8)
  | array (elems : List Value)
  | name (spelling : List UInt8)

namespace Content

def size : Content → Nat
  | plain n => n
  | text data => 2 + data.length
  | array elems => 1 + Value.size * elems.length
  | name spelling => Ident.nameField + spelling.length

/-- The length that the record carries; a plain block carries none. -/
def length : Content → Nat
  | plain _ => 0
  | text data => data.length
  | array elems => elems.length
  | name spelling => spelling.length

def most : Content → Nat
  | plain _ => 0
  | text _ => Heap.maxStrLength
  | array _ => Heap.maxArrayLength
  | name _ => Ident.maxLength

/-- The offset of a block with this content, and whether the block is new. Only a name
that was interned before has its block already. -/
def place : Content → EStateM Heap.Error Store (UInt16 × Bool)
  | plain n => do return (← Store.onHeap id (Heap.alloc n), true)
  | text data => do return (← Store.onHeap id (Heap.allocStr data), true)
  | array elems => do return (← Store.onHeap id (Heap.allocArray elems), true)
  | name spelling => do
    let (id, isNew) ← Store.intern spelling
    return (id.offset, isNew)

end Content

structure Parcel where
  offset : UInt16
  content : Content

namespace Parcel

def stop (p : Parcel) : Nat := p.offset.toNat + p.content.size

/-- What was stored reads back through the accessors of its kind; a plain block is zero. -/
def Reads (h : Heap) (p : Parcel) : Prop :=
  match p.content with
  | .plain n => ∀ k < n, h.byte (p.offset.toNat + k) = 0
  | .text data => h.strAt p.offset = .ok p.offset ∧ h.strBytes p.offset = data
  | .array elems => h.arrayElems p.offset = elems ∧ h.arrayLength p.offset = elems.length ∧
      ∀ k, h.arrayGet? p.offset k = elems[k]?
  | .name spelling => h.identAt p.offset = .ok ⟨p.offset⟩ ∧ h.identName ⟨p.offset⟩ = spelling

/-- The bytes of a parcel that are written again later. -/
def Loose (p : Parcel) (j : Nat) : Prop :=
  (∃ spelling, p.content = .name spelling) ∧ Heap.InFields ⟨p.offset⟩ j

end Parcel

/-! ### Reading after a change -/

namespace Heap

variable {h h' : Heap} {o : UInt16}

theorem strAt_eq_ok_iff :
    h.strAt o = .ok o ↔ reserved ≤ o.toNat ∧ o.toNat + 2 + (h.word o.toNat).toNat ≤ h.top := by
  unfold strAt
  by_cases hs : h.isStrAt o
  · rw [if_pos hs]
    simp only [isStrAt, Bool.and_eq_true, inBounds_iff] at hs
    simp only [true_iff]
    omega
  · rw [if_neg hs]
    simp only [isStrAt, Bool.and_eq_true, inBounds_iff] at hs
    simp only [reduceCtorEq, false_iff]
    omega

theorem identAt_eq_ok_iff :
    h.identAt o = .ok ⟨o⟩ ↔ reserved ≤ o.toNat ∧
      o.toNat + Ident.nameField + (h.byte (o.toNat + Ident.lengthField)).toNat ≤ h.top := by
  simp only [identAt]
  split <;> rename_i hs <;> simp only [Bool.and_eq_true, inBounds_iff] at hs
  · simp only [true_iff]
    omega
  · simp only [reduceCtorEq, false_iff]
    omega

theorem entry_congr {id : Ident} (hbyte : ∀ j, id.offset.toNat + Ident.valueField ≤ j →
    j < id.offset.toNat + Ident.lengthField → h'.byte j = h.byte j) : h'.entry id = h.entry id := by
  simp only [Ident.valueField, Ident.lengthField] at hbyte
  simp only [entry, identValue, identSlot, identArguments, valueAt, Ident.valueField,
    Ident.slotField, Ident.argumentsField]
  rw [hbyte _ (by omega) (by omega), hbyte _ (by omega) (by omega), hbyte _ (by omega) (by omega),
    hbyte _ (by omega) (by omega), hbyte _ (by omega) (by omega)]

theorem length_slice (h : Heap) (i n : Nat) : (h.slice i n).length = n := by
  rw [slice, List.length_map, List.length_range]

theorem length_strBytes (h : Heap) (o : UInt16) : (h.strBytes o).length = (h.word o.toNat).toNat :=
  length_slice _ _ _

theorem length_identName (h : Heap) (id : Ident) :
    (h.identName id).length = (h.byte (id.offset.toNat + Ident.lengthField)).toNat :=
  length_slice _ _ _

end Heap

namespace Parcel

variable {h h' : Heap} {p q : Parcel}

/-- A parcel reads the same as long as none of its bytes has changed but loose ones. -/
theorem Reads.congr (hp : p.Reads h) (htop : h.top ≤ h'.top)
    (hbyte : ∀ j, p.offset.toNat ≤ j → j < p.stop → ¬p.Loose j → h'.byte j = h.byte j) :
    p.Reads h' := by
  obtain ⟨o, content⟩ := p
  -- Only the fields of a name are loose, so other parcels stay the same byte for byte.
  have hfix (hname : ∀ spelling, content ≠ .name spelling) (j : Nat) (hlo : o.toNat ≤ j)
      (hhi : j < o.toNat + content.size) : h'.byte j = h.byte j :=
    hbyte j hlo hhi fun ⟨⟨spelling, heq⟩, _⟩ => hname spelling heq
  cases content with
  | plain n =>
      simp only [Content.size, ne_eq, reduceCtorEq, not_false_iff, forall_const] at hfix
      intro k hk
      rw [hfix _ (Nat.le_add_right _ _) (Nat.add_lt_add_left hk _)]
      exact hp k hk
  | text data =>
      simp only [Content.size, ne_eq, reduceCtorEq, not_false_iff, forall_const] at hfix
      simp only [Reads, Heap.strAt_eq_ok_iff] at hp ⊢
      obtain ⟨hat, hdata⟩ := hp
      have hlength : (h.word o.toNat).toNat = data.length := by
        rw [← Heap.length_strBytes, hdata]
      have hword : h'.word o.toNat = h.word o.toNat := by
        rw [Heap.word, Heap.word, hfix _ (Nat.le_refl _) (by omega), hfix _ (by omega) (by omega)]
      refine ⟨by rw [hword]; omega, Eq.trans ?_ hdata⟩
      rw [Heap.strBytes, Heap.strBytes, hword, hlength]
      exact Heap.slice_congr fun k hk => hfix _ (by omega) (by omega)
  | array elems =>
      simp only [Content.size, Value.size, ne_eq, reduceCtorEq, not_false_iff, forall_const] at hfix
      obtain ⟨helems, hlength, hget⟩ := hp
      simp only at helems hlength
      have hlength' : h'.arrayLength o = h.arrayLength o := by
        rw [Heap.arrayLength, Heap.arrayLength, hfix _ (Nat.le_refl _) (by omega)]
      have helems' : h'.arrayElems o = h.arrayElems o := by
        rw [Heap.arrayElems_eq, Heap.arrayElems_eq, hlength', hlength]
        refine List.map_congr_left fun k hk => ?_
        have hk := List.mem_range.1 hk
        simp only [Heap.valueAt, Value.size]
        rw [hfix _ (by omega) (by omega), hfix _ (by omega) (by omega),
          hfix _ (by omega) (by omega)]
      refine ⟨helems'.trans helems, hlength'.trans hlength, fun k => ?_⟩
      rw [Heap.arrayGet?_eq_getElem?, helems', helems]
  | name spelling =>
      -- The length and the spelling of a name lie behind its loose fields.
      have hlate (j : Nat) (hlo : o.toNat + 9 ≤ j) (hhi : j < o.toNat + 10 + spelling.length) :
          h'.byte j = h.byte j := by
        refine hbyte j (Nat.le_of_add_right_le hlo) ?_ ?_
        · simp only [stop, Content.size, Ident.nameField]
          omega
        · simp only [Loose, Heap.InFields, Ident.hashField, Ident.valueField, Ident.lengthField]
          omega
      simp only [Reads, Heap.identAt_eq_ok_iff, Ident.nameField, Ident.lengthField] at hp ⊢
      obtain ⟨hat, hname⟩ := hp
      have hlength : (h.byte (o.toNat + 9)).toNat = spelling.length := by
        rw [← hname, Heap.length_identName]
        rfl
      rw [hlate _ (Nat.le_refl _) (by omega)]
      refine ⟨by omega, ?_⟩
      rw [← hname, Heap.identName, Heap.identName]
      simp only [Ident.nameField, Ident.lengthField]
      rw [hlate _ (Nat.le_refl _) (by omega), hlength]
      exact Heap.slice_congr fun k hk => hlate _ (by omega) (by omega)

end Parcel

/-! ### New blocks -/

namespace Heap

variable {h h' : Heap}

/-- Nothing below the old top has changed but some bytes, and nothing is written past the new
top. -/
structure Patched (loose : Nat → Prop) (h h' : Heap) : Prop where
  top : h.top ≤ h'.top
  size : h'.bytes.size = h.bytes.size
  byte : ∀ j < h.top, h'.byte j = h.byte j ∨ loose j
  beyond : ∀ j, h'.top ≤ j → h'.byte j = h.byte j

theorem Extends.patched {loose : Nat → Prop} {o : UInt16} {n : Nat} (a : Extends h h' o n) :
    Patched loose h h' :=
  ⟨a.grows.top, a.grows.size, fun j hj => .inl (a.grows.byte j hj), a.beyond⟩

theorem Patched.mono {loose loose' : Nat → Prop} (a : Patched loose h h')
    (hl : ∀ j, loose j → loose' j) : Patched loose' h h' :=
  ⟨a.top, a.size, fun j hj => (a.byte j hj).imp_right (hl j), a.beyond⟩

theorem Patched.trans {loose : Nat → Prop} {h'' : Heap} (a : Patched loose h h')
    (b : Patched loose h' h'') : Patched loose h h'' where
  top := Nat.le_trans a.top b.top
  size := b.size.trans a.size
  byte j hj := by
    obtain hb | hb := b.byte j (Nat.lt_of_lt_of_le hj a.top)
    · exact (a.byte j hj).imp_left hb.trans
    · exact .inr hb
  beyond j hj := (b.beyond j hj).trans (a.beyond j (Nat.le_trans b.top hj))

/-- Bytes of one stretch below the top are overwritten. -/
theorem SameOutside.patched {lo hi : Nat} (a : SameOutside lo hi h h') (hhi : hi ≤ h.top) :
    Patched (fun j => lo ≤ j ∧ j < hi) h h' where
  top := Nat.le_of_eq a.top.symm
  size := a.size
  byte j _ := by
    by_cases hj : lo ≤ j ∧ j < hi
    · exact .inr hj
    · exact .inl (a.byte j (by omega))
  beyond j hj := by
    rw [a.top] at hj
    exact a.byte j (.inr (Nat.le_trans hhi hj))

theorem Patched.write {loose : Nat → Prop} (a : Patched loose h h') {i : Nat} {bs : List UInt8}
    (hlo : h.top ≤ i) (hhi : i + bs.length ≤ h'.top) : Patched loose h (h'.write i bs) where
  top := by
    rw [top_write]
    exact a.top
  size := (size_write _ _ _).trans a.size
  byte j hj := by
    rw [byte_write_outside (.inl (Nat.lt_of_lt_of_le hj hlo))]
    exact a.byte j hj
  beyond j hj := by
    rw [top_write] at hj
    rw [byte_write_outside (.inr (Nat.le_trans hhi hj))]
    exact a.beyond j hj

theorem alloc_eq (n : Nat) (h : Heap) : alloc n h =
    if n ≤ h.room ∧ h.top < addressable then .ok (UInt16.ofNat h.top) { h with top := h.top + n }
    else .error (.exhausted n h.room) h := by
  have hroom : h.room = min h.bytes.size addressable - h.top := rfl
  simp only [alloc, Bool.or_eq_true, decide_eq_true_eq, ← hroom]
  by_cases hfit : n ≤ h.room ∧ h.top < addressable
  · rw [if_pos hfit, if_neg (by omega)]
  · rw [if_neg hfit, if_pos (by omega)]

/-- A block of `n` bytes for a record that carries its length, filled in. -/
def cutOff (length most n : Nat) (fill : UInt16 → Heap → Heap) : Action UInt16 := fun h =>
  if most < length then .error (.recordTooLarge length most) h
  else if n ≤ h.room ∧ h.top < addressable then
    .ok (UInt16.ofNat h.top) (fill (UInt16.ofNat h.top) { h with top := h.top + n })
  else .error (.exhausted n h.room) h

theorem alloc_eq_cutOff (n : Nat) : alloc n = cutOff 0 0 n fun _ h => h := funext (alloc_eq n)

/-- Records of both kinds are made in this way. -/
theorem record_eq_cutOff (length most n : Nat) (fill : UInt16 → Heap → Heap) :
    (do
      if length > most then
        throw (.recordTooLarge length most)
      let offset ← alloc n
      modify (fill offset)
      return offset : Action UInt16) = cutOff length most n fill := by
  funext h
  unfold cutOff
  by_cases hlong : length > most
  · simp only [if_pos hlong]
    rfl
  · simp only [if_neg hlong, bind, EStateM.bind, alloc_eq]
    by_cases hfit : n ≤ h.room ∧ h.top < addressable
    · simp only [if_pos hfit]
      rfl
    · simp only [if_neg hfit]

theorem allocStr_eq_cutOff (data : List UInt8) : allocStr data =
    cutOff data.length maxStrLength (2 + data.length) fun o h =>
      (h.setWord o.toNat (UInt16.ofNat data.length)).write (o.toNat + 2) data :=
  record_eq_cutOff _ _ _ _

theorem allocArray_eq_cutOff (elems : List Value) : allocArray elems =
    cutOff elems.length maxArrayLength (1 + Value.size * elems.length) fun o h =>
      (h.setByte o.toNat (UInt8.ofNat elems.length)).write (o.toNat + 1)
        (elems.flatMap Value.encode) :=
  record_eq_cutOff _ _ _ _

end Heap

namespace Store

variable {s s' : Store} {es : List Binding}

/-- The bytes of the links between records. -/
def LinkByte (es : List Binding) (j : Nat) : Prop :=
  ∃ e ∈ es, e.id.offset.toNat ≤ j ∧ j < e.id.offset.toNat + Ident.hashField

/-- Only names that have been met are linked, however far the heap is in use. -/
theorem Table.of_chain (ht : s.Table es) {n b : Nat} {id : Ident}
    (hid : id ∈ (s.withTop (s.heap.top + n)).chain b) : ∃ e ∈ es, e.id = id := by
  by_cases hb : b < s.buckets.size
  · have hchain : (s.withTop (s.heap.top + n)).heap.Chain (s.buckets.getD b 0)
        (members s.buckets.size es b) := (ht.chains b hb).congr fun _ _ => rfl
    have heq := hchain.chainFrom_eq
      (Nat.le_trans (ht.length_members b) (Nat.le_add_right s.heap.top n))
    rw [Store.chain, show (s.withTop (s.heap.top + n)).buckets = s.buckets from rfl,
      show (s.withTop (s.heap.top + n)).heap.top = s.heap.top + n from rfl, heq] at hid
    obtain ⟨e, he, rfl⟩ := List.mem_map.1 hid
    exact ⟨e, (List.mem_filter.1 he).1, rfl⟩
  · have hnone : (s.withTop (s.heap.top + n)).buckets.getD b 0 = 0 := by
      rw [show (s.withTop (s.heap.top + n)).buckets = s.buckets from rfl,
        Array.getD_eq_getD_getElem?, Array.getElem?_eq_none (Nat.le_of_not_lt hb)]
      rfl
    rw [Store.chain, hnone] at hid
    cases hfuel : (s.withTop (s.heap.top + n)).heap.top with
    | zero => simp [hfuel, Heap.chainFrom] at hid
    | succ fuel => simp [hfuel, Heap.chainFrom] at hid

/-- Room is taken at the top, and the last record of a bucket gets a link to it. -/
theorem Table.patched_link (ht : s.Table es) (n b : Nat) (id : Ident) :
    Heap.Patched (LinkByte es) s.heap ((s.withTop (s.heap.top + n)).link b id).heap := by
  have hroom : Heap.Patched (LinkByte es) s.heap (s.withTop (s.heap.top + n)).heap :=
    ⟨Nat.le_add_right _ _, rfl, fun _ _ => .inl rfl, fun _ _ => rfl⟩
  obtain hheap | ⟨last, hlast, hheap⟩ := (s.withTop (s.heap.top + n)).heap_link b id
  · rw [hheap]
    exact hroom
  · obtain ⟨e, he, rfl⟩ := ht.of_chain hlast
    have hstop := (ht.holds e he).stop_le
    simp only [Binding.stop, Ident.nameField] at hstop
    have hwrite := (Heap.sameOutside_setWord (s.withTop (s.heap.top + n)).heap
      e.id.offset.toNat id.offset).patched (Nat.le_trans (by omega) hroom.top)
    rw [hheap]
    exact hroom.trans (hwrite.mono fun j hj => ⟨e, he, hj⟩)

theorem patched_withRecord {h : Heap} {loose : Nat → Prop} {name : List UInt8} {id : Ident}
    (a : Heap.Patched loose h (s.link (s.bucketOf (Ident.hash name)) id).heap)
    (hlo : h.top ≤ id.offset.toNat)
    (hhi : id.offset.toNat + (Heap.identRecord name).length ≤ s.heap.top) :
    Heap.Patched loose h (s.withRecord name id).heap := by
  have hfits : id.offset.toNat + (Heap.identRecord name).length ≤
      (s.link (s.bucketOf (Ident.hash name)) id).heap.top := by rwa [top_link]
  simpa only [withRecord] using a.write hlo hfits

/-- A new name is written at the top; the last one of its bucket gets a link to it. -/
theorem Table.patched_intern (ht : s.Table es) {name : List UInt8} {id : Ident}
    (hi : Store.intern name s = .ok (id, true) s') :
    s'.heap.top = s.heap.top + (Ident.nameField + name.length) ∧
      Heap.Patched (LinkByte es) s.heap s'.heap := by
  cases interned_of_eq hi with
  | fresh hlen hf ho hsize hreach =>
      refine ⟨top_withRecord _ _ _, ?_⟩
      have hlink (b : Nat) := ht.patched_link (Ident.nameField + name.length) b id
      refine patched_withRecord (hlink _) (Nat.le_of_eq ho.symm) (Nat.le_of_eq ?_)
      rw [length_identRecord, ho]
      rfl

end Store

namespace Content

variable {s : Store} {es : List Binding} {c : Content}

/-- A new block on top of the arena. -/
structure Placed (s : Store) (es : List Binding) (c : Content) (o : UInt16) (s' : Store) :
    Prop where
  start : o.toNat = s.heap.top
  stop : s'.heap.top = s.heap.top + c.size
  fits : s'.heap.top ≤ s'.heap.bytes.size
  reach : s'.heap.top ≤ Heap.addressable
  patched : Heap.Patched (Store.LinkByte es) s.heap s'.heap
  reads : (⟨o, c⟩ : Parcel).Reads s'.heap

/-- What asking for a block can come to. -/
inductive Outcome (s : Store) (es : List Binding) (c : Content) : Prop
  | known {spelling : List UInt8} {o : UInt16} (hc : c = .name spelling) (he : ⟨spelling, ⟨o⟩⟩ ∈ es)
      (hp : c.place s = .ok (o, false) s) : Outcome s es c
  | fresh {o : UInt16} {s' : Store} (hlength : c.length ≤ c.most)
      (hroom : c.size ≤ s.heap.room ∧ s.heap.top < Heap.addressable)
      (hp : c.place s = .ok (o, true) s') (placed : Placed s es c o s') : Outcome s es c
  | long (hlength : c.most < c.length)
      (hp : c.place s = .error (.recordTooLarge c.length c.most) s) : Outcome s es c
  | full (hlength : c.length ≤ c.most)
      (hroom : ¬(c.size ≤ s.heap.room ∧ s.heap.top < Heap.addressable))
      (hp : c.place s = .error (.exhausted c.size s.heap.room) s) : Outcome s es c

theorem place_onHeap (act : Heap.Action UInt16) (s : Store) :
    (do return (← Store.onHeap id act, true) : EStateM Heap.Error Store (UInt16 × Bool)) s =
      match act s.heap with
      | .ok o heap => .ok (o, true) { s with heap }
      | .error e heap => .error e { s with heap } := by
  simp only [bind, EStateM.bind, Store.onHeap]
  cases act s.heap <;> rfl

theorem Placed.of_extends {o : UInt16} {heap : Heap} (ha : Heap.Extends s.heap heap o c.size)
    (hr : (⟨o, c⟩ : Parcel).Reads heap) : Placed s es c o { s with heap } :=
  ⟨ha.start, ha.stop, ha.size, ha.reach, ha.patched, hr⟩

theorem outcome_of_cutOff {act : Heap.Action UInt16} {fill : UInt16 → Heap → Heap}
    (hplace : c.place = do return (← Store.onHeap id act, true))
    (hact : act = Heap.cutOff c.length c.most c.size fill)
    (hmade : ∀ o heap, act s.heap = .ok o heap → Placed s es c o { s with heap }) :
    Outcome s es c := by
  have hp := congrFun hplace s
  have hcut := congrFun hact s.heap
  unfold Heap.cutOff at hcut
  rw [place_onHeap] at hp
  by_cases hlong : c.most < c.length
  · rw [if_pos hlong] at hcut
    rw [hcut] at hp
    exact .long hlong hp
  · rw [if_neg hlong] at hcut
    by_cases hfit : c.size ≤ s.heap.room ∧ s.heap.top < Heap.addressable
    · rw [if_pos hfit] at hcut
      have hplaced := hmade _ _ hcut
      rw [hcut] at hp
      exact .fresh (Nat.le_of_not_lt hlong) hfit hp hplaced
    · rw [if_neg hfit] at hcut
      rw [hcut] at hp
      exact .full (Nat.le_of_not_lt hlong) hfit hp

theorem place_name {spelling : List UInt8} {id : Ident} {isNew : Bool} {s' : Store}
    (hi : Store.intern spelling s = .ok (id, isNew) s') :
    (name spelling).place s = .ok (id.offset, isNew) s' := by
  simp only [place, bind, EStateM.bind, hi]
  rfl

theorem place_name_error {spelling : List UInt8} {e : Heap.Error} {s' : Store}
    (hi : Store.intern spelling s = .error e s') : (name spelling).place s = .error e s' := by
  simp only [place, bind, EStateM.bind, hi]

/-- Whatever is asked for, a block is found, a new one is made, or nothing changes. -/
theorem outcome (ht : s.Table es) (hzero : ∀ j, s.heap.top ≤ j → s.heap.byte j = 0) (c : Content) :
    Outcome s es c := by
  cases c with
  | plain n =>
      refine outcome_of_cutOff rfl (Heap.alloc_eq_cutOff n) ?_
      intro o heap ha
      obtain ⟨ho, rfl, hsize, hreach⟩ := Heap.alloc_ok ht.top_le_size ha
      refine .of_extends ⟨⟨Nat.le_add_right _ _, rfl, fun _ _ => rfl⟩, ho, rfl, hsize, hreach,
        fun _ _ => rfl⟩ fun k _ => ?_
      exact hzero _ (by simp only [ho]; omega)
  | text data =>
      refine outcome_of_cutOff rfl (Heap.allocStr_eq_cutOff data) ?_
      intro o heap ha
      obtain ⟨hext, hword, hdata⟩ := Heap.allocStr_made ha
      refine .of_extends hext ⟨Heap.strAt_eq_ok_iff.2 ?_, hdata⟩
      have := ht.reserved_le
      rw [hword, hext.start, hext.stop]
      omega
  | array elems =>
      refine outcome_of_cutOff rfl (Heap.allocArray_eq_cutOff elems) ?_
      intro o heap ha
      obtain ⟨hext, hlength, hread⟩ := Heap.allocArray_made ha
      have helems := Heap.arrayElems_of_valueAt hlength hread
      refine .of_extends hext ⟨helems, hlength, fun k => ?_⟩
      rw [Heap.arrayGet?_eq_getElem?, helems]
  | name spelling =>
      rcases ht.interns spelling with ⟨he, hi⟩ | ⟨-, hlen, hroom, hi, hid, -, htable, -⟩ |
        ⟨-, hlen, hi⟩ | ⟨-, hlen, hroom, hi⟩
      · exact .known rfl he (place_name hi)
      · obtain ⟨htop, hpatched⟩ := ht.patched_intern hi
        have hnew := htable.holds _ (List.mem_append_right _ List.mem_cons_self)
        refine .fresh hlen ⟨hroom, ?_⟩ (place_name hi) ⟨hid, htop, htable.top_le_size,
          htable.top_le, hpatched, Heap.identAt_eq_ok_iff.2 ⟨hnew.reserved_le, ?_⟩, hnew.name⟩
        · simp only [Ident.nameField] at hroom
          omega
        · have hstop := hnew.stop_le
          rw [hnew.length]
          simpa only [Binding.stop, Nat.add_assoc] using hstop
      · exact .long hlen (place_name_error hi)
      · refine .full hlen (fun hfit => ?_) (place_name_error hi)
        exact absurd hfit.1 (Nat.not_le.2 hroom)

end Content

/-! ### Requests in a row -/

def Request.content? : Request → Option Content
  | .intern name => some (.name name)
  | .alloc n => some (.plain n)
  | .allocStr data => some (.text data)
  | .allocArray elems => some (.array elems)
  | .setValue .. | .setSlot .. | .setArguments .. => none

namespace Session

variable {size count : Nat} {t : Session} {ps : List Parcel} {c : Content} {o : UInt16} {s : Store}

def parcel? (t : Session) (r : Request) : Option Parcel :=
  match r.content? with
  | none => none
  | some c =>
    match c.place t.store with
    | .ok (o, true) _ => some ⟨o, c⟩
    | _ => none

/-- The parcels that are handed out on the way, in this order. -/
def parcels (t : Session) : List Request → List Parcel
  | [] => []
  | r :: requests => (t.parcel? r).toList ++ (t.step r).parcels requests

/-- What a request makes of what the record of a name says. -/
def revise (t : Session) (r : Request) (id : Ident) (e : Entry) : Entry :=
  let aims (answer : Nat) : Bool := (t.answers[answer]?).any (·.id == id)
  match r with
  | .setValue answer v => if aims answer then { e with value := v } else e
  | .setSlot answer slot => if aims answer then { e with slot } else e
  | .setArguments answer n => if aims answer then { e with arguments := n } else e
  | _ => e

/-- The parcels fill the arena up to its top and read as they were stored. -/
structure Keeps (size : Nat) (t : Session) (ps : List Parcel) : Prop where
  capacity : t.store.heap.bytes.size = max size Heap.reserved
  reserved_le : Heap.reserved ≤ t.store.heap.top
  top_le : t.store.heap.top ≤ min (max size Heap.reserved) Heap.addressable
  within : ∀ p ∈ ps, Heap.reserved ≤ p.offset.toNat ∧ p.stop ≤ t.store.heap.top
  apart : ps.Pairwise fun p q => p.stop ≤ q.offset.toNat
  /-- Between the reserved bytes and the top there is nothing but parcels. -/
  filled : Heap.reserved + (ps.map fun p => p.content.size).sum = t.store.heap.top
  reads : ∀ p ∈ ps, p.Reads t.store.heap
  beyond : ∀ j, t.store.heap.top ≤ j → t.store.heap.byte j = 0
  /-- The record of every answer is one of the parcels. -/
  answered : ∀ a ∈ t.answers, ⟨a.id.offset, .name a.name⟩ ∈ ps

/-- What the next request does. -/
structure Serves (t : Session) (ps : List Parcel) : Prop where
  /-- A new block begins at the old top and ends at the new one. -/
  fresh (c : Content) (o : UInt16) (s : Store) : c.place t.store = .ok (o, true) s →
    o.toNat = t.store.heap.top ∧ s.heap.top = t.store.heap.top + c.size
  /-- Only a block that is there already is found again, and nothing changes. -/
  known (c : Content) (o : UInt16) (s : Store) : c.place t.store = .ok (o, false) s →
    s = t.store ∧ ⟨o, c⟩ ∈ ps
  refused (c : Content) (e : Heap.Error) (s : Store) : c.place t.store = .error e s →
    s = t.store ∧ (c.most < c.length ∧ e = .recordTooLarge c.length c.most ∨
      c.length ≤ c.most ∧ e = .exhausted c.size t.available)
  served (c : Content) : c.length ≤ c.most → c.size ≤ t.available →
    t.store.heap.top < Heap.addressable → ∃ r s, c.place t.store = .ok r s
  /-- Only a write that aims at a record changes what the record says. -/
  entries (r : Request) (a : Answer) : a ∈ t.answers →
    (t.step r).store.heap.entry a.id = t.revise r a.id (t.store.heap.entry a.id)

/-! ### What a request keeps -/

theorem Keeps.apart_of_mem (k : t.Keeps size ps) {p q : Parcel} (hp : p ∈ ps) (hq : q ∈ ps) :
    p = q ∨ p.stop ≤ q.offset.toNat ∨ q.stop ≤ p.offset.toNat := by
  have hup := k.apart.imp fun {p q} h =>
    (.inr (.inl h) : p = q ∨ p.stop ≤ q.offset.toNat ∨ q.stop ≤ p.offset.toNat)
  exact hup.forall_of_forall_of_flip (fun _ _ => .inl rfl)
    (k.apart.imp fun h => .inr (.inr h)) hp hq

/-- Loose bytes are those of the parcel that they are looked up in. -/
theorem Keeps.loose (k : t.Keeps size ps) {p q : Parcel} (hp : p ∈ ps) (hq : q ∈ ps) {j : Nat}
    (hlo : p.offset.toNat ≤ j) (hhi : j < p.stop) (hloose : q.Loose j) : p.Loose j := by
  obtain ⟨⟨spelling, hc⟩, hfields⟩ := hloose
  obtain rfl | hapart := k.apart_of_mem hp hq
  · exact ⟨⟨spelling, hc⟩, hfields⟩
  · simp only [Parcel.stop, hc, Content.size, Heap.InFields, Ident.nameField, Ident.hashField,
      Ident.valueField, Ident.lengthField] at hapart hfields hhi
    omega

theorem Keeps.reads_of_patched (k : t.Keeps size ps) {heap : Heap}
    (a : Heap.Patched (fun j => ∃ q ∈ ps, q.Loose j) t.store.heap heap) :
    ∀ p ∈ ps, p.Reads heap := by
  intro p hp
  refine (k.reads p hp).congr a.top fun j hlo hhi hfast => ?_
  obtain hsame | ⟨q, hq, hloose⟩ :=
    a.byte j (Nat.lt_of_lt_of_le hhi (k.within p hp).2)
  · exact hsame
  · exact absurd (k.loose hp hq hlo hhi hloose) hfast

/-- Links lie in parcels of names. -/
theorem Keeps.loose_of_link (k : t.Keeps size ps) {j : Nat} (hj : Store.LinkByte t.made j) :
    ∃ q ∈ ps, q.Loose j := by
  obtain ⟨e, he, hlink⟩ := hj
  obtain ⟨a, ha, rfl⟩ := made_subset he
  exact ⟨_, k.answered a ha, ⟨_, rfl⟩, .inl hlink⟩

theorem Keeps.placed (k : t.Keeps size ps) (hp : c.Placed t.store t.made o s)
    {answers : List Answer}
    (hanswers : ∀ a ∈ answers, a ∈ t.answers ∨ (⟨a.id.offset, .name a.name⟩ : Parcel) = ⟨o, c⟩) :
    (⟨s, answers⟩ : Session).Keeps size (ps ++ [⟨o, c⟩]) := by
  have hpatched := hp.patched.mono fun j => k.loose_of_link
  have hcapacity : s.heap.bytes.size = max size Heap.reserved := hpatched.size.trans k.capacity
  refine
    { capacity := hcapacity, reserved_le := Nat.le_trans k.reserved_le hpatched.top,
      top_le := Nat.le_min.2 ⟨hcapacity ▸ hp.fits, hp.reach⟩, within := ?_, apart := ?_,
      filled := ?_, reads := ?_, beyond := ?_, answered := ?_ }
  · intro p hmem
    obtain hmem | rfl : p ∈ ps ∨ p = ⟨o, c⟩ := by simpa using hmem
    · exact ⟨(k.within p hmem).1, Nat.le_trans (k.within p hmem).2 hpatched.top⟩
    · exact ⟨hp.start ▸ k.reserved_le, Nat.le_of_eq (by rw [Parcel.stop, hp.start, hp.stop])⟩
  · refine List.pairwise_append.2 ⟨k.apart, List.pairwise_singleton _ _, fun p hmem q hq => ?_⟩
    obtain rfl := List.mem_singleton.1 hq
    exact Nat.le_trans (k.within p hmem).2 (Nat.le_of_eq hp.start.symm)
  · rw [List.map_append, List.sum_append, ← Nat.add_assoc, k.filled, hp.stop]
    rfl
  · intro p hmem
    obtain hmem | rfl : p ∈ ps ∨ p = ⟨o, c⟩ := by simpa using hmem
    · exact k.reads_of_patched hpatched p hmem
    · exact hp.reads
  · intro j hj
    rw [hpatched.beyond j hj]
    exact k.beyond j (Nat.le_trans hpatched.top hj)
  · intro a ha
    obtain ha | heq := hanswers a ha
    · exact List.mem_append_left _ (k.answered a ha)
    · rw [heq]
      exact List.mem_append_right _ List.mem_cons_self

theorem Keeps.written (k : t.Keeps size ps) {a : Answer} (ha : a ∈ t.answers) {heap : Heap}
    {lo hi : Nat} (hs : Heap.SameOutside lo hi t.store.heap heap)
    (hlo : a.id.offset.toNat + Ident.valueField ≤ lo)
    (hhi : hi ≤ a.id.offset.toNat + Ident.lengthField) :
    ({ t with store := { t.store with heap } } : Session).Keeps size ps := by
  have hmem := k.answered a ha
  have hstop := (k.within _ hmem).2
  simp only [Parcel.stop, Content.size, Ident.nameField, Ident.lengthField] at hstop hhi
  have hpatched : Heap.Patched (fun j => ∃ q ∈ ps, q.Loose j) t.store.heap heap :=
    (hs.patched (by omega)).mono fun j hj =>
      ⟨_, hmem, ⟨_, rfl⟩, .inr ⟨Nat.le_trans hlo hj.1, Nat.lt_of_lt_of_le hj.2 hhi⟩⟩
  refine
    { capacity := hs.size.trans k.capacity, reserved_le := hs.top ▸ k.reserved_le,
      top_le := hs.top ▸ k.top_le, within := fun p hp => hs.top ▸ k.within p hp, apart := k.apart,
      filled := k.filled.trans hs.top.symm, reads := k.reads_of_patched hpatched,
      beyond := fun j hj => ?_, answered := k.answered }
  rw [hpatched.beyond j hj]
  exact k.beyond j (Nat.le_trans hpatched.top hj)

/-- Fields of the record of an answer are overwritten, if there is one of this number. -/
theorem Keeps.write (k : t.Keeps size ps) (answer : Nat) {f : Heap → Ident → Heap}
    (hf : WritesField f) : (t.write answer f).Keeps size ps := by
  simp only [Session.write]
  split
  · rename_i a ha
    obtain ⟨lo, hi, hs, hlo, hhi⟩ := hf t.store.heap a.id
    exact k.written (List.mem_of_getElem? ha) hs hlo hhi
  · exact k

theorem Keeps.again (k : t.Keeps size ps) {answers : List Answer}
    (h : ∀ a ∈ answers, ⟨a.id.offset, .name a.name⟩ ∈ ps) :
    (⟨t.store, answers⟩ : Session).Keeps size ps :=
  { k with answered := h }

theorem Keeps.mem_of_made (k : t.Keeps size ps) {spelling : List UInt8}
    (he : ⟨spelling, ⟨o⟩⟩ ∈ t.made) : ⟨o, .name spelling⟩ ∈ ps := by
  obtain ⟨a, ha, heq⟩ := made_subset he
  have hname : a.name = spelling := congrArg Binding.name heq
  have hid : a.id = ⟨o⟩ := congrArg Binding.id heq
  have hmem := k.answered a ha
  rwa [hname, hid] at hmem

theorem cut_of_place {act : Heap.Action UInt16}
    (hc : c.place = do return (← Store.onHeap id act, true)) {s : Store} :
    (∀ x, c.place t.store = .ok x s → t.cut act = { t with store := s }) ∧
      ∀ e, c.place t.store = .error e s → t.cut act = { t with store := s } := by
  rw [hc, Content.place_onHeap]
  simp only [Session.cut, Store.onHeap]
  rcases act t.store.heap with ⟨o, heap⟩ | ⟨e, heap⟩ <;> refine ⟨?_, ?_⟩ <;> rintro _ ⟨⟩ <;> rfl

theorem step_of_place {r : Request} (hr : r.content? = some c) :
    (∀ o isNew s, c.place t.store = .ok (o, isNew) s → (t.step r).store = s ∧
      ∀ a ∈ (t.step r).answers,
        a ∈ t.answers ∨ (⟨a.id.offset, .name a.name⟩ : Parcel) = ⟨o, c⟩) ∧
    ∀ e s, c.place t.store = .error e s → t.step r = { t with store := s } := by
  have hcut {act : Heap.Action UInt16} (hc : c.place = do return (← Store.onHeap id act, true))
      (hstep : t.step r = t.cut act) :
      (∀ o isNew s, c.place t.store = .ok (o, isNew) s → (t.step r).store = s ∧
        ∀ a ∈ (t.step r).answers,
          a ∈ t.answers ∨ (⟨a.id.offset, .name a.name⟩ : Parcel) = ⟨o, c⟩) ∧
      ∀ e s, c.place t.store = .error e s → t.step r = { t with store := s } := by
    refine ⟨fun o isNew s hp => ?_, fun e s hp => hstep.trans ((cut_of_place hc).2 e hp)⟩
    rw [hstep, (cut_of_place hc).1 _ hp]
    exact ⟨rfl, fun a ha => .inl ha⟩
  cases r with
  | intern spelling =>
      obtain rfl : Content.name spelling = c := Option.some.inj hr
      simp only [Session.step]
      rcases hi : Store.intern spelling t.store with ⟨⟨id, isNew⟩, s'⟩ | ⟨e, s'⟩
      · rw [Content.place_name hi]
        refine ⟨?_, fun _ _ herror => by cases herror⟩
        rintro o new s ⟨⟩
        refine ⟨rfl, fun a ha => ?_⟩
        obtain ha | rfl : a ∈ t.answers ∨ a = ⟨⟨spelling, id⟩, isNew⟩ := by simpa using ha
        · exact .inl ha
        · exact .inr rfl
      · rw [Content.place_name_error hi]
        refine ⟨fun _ _ _ hok => (by cases hok), ?_⟩
        rintro e s ⟨⟩
        rfl
  | alloc n =>
      obtain rfl : Content.plain n = c := Option.some.inj hr
      exact hcut rfl rfl
  | allocStr data =>
      obtain rfl : Content.text data = c := Option.some.inj hr
      exact hcut rfl rfl
  | allocArray elems =>
      obtain rfl : Content.array elems = c := Option.some.inj hr
      exact hcut rfl rfl
  | setValue | setSlot | setArguments => cases hr

theorem Keeps.step (k : t.Keeps size ps) (h : t.Ok count) (r : Request) :
    (t.step r).Keeps size (ps ++ (t.parcel? r).toList) := by
  unfold parcel?
  cases hr : r.content? with
  | some c =>
      obtain ⟨hok, herror⟩ := step_of_place (t := t) hr
      simp only
      cases Content.outcome h.table k.beyond c with
      | known hc he hp =>
          obtain ⟨hstore, hanswers⟩ := hok _ _ _ hp
          rw [hp, Option.toList_none, List.append_nil]
          have hanswered : ∀ a ∈ (t.step r).answers, ⟨a.id.offset, .name a.name⟩ ∈ ps := by
            intro a ha
            obtain ha | heq := hanswers a ha
            · exact k.answered a ha
            · rw [heq, hc]
              exact k.mem_of_made he
          have hagain := k.again hanswered
          rwa [← hstore] at hagain
      | fresh _ _ hp placed =>
          obtain ⟨rfl, hanswers⟩ := hok _ _ _ hp
          rw [hp]
          exact k.placed placed hanswers
      | long _ hp =>
          rw [herror _ _ hp, hp, Option.toList_none, List.append_nil]
          exact k
      | full _ _ hp =>
          rw [herror _ _ hp, hp, Option.toList_none, List.append_nil]
          exact k
  | none =>
      simp only [Option.toList_none, List.append_nil]
      cases r with
      | intern | alloc | allocStr | allocArray => cases hr
      | setValue answer v => exact k.write answer (writesField_value v)
      | setSlot answer slot => exact k.write answer (writesField_slot slot)
      | setArguments answer n => exact k.write answer (writesField_arguments n)

theorem Keeps.requests (k : t.Keeps size ps) (h : t.Ok count) (requests : List Request) :
    (requests.foldl Session.step t).Keeps size (ps ++ t.parcels requests) ∧
      (requests.foldl Session.step t).Ok count := by
  induction requests generalizing t ps with
  | nil => exact ⟨(List.append_nil ps).symm ▸ k, h⟩
  | cons r requests ih =>
      have := ih (k.step h r) (h.step r)
      rwa [List.append_assoc] at this

theorem keeps_ofSize (size count : Nat) : (⟨.ofSize size count, []⟩ : Session).Keeps size [] where
  capacity := Array.size_replicate
  reserved_le := Nat.le_refl _
  top_le := Nat.le_min.2 ⟨Nat.le_max_right _ _, show 2 ≤ 65536 by decide⟩
  within := nofun
  apart := .nil
  filled := rfl
  reads := nofun
  beyond j _ := by
    simp only [Store.ofSize, Heap.ofSize, Heap.byte, Array.getD_eq_getD_getElem?,
      Array.getElem?_replicate]
    split <;> rfl
  answered := nofun

/-! ### What a request does -/

/-- Links are no part of what a record says. -/
theorem entry_of_links (h : t.Ok count) {a : Answer} (ha : a ∈ t.answers) {heap : Heap}
    (hp : Heap.Patched (Store.LinkByte t.made) t.store.heap heap) :
    heap.entry a.id = t.store.heap.entry a.id := by
  have hmade := h.answered a ha
  have hstop := (h.table.holds _ hmade).stop_le
  simp only [Binding.stop, Ident.nameField] at hstop
  refine Heap.entry_congr fun j hlo hhi => ?_
  simp only [Ident.valueField, Ident.lengthField] at hlo hhi
  obtain hsame | ⟨e, he, hlink⟩ := hp.byte j (by omega)
  · exact hsame
  · simp only [Ident.hashField] at hlink
    obtain rfl | hapart := h.table.apart hmade he
    · omega
    · simp only [Binding.stop, Ident.nameField] at hapart
      omega

theorem entry_of_write (h : t.Ok count) {a : Answer} (ha : a ∈ t.answers) (answer : Nat)
    {f : Heap → Ident → Heap} {g : Entry → Entry}
    (hf : WritesField f)
    (hg : ∀ (heap : Heap) (id : Ident), id.offset.toNat + Ident.nameField ≤ heap.bytes.size →
      (f heap id).entry id = g (heap.entry id)) :
    (t.write answer f).store.heap.entry a.id =
      if (t.answers[answer]?).any (·.id == a.id) then g (t.store.heap.entry a.id)
      else t.store.heap.entry a.id := by
  have hmade := h.answered a ha
  have hstop := Nat.le_trans (h.table.holds _ hmade).stop_le h.table.top_le_size
  simp only [Binding.stop] at hstop
  unfold Session.write
  cases hb : t.answers[answer]? with
  | none => rfl
  | some b =>
      simp only [Option.any_some, beq_iff_eq]
      split
      · rename_i heq
        rw [heq]
        exact hg _ _ (by omega)
      · rename_i hne
        obtain ⟨lo, hi, hs, hlo, hhi⟩ := hf t.store.heap b.id
        have hapart := h.table.apart (h.answered b (List.mem_of_getElem? hb)) hmade
        refine hs.entry ?_
        obtain heq | hapart := hapart
        · exact absurd (congrArg Binding.id heq) hne
        · simp only [Binding.stop, Ident.nameField, Ident.valueField, Ident.lengthField] at *
          omega

theorem Keeps.entry_step (k : t.Keeps size ps) (h : t.Ok count) (r : Request) {a : Answer}
    (ha : a ∈ t.answers) :
    (t.step r).store.heap.entry a.id = t.revise r a.id (t.store.heap.entry a.id) := by
  cases hr : r.content? with
  | some c =>
      have hrevise : t.revise r a.id (t.store.heap.entry a.id) = t.store.heap.entry a.id := by
        cases r with
        | setValue | setSlot | setArguments => cases hr
        | _ => rfl
      obtain ⟨hok, herror⟩ := step_of_place (t := t) hr
      rw [hrevise]
      cases Content.outcome h.table k.beyond c with
      | known _ _ hp => rw [(hok _ _ _ hp).1]
      | fresh _ _ hp placed =>
          rw [(hok _ _ _ hp).1]
          exact entry_of_links h ha placed.patched
      | long _ hp | full _ _ hp => rw [herror _ _ hp]
  | none =>
      cases r with
      | intern | alloc | allocStr | allocArray => cases hr
      | setValue answer v =>
          exact entry_of_write h ha answer (g := fun e => { e with value := v })
            (writesField_value v) fun _ _ hs => Heap.entry_setIdentValue_self hs v
      | setSlot answer slot =>
          exact entry_of_write h ha answer (g := fun e => { e with slot })
            (writesField_slot slot) fun _ _ hs => Heap.entry_setIdentSlot_self hs slot
      | setArguments answer n =>
          exact entry_of_write h ha answer (g := fun e => { e with arguments := n })
            (writesField_arguments n) fun _ _ hs => Heap.entry_setIdentArguments_self hs n

theorem Keeps.serves (k : t.Keeps size ps) (h : t.Ok count) : t.Serves ps where
  fresh c o s hp := by
    cases Content.outcome h.table k.beyond c with
    | fresh _ _ hp' placed =>
        cases hp.symm.trans hp'
        exact ⟨placed.start, placed.stop⟩
    | known _ _ hp' | long _ hp' | full _ _ hp' => cases hp.symm.trans hp'
  known c o s hp := by
    cases Content.outcome h.table k.beyond c with
    | known hc he hp' =>
        cases hp.symm.trans hp'
        exact ⟨rfl, hc ▸ k.mem_of_made he⟩
    | fresh _ _ hp' | long _ hp' | full _ _ hp' => cases hp.symm.trans hp'
  refused c e s hp := by
    cases Content.outcome h.table k.beyond c with
    | known _ _ hp' | fresh _ _ hp' => cases hp.symm.trans hp'
    | long hlong hp' =>
        cases hp.symm.trans hp'
        exact ⟨rfl, .inl ⟨hlong, rfl⟩⟩
    | full hlength _ hp' =>
        cases hp.symm.trans hp'
        exact ⟨rfl, .inr ⟨hlength, rfl⟩⟩
  served c hlength hroom htop := by
    cases Content.outcome h.table k.beyond c with
    | known _ _ hp' => exact ⟨_, _, hp'⟩
    | fresh _ _ hp' => exact ⟨_, _, hp'⟩
    | long hlong => exact absurd hlong (Nat.not_lt.2 hlength)
    | full _ hfull => exact absurd ⟨hroom, htop⟩ hfull
  entries r a ha := k.entry_step h r ha

/-- Whatever is requested from an arena of any size, its blocks lie one behind the other between
the reserved bytes and the top, each of them reads as it was stored, and the rest is zero. The
next request takes its block from the top, finds one that is there, or changes nothing. -/
theorem records_kept (size k : Nat) (requests : List Request) :
    (run size (2 ^ k) requests).Keeps size (parcels ⟨.ofSize size (2 ^ k), []⟩ requests) ∧
      (run size (2 ^ k) requests).Serves (parcels ⟨.ofSize size (2 ^ k), []⟩ requests) := by
  obtain ⟨hkeeps, hok⟩ := (keeps_ofSize size (2 ^ k)).requests
    (ok_run size (Nat.two_pow_pos k) []) requests
  exact ⟨hkeeps, hkeeps.serves hok⟩

/-- The third parcel fills the arena exactly, and there is no room for a fourth one. -/
example : (parcels ⟨.ofSize 20 1, []⟩ [.allocStr [1, 2], .alloc 3, .intern [97], .setSlot 0 7,
      .alloc 1]).map (fun p => (p.offset.toNat, p.stop)) = [(2, 6), (6, 9), (9, 20)] := by
  decide

end Session

end CellScript
