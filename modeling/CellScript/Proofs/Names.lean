import CellScript.Proofs.Records

/-!
The records of names.

Two records of names lie apart, so a field of one is not disturbed by what is
written into another one. The three fields that matter to a program are read
together as an `Entry`, and every operation of the compiler on the table of names
is described by what it does to the entries.

Interning finds a record by following links through the arena. That only records
of names are ever found this way, and that all of them are, is an invariant of its
own (`Store.Ok`): every link and every bucket is empty or leads to a record further
up, and every record is led to from some bucket.
-/

namespace CellScript

/-- What the record of a name says. -/
structure Entry where
  value : Value
  slot : UInt8
  arguments : UInt8
  deriving Repr, DecidableEq

/-- The entry of a name that has only been met so far. -/
def Entry.fresh : Entry := ⟨.unset, Ident.noSlot, 0⟩

namespace Heap

def entry (h : Heap) (id : Ident) : Entry := ⟨h.identValue id, h.identSlot id, h.identArguments id⟩

theorem value_entry (h : Heap) (id : Ident) : (h.entry id).value = h.identValue id := rfl

theorem Grows.entry {h h' : Heap} (a : Grows h h') {id : Ident}
    (hid : id.offset.toNat + Ident.nameField ≤ h.top) : h'.entry id = h.entry id := by
  simp only [Ident.nameField] at hid
  simp only [Heap.entry, identValue, identSlot, identArguments, Ident.valueField, Ident.slotField,
    Ident.argumentsField]
  rw [a.valueAt (by omega), a.byte _ (by omega), a.byte _ (by omega)]

theorem SameOutside.entry {lo hi : Nat} {h h' : Heap} (a : SameOutside lo hi h h') {id : Ident}
    (hid : id.offset.toNat + Ident.nameField ≤ lo ∨ hi ≤ id.offset.toNat) :
    h'.entry id = h.entry id := by
  simp only [Ident.nameField] at hid
  simp only [Heap.entry, identValue, identSlot, identArguments, Ident.valueField, Ident.slotField,
    Ident.argumentsField]
  rw [a.valueAt (by omega), a.byte _ (by omega), a.byte _ (by omega)]

theorem sameOutside_setIdentValue (h : Heap) (id : Ident) (v : Value) :
    SameOutside (id.offset.toNat + 4) (id.offset.toNat + 7) h (h.setIdentValue id v) :=
  sameOutside_write h (id.offset.toNat + 4) v.encode

theorem sameOutside_setIdentSlot (h : Heap) (id : Ident) (b : UInt8) :
    SameOutside (id.offset.toNat + 7) (id.offset.toNat + 8) h (h.setIdentSlot id b) :=
  sameOutside_setByte h (id.offset.toNat + 7) b

theorem sameOutside_setIdentArguments (h : Heap) (id : Ident) (b : UInt8) :
    SameOutside (id.offset.toNat + 8) (id.offset.toNat + 9) h (h.setIdentArguments id b) :=
  sameOutside_setByte h (id.offset.toNat + 8) b

section

variable {h : Heap} {id : Ident} (hs : id.offset.toNat + Ident.nameField ≤ h.bytes.size)

include hs

theorem entry_setIdentValue_self (v : Value) :
    (h.setIdentValue id v).entry id = { h.entry id with value := v } := by
  simp only [Ident.nameField] at hs
  have a := sameOutside_setIdentValue h id v
  have hvalue : (h.setIdentValue id v).identValue id = v :=
    valueAt_write (i := id.offset.toNat + 4) (by omega)
  simp only [entry, hvalue, Entry.mk.injEq, true_and]
  exact ⟨a.byte _ (.inr (Nat.le_refl _)), a.byte _ (.inr (Nat.le_succ _))⟩

theorem entry_setIdentSlot_self (b : UInt8) :
    (h.setIdentSlot id b).entry id = { h.entry id with slot := b } := by
  simp only [Ident.nameField] at hs
  have a := sameOutside_setIdentSlot h id b
  have hslot : (h.setIdentSlot id b).identSlot id = b := by
    simp only [identSlot, setIdentSlot, Ident.slotField]
    rw [byte_setByte, if_pos ⟨rfl, by omega⟩]
  simp only [entry, hslot, Entry.mk.injEq, true_and]
  exact ⟨a.valueAt (.inl (Nat.le_refl _)), a.byte _ (.inr (Nat.le_refl _))⟩

theorem entry_setIdentArguments_self (b : UInt8) :
    (h.setIdentArguments id b).entry id = { h.entry id with arguments := b } := by
  simp only [Ident.nameField] at hs
  have a := sameOutside_setIdentArguments h id b
  have harguments : (h.setIdentArguments id b).identArguments id = b := by
    simp only [identArguments, setIdentArguments, Ident.argumentsField]
    rw [byte_setByte, if_pos ⟨rfl, by omega⟩]
  simp only [entry, harguments, Entry.mk.injEq, and_true]
  exact ⟨a.valueAt (.inl (Nat.le_succ _)), a.byte _ (.inl (Nat.lt_succ_self _))⟩

end

end Heap

namespace Ledger

variable {h : Heap} {rs : List Record} {id id' : Ident}

theorem ident_within (l : Ledger h rs) (hid : HasIdent rs id) :
    Heap.reserved ≤ id.offset.toNat ∧ id.offset.toNat + Ident.nameField ≤ h.top := by
  obtain ⟨n, hn⟩ := hid
  have := l.within _ hn
  simp only [Record.stop, Record.size] at this
  omega

theorem ident_apart (l : Ledger h rs) (hid : HasIdent rs id) (hid' : HasIdent rs id')
    (hne : id' ≠ id) : id.offset.toNat + Ident.nameField ≤ id'.offset.toNat ∨
      id'.offset.toNat + Ident.nameField ≤ id.offset.toNat := by
  obtain ⟨n, hn⟩ := hid
  obtain ⟨n', hn'⟩ := hid'
  obtain heq | hd := l.apart _ hn _ hn'
  · refine absurd ?_ hne
    have hstart : id.offset.toNat = id'.offset.toNat := congrArg Record.start heq
    obtain ⟨o⟩ := id
    obtain ⟨o'⟩ := id'
    exact congrArg Ident.mk (UInt16.toNat_inj.1 hstart.symm)
  · simp only [Record.stop, Record.size] at hd
    omega

/-! ### Writing into a record -/

/-- Bytes of one record are overwritten: only its own entry changes. -/
theorem entry_of_field (l : Ledger h rs) (hid : HasIdent rs id) (hid' : HasIdent rs id')
    {h' : Heap} {lo hi : Nat} (a : Heap.SameOutside lo hi h h') (hlo : id.offset.toNat ≤ lo)
    (hhi : hi ≤ id.offset.toNat + Ident.nameField) {e : Entry} (he : h'.entry id = e) :
    h'.entry id' = if id' = id then e else h.entry id' := by
  by_cases hne : id' = id
  · rw [if_pos hne, hne, he]
  · rw [if_neg hne]
    have := l.ident_apart hid hid' hne
    exact a.entry (by omega)

theorem setField_ident (l : Ledger h rs) (hid : HasIdent rs id) {h' : Heap} {lo hi : Nat}
    (a : Heap.SameOutside lo hi h h') (hlo : id.offset.toNat ≤ lo)
    (hhi : hi ≤ id.offset.toNat + Ident.lengthField) : Ledger h' rs := by
  obtain ⟨n, hn⟩ := hid
  exact l.setField a hn rfl hlo hhi

theorem setIdentValue (l : Ledger h rs) (hid : HasIdent rs id) (v : Value) :
    Ledger (h.setIdentValue id v) rs :=
  l.setField_ident hid (Heap.sameOutside_setIdentValue h id v) (Nat.le_add_right _ _)
    (Nat.add_le_add_left (by decide) _)

theorem setIdentSlot (l : Ledger h rs) (hid : HasIdent rs id) (b : UInt8) :
    Ledger (h.setIdentSlot id b) rs :=
  l.setField_ident hid (Heap.sameOutside_setIdentSlot h id b) (Nat.le_add_right _ _)
    (Nat.add_le_add_left (by decide) _)

theorem entry_setIdentValue (l : Ledger h rs) (hid : HasIdent rs id) (hid' : HasIdent rs id')
    (v : Value) : (h.setIdentValue id v).entry id' =
      if id' = id then { h.entry id with value := v } else h.entry id' := by
  refine l.entry_of_field hid hid' (Heap.sameOutside_setIdentValue h id v) (Nat.le_add_right _ _)
    (Nat.add_le_add_left (by decide) _) (Heap.entry_setIdentValue_self ?_ v)
  exact Nat.le_trans (l.ident_within hid).2 l.top_le_size

theorem identValue_setIdentValue (l : Ledger h rs) (hid : HasIdent rs id) (hid' : HasIdent rs id')
    (v : Value) :
    (h.setIdentValue id v).identValue id' = if id' = id then v else h.identValue id' := by
  rw [← Heap.value_entry, l.entry_setIdentValue hid hid' v]
  split <;> rfl

theorem entry_setIdentSlot (l : Ledger h rs) (hid : HasIdent rs id) (hid' : HasIdent rs id')
    (b : UInt8) : (h.setIdentSlot id b).entry id' =
      if id' = id then { h.entry id with slot := b } else h.entry id' := by
  refine l.entry_of_field hid hid' (Heap.sameOutside_setIdentSlot h id b) (Nat.le_add_right _ _)
    (Nat.add_le_add_left (by decide) _) (Heap.entry_setIdentSlot_self ?_ b)
  exact Nat.le_trans (l.ident_within hid).2 l.top_le_size

theorem entry_setIdentArguments (l : Ledger h rs) (hid : HasIdent rs id) (hid' : HasIdent rs id')
    (b : UInt8) : (h.setIdentArguments id b).entry id' =
      if id' = id then { h.entry id with arguments := b } else h.entry id' := by
  refine l.entry_of_field hid hid' (Heap.sameOutside_setIdentArguments h id b)
    (Nat.le_add_right _ _) (Nat.add_le_add_left (by decide) _)
    (Heap.entry_setIdentArguments_self ?_ b)
  exact Nat.le_trans (l.ident_within hid).2 l.top_le_size

end Ledger

/-! ### The table of names -/

/-- Following links from an offset leads to the record. -/
inductive Heap.Leads (h : Heap) (id : Ident) : UInt16 → Prop
  | here : id.offset ≠ 0 → Leads h id id.offset
  | next {o : UInt16} : o ≠ 0 → Leads h id (h.word o.toNat) → Leads h id o

/-- An empty link leads nowhere. -/
theorem Heap.Leads.ne_zero {h : Heap} {id : Ident} {o : UInt16} (hl : h.Leads id o) : o ≠ 0 := by
  cases hl with
  | here hne => exact hne
  | next hne => exact hne

/-- One link more. -/
theorem Heap.Leads.snoc {h : Heap} {last id : Ident} {o : UInt16} (hl : h.Leads last o)
    (hw : h.word last.offset.toNat = id.offset) (hid : id.offset ≠ 0) : h.Leads id o := by
  induction hl with
  | here hne =>
      refine .next hne ?_
      rw [hw]
      exact .here hid
  | next hne _ ih => exact .next hne ih

/-- Buckets and links are empty or lead to records of names, and all of them are led to. A store
has no arrays. -/
structure Store.Ok (s : Store) (rs : List Record) : Prop where
  ledger : Ledger s.heap rs
  kinds : ∀ r ∈ rs, r.kind ≠ .array
  buckets : ∀ b, s.buckets.getD b 0 = 0 ∨ HasIdent rs ⟨s.buckets.getD b 0⟩
  /-- Links lead upwards. -/
  links : ∀ id, HasIdent rs id → s.heap.word id.offset.toNat = 0 ∨
    HasIdent rs ⟨s.heap.word id.offset.toNat⟩ ∧
      id.offset.toNat < (s.heap.word id.offset.toNat).toNat
  bucketed : 0 < s.buckets.size
  listed : ∀ id, HasIdent rs id → ∃ b < s.buckets.size, s.heap.Leads id (s.buckets.getD b 0)

namespace Store

variable {s : Store} {rs : List Record}

theorem ok_ofSize (n : Nat) {buckets : Nat} (hb : 0 < buckets) : Ok (.ofSize n buckets) [] where
  ledger := Ledger.ofSize n
  kinds := by simp
  buckets b := by
    left
    simp only [ofSize, Array.getD_eq_getD_getElem?, Array.getElem?_replicate]
    split <;> rfl
  links id hid := by
    obtain ⟨n, hn⟩ := hid
    simp at hn
  bucketed := by simpa [ofSize] using hb
  listed id hid := by
    obtain ⟨n, hn⟩ := hid
    simp at hn

/-- Where a record is led to from, links may be added. -/
theorem Ok.leads {h : Heap} (hs : s.Ok rs)
    (hw : ∀ id, HasIdent rs id → s.heap.word id.offset.toNat ≠ 0 →
      h.word id.offset.toNat = s.heap.word id.offset.toNat)
    {id : Ident} {o : UInt16} (hl : s.heap.Leads id o) (ho : o = 0 ∨ HasIdent rs ⟨o⟩) :
    h.Leads id o := by
  induction hl with
  | here hne => exact .here hne
  | @next o hne hl ih =>
      have hid := ho.resolve_left hne
      obtain hz | ⟨hnext, -⟩ := hs.links _ hid
      · exact absurd hz hl.ne_zero
      · refine .next hne ?_
        rw [show h.word o.toNat = s.heap.word o.toNat from hw _ hid hl.ne_zero]
        exact ih (.inr hnext)

/-- A store whose heap has another top. -/
def withTop (s : Store) (t : Nat) : Store := { s with heap := { s.heap with top := t } }

/-- Only records of names are found by following links. How far the heap is in use does not
matter. -/
theorem Ok.chainFrom (h : s.Ok rs) {t fuel : Nat} {offset : UInt16}
    (ho : offset = 0 ∨ HasIdent rs ⟨offset⟩) :
    ∀ id ∈ (s.withTop t).heap.chainFrom fuel offset, HasIdent rs id := by
  induction fuel generalizing offset with
  | zero => simp [Heap.chainFrom]
  | succ fuel ih =>
      intro id hid
      simp only [Heap.chainFrom] at hid
      split at hid
      · simp at hid
      · rename_i hne
        have hoffset := ho.resolve_left hne
        obtain rfl | hid := List.mem_cons.1 hid
        · exact hoffset
        · exact ih ((h.links _ hoffset).imp_right And.left) id hid

/-- What a record is led to from finds it: links lead upwards, so that the size of the heap is
enough of them. -/
theorem Ok.mem_chainFrom (h : s.Ok rs) {t fuel : Nat} {id : Ident} {offset : UInt16}
    (hl : s.heap.Leads id offset) (ho : offset = 0 ∨ HasIdent rs ⟨offset⟩)
    (hfuel : s.heap.top ≤ offset.toNat + fuel) :
    id ∈ (s.withTop t).heap.chainFrom fuel offset := by
  induction hl generalizing fuel with
  | here hne =>
      have := (h.ledger.ident_within (ho.resolve_left hne)).2
      simp only [Ident.nameField] at this
      obtain ⟨fuel, rfl⟩ : ∃ k, fuel = k + 1 := Nat.exists_eq_add_one.2 (by omega)
      rw [Heap.chainFrom, if_neg hne]
      exact List.mem_cons_self ..
  | @next o hne hl ih =>
      have hid := ho.resolve_left hne
      have := (h.ledger.ident_within hid).2
      simp only [Ident.nameField] at this
      obtain ⟨fuel, rfl⟩ : ∃ k, fuel = k + 1 := Nat.exists_eq_add_one.2 (by omega)
      rw [Heap.chainFrom, if_neg hne]
      refine List.mem_cons_of_mem _ (ih ((h.links _ hid).imp_right And.left) ?_)
      obtain hz | ⟨-, hlt⟩ := h.links _ hid
      · exact absurd hz hl.ne_zero
      · simp only at hlt
        omega

/-- The last record that is found has no link behind it. -/
theorem Ok.getLast?_chainFrom (h : s.Ok rs) {t fuel : Nat} {last : Ident} {offset : UInt16}
    (hlast : ((s.withTop t).heap.chainFrom fuel offset).getLast? = some last)
    (ho : offset = 0 ∨ HasIdent rs ⟨offset⟩) (hfuel : s.heap.top ≤ offset.toNat + fuel) :
    s.heap.word last.offset.toNat = 0 ∧ s.heap.Leads last offset := by
  induction fuel generalizing offset with
  | zero => simp [Heap.chainFrom] at hlast
  | succ fuel ih =>
      rw [Heap.chainFrom] at hlast
      split at hlast
      · simp at hlast
      · rename_i hne
        have hid := ho.resolve_left hne
        obtain hz | ⟨hnext, hlt⟩ := h.links _ hid
        · rw [show (s.withTop t).heap.word offset.toNat = 0 from hz] at hlast
          have hnil : (s.withTop t).heap.chainFrom fuel 0 = [] := by
            cases fuel <;> simp [Heap.chainFrom]
          rw [hnil, List.getLast?_singleton] at hlast
          cases hlast
          exact ⟨hz, .here hne⟩
        · simp only at hlt
          have hmore : (s.withTop t).heap.chainFrom fuel (s.heap.word offset.toNat) ≠ [] := by
            have hw := (h.ledger.ident_within hnext).2
            simp only [Ident.nameField] at hw
            have hne' : s.heap.word offset.toNat ≠ 0 := fun hz => by
              rw [hz] at hlt
              exact absurd hlt (Nat.not_lt_zero _)
            exact List.ne_nil_of_mem (h.mem_chainFrom (.here hne') (.inr hnext) (by omega))
          obtain ⟨x, xs, hx⟩ := List.exists_cons_of_ne_nil hmore
          rw [show (s.withTop t).heap.word offset.toNat = s.heap.word offset.toNat from rfl, hx,
            List.getLast?_cons_cons, ← hx] at hlast
          obtain ⟨hz, hl⟩ := ih hlast (.inr hnext) (by omega)
          exact ⟨hz, .next hne hl⟩

theorem Ok.chain (h : s.Ok rs) (t bucket : Nat) :
    ∀ id ∈ (s.withTop t).chain bucket, HasIdent rs id :=
  h.chainFrom (h.buckets bucket)

theorem Ok.find? (h : s.Ok rs) {name : List UInt8} {id : Ident} (hf : s.find? name = some id) :
    HasIdent rs id :=
  h.chain s.heap.top _ id (List.mem_of_find?_eq_some hf)

/-- The link in front of a record is no part of its entry. -/
theorem Ok.entry_link (h : s.Ok rs) {last id : Ident} (hl : HasIdent rs last)
    (hid : HasIdent rs id) (w : UInt16) :
    (s.heap.setWord last.offset.toNat w).entry id = s.heap.entry id := by
  have a : Heap.SameOutside last.offset.toNat (last.offset.toNat + 2) s.heap
      (s.heap.setWord last.offset.toNat w) := Heap.sameOutside_setWord _ _ _
  by_cases hne : id = last
  · subst hne
    simp only [Heap.entry, Heap.identValue, Heap.identSlot, Heap.identArguments, Entry.mk.injEq]
    exact ⟨a.valueAt (.inr (Nat.add_le_add_left (by decide) _)),
      a.byte _ (.inr (Nat.add_le_add_left (by decide) _)),
      a.byte _ (.inr (Nat.add_le_add_left (by decide) _))⟩
  · have hap := h.ledger.ident_apart hl hid hne
    refine a.entry ?_
    simp only [Ident.nameField] at hap ⊢
    omega

/-- What linking a record does: an empty bucket or an empty link gets its offset. -/
structure Linked (s : Store) (rs : List Record) (id : Ident) (g : Heap) (bs : Array UInt16) :
    Prop where
  ledger : Ledger g rs
  top : g.top = s.heap.top
  size : g.bytes.size = s.heap.bytes.size
  entry : ∀ id', HasIdent rs id' → g.entry id' = s.heap.entry id'
  links : ∀ id', HasIdent rs id' → g.word id'.offset.toNat = s.heap.word id'.offset.toNat ∨
    s.heap.word id'.offset.toNat = 0 ∧ g.word id'.offset.toNat = id.offset
  count : bs.size = s.buckets.size
  buckets : ∀ b, bs.getD b 0 = s.buckets.getD b 0 ∨
    s.buckets.getD b 0 = 0 ∧ bs.getD b 0 = id.offset
  /-- The record is led to. -/
  reached : ∃ b < bs.size, bs.getD b 0 = id.offset ∨
    ∃ last, HasIdent rs last ∧ s.heap.Leads last (s.buckets.getD b 0) ∧
      g.word last.offset.toNat = id.offset

theorem Ok.link (h : s.Ok rs) {t bucket : Nat} (id : Ident) (ht : s.heap.top ≤ t)
    (hb : bucket < s.buckets.size) :
    ∃ g, ((s.withTop t).link bucket id).heap = { g with top := t } ∧
      s.Linked rs id g ((s.withTop t).link bucket id).buckets := by
  have hchain := h.buckets bucket
  unfold Store.link
  cases hlast : ((s.withTop t).chain bucket).getLast? with
  | none =>
      -- A bucket that is not zero has its head in the chain.
      have hempty : s.buckets.getD bucket 0 = 0 := by
        obtain hz | hid := hchain
        · exact hz
        · have hw := h.ledger.ident_within hid
          simp only [Ident.nameField, Heap.reserved] at hw
          have hne : s.buckets.getD bucket 0 ≠ 0 := fun hz => by
            rw [hz] at hw
            exact absurd hw.1 (by decide)
          have hleads : s.heap.Leads ⟨s.buckets.getD bucket 0⟩ (s.buckets.getD bucket 0) :=
            .here hne
          have hm : ⟨s.buckets.getD bucket 0⟩ ∈ (s.withTop t).chain bucket :=
            h.mem_chainFrom hleads (.inr hid)
              (by rw [show (s.withTop t).heap.top = t from rfl]; omega)
          rw [List.getLast?_eq_none_iff.1 hlast] at hm
          cases hm
      refine ⟨s.heap, rfl, h.ledger, rfl, rfl, fun _ _ => rfl, fun _ _ => .inl rfl, ?_, ?_, ?_⟩
      · simp [withTop]
      · intro b
        simp only [withTop, Array.getD_eq_getD_getElem?, Array.getElem?_setIfInBounds] at hempty ⊢
        by_cases hbb : bucket = b
        · subst hbb
          exact .inr ⟨hempty, by simp [hb]⟩
        · exact .inl (by simp [hbb])
      · refine ⟨bucket, by simpa [withTop] using hb, .inl ?_⟩
        simp [withTop, Array.getD_eq_getD_getElem?, hb]
  | some last =>
      -- The record is linked behind the last one of its chain.
      have hl : HasIdent rs last := h.chain t bucket _ (List.mem_of_getLast? hlast)
      obtain ⟨hz, hleads⟩ := h.getLast?_chainFrom hlast hchain (by
        rw [show (s.withTop t).heap.top = t from rfl]
        omega)
      have a : Heap.SameOutside last.offset.toNat (last.offset.toNat + 2) s.heap
          (s.heap.setWord last.offset.toNat id.offset) := Heap.sameOutside_setWord _ _ _
      have hword : (s.heap.setWord last.offset.toNat id.offset).word last.offset.toNat =
          id.offset := by
        have hw := (h.ledger.ident_within hl).2
        have hs := h.ledger.top_le_size
        simp only [Ident.nameField] at hw
        exact Heap.word_write (by omega)
      refine ⟨s.heap.setWord last.offset.toNat id.offset, rfl, ?_, a.top, a.size, ?_, ?_, rfl,
        fun _ => .inl rfl, ⟨bucket, hb, .inr ⟨last, hl, hleads, hword⟩⟩⟩
      · exact h.ledger.setField_ident hl a (Nat.le_refl _) (Nat.add_le_add_left (by decide) _)
      · exact fun id' hid' => h.entry_link hl hid' _
      · intro id' hid'
        by_cases hne : id' = last
        · subst hne
          exact .inr ⟨hz, hword⟩
        · left
          have hap := h.ledger.ident_apart hl hid' hne
          refine a.word ?_
          simp only [Ident.nameField] at hap
          omega

theorem identRecord_eq (name : List UInt8) : Heap.identRecord name =
    0 :: 0 :: Word.hi (Ident.hash name) :: Word.lo (Ident.hash name) :: 0 :: 0 :: 0 ::
      Ident.noSlot :: 0 :: UInt8.ofNat name.length :: name := by
  simp only [Heap.identRecord, Word.bytes, Value.encode, Value.tag, Value.payload,
    List.cons_append, List.nil_append, show Word.hi 0 = 0 from rfl, show Word.lo 0 = 0 from rfl]

theorem length_identRecord (name : List UInt8) :
    (Heap.identRecord name).length = Ident.nameField + name.length := by
  rw [identRecord_eq]
  simp only [List.length_cons, Ident.nameField]
  omega

/-- A fresh record: no link, a fresh entry, and its length. -/
theorem fresh_record {g : Heap} {i : Nat} (name : List UInt8)
    (hs : i + Ident.nameField + name.length ≤ g.bytes.size) :
    (g.write i (Heap.identRecord name)).word i = 0 ∧
      (∀ id : Ident, id.offset.toNat = i → (g.write i (Heap.identRecord name)).entry id = .fresh) ∧
      (g.write i (Heap.identRecord name)).byte (i + Ident.lengthField) =
        UInt8.ofNat name.length := by
  have hbyte (k : Nat) (hk : k < 10) : (g.write i (Heap.identRecord name)).byte (i + k) =
      (Heap.identRecord name).getD k 0 := by
    have hlen : k < (Heap.identRecord name).length := by
      rw [identRecord_eq]
      simp only [List.length_cons]
      omega
    simp only [Ident.nameField] at hs
    rw [Heap.byte_write_inside hlen (by omega), List.getD_eq_getElem?_getD,
      List.getElem?_eq_getElem hlen]
    rfl
  simp only [identRecord_eq] at hbyte ⊢
  refine ⟨?_, ?_, hbyte 9 (by decide)⟩
  · have h₀ := hbyte 0 (by decide)
    rw [Nat.add_zero] at h₀
    simp only [Heap.word, h₀, hbyte 1 (by decide)]
    show Word.ofBytes 0 0 = 0
    decide
  · rintro ⟨o⟩ rfl
    simp only [Heap.entry, Heap.identValue, Heap.identSlot, Heap.identArguments, Heap.valueAt,
      Ident.valueField, Ident.slotField, Ident.argumentsField, Nat.add_assoc, Nat.reduceAdd]
    rw [hbyte 4 (by decide), hbyte 5 (by decide), hbyte 6 (by decide), hbyte 7 (by decide),
      hbyte 8 (by decide)]
    rfl

/-- With a record more, there is one name more. -/
theorem hasIdent_cons_cases {o : UInt16} {n : Nat} {id : Ident}
    (hid : HasIdent (⟨.ident, o.toNat, n⟩ :: rs) id) : HasIdent rs id ∨ id = ⟨o⟩ := by
  obtain ⟨n', hn⟩ := hid
  obtain heq | hn := List.mem_cons.1 hn
  · right
    obtain ⟨o'⟩ := id
    exact congrArg Ident.mk (UInt16.toNat_inj.1 (congrArg Record.start heq))
  · exact .inl ⟨n', hn⟩

namespace Linked

variable {g g' : Heap} {o : UInt16} {bs : Array UInt16} {id : Ident}

/-- A record that is added at the top lies above all links. -/
theorem word_of_grows (hg : s.Linked rs ⟨o⟩ g bs) (hgrow : g.Grows g') (hid : HasIdent rs id) :
    g'.word id.offset.toNat = g.word id.offset.toNat := by
  have hbelow := (hg.ledger.ident_within hid).2
  simp only [Ident.nameField] at hbelow
  exact hgrow.word (by omega)

/-- What was led to still is. -/
theorem leads_of_grows (h : s.Ok rs) (hg : s.Linked rs ⟨o⟩ g bs) (hgrow : g.Grows g') {w : UInt16}
    (hl : s.heap.Leads id w) (hw : w = 0 ∨ HasIdent rs ⟨w⟩) : g'.Leads id w := by
  refine h.leads (fun id hid hne => ?_) hl hw
  rw [hg.word_of_grows hgrow hid]
  exact (hg.links id hid).resolve_right fun hz => hne hz.1

/-- Links still lead upwards, and the new one leads to the top. -/
theorem links_of_grows (h : s.Ok rs) (hg : s.Linked rs ⟨o⟩ g bs) (hgrow : g.Grows g')
    (ho : o.toNat = g.top) (n : Nat) (hid : HasIdent rs id) : g'.word id.offset.toNat = 0 ∨
      HasIdent (⟨.ident, o.toNat, n⟩ :: rs) ⟨g'.word id.offset.toNat⟩ ∧
        id.offset.toNat < (g'.word id.offset.toNat).toNat := by
  rw [hg.word_of_grows hgrow hid]
  obtain hl | ⟨-, hl⟩ := hg.links id hid
  · rw [hl]
    exact (h.links id hid).imp_right fun hl =>
      ⟨hl.1.mono fun _ => List.mem_cons_of_mem _, hl.2⟩
  · have hbelow := (hg.ledger.ident_within hid).2
    simp only [Ident.nameField] at hbelow
    rw [hl]
    exact .inr ⟨⟨n, List.mem_cons_self⟩, by simp only; omega⟩

theorem listed_of_grows (h : s.Ok rs) (hg : s.Linked rs ⟨o⟩ g bs) (hgrow : g.Grows g')
    (hid : HasIdent rs id) : ∃ b < bs.size, g'.Leads id (bs.getD b 0) := by
  obtain ⟨b, hb, hl⟩ := h.listed id hid
  refine ⟨b, by rwa [hg.count], ?_⟩
  obtain heq | ⟨hz, -⟩ := hg.buckets b
  · rw [heq]
    exact hg.leads_of_grows h hgrow hl (h.buckets b)
  · exact absurd hz hl.ne_zero

/-- The new record is led to as well. -/
theorem leads_new (h : s.Ok rs) (hg : s.Linked rs ⟨o⟩ g bs) (hgrow : g.Grows g') (ho : o ≠ 0) :
    ∃ b < bs.size, g'.Leads ⟨o⟩ (bs.getD b 0) := by
  obtain ⟨b, hb, heq | ⟨last, hlast, hl, hw⟩⟩ := hg.reached
  · refine ⟨b, hb, ?_⟩
    rw [heq]
    exact .here ho
  · refine ⟨b, hb, ?_⟩
    obtain heq | ⟨hz, -⟩ := hg.buckets b
    · rw [heq]
      exact (hg.leads_of_grows h hgrow hl (h.buckets b)).snoc
        (by rw [hg.word_of_grows hgrow hlast, hw]) ho
    · exact absurd hz hl.ne_zero

end Linked

/-- A fresh record on top of a heap in which the link to it has been written already. -/
theorem Ok.addRecord (h : s.Ok rs) {s' : Store} {g : Heap} {o : UInt16} {name : List UInt8}
    (hname : name.length ≤ Ident.maxLength) (hg : s.Linked rs ⟨o⟩ g s'.buckets)
    (ho : o.toNat = g.top) (hsize : g.top + (Ident.nameField + name.length) ≤ g.bytes.size)
    (hreach : g.top + (Ident.nameField + name.length) ≤ Heap.addressable)
    (hheap : s'.heap = { g with top := g.top + (Ident.nameField + name.length) }.write o.toNat
      (Heap.identRecord name)) :
    ∃ rs', s'.Ok rs' ∧ (∀ r ∈ rs, r ∈ rs') ∧ HasIdent rs' ⟨o⟩ ∧
      (∀ id, HasIdent rs id → s'.heap.entry id = s.heap.entry id) ∧
      ∀ id, HasIdent rs' id → HasIdent rs id ∨ s'.heap.entry id = .fresh := by
  have hgrow := Heap.grows_write (h := g) (i := o.toNat) (n := Ident.nameField + name.length)
    (Heap.identRecord name) (Nat.le_of_eq ho.symm)
  obtain ⟨hlink, hfresh, hlength⟩ := fresh_record
    (g := { g with top := g.top + (Ident.nameField + name.length) }) (i := o.toNat) name
    (by simp only; omega)
  have htop : s'.heap.top = g.top + (Ident.nameField + name.length) := by rw [hheap, Heap.top_write]
  have hbytes : s'.heap.bytes.size = g.bytes.size := by rw [hheap, Heap.size_write]
  rw [← hheap] at hgrow hlink hfresh hlength
  -- Offset zero ends a chain, and no record lies there.
  have hpos : o ≠ 0 := by
    rintro rfl
    have := hg.ledger.reserved_le
    rw [← ho] at this
    exact absurd this (by decide)
  have hmem (r : Record) (hr : r ∈ rs) : r ∈ ⟨.ident, o.toNat, name.length⟩ :: rs :=
    List.mem_cons_of_mem _ hr
  have hnew : HasIdent (⟨.ident, o.toNat, name.length⟩ :: rs) ⟨o⟩ := ⟨_, List.mem_cons_self⟩
  refine ⟨⟨.ident, o.toNat, name.length⟩ :: rs, ?_, hmem, hnew, fun id hid => ?_, fun id hid => ?_⟩
  · constructor
    case ledger =>
      refine hg.ledger.cons hgrow ?_ ?_ ho ?_ ?_
      · rw [htop, hbytes]
        exact hsize
      · rw [htop]
        exact hreach
      · rw [htop, ← ho]
        rfl
      · simp only [Record.LengthIn, hlength, UInt8.toNat_ofNat']
        simp only [Ident.maxLength] at hname
        omega
    case kinds =>
      intro r hr
      obtain rfl | hr := List.mem_cons.1 hr
      · simp
      · exact h.kinds r hr
    case buckets =>
      intro b
      obtain hb | ⟨-, hb⟩ := hg.buckets b
      · rw [hb]
        exact (h.buckets b).imp_right (HasIdent.mono hmem)
      · rw [hb]
        exact .inr hnew
    case links =>
      intro id hid
      obtain hid | rfl := hasIdent_cons_cases hid
      · exact hg.links_of_grows h hgrow ho _ hid
      · exact .inl hlink
    case bucketed =>
      rw [hg.count]
      exact h.bucketed
    -- The new record is listed through the link; the old ones are as they were.
    case listed =>
      intro id hid
      obtain hid | rfl := hasIdent_cons_cases hid
      · exact hg.listed_of_grows h hgrow hid
      · exact hg.leads_new h hgrow hpos
  · rw [hgrow.entry (hg.ledger.ident_within hid).2, hg.entry id hid]
  · obtain hid | rfl := hasIdent_cons_cases hid
    · exact .inl hid
    · exact .inr (hfresh _ rfl)

theorem bucketOf_lt (h : 0 < s.buckets.size) (hash : UInt16) :
    s.bucketOf hash < s.buckets.size := by
  have : s.bucketOf hash ≤ s.buckets.size - 1 := Nat.and_le_right
  omega

/-! ### Interning -/

/-- The store with the record of a name, which the last record of its bucket leads to. -/
def withRecord (s : Store) (name : List UInt8) (id : Ident) : Store :=
  let g := s.link (s.bucketOf (Ident.hash name)) id
  { g with heap := g.heap.write id.offset.toNat (Heap.identRecord name) }

theorem size_withRecord (s : Store) (name : List UInt8) (id : Ident) :
    (s.withRecord name id).heap.bytes.size = s.heap.bytes.size := by
  rw [withRecord, Heap.size_write, size_link]

theorem top_withRecord (s : Store) (name : List UInt8) (id : Ident) :
    (s.withRecord name id).heap.top = s.heap.top := by
  rw [withRecord, Heap.top_write, top_link]

/-- What interning a name comes to: the record that it has, a fresh one on top of the heap, or an
error that leaves the store alone. -/
inductive Interned (s : Store) (name : List UInt8) :
    EStateM.Result Heap.Error Store (Ident × Bool) → Prop
  | known {id : Ident} : name.length ≤ Ident.maxLength → s.find? name = some id →
      Interned s name (.ok (id, false) s)
  | fresh {id : Ident} : name.length ≤ Ident.maxLength → s.find? name = none →
      id.offset.toNat = s.heap.top →
      s.heap.top + (Ident.nameField + name.length) ≤ s.heap.bytes.size →
      s.heap.top + (Ident.nameField + name.length) ≤ Heap.addressable →
      Interned s name (.ok (id, true)
        ((s.withTop (s.heap.top + (Ident.nameField + name.length))).withRecord name id))
  | long : Ident.maxLength < name.length →
      Interned s name (.error (.recordTooLarge name.length Ident.maxLength) s)
  | full : name.length ≤ Ident.maxLength → s.find? name = none →
      min s.heap.bytes.size Heap.addressable - s.heap.top < Ident.nameField + name.length →
      Interned s name (.error (.exhausted (Ident.nameField + name.length)
        (min s.heap.bytes.size Heap.addressable - s.heap.top)) s)

theorem Interned.eq {name : List UInt8} {r : EStateM.Result Heap.Error Store (Ident × Bool)}
    (h : s.Interned name r) : Store.intern name s = r := by
  cases h with
  | known hlen hf =>
      simp only [Store.intern, if_neg (Nat.not_lt.2 hlen), bind, EStateM.bind, Action.get_apply, hf,
        pure, EStateM.pure]
  | @fresh id hlen hf ho hsize hreach =>
      have ha := Heap.alloc_of_le (Nat.add_pos_left (by decide) _) ho hsize hreach
      simp only [Store.intern, if_neg (Nat.not_lt.2 hlen), bind, EStateM.bind, Action.get_apply, hf,
        pure, EStateM.pure, onHeap, ha]
      rfl
  | long hlen => simp only [Store.intern, if_pos hlen, bind, EStateM.bind, Action.throw_apply]
  | full hlen hf hroom =>
      simp only [Store.intern, if_neg (Nat.not_lt.2 hlen), bind, EStateM.bind, Action.get_apply, hf,
        pure, onHeap, Heap.alloc_of_lt hroom]
      rfl

theorem interned (s : Store) (name : List UInt8) : s.Interned name (Store.intern name s) := by
  by_cases hlen : Ident.maxLength < name.length
  · have h : s.Interned name _ := .long hlen
    rwa [h.eq]
  · have hlen := Nat.le_of_not_lt hlen
    cases hf : s.find? name with
    | some id =>
        have h : s.Interned name _ := .known hlen hf
        rwa [h.eq]
    | none =>
        by_cases hroom :
            min s.heap.bytes.size Heap.addressable - s.heap.top < Ident.nameField + name.length
        · have h : s.Interned name _ := .full hlen hf hroom
          rwa [h.eq]
        · have hpos : 0 < Ident.nameField + name.length := Nat.add_pos_left (by decide) _
          have ho : (UInt16.ofNat s.heap.top).toNat = s.heap.top := by
            rw [show Heap.addressable = 65536 from rfl] at hroom
            rw [UInt16.toNat_ofNat']
            omega
          have h : s.Interned name _ :=
            @Interned.fresh s name ⟨UInt16.ofNat s.heap.top⟩ hlen hf ho (by omega) (by omega)
          rwa [h.eq]

/-- All that a result of interning can be. -/
theorem interned_of_eq {name : List UInt8} {r : EStateM.Result Heap.Error Store (Ident × Bool)}
    (h : Store.intern name s = r) : s.Interned name r := h ▸ interned s name

/-- Interning makes a fresh entry at most; all other entries stay. -/
theorem Ok.intern (h : s.Ok rs) {name : List UInt8} {id : Ident} {new : Bool} {s' : Store}
    (hi : Store.intern name s = .ok (id, new) s') :
    ∃ rs', s'.Ok rs' ∧ (∀ r ∈ rs, r ∈ rs') ∧ HasIdent rs' id ∧
      (∀ id', HasIdent rs id' → s'.heap.entry id' = s.heap.entry id') ∧
      ∀ id', HasIdent rs' id' → HasIdent rs id' ∨ s'.heap.entry id' = .fresh := by
  cases interned_of_eq hi with
  | known hlen hf =>
      exact ⟨rs, h, fun _ hr => hr, h.find? hf, fun _ _ => rfl, fun _ hid => .inl hid⟩
  | fresh hlen hf ho hsize hreach =>
      have hbucket : (s.withTop (s.heap.top + (Ident.nameField + name.length))).bucketOf
          (Ident.hash name) < s.buckets.size := bucketOf_lt h.bucketed _
      obtain ⟨g, hg, hlinked⟩ := h.link (t := s.heap.top + (Ident.nameField + name.length)) id
        (Nat.le_add_right _ _) hbucket
      rw [← hlinked.top] at ho hsize hreach
      rw [← hlinked.size] at hsize
      refine h.addRecord hlen hlinked ho hsize hreach ?_
      rw [hlinked.top]
      simp only [withRecord, hg]

/-- All records of names are in the table. -/
theorem Ok.mem_idents (h : s.Ok rs) {id : Ident} (hid : HasIdent rs id) :
    ∃ b, (b, id) ∈ s.idents := by
  obtain ⟨b, hb, hl⟩ := h.listed id hid
  refine ⟨b, List.mem_flatMap.2 ⟨b, List.mem_range.2 hb, List.mem_map.2 ⟨id, ?_, rfl⟩⟩⟩
  exact h.mem_chainFrom (t := s.heap.top) hl (h.buckets b) (Nat.le_add_left _ _)

theorem Ok.hasIdent_of_mem (h : s.Ok rs) {b : Nat} {id : Ident} (hm : (b, id) ∈ s.idents) :
    HasIdent rs id := by
  obtain ⟨b', -, hm⟩ := List.mem_flatMap.1 hm
  obtain ⟨id', hid, heq⟩ := List.mem_map.1 hm
  cases heq
  exact h.chain s.heap.top b id hid

end Store

end CellScript
