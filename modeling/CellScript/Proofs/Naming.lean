import CellScript.Proofs.Edits

/-!
Which names have values.

While a text is compiled, the only names with a value are those of bodies that have
been opened. The records of names hold the names themselves, so this can be said of
the names as they are written: a name that no definition has used yet is found
without a value (`Front.Named.unset`). Nothing that is read gives a name a value
but the first statement of a body.
-/

namespace CellScript

namespace Store

variable {s s' : Store} {rs : List Record}

/-- A fresh record reads as the name that it was made of. -/
theorem identName_fresh {g : Heap} {id : Ident} {name : List UInt8}
    (hlen : name.length ≤ Ident.maxLength)
    (hs : id.offset.toNat + Ident.nameField + name.length ≤ g.bytes.size) :
    (g.write id.offset.toNat (Heap.identRecord name)).identName id = name := by
  obtain ⟨-, -, hlength⟩ := fresh_record name hs
  rw [Heap.identName, hlength]
  simp only [Ident.maxLength] at hlen
  have hcount : (UInt8.ofNat name.length).toNat = name.length := by
    rw [UInt8.toNat_ofNat']
    omega
  have hsplit : Heap.identRecord name = (Heap.identRecord name).take Ident.nameField ++ name := by
    rw [identRecord_eq]
    rfl
  have htake : ((Heap.identRecord name).take Ident.nameField).length = Ident.nameField := by
    rw [identRecord_eq]
    rfl
  rw [hcount, hsplit, Heap.write_append, htake]
  exact Heap.slice_write (by rw [Heap.size_write]; exact hs)

theorem identName_withRecord {name : List UInt8} {id : Ident} (hlen : name.length ≤ Ident.maxLength)
    (hs : id.offset.toNat + Ident.nameField + name.length ≤ s.heap.bytes.size) :
    (s.withRecord name id).heap.identName id = name := by
  have hfresh := identName_fresh (g := (s.link (s.bucketOf (Ident.hash name)) id).heap) hlen
    (by rwa [size_link])
  simp only [withRecord, hfresh]

/-- The record that interning finds or makes is that of the name. -/
theorem identName_intern {name : List UInt8} {id : Ident} {new : Bool}
    (hi : Store.intern name s = .ok (id, new) s') : s'.heap.identName id = name := by
  cases interned_of_eq hi with
  | known hlen hf =>
      have hnamed := List.find?_some hf
      simp only [Heap.isNamed, Bool.and_eq_true, beq_iff_eq] at hnamed
      exact hnamed.2
  | fresh hlen hf ho hsize hreach =>
      refine identName_withRecord hlen ?_
      simp only [withTop]
      omega

end Store

namespace Front

/-- The records are in order, and only these names have values. -/
structure Named (f : Front) (rs : List Record) (names : List (List UInt8)) : Prop where
  sound : f.Sound rs
  valued : ∀ id, HasIdent rs id → f.store.heap.identValue id ≠ .unset →
    f.store.heap.identName id ∈ names

variable {f f' : Front} {rs rs' : List Record} {names : List (List UInt8)} {id : Ident}

theorem Named.unset (h : f.Named rs names) (hid : HasIdent rs id)
    (hnew : f.store.heap.identName id ∉ names) : f.store.heap.identValue id = .unset :=
  Decidable.byContradiction fun hv => hnew (h.valued id hid hv)

theorem Kept.identName (h : Kept f rs f' rs') (hs : f.Sound rs) (hid : HasIdent rs id) :
    f'.store.heap.identName id = f.store.heap.identName id :=
  h.edited.identName hs.store.ledger h.sound.store.ledger h.records hid

theorem Named.kept (h : f.Named rs names) (hk : Kept f rs f' rs') (hv : SameValues f rs f' rs') :
    f'.Named rs' names := by
  refine ⟨hk.sound, fun id hid hne => ?_⟩
  obtain ⟨hold, hsame⟩ | hunset := hv id hid
  · rw [hk.identName h.sound hold]
    exact h.valued id hold (hsame ▸ hne)
  · exact absurd hunset hne

/-- Names keep their records, and no other one gets a value. -/
def Keeps (names : List (List UInt8)) (f f' : Front) : Prop :=
  ∀ rs, f.Named rs names → ∃ rs', Kept f rs f' rs' ∧ f'.Named rs' names

theorem Keeps.quiet (hstore : f'.store = f.store) (hbody : f'.body = f.body) :
    Keeps names f f' := by
  intro rs h
  have hkept := h.sound.kept hstore hbody
  exact ⟨rs, hkept, h.kept hkept fun id hid => .inl ⟨hid, by rw [hstore]⟩⟩

theorem Keeps.trans {f'' : Front} (h : Keeps names f f') (h' : Keeps names f' f'') :
    Keeps names f f'' := by
  intro rs hf
  obtain ⟨rs₁, h₁, hf₁⟩ := h rs hf
  obtain ⟨rs₂, h₂, hf₂⟩ := h' rs₁ hf₁
  exact ⟨rs₂, h₁.trans h₂, hf₂⟩

theorem keeps_intern {name : List UInt8} {new : Bool} {st : Store} (h : f.Named rs names)
    (hi : Store.intern name f.store = .ok (id, new) st) :
    ∃ rs', Kept f rs (f.withStore st) rs' ∧ (f.withStore st).Named rs' names ∧ HasIdent rs' id ∧
      st.heap.identName id = name := by
  obtain ⟨rs', hkept, hid, hvalues⟩ := h.sound.intern hi
  exact ⟨rs', hkept, h.kept hkept hvalues, hid, Store.identName_intern hi⟩

/-- Reading an expression gives no name a value. -/
theorem steady_keeps (names : List (List UInt8)) : Grammar.Steady (Keeps names) where
  refl f := .quiet rfl rfl
  trans := .trans
  goto f c := .quiet rfl rfl
  text h := by
    cases h with
    | empty => exact .quiet rfl rfl
    | char => exact .quiet rfl rfl
    | long ha =>
        intro rs h
        obtain ⟨rs', hkept, hvalues⟩ := h.sound.allocStr ha
        exact ⟨rs', hkept, h.kept hkept hvalues⟩
  name h := by
    cases h with
    | @mk _ c _ _ st _ _ hi =>
        have hgoto (f : Front) : Keeps names f (f.goto c) := .quiet rfl rfl
        refine (hgoto _).trans fun rs h => ?_
        obtain ⟨rs', hkept, hnamed, -⟩ := keeps_intern h hi
        exact ⟨rs', hkept, hnamed⟩

/-! ### Writing into records -/

end Front

namespace Ledger

variable {h : Heap} {rs : List Record} {id id' : Ident}

/-- An entry is written in another field than the value. -/
theorem identValue_of_entry {h' : Heap} {e : Entry}
    (hentry : h'.entry id' = if id' = id then e else h.entry id')
    (he : e.value = h.identValue id) : h'.identValue id' = h.identValue id' := by
  rw [← Heap.value_entry, hentry]
  split
  · rename_i heq
    rw [he, heq]
  · rfl

theorem identValue_setIdentSlot (l : Ledger h rs) (hid : HasIdent rs id) (hid' : HasIdent rs id')
    (b : UInt8) : (h.setIdentSlot id b).identValue id' = h.identValue id' :=
  identValue_of_entry (l.entry_setIdentSlot hid hid' b) rfl

theorem identValue_setIdentArguments (l : Ledger h rs) (hid : HasIdent rs id)
    (hid' : HasIdent rs id') (b : UInt8) :
    (h.setIdentArguments id b).identValue id' = h.identValue id' :=
  identValue_of_entry (l.entry_setIdentArguments hid hid' b) rfl

end Ledger

namespace Front

variable {f f' : Front} {rs : List Record} {names : List (List UInt8)} {id : Ident} {body : Body}

/-- Fields of known names are written, and a body of known names is open. -/
theorem Sound.written (h : f.Sound rs) {heap : Heap} {ids : List Ident}
    (hids : ∀ id ∈ ids, HasIdent rs id) (hw : Heap.Written ids f.store.heap heap)
    (hstore : f'.store = { f.store with heap })
    (hbody : ∀ body, f'.body = some body → ∀ id ∈ body.id :: body.locals, HasIdent rs id) :
    Kept f rs f' rs := by
  obtain ⟨hst, hedited⟩ := h.store.written hids hw
  exact ⟨fun _ hr => hr, ⟨hstore ▸ hst, hbody⟩, by rw [hstore]; exact hedited⟩

theorem Named.addLocal (h : f.Named rs names) (hb : f.body = some body) (hid : HasIdent rs id) :
    Kept f rs (f.addLocal body id) rs ∧ (f.addLocal body id).Named rs names := by
  have hids := h.sound.body body hb
  have hbid := hids body.id List.mem_cons_self
  have hkept : Kept f rs (f.addLocal body id) rs := by
    have hw : Heap.Written [id, body.id] f.store.heap (f.addLocal body id).store.heap :=
      (Heap.Written.refl.setIdentSlot (by simp) _).setIdentSlot (by simp) _
    refine h.sound.written (by simp [hid, hbid]) hw rfl ?_
    rintro _ ⟨⟩ id' hid'
    simp only [List.mem_cons, List.mem_append, List.not_mem_nil, or_false] at hid'
    obtain rfl | hid' | rfl := hid'
    · exact hbid
    · exact hids id' (List.mem_cons_of_mem _ hid')
    · exact hid
  refine ⟨hkept, h.kept hkept fun id' hid' => .inl ⟨hid', ?_⟩⟩
  have hledger := h.sound.store.ledger.setIdentSlot hid (UInt8.ofNat body.locals.length)
  exact (hledger.identValue_setIdentSlot hbid hid' _).trans
    (h.sound.store.ledger.identValue_setIdentSlot hid hid' _)

/-- The name of the body gets a value. -/
theorem Named.openBody (h : f.Named rs names) (hid : HasIdent rs id) (isFunc : Bool)
    (entry : UInt16) : Kept f rs (f.openBody id isFunc entry) rs ∧
      (f.openBody id isFunc entry).Named rs (f.store.heap.identName id :: names) := by
  have hkept : Kept f rs (f.openBody id isFunc entry) rs := by
    have hw : Heap.Written [id] f.store.heap (f.openBody id isFunc entry).store.heap :=
      (Heap.Written.refl.setIdentValue List.mem_cons_self _).setIdentSlot List.mem_cons_self _
    refine h.sound.written (by simp [hid]) hw rfl ?_
    rintro _ ⟨⟩ id' hid'
    obtain rfl := List.mem_singleton.1 hid'
    exact hid
  refine ⟨hkept, hkept.sound, fun id' hid' hv => ?_⟩
  rw [hkept.identName h.sound hid']
  by_cases hne : id' = id
  · rw [hne]
    exact List.mem_cons_self
  · refine List.mem_cons_of_mem _ (h.valued id' hid' fun hunset => hv ?_)
    have hledger := h.sound.store.ledger.setIdentValue hid
      (if isFunc then .func entry else .proc entry)
    refine (hledger.identValue_setIdentSlot hid hid' 0).trans ?_
    rw [h.sound.store.ledger.identValue_setIdentValue hid hid', if_neg hne]
    exact hunset

theorem Named.countParameters (h : f.Named rs names) (hb : f.body = some body) :
    Kept f rs (f.countParameters body) rs ∧ (f.countParameters body).Named rs names := by
  have hbid := h.sound.body body hb body.id List.mem_cons_self
  have hkept : Kept f rs (f.countParameters body) rs := by
    have hw : Heap.Written [body.id] f.store.heap (f.countParameters body).store.heap :=
      Heap.Written.refl.setIdentArguments List.mem_cons_self _
    exact h.sound.written (by simp [hbid]) hw rfl h.sound.body
  refine ⟨hkept, h.kept hkept fun id' hid' => .inl ⟨hid', ?_⟩⟩
  exact h.sound.store.ledger.identValue_setIdentArguments hbid hid' _

theorem Named.closeBody (h : f.Named rs names) (hb : f.body = some body) :
    Kept f rs (f.closeBody body) rs ∧ (f.closeBody body).Named rs names := by
  have hids : ∀ id ∈ body.locals, HasIdent rs id := fun id hid =>
    h.sound.body body hb id (List.mem_cons_of_mem _ hid)
  have hkept : Kept f rs (f.closeBody body) rs := by
    have hw : Heap.Written body.locals f.store.heap (f.closeBody body).store.heap :=
      Heap.Written.refl.clearSlots fun _ hid => hid
    exact h.sound.written hids hw rfl (by rintro _ ⟨⟩)
  refine ⟨hkept, h.kept hkept fun id' hid' => .inl ⟨hid', ?_⟩⟩
  refine (congrArg Entry.value ((clearSlots h.sound.store hids).2 id' hid')).trans ?_
  split <;> rfl

end Front

end CellScript
