import CellScript.Proofs.ProgramCode
import CellScript.Proofs.Scopes
import CellScript.Proofs.Traversal

/-!
What compiling leaves of older records.

A compiler that goes on may still write into records that are there already. A new
name is linked behind another one, a name becomes a local for a while, and a
definition fills in the record of its name. All of these writes go into a few
fields of the records of names (`Heap.InFields`). What a name is and how it hashes,
and the bytes of long literals, lie outside of them.

That a write goes into the record of a name, and not just anywhere, depends on
where the name came from: it has been interned, or it belongs to the open body.
`Compiler.Spares` therefore carries the names that are known to have records.
-/

namespace CellScript

namespace Heap

/-- The fields of a record of a name that are written after it has been made: its link, and what
stands between the hash and the length. -/
def InFields (id : Ident) (i : Nat) : Prop :=
  id.offset.toNat ≤ i ∧ i < id.offset.toNat + Ident.hashField ∨
    id.offset.toNat + Ident.valueField ≤ i ∧ i < id.offset.toNat + Ident.lengthField

/-- Nothing below the old top has changed but these fields of names of a kind, and nothing is
written past the new top. -/
structure Edited (named : Ident → Prop) (h h' : Heap) : Prop where
  top : h.top ≤ h'.top
  size : h'.bytes.size = h.bytes.size
  byte : ∀ i < h.top, h'.byte i = h.byte i ∨ ∃ id, named id ∧ InFields id i
  beyond : ∀ i, h'.top ≤ i → h'.byte i = h.byte i

variable {named named' : Ident → Prop} {h h' h'' : Heap}

theorem Edited.refl (h : Heap) : Edited named h h :=
  ⟨Nat.le_refl _, rfl, fun _ _ => .inl rfl, fun _ _ => rfl⟩

theorem Extends.edited {o : UInt16} {n : Nat} (a : Extends h h' o n) : Edited named h h' :=
  ⟨a.grows.top, a.grows.size, fun i hi => .inl (a.grows.byte i hi), a.beyond⟩

theorem SameOutside.edited {lo hi : Nat} {id : Ident} (a : SameOutside lo hi h h') (hid : named id)
    (htop : hi ≤ h.top) (hin : ∀ i, lo ≤ i → i < hi → InFields id i) : Edited named h h' := by
  refine ⟨Nat.le_of_eq a.top.symm, a.size, fun i _ => ?_, fun i hi' => a.byte i (.inr ?_)⟩
  · by_cases hi : lo ≤ i ∧ i < hi
    · exact .inr ⟨id, hid, hin i hi.1 hi.2⟩
    · exact .inl (a.byte i (by omega))
  · rw [a.top] at hi'
    exact Nat.le_trans htop hi'

theorem Edited.trans (a : Edited named h h') (b : Edited named' h' h'')
    (hnamed : ∀ id, named id → named' id) : Edited named' h h'' := by
  refine ⟨Nat.le_trans a.top b.top, b.size.trans a.size, fun i hi => ?_, fun i hi => ?_⟩
  · obtain hb | hb := b.byte i (Nat.lt_of_lt_of_le hi a.top)
    · rw [hb]
      obtain ha | ⟨id, hid, hin⟩ := a.byte i hi
      · exact .inl ha
      · exact .inr ⟨id, hnamed id hid, hin⟩
    · exact .inr hb
  · rw [b.beyond i hi, a.beyond i (Nat.le_trans b.top hi)]

section

variable {rs rs' : List Record} (l : Ledger h rs) (l' : Ledger h' rs') (hrs : ∀ r ∈ rs, r ∈ rs')
  (a : Edited (HasIdent rs') h h')

include l l' hrs a

/-- The bytes of a record outside of these fields are the same. -/
theorem Edited.record {r : Record} (hr : r ∈ rs) {i : Nat} (hlo : r.start ≤ i) (hhi : i < r.stop)
    (hfix : r.kind = .ident → r.start + Ident.hashField ≤ i ∧ i < r.start + Ident.valueField ∨
      r.start + Ident.lengthField ≤ i) : h'.byte i = h.byte i := by
  have hwithin := (l.within r hr).2
  obtain hb | ⟨id, ⟨n, hn⟩, hin⟩ := a.byte i (by omega)
  · exact hb
  · obtain rfl | hapart := l'.apart _ hn r (hrs r hr)
    · have hfixed := hfix rfl
      simp only [InFields, Ident.hashField, Ident.valueField, Ident.lengthField] at hin hfixed
      omega
    · simp only [Record.stop, Record.size, Ident.nameField, InFields, Ident.valueField,
        Ident.hashField, Ident.lengthField] at hapart hin hhi
      omega

theorem Edited.strBytes {offset : UInt16} (ho : HasText rs offset) :
    h'.strBytes offset = h.strBytes offset := by
  obtain ⟨n, -, hn⟩ := ho
  have hbyte {i : Nat} := a.record l l' hrs hn (i := i)
  have hlength : (h.word offset.toNat).toNat = n := l.lengths _ hn
  simp only [Record.stop, Record.size, reduceCtorEq, false_implies, forall_const] at hbyte
  have hword : h'.word offset.toNat = h.word offset.toNat := by
    rw [word, word, hbyte (by omega) (by omega), hbyte (by omega) (by omega)]
  rw [Heap.strBytes, Heap.strBytes, hword, hlength]
  exact slice_congr fun k hk => hbyte (by omega) (by omega)

theorem Edited.identHash {id : Ident} (hid : HasIdent rs id) :
    h'.identHash id = h.identHash id := by
  obtain ⟨n, hn⟩ := hid
  have hbyte {i : Nat} := a.record l l' hrs hn (i := i)
  simp only [Record.stop, Record.size, Ident.nameField, Ident.hashField, Ident.valueField,
    true_implies] at hbyte
  rw [Heap.identHash, Heap.identHash, word, word]
  simp only [Ident.hashField]
  rw [hbyte (by omega) (by omega) (by omega), hbyte (by omega) (by omega) (by omega)]

theorem Edited.identName {id : Ident} (hid : HasIdent rs id) :
    h'.identName id = h.identName id := by
  obtain ⟨n, hn⟩ := hid
  have hbyte {i : Nat} := a.record l l' hrs hn (i := i)
  have hlength : (h.byte (id.offset.toNat + Ident.lengthField)).toNat = n := l.lengths _ hn
  simp only [Record.stop, Record.size, Ident.nameField, Ident.lengthField, true_implies]
    at hbyte hlength
  rw [Heap.identName, Heap.identName]
  simp only [Ident.nameField, Ident.lengthField]
  rw [hbyte (by omega) (by omega) (by omega), hlength]
  exact slice_congr fun k hk => hbyte (by omega) (by omega) (by omega)

end

/-- Fields of known names are overwritten, one after the other. -/
inductive Written (ids : List Ident) (h : Heap) : Heap → Prop
  | refl : Written ids h h
  | field {h' h'' : Heap} {id : Ident} {lo hi : Nat} :
      Written ids h h' → id ∈ ids → SameOutside lo hi h' h'' →
      id.offset.toNat + Ident.valueField ≤ lo → hi ≤ id.offset.toNat + Ident.lengthField →
      Written ids h h''

namespace Written

variable {ids : List Ident} {id : Ident}

theorem setIdentSlot (a : Written ids h h') (hid : id ∈ ids) (b : UInt8) :
    Written ids h (h'.setIdentSlot id b) :=
  a.field hid (Heap.sameOutside_setIdentSlot h' id b) (Nat.add_le_add_left (by decide) _)
    (Nat.add_le_add_left (by decide) _)

theorem setIdentArguments (a : Written ids h h') (hid : id ∈ ids) (b : UInt8) :
    Written ids h (h'.setIdentArguments id b) :=
  a.field hid (Heap.sameOutside_setIdentArguments h' id b) (Nat.add_le_add_left (by decide) _)
    (Nat.add_le_add_left (by decide) _)

theorem setIdentValue (a : Written ids h h') (hid : id ∈ ids) (v : Value) :
    Written ids h (h'.setIdentValue id v) :=
  a.field hid (Heap.sameOutside_setIdentValue h' id v) (Nat.add_le_add_left (by decide) _)
    (Nat.add_le_add_left (by decide) _)

theorem clearSlots (a : Written ids h h') {locals : List Ident} (hids : ∀ id ∈ locals, id ∈ ids) :
    Written ids h (locals.foldl (fun h id => h.setIdentSlot id Ident.noSlot) h') := by
  induction locals generalizing h' with
  | nil => exact a
  | cons id locals ih =>
      exact ih (a.setIdentSlot (hids id List.mem_cons_self) _) fun id hid =>
        hids id (List.mem_cons_of_mem _ hid)

end Written

end Heap

/-- The fields of a record of a name lie below the top. -/
theorem Ledger.fields_le_top {h : Heap} {rs : List Record} (l : Ledger h rs) {id : Ident}
    (hid : HasIdent rs id) : id.offset.toNat + Ident.lengthField ≤ h.top := by
  obtain ⟨n, hn⟩ := hid
  have hwithin := (l.within _ hn).2
  simp only [Record.stop, Record.size, Ident.nameField] at hwithin
  simp only [Ident.lengthField]
  omega

namespace Store

variable {s : Store} {rs : List Record}

theorem Ok.written (h : s.Ok rs) {ids : List Ident} (hids : ∀ id ∈ ids, HasIdent rs id)
    {heap : Heap} (a : Heap.Written ids s.heap heap) :
    Store.Ok { s with heap } rs ∧ Heap.Edited (HasIdent rs) s.heap heap := by
  induction a with
  | refl => exact ⟨h, .refl _⟩
  | @field _ _ id lo hi _ hid hsame hlo hhi ih =>
      obtain ⟨hok, hedited⟩ := ih
      refine ⟨hok.setField (hids id hid) hsame ?_ hhi, ?_⟩
      · simp only [Ident.valueField] at hlo
        omega
      · have htop := hok.ledger.fields_le_top (hids id hid)
        refine hedited.trans (hsame.edited (hids id hid) (Nat.le_trans hhi htop)
          fun i hi₁ hi₂ => .inr ?_) fun _ hid => hid
        omega

/-- Room is taken at the top, and the last record of a bucket gets a link to it. -/
theorem Ok.edited_link (h : s.Ok rs) (n b : Nat) (id : Ident) :
    Heap.Edited (HasIdent rs) s.heap ((s.withTop (s.heap.top + n)).link b id).heap := by
  have hroom : Heap.Edited (HasIdent rs) s.heap (s.withTop (s.heap.top + n)).heap :=
    ⟨Nat.le_add_right _ _, rfl, fun _ _ => .inl rfl, fun _ _ => rfl⟩
  obtain hheap | ⟨last, hlast, hheap⟩ := (s.withTop (s.heap.top + n)).heap_link b id
  · rw [hheap]
    exact hroom
  · have hid := h.chain _ b _ hlast
    have htop := h.ledger.fields_le_top hid
    simp only [Ident.lengthField] at htop
    rw [hheap]
    refine hroom.trans ((Heap.sameOutside_setWord _ _ _).edited hid ?_
      fun i hlo hhi => .inl ⟨hlo, hhi⟩) fun _ hid => hid
    exact Nat.le_trans (by omega) hroom.top

/-- A new name is written at the top; the last one of its bucket gets a link to it. -/
theorem Ok.edited_intern (h : s.Ok rs) {name : List UInt8} {id : Ident} {new : Bool} {s' : Store}
    (hi : Store.intern name s = .ok (id, new) s') :
    Heap.Edited (HasIdent rs) s.heap s'.heap := by
  cases interned_of_eq hi with
  | known => exact .refl _
  | fresh hlen hf ho hsize hreach =>
      have hlink := h.edited_link (Ident.nameField + name.length)
        (s.bucketOf (Ident.hash name)) id
      refine ⟨?_, ?_, fun i hi => ?_, fun i hi => ?_⟩
      · rw [top_withRecord]
        exact Nat.le_add_right _ _
      · exact size_withRecord _ _ _
      · rw [withRecord, Heap.byte_write_outside (.inl (by omega))]
        exact hlink.byte i hi
      · rw [top_withRecord] at hi
        rw [withRecord, Heap.byte_write_outside (.inr ?_)]
        · exact hlink.beyond i (by rwa [Store.top_link])
        · rw [length_identRecord, ho]
          exact hi

end Store

/-! ### Fronts -/

namespace Front

/-- The records of the store are in order, and the names of the open body have some. -/
structure Sound (f : Front) (rs : List Record) : Prop where
  store : f.store.Ok rs
  body : ∀ body, f.body = some body → ∀ id ∈ body.id :: body.locals, HasIdent rs id

/-- One place comes after another, and the records of the first are spared. -/
structure Kept (f : Front) (rs : List Record) (f' : Front) (rs' : List Record) : Prop where
  records : ∀ r ∈ rs, r ∈ rs'
  sound : f'.Sound rs'
  edited : Heap.Edited (HasIdent rs') f.store.heap f'.store.heap

variable {f f' f'' : Front} {rs rs' rs'' : List Record}

theorem Kept.trans (h : Kept f rs f' rs') (h' : Kept f' rs' f'' rs'') : Kept f rs f'' rs'' where
  records r hr := h'.records r (h.records r hr)
  sound := h'.sound
  edited := h.edited.trans h'.edited fun _ hid => hid.mono h'.records

/-- Nothing is done to the store. -/
theorem Sound.kept (h : f.Sound rs) (hstore : f'.store = f.store) (hbody : f'.body = f.body) :
    Kept f rs f' rs where
  records _ hr := hr
  sound := ⟨by rw [hstore]; exact h.store, by rw [hbody]; exact h.body⟩
  edited := by rw [hstore]; exact .refl _

/-- Names keep their values, and new ones have none. -/
def SameValues (f : Front) (rs : List Record) (f' : Front) (rs' : List Record) : Prop :=
  ∀ id, HasIdent rs' id →
    HasIdent rs id ∧ f'.store.heap.identValue id = f.store.heap.identValue id ∨
      f'.store.heap.identValue id = .unset

theorem Sound.intern (h : f.Sound rs) {name : List UInt8} {id : Ident} {new : Bool} {st : Store}
    (hi : Store.intern name f.store = .ok (id, new) st) :
    ∃ rs', Kept f rs (f.withStore st) rs' ∧ HasIdent rs' id ∧
      SameValues f rs (f.withStore st) rs' := by
  obtain ⟨rs', hst, hr, hid, hold, hnew⟩ := h.store.intern hi
  have hmono {id : Ident} (hid : HasIdent rs id) : HasIdent rs' id := hid.mono hr
  refine ⟨rs', ⟨hr, ⟨hst, fun body hb id hid => hmono (h.body body hb id hid)⟩, ?_⟩, hid,
    fun id hid => ?_⟩
  · exact (h.store.edited_intern hi).trans (.refl _) fun _ => hmono
  · obtain hid | hfresh := hnew id hid
    · exact .inl ⟨hid, congrArg Entry.value (hold id hid)⟩
    · exact .inr (congrArg Entry.value hfresh)

theorem Sound.allocStr (h : f.Sound rs) {data : List UInt8} {o : UInt16} {heap : Heap}
    (ha : Heap.allocStr data f.store.heap = .ok o heap) :
    ∃ rs', Kept f rs (f.withHeap heap) rs' ∧ SameValues f rs (f.withHeap heap) rs' := by
  obtain ⟨hst, hr, hold, hnew⟩ := h.store.allocStr ha
  refine ⟨_, ⟨hr, ⟨hst, fun body hb id hid => (h.body body hb id hid).mono hr⟩,
    (Heap.allocStr_made ha).1.edited⟩, fun id hid => .inl ⟨hnew id hid, ?_⟩⟩
  exact congrArg Entry.value (hold id (hnew id hid))

/-- Reading an expression spares the records. -/
theorem steady_kept : Grammar.Steady fun f f' => ∀ rs, f.Sound rs → ∃ rs', Kept f rs f' rs' where
  refl f rs h := ⟨rs, h.kept rfl rfl⟩
  trans h h' rs hf := by
    obtain ⟨rs₁, h₁⟩ := h rs hf
    obtain ⟨rs₂, h₂⟩ := h' rs₁ h₁.sound
    exact ⟨rs₂, h₁.trans h₂⟩
  goto f c rs h := ⟨rs, h.kept rfl rfl⟩
  text h rs hf := by
    cases h with
    | empty => exact ⟨rs, hf.kept rfl rfl⟩
    | char => exact ⟨rs, hf.kept rfl rfl⟩
    | long ha =>
        obtain ⟨rs', hkept, -⟩ := hf.allocStr ha
        exact ⟨rs', hkept⟩
  name h rs hf := by
    cases h with
    | @mk _ c _ _ st _ _ hi =>
        have hgoto : Kept _ rs (Front.goto _ c) rs := hf.kept rfl rfl
        obtain ⟨rs', hkept, -⟩ := hgoto.sound.intern hi
        exact ⟨rs', hgoto.trans hkept⟩

end Front

/-! ### Steps of the compiler -/

namespace Compiler

/-- There is no record at first. -/
theorem sound_start (source : Source) {limits : Limits} (hv : limits.validate = .ok ()) :
    (start source limits).front.Sound [] :=
  ⟨Store.ok_ofSize _ (Limits.buckets_pos hv), by rintro _ ⟨⟩⟩

/-- A step that spares the records of names and literals, given that these names have some. -/
def Spares {α : Type} (ids : List Ident) (x : Compile α) : Prop :=
  ∀ (s : Compiler) (a : α) (s' : Compiler) (rs : List Record), x s = .ok a s' → s.front.Sound rs →
    (∀ id ∈ ids, HasIdent rs id) → ∃ rs', Front.Kept s.front rs s'.front rs'

namespace Spares

variable {α β : Type} {ids : List Ident}

/-- The store and the body are left alone. -/
theorem quiet {x : Compile α} (h : ∀ {s a s'}, x s = .ok a s' → s'.front = s.front) :
    Spares ids x := by
  intro s a s' rs hx hs _
  exact ⟨rs, hs.kept (by rw [h hx]) (by rw [h hx])⟩

theorem pure (a : α) : Spares ids (pure a) := .quiet fun h => by cases h; rfl

theorem throw (e : CompileError) : Spares ids (throw e : Compile α) := .quiet fun h => by cases h

theorem bind {x : Compile α} {f : α → Compile β} (hx : Spares ids x) (hf : ∀ a, Spares ids (f a)) :
    Spares ids (x >>= f) := by
  intro s b s' rs h hs hids
  obtain ⟨a, t, ht, h⟩ := Action.bind_eq_ok.1 h
  obtain ⟨rs₁, h₁⟩ := hx s a t rs ht hs hids
  obtain ⟨rs₂, h₂⟩ := hf a t b s' rs₁ h h₁.sound fun id hid => (hids id hid).mono h₁.records
  exact ⟨rs₂, h₁.trans h₂⟩

theorem ite {c : Prop} [Decidable c] {x y : Compile α} (hx : Spares ids x) (hy : Spares ids y) :
    Spares ids (if c then x else y) := by
  split
  · exact hx
  · exact hy

/-- A guard that only fails. -/
theorem guarded {c : Prop} [Decidable c] {x : Compile Unit} {f : Unit → Compile α}
    (hx : Spares ids x) (hf : Spares ids (f ())) : Spares ids (if c then x >>= f else f ()) :=
  .ite (hx.bind fun _ => hf) hf

/-- The names of the open body. -/
def ofBody (body : Option Body) : List Ident := body.elim [] fun b => b.id :: b.locals

/-- The names of the open body are known. -/
theorem get_bind {f : Compiler → Compile α} (h : ∀ s, Spares (ofBody s.body ++ ids) (f s)) :
    Spares ids (get >>= f) := by
  intro s a s' rs hx hs hids
  refine h s s a s' rs hx hs fun id hid => ?_
  obtain hid | hid := List.mem_append.1 hid
  · cases hb : s.body with
    | none => simp [ofBody, hb] at hid
    | some body =>
        rw [hb] at hid
        exact hs.body body hb id hid
  · exact hids id hid

/-- So is a name that has been interned. -/
theorem intern_bind {bs : List UInt8} {f : Ident → Compile α}
    (h : ∀ id, Spares (id :: ids) (f id)) : Spares ids (intern bs >>= f) := by
  intro s a s' rs hx hs hids
  obtain ⟨id, t, ht, hx⟩ := Action.bind_eq_ok.1 hx
  obtain ⟨new, st, hi, rfl⟩ := intern_eq_ok.1 ht
  obtain ⟨rs₁, h₁, hid, -⟩ := hs.intern hi
  obtain ⟨rs₂, h₂⟩ := h id _ a s' rs₁ hx h₁.sound fun id' hid' => by
    obtain rfl | hid' := List.mem_cons.1 hid'
    · exact hid
    · exact (hids id' hid').mono h₁.records
  exact ⟨rs₂, h₁.trans h₂⟩

theorem modifyHeap {f : Heap → Heap} (h : ∀ heap, Heap.Written ids heap (f heap)) :
    Spares ids (modifyHeap f) := by
  intro s a s' rs hx hs hids
  obtain rfl := modifyHeap_eq_ok.1 hx
  obtain ⟨hst, hedited⟩ := hs.store.written hids (h s.store.heap)
  exact ⟨rs, fun _ hr => hr, ⟨hst, hs.body⟩, hedited⟩

/-- A body of known names is opened, extended or closed. -/
theorem setBody {body : Option Body} (h : ∀ id ∈ ofBody body, id ∈ ids) :
    Spares ids (modify fun s => { s with body }) := by
  intro s a s' rs hx hs hids
  cases hx
  refine ⟨rs, fun _ hr => hr, ⟨hs.store, ?_⟩, .refl _⟩
  rintro b rfl id hid
  exact hids id (h id hid)

end Spares

section

variable {α : Type} {ids : List Ident}

theorem spares_read (f : Cursor → α × Cursor) : Spares ids (read f) := by
  intro s a s' rs h hs _
  obtain ⟨-, rfl⟩ := read_eq_ok.1 h
  exact ⟨rs, hs.kept rfl rfl⟩

theorem spares_failHere (cause : Cause) : Spares ids (failHere cause : Compile α) :=
  .quiet fun h => by cases h

theorem spares_failWanting (wanted : Wanted) : Spares ids (failWanting wanted : Compile α) :=
  (spares_read _).bind fun _ => .ite (spares_failHere _) (spares_failHere _)

theorem spares_symbol (b : UInt8) : Spares ids (symbol b) := spares_read _

theorem spares_expect (b : UInt8) : Spares ids (expect b) :=
  (spares_symbol b).bind fun _ => .ite (.pure _) (spares_failWanting _)

theorem spares_name (wanted : Wanted) : Spares ids (name wanted) := by
  refine (spares_read _).bind fun w => ?_
  cases w with
  | none => exact spares_failWanting _
  | some w => exact .guarded (.throw _) (.pure _)

theorem spares_onCode (act : CodeBuffer.Action α) : Spares ids (onCode act) :=
  .quiet fun h => by
    obtain ⟨b, -, rfl⟩ := onCode_eq_ok.1 h
    rfl

theorem spares_emitOpByte (op : Opcode) (b : UInt8) : Spares ids (emitOpByte op b) :=
  (spares_onCode _).bind fun _ => spares_onCode _

theorem spares_emitOpWord (op : Opcode) (w : UInt16) : Spares ids (emitOpWord op w) :=
  (spares_onCode _).bind fun _ => spares_onCode _

theorem spares_emitCall (op : Opcode) (n : UInt8) (id : Ident) : Spares ids (emitCall op n id) :=
  (spares_onCode _).bind fun _ => (spares_onCode _).bind fun _ => spares_onCode _

theorem spares_valueOf (id : Ident) : Spares ids (valueOf id) := .quiet fun h => by
  obtain ⟨-, rfl⟩ := valueOf_eq_ok.1 h
  rfl

theorem spares_slotOf (id : Ident) : Spares ids (slotOf id) := by
  refine .get_bind fun s => ?_
  cases s.body <;> exact .pure _

theorem spares_argumentCount (n : Nat) (w : WordToken) : Spares ids (argumentCount n w) :=
  .ite (.pure _) (.throw _)

theorem spares_pushBlock (c : Construct) (w : WordToken) : Spares ids (pushBlock c w) :=
  .quiet fun h => by rw [pushBlock_ok h]; rfl

theorem spares_pushForward (f : Fixup) : Spares ids (pushForward f) :=
  .quiet fun h => by rw [pushForward_ok h]; rfl

theorem spares_pushLoopExit (f : Fixup) : Spares ids (pushLoopExit f) :=
  .quiet fun h => by rw [pushLoopExit_ok h]; rfl

theorem spares_beginLoop : Spares ids beginLoop :=
  .quiet fun h => by rw [beginLoop_ok h]; rfl

theorem spares_popBlock (w : WordToken) (opener : Construct) (others : List Construct) :
    Spares ids (popBlock w opener others) :=
  .quiet fun h => by
    obtain ⟨block, blocks, -, -, rfl⟩ := popBlock_ok h
    rfl

theorem spares_popForward : Spares ids popForward :=
  .quiet fun h => by
    obtain ⟨fixups, -, rfl⟩ := popForward_ok h
    rfl

theorem spares_patchExits (n : Nat) : Spares ids (patchExits n) := by
  induction n generalizing ids with
  | zero => exact .pure _
  | succ n ih =>
      refine .get_bind fun s => ?_
      cases s.loopExits.top? with
      | none => exact .pure _
      | some f =>
          refine .bind (.quiet fun h => ?_) fun _ => (spares_onCode _).bind fun _ => ih
          cases h
          rfl

theorem spares_endLoop (op : Opcode) : Spares ids (endLoop op) := by
  have pop {f : Compiler → Compiler} (hf : ∀ s, (f s).front = s.front) {ids : List Ident} :
      Spares ids (modify f) := .quiet fun h => by cases h; exact hf _
  refine .get_bind fun s => ?_
  cases s.loopStarts.top? with
  | none => exact spares_failHere _
  | some start =>
      exact .bind (pop fun _ => by rfl) fun _ => (spares_onCode _).bind fun _ => .get_bind fun s =>
        (spares_patchExits _).bind fun _ => pop fun _ => by rfl

/-! ### Statements -/

theorem spares_expression : Spares ids expression := by
  intro s a s' rs h hs _
  obtain ⟨e, f, he, rfl⟩ := expression_ok h
  exact Front.steady_kept.expression he rs hs

theorem spares_arguments : Spares ids arguments := by
  intro s a s' rs h hs _
  obtain ⟨es, f, hes, -, rfl⟩ := arguments_ok h
  exact Front.steady_kept.operands hes rs hs

theorem spares_redefinition (v : Value) (w : WordToken) :
    Spares ids (redefinition v w : Compile α) := by
  unfold redefinition
  split <;> exact .throw _

theorem spares_declareLocal {id : Ident} (hid : id ∈ ids) (w : WordToken) :
    Spares ids (declareLocal id w) := by
  refine (spares_valueOf id).bind fun v =>
    .guarded (spares_redefinition _ _) (.get_bind fun s => ?_)
  cases s.body with
  | none => exact .throw _
  | some body =>
      have hid : id ∈ Spares.ofBody (some body) ++ ids := List.mem_append_right _ hid
      have hbody : ∀ id ∈ body.id :: body.locals, id ∈ Spares.ofBody (some body) ++ ids :=
        fun id hid => List.mem_append_left _ hid
      refine .guarded (.throw _) (.bind (.setBody fun id' hid' => ?_) fun _ =>
        .bind (.modifyHeap fun h => ?_) fun _ => .pure _)
      · simp only [Spares.ofBody, Option.elim, List.mem_cons, List.mem_append, List.not_mem_nil,
          or_false] at hid'
        obtain rfl | hlocal | rfl := hid'
        · exact hbody _ List.mem_cons_self
        · exact hbody _ (List.mem_cons_of_mem _ hlocal)
        · exact hid
      · exact (Heap.Written.refl.setIdentSlot hid _).setIdentSlot (hbody _ List.mem_cons_self) _

theorem spares_assign {id : Ident} (hid : id ∈ ids) (w : WordToken) : Spares ids (assign id w) := by
  refine .get_bind fun s => ?_
  cases s.body with
  | none =>
      exact (spares_valueOf id).bind fun v =>
        .guarded (spares_redefinition _ _) (spares_emitOpWord _ _)
  | some body =>
      refine (spares_slotOf id).bind fun slot => ?_
      cases slot with
      | some k => exact spares_emitOpByte _ _
      | none =>
          exact (spares_declareLocal (List.mem_append_right _ hid) w).bind fun _ =>
            spares_emitOpByte _ _

theorem spares_inputStatement (n : Nat) : Spares ids (inputStatement n) := by
  induction n generalizing ids with
  | zero => exact spares_failHere _
  | succ n ih =>
      exact (spares_name _).bind fun w => .intern_bind fun id => (spares_onCode _).bind fun _ =>
        (spares_assign List.mem_cons_self _).bind fun _ => (spares_symbol _).bind fun _ =>
          .ite ih (.pure _)

theorem spares_parameters (n : Nat) : Spares ids (parameters n) := by
  induction n generalizing ids with
  | zero => exact spares_failHere _
  | succ n ih =>
      exact (spares_name _).bind fun w => .intern_bind fun id => (spares_slotOf _).bind fun _ =>
        .guarded (.throw _) ((spares_declareLocal List.mem_cons_self _).bind fun _ =>
          (spares_symbol _).bind fun _ => .ite ih (.pure _))

theorem spares_parameterList : Spares ids parameterList := by
  refine (spares_expect _).bind fun _ => (spares_symbol _).bind fun _ => .ite (.pure _) ?_
  exact .get_bind fun s => (spares_parameters _).bind fun _ => spares_expect _

theorem spares_bodyStatement (isFunc : Bool) (w : WordToken) :
    Spares ids (bodyStatement isFunc w) := by
  refine .get_bind fun s₀ => .guarded (.throw _) ?_
  refine (spares_pushBlock _ _).bind fun _ => (spares_onCode _).bind fun _ =>
    (spares_pushForward _).bind fun _ => (spares_name _).bind fun v => .intern_bind fun id => ?_
  refine (spares_valueOf _).bind fun _ => .guarded (.throw _) (.get_bind fun s =>
    .guarded (spares_failHere _) ?_)
  have hid (known : List Ident) : id ∈ known ++ id :: (Spares.ofBody s₀.body ++ ids) := by simp
  refine .bind (.modifyHeap fun h => ?_) fun _ => .bind (.setBody fun id' hid' => ?_) fun _ =>
    spares_parameterList.bind fun _ => .get_bind fun s' => .modifyHeap fun h => ?_
  · exact (Heap.Written.refl.setIdentValue (hid _) _).setIdentSlot (hid _) _
  · obtain rfl : id' = id := by simpa [Spares.ofBody] using hid'
    exact hid _
  · exact Heap.Written.refl.setIdentArguments (List.mem_append_right _ (hid _)) _

theorem spares_returnStatement (w : WordToken) : Spares ids (returnStatement w) := by
  refine .get_bind fun s => ?_
  cases s.body with
  | none => exact .throw _
  | some body =>
      refine (spares_read _).bind fun bare => .ite ?_ ?_
      · exact .guarded (.throw _) (spares_expression.bind fun _ => spares_onCode _)
      · exact .ite (spares_onCode _) ((spares_failHere _).bind fun _ => spares_onCode _)

theorem spares_endStatement (w : WordToken) : Spares ids (endStatement w) := by
  refine (spares_popBlock _ _ _).bind fun _ => .get_bind fun s => ?_
  cases s.body with
  | none => exact .throw _
  | some body =>
      refine .bind (.setBody fun id hid => ?_) fun _ => (spares_onCode _).bind fun _ =>
        .bind (.modifyHeap fun h => Heap.Written.refl.clearSlots fun id hid => ?_) fun _ =>
          spares_popForward.bind fun _ => spares_onCode _
      · cases hid
      · exact List.mem_append_left _ (List.mem_cons_of_mem _ hid)

theorem spares_controlStatement (op : Opcode) (w : WordToken) :
    Spares ids (controlStatement op w) := by
  unfold controlStatement
  split
  · exact (spares_pushBlock _ _).bind fun _ => spares_expression.bind fun _ =>
      (spares_onCode _).bind fun _ => spares_pushForward _
  · exact (spares_popBlock _ _ _).bind fun _ => (spares_pushBlock _ _).bind fun _ =>
      spares_popForward.bind fun _ => .get_bind fun _ => (spares_onCode _).bind fun _ =>
        (spares_onCode _).bind fun _ => spares_pushForward _
  · exact (spares_popBlock _ _ _).bind fun _ => spares_popForward.bind fun _ => spares_onCode _
  · exact (spares_pushBlock _ _).bind fun _ => spares_beginLoop.bind fun _ =>
      spares_expression.bind fun _ => (spares_onCode _).bind fun _ => spares_pushLoopExit _
  · exact (spares_popBlock _ _ _).bind fun _ => spares_endLoop _
  · exact (spares_pushBlock _ _).bind fun _ => spares_beginLoop
  · exact (spares_popBlock _ _ _).bind fun _ => spares_expression.bind fun _ => spares_endLoop _
  · exact .get_bind fun _ => .guarded (.throw _) ((spares_onCode _).bind fun _ =>
      spares_pushLoopExit _)
  · exact spares_bodyStatement _ _
  · exact spares_bodyStatement _ _
  · exact spares_returnStatement _
  · exact spares_endStatement _

theorem spares_statementAt (w : WordToken) : Spares ids (statementAt w) := by
  refine .bind (.quiet fun h => by cases h; rfl) fun _ => ?_
  split
  · exact spares_onCode _
  · exact spares_arguments.bind fun _ => (spares_argumentCount _ _).bind fun _ =>
      spares_emitOpByte _ _
  · exact .get_bind fun _ => spares_inputStatement _
  · exact spares_controlStatement _ _
  · exact .throw _
  · refine .intern_bind fun id => (spares_symbol _).bind fun _ => .ite ?_ ?_
    · exact spares_expression.bind fun _ => spares_assign List.mem_cons_self _
    · exact spares_arguments.bind fun _ => (spares_argumentCount _ _).bind fun _ =>
        spares_emitCall _ _ _

theorem spares_statements (n : Nat) : Spares ids (statements n) := by
  induction n with
  | zero => exact spares_failHere _
  | succ n ih =>
      refine (spares_read _).bind fun _ => .ite (.pure _) ?_
      refine .bind ((spares_read _).bind fun w => ?_) fun _ => (spares_symbol _).bind fun _ =>
        .ite ih ((spares_read _).bind fun _ => .ite (spares_failHere _) (spares_failHere _))
      cases w with
      | none => exact spares_failHere _
      | some w => exact spares_statementAt w

end

end Compiler

end CellScript
