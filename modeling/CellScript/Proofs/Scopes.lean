import CellScript.Proofs.Grammar
import CellScript.Proofs.Names
import CellScript.Proofs.Vocabulary

/-!
What a tree may rely on.

A tree names records of the store and slots of frames. It is `Fine` for a list of
records and a scope when every name in it has its record, every long literal has
its record, every slot exists in the body around, operations have as many operands
as they take, and the statements that only make sense in a body stand in one of
the right kind. All of this is checked nowhere: it holds because of the way texts
are read. The module shows it along the grammar, together with what the entries of
the names say in between (`Front.Ok`): that of a definition what the definition
declares, that of a local its position, and every other entry nothing.
-/

namespace CellScript

/-! ### Fine trees -/

/-- The kind of the body around and the number of its slots; `none` outside of bodies. -/
abbrev Scope := Option (Bool × Nat)

/-- The same body with more slots perhaps. -/
def Scope.Le : Scope → Scope → Prop
  | none, none => True
  | some (isFunc, n), some (isFunc', n') => isFunc' = isFunc ∧ n ≤ n'
  | _, _ => False

theorem Scope.Le.refl (sc : Scope) : Scope.Le sc sc := by
  cases sc with
  | none => trivial
  | some p => exact ⟨rfl, Nat.le_refl _⟩

theorem Scope.Le.trans {a b c : Scope} (h : Scope.Le a b) (h' : Scope.Le b c) : Scope.Le a c := by
  cases a <;> cases b <;> cases c <;> simp only [Scope.Le] at h h' ⊢
  exact ⟨h'.1.trans h.1, Nat.le_trans h.2 h'.2⟩

theorem Scope.Le.eq_some {isFunc : Bool} {n : Nat} {sc : Scope}
    (h : Scope.Le (some (isFunc, n)) sc) : ∃ m, sc = some (isFunc, m) ∧ n ≤ m := by
  cases sc with
  | none => exact False.elim h
  | some p =>
      obtain ⟨isFunc', m⟩ := p
      obtain ⟨rfl, hm⟩ := h
      exact ⟨m, rfl, hm⟩

def Place.Fine (rs : List Record) (sc : Scope) : Place → Prop
  | global id => HasIdent rs id
  | slot k => ∃ isFunc n, sc = some (isFunc, n) ∧ k.toNat < n

/-- Records of names are written only outside of bodies. -/
def Place.Writable (rs : List Record) (sc : Scope) : Place → Prop
  | global id => sc = none ∧ HasIdent rs id
  | slot k => ∃ isFunc n, sc = some (isFunc, n) ∧ k.toNat < n

def Literal.Fine (rs : List Record) : Literal → Prop
  | long offset => HasText rs offset
  | _ => True

mutual

def Expr.Fine (rs : List Record) (sc : Scope) : Expr → Prop
  | .literal l => l.Fine rs
  | .name p => p.Fine rs sc
  | .apply op args => op.arity? = some args.length ∧ Expr.FineAll rs sc args
  | .array elems => elems.length ≤ 255 ∧ Expr.FineAll rs sc elems
  | .call id args => HasIdent rs id ∧ args.length ≤ 255 ∧ Expr.FineAll rs sc args

def Expr.FineAll (rs : List Record) (sc : Scope) : List Expr → Prop
  | [] => True
  | e :: es => Expr.Fine rs sc e ∧ Expr.FineAll rs sc es

end

def Stmt.Fine (rs : List Record) (sc : Scope) : Stmt → Prop
  | skip | exitLoop | halt => True
  | seq s t => s.Fine rs sc ∧ t.Fine rs sc
  | assign p e => e.Fine rs sc ∧ p.Writable rs sc
  | print es => es.length ≤ 255 ∧ Expr.FineAll rs sc es
  | input ps => ∀ p ∈ ps, p.Writable rs sc
  | perform id args => HasIdent rs id ∧ args.length ≤ 255 ∧ Expr.FineAll rs sc args
  | ifThen c s | whileDo c s | repeatUntil s c => c.Fine rs sc ∧ s.Fine rs sc
  | ifElse c s t => c.Fine rs sc ∧ s.Fine rs sc ∧ t.Fine rs sc
  | returnValue e => e.Fine rs sc ∧ ∃ n, sc = some (true, n)
  | returnBare => ∃ n, sc = some (false, n)
  | define d s =>
      sc = none ∧ d.params ≤ d.slots ∧ d.slots ≤ 255 ∧ s.Fine rs (some (d.isFunc, d.slots))

section

variable {rs rs' : List Record} {sc sc' : Scope} (hr : ∀ r ∈ rs, r ∈ rs') (hs : Scope.Le sc sc')

include hr in
theorem Literal.Fine.mono {l : Literal} (h : l.Fine rs) : l.Fine rs' := by
  cases l with
  | long offset =>
      obtain ⟨n, hlen, hn⟩ := h
      exact ⟨n, hlen, hr _ hn⟩
  | _ => trivial

include hs in
theorem Scope.Le.slot {k : UInt8} (h : ∃ isFunc n, sc = some (isFunc, n) ∧ k.toNat < n) :
    ∃ isFunc n, sc' = some (isFunc, n) ∧ k.toNat < n := by
  obtain ⟨isFunc, n, rfl, hk⟩ := h
  cases sc' with
  | none => exact False.elim hs
  | some p => exact ⟨p.1, p.2, rfl, Nat.lt_of_lt_of_le hk hs.2⟩

include hr hs in
theorem Place.Fine.mono {p : Place} (h : p.Fine rs sc) : p.Fine rs' sc' := by
  cases p with
  | global id => exact HasIdent.mono hr h
  | slot k => exact hs.slot h

include hr hs in
theorem Place.Writable.mono {p : Place} (h : p.Writable rs sc) : p.Writable rs' sc' := by
  cases p with
  | global id =>
      obtain ⟨rfl, hid⟩ := h
      cases sc' with
      | none => exact ⟨rfl, HasIdent.mono hr hid⟩
      | some p => exact False.elim hs
  | slot k => exact hs.slot h

end

mutual

theorem Expr.Fine.mono {rs rs' : List Record} {sc sc' : Scope} (hr : ∀ r ∈ rs, r ∈ rs')
    (hs : Scope.Le sc sc') : ∀ {e : Expr}, e.Fine rs sc → e.Fine rs' sc'
  | .literal _, h => Literal.Fine.mono hr h
  | .name _, h => Place.Fine.mono hr hs h
  | .apply _ _, h => ⟨h.1, Expr.FineAll.mono hr hs h.2⟩
  | .array _, h => ⟨h.1, Expr.FineAll.mono hr hs h.2⟩
  | .call _ _, h => ⟨HasIdent.mono hr h.1, h.2.1, Expr.FineAll.mono hr hs h.2.2⟩

theorem Expr.FineAll.mono {rs rs' : List Record} {sc sc' : Scope} (hr : ∀ r ∈ rs, r ∈ rs')
    (hs : Scope.Le sc sc') : ∀ {es : List Expr}, Expr.FineAll rs sc es → Expr.FineAll rs' sc' es
  | [], _ => trivial
  | _ :: _, h => ⟨Expr.Fine.mono hr hs h.1, Expr.FineAll.mono hr hs h.2⟩

end

theorem Stmt.Fine.mono {rs rs' : List Record} {sc sc' : Scope} (hr : ∀ r ∈ rs, r ∈ rs')
    (hs : Scope.Le sc sc') {s : Stmt} (h : s.Fine rs sc) : s.Fine rs' sc' := by
  induction s generalizing sc sc' with
  | skip | exitLoop | halt => trivial
  | seq s t ihs iht => exact ⟨ihs hs h.1, iht hs h.2⟩
  | assign p e => exact ⟨h.1.mono hr hs, h.2.mono hr hs⟩
  | print es => exact ⟨h.1, h.2.mono hr hs⟩
  | input ps => exact fun p hp => (h p hp).mono hr hs
  | perform id args => exact ⟨h.1.mono hr, h.2.1, h.2.2.mono hr hs⟩
  | ifThen c s ih | whileDo c s ih | repeatUntil s c ih => exact ⟨h.1.mono hr hs, ih hs h.2⟩
  | ifElse c s t ihs iht => exact ⟨h.1.mono hr hs, ihs hs h.2.1, iht hs h.2.2⟩
  | returnValue e =>
      refine ⟨h.1.mono hr hs, ?_⟩
      obtain ⟨n, rfl⟩ := h.2
      obtain ⟨m, hm, -⟩ := hs.eq_some
      exact ⟨m, hm⟩
  | returnBare =>
      obtain ⟨n, rfl⟩ := h
      obtain ⟨m, hm, -⟩ := hs.eq_some
      exact ⟨m, hm⟩
  | define d s ih =>
      obtain ⟨rfl, hparams, hslots, hs'⟩ := h
      cases sc' with
      | none => exact ⟨rfl, hparams, hslots, ih (Scope.Le.refl _) hs'⟩
      | some p => exact False.elim hs

/-! ### Entries while reading -/

/-- What the record of a definition says, when its code begins at an address. -/
def Definition.entry (d : Definition) (a : Nat) : Entry :=
  ⟨if d.isFunc then .func (UInt16.ofNat a) else .proc (UInt16.ofNat a), UInt8.ofNat d.slots,
    UInt8.ofNat d.params⟩

theorem Definition.isBody_entry (d : Definition) (a : Nat) :
    Compiler.isBody (d.entry a).value = true := by
  unfold entry
  cases d.isFunc <;> rfl

namespace Front

def scope (f : Front) : Scope := f.body.map fun b => (b.isFunc, b.locals.length)

/-- What the open body says of names that no complete definition has. Its code begins at `a`,
and its parameters are `n`. -/
def expected (f : Front) (a n : Nat) (id : Ident) : Entry :=
  match f.body with
  | none => .fresh
  | some body =>
      if id = body.id then
        (⟨body.id, body.isFunc, n, body.locals.length⟩ : Definition).entry a
      else if id ∈ body.locals then ⟨.unset, UInt8.ofNat (body.locals.idxOf id), 0⟩
      else .fresh

/-- The state of the store while a text is read: `rs` are its records and `ds` the definitions
that are complete, with the addresses of their code. -/
structure Ok (f : Front) (rs : List Record) (ds : List (Definition × Nat)) (a n : Nat) : Prop where
  store : f.store.Ok rs
  maxSlots : f.maxSlots ≤ 255
  defined : ∀ d ∈ ds, HasIdent rs d.1.id ∧ f.store.heap.entry d.1.id = d.1.entry d.2
  others : ∀ id, HasIdent rs id → (∀ d ∈ ds, d.1.id ≠ id) →
    f.store.heap.entry id = f.expected a n id
  body : ∀ body, f.body = some body → HasIdent rs body.id ∧ (∀ d ∈ ds, d.1.id ≠ body.id) ∧
    body.locals.length ≤ f.maxSlots ∧
    ∀ id ∈ body.locals, HasIdent rs id ∧ id ≠ body.id ∧ ∀ d ∈ ds, d.1.id ≠ id

/-- One place comes after another one. -/
structure Later (f : Front) (rs : List Record) (f' : Front) (rs' : List Record) : Prop where
  records : ∀ r ∈ rs, r ∈ rs'
  scope : Scope.Le f.scope f'.scope

variable {f g k : Front} {rs rs₁ rs₂ : List Record} {ds : List (Definition × Nat)} {a n : Nat}

theorem Later.trans (h : Later f rs g rs₁) (h' : Later g rs₁ k rs₂) : Later f rs k rs₂ :=
  ⟨fun r hr => h'.records r (h.records r hr), h.scope.trans h'.scope⟩

theorem Later.same (hs : g.scope = f.scope) (hr : ∀ r ∈ rs, r ∈ rs₁) : Later f rs g rs₁ :=
  ⟨hr, by rw [hs]; exact Scope.Le.refl _⟩

theorem Ok.goto (h : f.Ok rs ds a n) (c : Cursor) : (f.goto c).Ok rs ds a n :=
  ⟨h.store, h.maxSlots, h.defined, h.others, h.body⟩

/-- A new store with more records, in which entries are kept and new ones are fresh. -/
theorem Ok.withStore (h : f.Ok rs ds a n) (st : Store) (hst : st.Ok rs₁)
    (hr : ∀ r ∈ rs, r ∈ rs₁)
    (hold : ∀ id, HasIdent rs id → st.heap.entry id = f.store.heap.entry id)
    (hnew : ∀ id, HasIdent rs₁ id → HasIdent rs id ∨ st.heap.entry id = .fresh) :
    (f.withStore st).Ok rs₁ ds a n where
  store := hst
  maxSlots := h.maxSlots
  defined d hd := by
    obtain ⟨hid, he⟩ := h.defined d hd
    exact ⟨hid.mono hr, (hold _ hid).trans he⟩
  others id hid hds := by
    by_cases hrs : HasIdent rs id
    · exact (hold id hrs).trans (h.others id hrs hds)
    · -- A name without a record before is neither the open body nor one of its locals.
      obtain hid | he := hnew id hid
      · exact absurd hid hrs
      · rw [show (f.withStore st).store = st from rfl, he, expected]
        cases hb : (f.withStore st).body with
        | none => rfl
        | some body =>
            obtain ⟨hbody, -, -, hlocals⟩ := h.body body hb
            have h₁ : id ≠ body.id := by
              rintro rfl
              exact hrs hbody
            have h₂ : id ∉ body.locals := fun hm => hrs (hlocals id hm).1
            simp only [h₁, h₂, if_false]
  body body hb := by
    obtain ⟨hid, hds, hlen, hlocals⟩ := h.body body hb
    exact ⟨hid.mono hr, hds, hlen, fun id hm => ⟨(hlocals id hm).1.mono hr, (hlocals id hm).2⟩⟩

end Front

/-- A string record is added: nothing else changes. -/
theorem Store.Ok.allocStr {s : Store} {rs : List Record} (h : s.Ok rs) {data : List UInt8}
    {o : UInt16} {heap : Heap} (ha : Heap.allocStr data s.heap = .ok o heap) :
    Store.Ok ⟨heap, s.buckets⟩ (⟨.text, o.toNat, data.length⟩ :: rs) ∧
      (∀ r ∈ rs, r ∈ ⟨.text, o.toNat, data.length⟩ :: rs) ∧
      (∀ id, HasIdent rs id → heap.entry id = s.heap.entry id) ∧
      ∀ id, HasIdent (⟨.text, o.toNat, data.length⟩ :: rs) id → HasIdent rs id := by
  obtain ⟨hgrow, hledger⟩ := Heap.allocStr_ok h.ledger ha
  have hr : ∀ r ∈ rs, r ∈ ⟨.text, o.toNat, data.length⟩ :: rs :=
    fun _ hr => List.mem_cons_of_mem _ hr
  have hident : ∀ id, HasIdent (⟨.text, o.toNat, data.length⟩ :: rs) id → HasIdent rs id := by
    rintro id ⟨m, hm⟩
    obtain hm | hm := List.mem_cons.1 hm
    · cases hm
    · exact ⟨m, hm⟩
  have hword {id : Ident} (hid : HasIdent rs id) :
      heap.word id.offset.toNat = s.heap.word id.offset.toNat := by
    have hw := (h.ledger.ident_within hid).2
    simp only [Ident.nameField] at hw
    exact hgrow.word (by omega)
  refine ⟨⟨hledger, ?_, ?_, ?_, h.bucketed, ?_⟩, hr,
    fun id hid => hgrow.entry (h.ledger.ident_within hid).2, hident⟩
  · intro r hr
    obtain rfl | hr := List.mem_cons.1 hr
    · simp
    · exact h.kinds r hr
  · exact fun b => (h.buckets b).imp_right (HasIdent.mono hr)
  · intro id hid
    rw [hword (hident id hid)]
    exact (h.links id (hident id hid)).imp_right fun hl => ⟨hl.1.mono hr, hl.2⟩
  · intro id hid
    obtain ⟨b, hb, hl⟩ := h.listed id (hident id hid)
    exact ⟨b, hb, h.leads (fun _ hid _ => hword hid) hl (h.buckets b)⟩

namespace Grammar

open Front

variable {f f' : Front} {rs : List Record} {ds : List (Definition × Nat)} {a n : Nat}

theorem Name.ok {id : Ident} (h : Name f id f') (hf : f.Ok rs ds a n) :
    ∃ rs', Later f rs f' rs' ∧ f'.Ok rs' ds a n ∧ HasIdent rs' id := by
  cases h with
  | @mk w c _ new st hw hk hi =>
      obtain ⟨rs', hst, hr, hid, hold, hnew⟩ := hf.store.intern hi
      exact ⟨rs', .same rfl hr, (hf.goto c).withStore st hst hr hold hnew, hid⟩

theorem Text.ok {t : StringToken} {l : Literal} (h : Text f t l f') (hf : f.Ok rs ds a n)
    (ht : ∀ start raw length, t = .long start raw length →
      2 ≤ (StringLiteral.unescape raw).length) :
    ∃ rs', Later f rs f' rs' ∧ f'.Ok rs' ds a n ∧ l.Fine rs' := by
  cases h with
  | empty => exact ⟨rs, .same rfl fun _ h => h, hf, trivial⟩
  | char => exact ⟨rs, .same rfl fun _ h => h, hf, trivial⟩
  | @long start length raw offset heap ha =>
      obtain ⟨hok, hr, hold, hnew⟩ := hf.store.allocStr ha
      exact ⟨_, .same rfl hr, hf.withStore ⟨heap, f.store.buckets⟩ hok hr hold
        fun id hid => .inl (hnew id hid), _, ht _ _ _ rfl, List.mem_cons_self ..⟩

theorem Mark.ok {b : UInt8} (h : Mark b f f') (hf : f.Ok rs ds a n) :
    Later f rs f' rs ∧ f'.Ok rs ds a n := by
  cases h
  exact ⟨.same rfl fun _ h => h, hf.goto _⟩

theorem NoMark.ok {b : UInt8} (h : NoMark b f f') (hf : f.Ok rs ds a n) :
    Later f rs f' rs ∧ f'.Ok rs ds a n := by
  cases h
  exact ⟨.same rfl fun _ h => h, hf.goto _⟩

theorem Reserved.ok {k : Keyword} (h : Reserved k f f') (hf : f.Ok rs ds a n) :
    Later f rs f' rs ∧ f'.Ok rs ds a n := by
  cases h
  exact ⟨.same rfl fun _ h => h, hf.goto _⟩

theorem Reserved.coherent {k : Keyword} (h : Reserved k f f') : Keyword.coherent k = true := by
  cases h with
  | mk _ hk => exact Keyword.coherent_of_lookup? hk

theorem fine_resolve {id : Ident} (hf : f.Ok rs ds a n) (hid : HasIdent rs id) :
    (f.resolve id).Fine rs f.scope := by
  unfold Front.resolve
  cases hb : f.body with
  | none => exact hid
  | some body =>
      obtain ⟨hbody, -, hlen, hlocals⟩ := hf.body body hb
      by_cases hm : id ∈ body.locals
      · -- The slot of a local is its position.
        obtain ⟨-, hne, hds⟩ := hlocals id hm
        have hentry := hf.others id hid hds
        simp only [expected, hb, if_neg hne, if_pos hm] at hentry
        have hslot : f.store.heap.identSlot id = UInt8.ofNat (body.locals.idxOf id) :=
          congrArg Entry.slot hentry
        have hlt := List.idxOf_lt_length_iff.2 hm
        have hmax := hf.maxSlots
        simp only [List.contains_eq_mem, hm, decide_true, if_true, Place.Fine, scope, hb,
          Option.map_some]
        refine ⟨body.isFunc, body.locals.length, rfl, ?_⟩
        rw [hslot, UInt8.toNat_ofNat']
        omega
      · show Place.Fine rs f.scope (if body.locals.contains id then _ else _)
        rw [if_neg (by simpa using hm)]
        exact hid

mutual

theorem Level.ok {k : Nat} {f f' : Front} {e : Expr} {ds : List (Definition × Nat)} {a n : Nat} :
    Level k f e f' → ∀ {rs}, f.Ok rs ds a n →
      ∃ rs', Later f rs f' rs' ∧ f'.Ok rs' ds a n ∧ e.Fine rs' f'.scope
  | .tighter h, _, hf => Level.ok h hf
  | .binary h₁ ht h₂, _, hf => by
      obtain ⟨rs₁, l₁, ok₁, fine₁⟩ := Level.ok h₁ hf
      obtain ⟨rs₂, l₂, ok₂, fine₂⟩ := Level.ok h₂ (ok₁.goto _)
      refine ⟨rs₂, l₁.trans ⟨l₂.records, l₂.scope⟩, ok₂, ?_, ?_, fine₂, trivial⟩
      · exact (Cursor.binaryOperator_some ht).2
      · exact fine₁.mono l₂.records l₂.scope
  | .unary ht h, _, hf => by
      obtain ⟨rs₁, l₁, ok₁, fine₁⟩ := Level.ok h (hf.goto _)
      exact ⟨rs₁, ⟨l₁.records, l₁.scope⟩, ok₁, (Cursor.unaryOperator_some ht).2, fine₁, trivial⟩
  | .operand _ h, _, hf => by
      obtain ⟨rs₁, l₁, ok₁, fine₁⟩ := Operand.ok h (hf.goto _)
      exact ⟨rs₁, ⟨l₁.records, l₁.scope⟩, ok₁, fine₁⟩

theorem Operand.ok {f f' : Front} {e : Expr} {ds : List (Definition × Nat)} {a n : Nat} :
    Operand f e f' → ∀ {rs}, f.Ok rs ds a n →
      ∃ rs', Later f rs f' rs' ∧ f'.Ok rs' ds a n ∧ e.Fine rs' f'.scope
  | .group h₁ h₂ h₃, _, hf => by
      obtain ⟨l₁, ok₁⟩ := h₁.ok hf
      obtain ⟨rs₂, l₂, ok₂, fine₂⟩ := Expression.ok h₂ ok₁
      obtain ⟨l₃, ok₃⟩ := h₃.ok ok₂
      exact ⟨rs₂, l₁.trans (l₂.trans l₃), ok₃, fine₂.mono l₃.records l₃.scope⟩
  | .array h₁ h₂ hlen, _, hf => by
      obtain ⟨l₁, ok₁⟩ := h₁.ok hf
      obtain ⟨rs₂, l₂, ok₂, fine₂⟩ := Listed.ok h₂ ok₁
      exact ⟨rs₂, l₁.trans l₂, ok₂, hlen, fine₂⟩
  | .number (t := t) (c := c) _, rs, hf => by
      refine ⟨rs, .same rfl fun _ h => h, hf.goto c, ?_⟩
      cases t.value <;> trivial
  | .text ht h, _, hf => by
      obtain ⟨rs₁, l₁, ok₁, fine₁⟩ := h.ok (hf.goto _) fun _ _ _ hlong =>
        Cursor.string_long (hlong ▸ ht)
      exact ⟨rs₁, ⟨l₁.records, l₁.scope⟩, ok₁, fine₁⟩
  | .yes h, rs, hf => ⟨rs, (h.ok hf).1, (h.ok hf).2, trivial⟩
  | .no h, rs, hf => ⟨rs, (h.ok hf).1, (h.ok hf).2, trivial⟩
  | .builtin h₁ h₂ h₃, _, hf => by
      obtain ⟨l₁, ok₁⟩ := h₁.ok hf
      obtain ⟨l₂, ok₂⟩ := h₂.ok ok₁
      obtain ⟨rs₃, l₃, ok₃, fine₃⟩ := Listed.ok h₃ ok₂
      refine ⟨rs₃, l₁.trans (l₂.trans l₃), ok₃, ?_, fine₃⟩
      simpa [Keyword.coherent] using h₁.coherent
  | .call h₁ h₂ h₃ hlen, _, hf => by
      obtain ⟨rs₁, l₁, ok₁, hid⟩ := h₁.ok hf
      obtain ⟨l₂, ok₂⟩ := h₂.ok ok₁
      obtain ⟨rs₃, l₃, ok₃, fine₃⟩ := Listed.ok h₃ ok₂
      exact ⟨rs₃, l₁.trans (l₂.trans l₃), ok₃, hid.mono l₃.records, hlen, fine₃⟩
  | .variable h₁ h₂ h₃, _, hf => by
      obtain ⟨rs₁, l₁, ok₁, hid⟩ := h₁.ok hf
      obtain ⟨l₂, ok₂⟩ := h₂.ok ok₁
      obtain ⟨rs₃, l₃, ok₃, fine₃⟩ := Indexed.ok h₃ ok₂ (fine_resolve ok₂ hid)
      exact ⟨rs₃, l₁.trans (l₂.trans l₃), ok₃, fine₃⟩

theorem Indexed.ok {f f' : Front} {e e' : Expr} {ds : List (Definition × Nat)} {a n : Nat} :
    Indexed e f e' f' → ∀ {rs}, f.Ok rs ds a n → e.Fine rs f.scope →
      ∃ rs', Later f rs f' rs' ∧ f'.Ok rs' ds a n ∧ e'.Fine rs' f'.scope
  | .done h, rs, hf, he => by
      obtain ⟨l, ok⟩ := h.ok hf
      exact ⟨rs, l, ok, he.mono l.records l.scope⟩
  | .index h₁ h₂ h₃ h₄ h₅, _, hf, he => by
      obtain ⟨l₁, ok₁⟩ := h₁.ok hf
      obtain ⟨rs₂, l₂, ok₂, fine₂⟩ := Expression.ok h₂ ok₁
      obtain ⟨l₃, ok₃⟩ := h₃.ok ok₂
      obtain ⟨l₄, ok₄⟩ := h₄.ok ok₃
      have l := l₁.trans (l₂.trans (l₃.trans l₄))
      have l' := l₃.trans l₄
      obtain ⟨rs₅, l₅, ok₅, fine₅⟩ := Indexed.ok h₅ ok₄
        ⟨rfl, he.mono l.records l.scope, fine₂.mono l'.records l'.scope, trivial⟩
      exact ⟨rs₅, l.trans l₅, ok₅, fine₅⟩
  | .range h₁ h₂ h₃ h₄ h₅ h₆, _, hf, he => by
      obtain ⟨l₁, ok₁⟩ := h₁.ok hf
      obtain ⟨rs₂, l₂, ok₂, fine₂⟩ := Expression.ok h₂ ok₁
      obtain ⟨l₃, ok₃⟩ := h₃.ok ok₂
      obtain ⟨rs₄, l₄, ok₄, fine₄⟩ := Expression.ok h₄ ok₃
      obtain ⟨l₅, ok₅⟩ := h₅.ok ok₄
      have l := l₁.trans (l₂.trans (l₃.trans (l₄.trans l₅)))
      have l' := l₃.trans (l₄.trans l₅)
      obtain ⟨rs₆, l₆, ok₆, fine₆⟩ := Indexed.ok h₆ ok₅
        ⟨rfl, he.mono l.records l.scope, fine₂.mono l'.records l'.scope,
          fine₄.mono l₅.records l₅.scope, trivial⟩
      exact ⟨rs₆, l.trans l₆, ok₆, fine₆⟩

theorem Listed.ok {b : UInt8} {f f' : Front} {es : List Expr} {ds : List (Definition × Nat)}
    {a n : Nat} : Listed b f es f' → ∀ {rs}, f.Ok rs ds a n →
      ∃ rs', Later f rs f' rs' ∧ f'.Ok rs' ds a n ∧ Expr.FineAll rs' f'.scope es
  | .none h, rs, hf => ⟨rs, (h.ok hf).1, (h.ok hf).2, trivial⟩
  | .some h₁ h₂, _, hf => by
      obtain ⟨l₁, ok₁⟩ := h₁.ok hf
      obtain ⟨rs₂, l₂, ok₂, fine₂⟩ := ListedFrom.ok h₂ ok₁
      exact ⟨rs₂, l₁.trans l₂, ok₂, fine₂⟩

theorem ListedFrom.ok {b : UInt8} {f f' : Front} {e : Expr} {es : List Expr}
    {ds : List (Definition × Nat)} {a n : Nat} : ListedFrom b f e es f' → ∀ {rs}, f.Ok rs ds a n →
      ∃ rs', Later f rs f' rs' ∧ f'.Ok rs' ds a n ∧ Expr.FineAll rs' f'.scope (e :: es)
  | .last h₁ h₂ h₃, _, hf => by
      obtain ⟨rs₁, l₁, ok₁, fine₁⟩ := Expression.ok h₁ hf
      obtain ⟨l₂, ok₂⟩ := h₂.ok ok₁
      obtain ⟨l₃, ok₃⟩ := h₃.ok ok₂
      have l := l₂.trans l₃
      exact ⟨rs₁, l₁.trans l, ok₃, fine₁.mono l.records l.scope, trivial⟩
  | .more h₁ h₂ h₃, _, hf => by
      obtain ⟨rs₁, l₁, ok₁, fine₁⟩ := Expression.ok h₁ hf
      obtain ⟨l₂, ok₂⟩ := h₂.ok ok₁
      obtain ⟨rs₃, l₃, ok₃, fine₃⟩ := ListedFrom.ok h₃ ok₂
      have l := l₂.trans l₃
      exact ⟨rs₃, l₁.trans l, ok₃, fine₁.mono l.records l.scope, fine₃⟩

theorem Expression.ok {f f' : Front} {e : Expr} {ds : List (Definition × Nat)} {a n : Nat} :
    Expression f e f' → ∀ {rs}, f.Ok rs ds a n →
      ∃ rs', Later f rs f' rs' ∧ f'.Ok rs' ds a n ∧ e.Fine rs' f'.scope
  | @Expression.mk _ g _ c h _, _, hf => by
      obtain ⟨rs₁, l₁, ok₁, fine₁⟩ := Level.ok h hf
      exact ⟨rs₁, ⟨l₁.records, l₁.scope⟩, ok₁.goto c, fine₁⟩

end

section

variable {f f' : Front} {rs : List Record} {ds : List (Definition × Nat)} {a n : Nat}

theorem Arguments.ok {e : Expr} {es : List Expr} (h : Arguments f e es f')
    (hf : f.Ok rs ds a n) :
    ∃ rs', Later f rs f' rs' ∧ f'.Ok rs' ds a n ∧ Expr.FineAll rs' f'.scope (e :: es) := by
  induction h generalizing rs with
  | last h₁ h₂ =>
      obtain ⟨rs₁, l₁, ok₁, fine₁⟩ := h₁.ok hf
      obtain ⟨l₂, ok₂⟩ := h₂.ok ok₁
      exact ⟨rs₁, l₁.trans l₂, ok₂, fine₁.mono l₂.records l₂.scope, trivial⟩
  | more h₁ h₂ _ ih =>
      obtain ⟨rs₁, l₁, ok₁, fine₁⟩ := h₁.ok hf
      obtain ⟨l₂, ok₂⟩ := h₂.ok ok₁
      obtain ⟨rs₃, l₃, ok₃, fine₃⟩ := ih ok₂
      have l := l₂.trans l₃
      exact ⟨rs₃, l₁.trans l, ok₃, fine₁.mono l.records l.scope, fine₃⟩

theorem Operands.ok {es : List Expr} (h : Operands f es f') (hf : f.Ok rs ds a n) :
    ∃ rs', Later f rs f' rs' ∧ f'.Ok rs' ds a n ∧ Expr.FineAll rs' f'.scope es := by
  cases h with
  | none _ => exact ⟨rs, .same rfl fun _ h => h, hf.goto _, trivial⟩
  | some _ h =>
      obtain ⟨rs₁, l₁, ok₁, fine₁⟩ := h.ok (hf.goto _)
      exact ⟨rs₁, ⟨l₁.records, l₁.scope⟩, ok₁, fine₁⟩

end

end Grammar

/-! ### Locals -/

/-- A field between the link and the length of a record is overwritten. -/
theorem Store.Ok.setField {s : Store} {rs : List Record} (h : s.Ok rs) {id : Ident}
    (hid : HasIdent rs id) {heap : Heap} {lo hi : Nat} (e : Heap.SameOutside lo hi s.heap heap)
    (hlo : id.offset.toNat + 2 ≤ lo) (hhi : hi ≤ id.offset.toNat + Ident.lengthField) :
    Store.Ok { s with heap } rs := by
  have hword (id' : Ident) (hid' : HasIdent rs id') :
      heap.word id'.offset.toNat = s.heap.word id'.offset.toNat := by
    refine e.word ?_
    by_cases hne : id' = id
    · subst hne
      omega
    · have hap := h.ledger.ident_apart hid hid' hne
      simp only [Ident.nameField, Ident.lengthField] at hap hhi
      omega
  refine ⟨h.ledger.setField_ident hid e (by omega) hhi, h.kinds, h.buckets, ?_, h.bucketed, ?_⟩
  · intro id' hid'
    simp only [hword id' hid']
    exact h.links id' hid'
  · intro id' hid'
    obtain ⟨b, hb, hl⟩ := h.listed id' hid'
    exact ⟨b, hb, h.leads (fun id hid _ => hword id hid) hl (h.buckets b)⟩

theorem Store.Ok.setIdentSlot {s : Store} {rs : List Record} (h : s.Ok rs) {id : Ident}
    (hid : HasIdent rs id) (b : UInt8) :
    Store.Ok { s with heap := s.heap.setIdentSlot id b } rs :=
  h.setField hid (Heap.sameOutside_setIdentSlot _ id b) (Nat.add_le_add_left (by decide) _)
    (Nat.add_le_add_left (by decide) _)

namespace Front

variable {f : Front} {rs : List Record} {ds : List (Definition × Nat)} {a n : Nat}

/-- A value that is no body says that the name is neither a definition nor the open body. -/
theorem Ok.not_defined (h : f.Ok rs ds a n) {id : Ident}
    (hv : Compiler.isBody (f.store.heap.identValue id) = false) :
    (∀ d ∈ ds, d.1.id ≠ id) ∧ ∀ body, f.body = some body → id ≠ body.id := by
  have hds : ∀ d ∈ ds, d.1.id ≠ id := by
    rintro d hd rfl
    have := congrArg Entry.value (h.defined d hd).2
    rw [show (f.store.heap.entry d.1.id).value = f.store.heap.identValue d.1.id from rfl] at this
    rw [this, Definition.isBody_entry] at hv
    cases hv
  refine ⟨hds, ?_⟩
  rintro body hb rfl
  have hentry := h.others body.id (h.body body hb).1 hds
  simp only [expected, hb, if_true] at hentry
  have := congrArg Entry.value hentry
  rw [show (f.store.heap.entry body.id).value = f.store.heap.identValue body.id from rfl] at this
  rw [this, Definition.isBody_entry] at hv
  cases hv

theorem Ok.addLocal (h : f.Ok rs ds a n) {body : Body} {id : Ident} (hb : f.body = some body)
    (hid : HasIdent rs id) (hnew : id ∉ body.locals)
    (hv : Compiler.isBody (f.store.heap.identValue id) = false)
    (hlen : body.locals.length < f.maxSlots) : (f.addLocal body id).Ok rs ds a n := by
  obtain ⟨hds, hbody⟩ := h.not_defined hv
  replace hbody := hbody body hb
  obtain ⟨hbid, hbds, -, hlocals⟩ := h.body body hb
  have hledger := h.store.ledger.setIdentSlot hid (UInt8.ofNat body.locals.length)
  -- The entries after both writes.
  have hentry (id' : Ident) (hid' : HasIdent rs id') :
      (f.addLocal body id).store.heap.entry id' =
        if id' = body.id then
          { f.store.heap.entry body.id with slot := UInt8.ofNat (body.locals.length + 1) }
        else if id' = id then
          { f.store.heap.entry id with slot := UInt8.ofNat body.locals.length }
        else f.store.heap.entry id' := by
    simp only [Front.addLocal, withHeap, List.length_append, List.length_cons, List.length_nil,
      Nat.zero_add]
    rw [hledger.entry_setIdentSlot hbid hid', h.store.ledger.entry_setIdentSlot hid hid',
      h.store.ledger.entry_setIdentSlot hid hbid, if_neg hbody.symm]
  refine ⟨(h.store.setIdentSlot hid _).setIdentSlot hbid _, h.maxSlots, ?_, ?_, ?_⟩
  · intro d hd
    obtain ⟨hdid, hde⟩ := h.defined d hd
    refine ⟨hdid, ?_⟩
    rw [hentry _ hdid, if_neg (hbds d hd), if_neg (hds d hd), hde]
  · intro id' hid' hds'
    have hold := h.others id' hid' hds'
    simp only [expected, hb] at hold
    rw [hentry id' hid']
    simp only [expected, Front.addLocal]
    by_cases h₁ : id' = body.id
    · subst h₁
      simp only [if_true] at hold ⊢
      rw [hold]
      simp [Definition.entry]
    · simp only [if_neg h₁] at hold ⊢
      by_cases h₂ : id' = id
      · subst h₂
        rw [if_neg hnew] at hold
        simp [hold, Entry.fresh, List.idxOf_append, hnew]
      · simp [h₂, hold, List.idxOf_append]
        split <;> simp_all
  · rintro _ ⟨⟩
    refine ⟨hbid, hbds, ?_, ?_⟩
    · rw [List.length_append]
      exact hlen
    intro id' hm
    obtain hm | hm := List.mem_append.1 hm
    · exact hlocals id' hm
    · obtain rfl := List.mem_singleton.1 hm
      exact ⟨hid, hbody, hds⟩

/-! ### Bodies -/

/-- Opening a body of a name that has no value yet. -/
theorem Ok.openBody (h : f.Ok rs ds a n) {id : Ident} (hb : f.body = none) (hid : HasIdent rs id)
    (hv : f.store.heap.identValue id = .unset) (isFunc : Bool) (entry : Nat) :
    (f.openBody id isFunc (UInt16.ofNat entry)).Ok rs ds entry 0 := by
  have hds : ∀ d ∈ ds, d.1.id ≠ id := (h.not_defined (by rw [hv]; rfl)).1
  have hledger := h.store.ledger.setIdentValue hid
    (if isFunc then .func (UInt16.ofNat entry) else .proc (UInt16.ofNat entry))
  have hentry (id' : Ident) (hid' : HasIdent rs id') :
      (f.openBody id isFunc (UInt16.ofNat entry)).store.heap.entry id' =
        if id' = id then (⟨id, isFunc, 0, 0⟩ : Definition).entry entry
        else f.store.heap.entry id' := by
    have hfresh := h.others id hid hds
    simp only [expected, hb] at hfresh
    simp only [Front.openBody, withHeap]
    rw [hledger.entry_setIdentSlot hid hid', h.store.ledger.entry_setIdentValue hid hid',
      h.store.ledger.entry_setIdentValue hid hid, if_pos rfl, hfresh]
    split <;> rfl
  refine ⟨?_, ?_, ?_, ?_, ?_⟩
  · exact (h.store.setField hid (Heap.sameOutside_setIdentValue _ id _)
      (Nat.add_le_add_left (by decide) _) (Nat.add_le_add_left (by decide) _)).setIdentSlot hid 0
  · simp only [Front.openBody, withHeap]
    exact h.maxSlots
  · intro d hd
    obtain ⟨hdid, hde⟩ := h.defined d hd
    exact ⟨hdid, by rw [hentry _ hdid, if_neg (hds d hd), hde]⟩
  · intro id' hid' hds'
    have hold := h.others id' hid' hds'
    simp only [expected, hb] at hold
    rw [hentry id' hid', hold]
    simp [expected, Front.openBody]
  · rintro _ ⟨⟩
    exact ⟨hid, hds, Nat.zero_le _, by simp⟩

theorem Ok.countParameters (h : f.Ok rs ds a n) {body : Body} (hb : f.body = some body) :
    (f.countParameters body).Ok rs ds a body.locals.length := by
  obtain ⟨hbid, hbds, hlen, hlocals⟩ := h.body body hb
  have hentry (id : Ident) (hid : HasIdent rs id) :
      (f.countParameters body).store.heap.entry id =
        if id = body.id then
          { f.store.heap.entry body.id with arguments := UInt8.ofNat body.locals.length }
        else f.store.heap.entry id :=
    h.store.ledger.entry_setIdentArguments hbid hid _
  refine ⟨?_, h.maxSlots, ?_, ?_, h.body⟩
  · exact h.store.setField hbid (Heap.sameOutside_setIdentArguments _ _ _)
      (Nat.add_le_add_left (by decide) _) (Nat.add_le_add_left (by decide) _)
  · intro d hd
    obtain ⟨hdid, hde⟩ := h.defined d hd
    exact ⟨hdid, by rw [hentry _ hdid, if_neg (hbds d hd), hde]⟩
  · intro id hid hds
    have hold := h.others id hid hds
    rw [hentry id hid]
    simp only [expected, hb, Front.countParameters, withHeap] at hold ⊢
    by_cases h₁ : id = body.id
    · subst h₁
      simp only [if_true] at hold ⊢
      rw [hold]
      simp [Definition.entry]
    · simpa only [if_neg h₁] using hold

/-- Taking the slots back from all locals. -/
theorem clearSlots {s : Store} (h : s.Ok rs) {ids : List Ident}
    (hids : ∀ id ∈ ids, HasIdent rs id) :
    Store.Ok { s with heap := ids.foldl (fun h id => h.setIdentSlot id Ident.noSlot) s.heap } rs ∧
      ∀ id, HasIdent rs id →
        (ids.foldl (fun h id => h.setIdentSlot id Ident.noSlot) s.heap).entry id =
          if id ∈ ids then { s.heap.entry id with slot := Ident.noSlot } else s.heap.entry id := by
  induction ids generalizing s with
  | nil => exact ⟨h, fun _ _ => by simp⟩
  | cons x ids ih =>
      have hx := hids x (List.mem_cons_self ..)
      obtain ⟨hok, hentry⟩ := ih (h.setIdentSlot hx Ident.noSlot)
        fun id hm => hids id (List.mem_cons_of_mem _ hm)
      refine ⟨hok, fun id hid => ?_⟩
      rw [List.foldl_cons, hentry id hid, h.ledger.entry_setIdentSlot hx hid]
      by_cases h₁ : id = x
      · subst h₁
        simp
      · simp [h₁]

/-- Closing a body completes its definition. -/
theorem Ok.closeBody (h : f.Ok rs ds a n) {body : Body} (hb : f.body = some body) :
    (f.closeBody body).Ok rs
      (ds ++ [(⟨body.id, body.isFunc, n, body.locals.length⟩, a)]) 0 0 := by
  obtain ⟨hbid, hbds, hlen, hlocals⟩ := h.body body hb
  obtain ⟨hok, hentry⟩ := clearSlots h.store fun id hm => (hlocals id hm).1
  have hnot : body.id ∉ body.locals := fun hm => (hlocals _ hm).2.1 rfl
  refine ⟨hok, h.maxSlots, ?_, ?_, ?_⟩
  · intro d hd
    obtain hd | hd := List.mem_append.1 hd
    · obtain ⟨hdid, hde⟩ := h.defined d hd
      refine ⟨hdid, (hentry _ hdid).trans ?_⟩
      rw [if_neg fun hm => (hlocals _ hm).2.2 d hd rfl, hde]
    · obtain rfl := List.mem_singleton.1 hd
      refine ⟨hbid, (hentry _ hbid).trans ?_⟩
      rw [if_neg hnot, h.others _ hbid hbds]
      simp [expected, hb]
  · intro id hid hds
    have hds' : ∀ d ∈ ds, d.1.id ≠ id := fun d hd => hds d (List.mem_append_left _ hd)
    have hne : id ≠ body.id := (hds _ (List.mem_append_right _ (List.mem_singleton_self _))).symm
    refine (hentry id hid).trans ?_
    rw [h.others id hid hds']
    simp only [expected, hb, if_neg hne, Front.closeBody]
    by_cases hm : id ∈ body.locals
    · simp [hm, Entry.fresh]
    · simp [hm]
  · intro body' hb'
    cases hb'

end Front

namespace Grammar

open Front

section

variable {f f' : Front} {rs : List Record} {ds : List (Definition × Nat)} {a n : Nat}

/-- A new local, under a name that is none so far. -/
theorem Declared.ok {id : Ident} {body : Body} (h : Declared f id f') (hb : f.body = some body)
    (hnew : body.locals.contains id = false) (hf : f.Ok rs ds a n) (hid : HasIdent rs id) :
    Later f rs f' rs ∧ f'.Ok rs ds a n ∧
      f'.body = some { body with locals := body.locals ++ [id] } := by
  cases h with
  | mk hb' hv hlen =>
      obtain rfl := Option.some.inj (hb'.symm.trans hb)
      refine ⟨⟨fun _ h => h, ?_⟩, hf.addLocal hb hid (by simpa using hnew) hv hlen, rfl⟩
      simp [Front.scope, hb, Front.addLocal, Scope.Le]

theorem Target.ok {id : Ident} {p : Place} (h : Target f id p f') (hf : f.Ok rs ds a n)
    (hid : HasIdent rs id) :
    Later f rs f' rs ∧ f'.Ok rs ds a n ∧ p.Writable rs f'.scope := by
  cases h with
  | global hb hv => exact ⟨.same rfl fun _ h => h, hf, by simp [Front.scope, hb], hid⟩
  | old hb hm =>
      refine ⟨.same rfl fun _ h => h, hf, ?_⟩
      have hfine := fine_resolve hf hid
      simp only [Front.resolve, hb, hm, if_true] at hfine
      exact hfine
  | @new _ body _ hb hnew hd =>
      obtain ⟨l, ok, hb'⟩ := hd.ok hb hnew hf hid
      refine ⟨l, ok, body.isFunc, body.locals.length + 1, by simp [Front.scope, hb'], ?_⟩
      have := UInt8.toNat_ofNat' (n := body.locals.length)
      have := Nat.mod_le body.locals.length (2 ^ 8)
      omega

theorem Inputs.ok {ps : List Place} (h : Inputs f ps f') (hf : f.Ok rs ds a n) :
    ∃ rs', Later f rs f' rs' ∧ f'.Ok rs' ds a n ∧ ∀ p ∈ ps, p.Writable rs' f'.scope := by
  induction h generalizing rs with
  | last h₁ h₂ h₃ =>
      obtain ⟨rs₁, l₁, ok₁, hid⟩ := h₁.ok hf
      obtain ⟨l₂, ok₂, hp⟩ := h₂.ok ok₁ hid
      obtain ⟨l₃, ok₃⟩ := h₃.ok ok₂
      refine ⟨rs₁, l₁.trans (l₂.trans l₃), ok₃, fun p hm => ?_⟩
      obtain rfl := List.mem_singleton.1 hm
      exact hp.mono l₃.records l₃.scope
  | more h₁ h₂ h₃ _ ih =>
      obtain ⟨rs₁, l₁, ok₁, hid⟩ := h₁.ok hf
      obtain ⟨l₂, ok₂, hp⟩ := h₂.ok ok₁ hid
      obtain ⟨l₃, ok₃⟩ := h₃.ok ok₂
      obtain ⟨rs₄, l₄, ok₄, hps⟩ := ih ok₃
      have l := l₃.trans l₄
      refine ⟨rs₄, l₁.trans (l₂.trans l), ok₄, fun p hm => ?_⟩
      obtain rfl | hm := List.mem_cons.1 hm
      · exact hp.mono l.records l.scope
      · exact hps p hm

end

mutual

theorem Statement.ok {f f' : Front} {s : Stmt} {ds : List (Definition × Nat)} {a n : Nat} :
    Statement f s f' → ∀ {rs}, f.Ok rs ds a n →
      ∃ rs', Later f rs f' rs' ∧ f'.Ok rs' ds a n ∧ s.Fine rs' f'.scope
  | .assign h₁ h₂ h₃ h₄, _, hf => by
      obtain ⟨rs₁, l₁, ok₁, hid⟩ := h₁.ok hf
      obtain ⟨l₂, ok₂⟩ := h₂.ok ok₁
      obtain ⟨rs₃, l₃, ok₃, fine₃⟩ := h₃.ok ok₂
      obtain ⟨l₄, ok₄, hp⟩ := h₄.ok ok₃ (hid.mono l₃.records)
      exact ⟨rs₃, l₁.trans (l₂.trans (l₃.trans l₄)), ok₄, fine₃.mono l₄.records l₄.scope, hp⟩
  | .perform h₁ h₂ h₃ hlen, _, hf => by
      obtain ⟨rs₁, l₁, ok₁, hid⟩ := h₁.ok hf
      obtain ⟨l₂, ok₂⟩ := h₂.ok ok₁
      obtain ⟨rs₃, l₃, ok₃, fine₃⟩ := h₃.ok ok₂
      exact ⟨rs₃, l₁.trans (l₂.trans l₃), ok₃, hid.mono l₃.records, hlen, fine₃⟩
  | .print h₁ h₂ hlen, _, hf => by
      obtain ⟨l₁, ok₁⟩ := h₁.ok hf
      obtain ⟨rs₂, l₂, ok₂, fine₂⟩ := h₂.ok ok₁
      exact ⟨rs₂, l₁.trans l₂, ok₂, hlen, fine₂⟩
  | .input h₁ h₂, _, hf => by
      obtain ⟨l₁, ok₁⟩ := h₁.ok hf
      obtain ⟨rs₂, l₂, ok₂, hps⟩ := h₂.ok ok₁
      exact ⟨rs₂, l₁.trans l₂, ok₂, hps⟩
  | .halt h₁, rs, hf => ⟨rs, (h₁.ok hf).1, (h₁.ok hf).2, trivial⟩
  | .exitLoop h₁, rs, hf => ⟨rs, (h₁.ok hf).1, (h₁.ok hf).2, trivial⟩
  | @Statement.returnValue _ f₁ _ c body _ h₁ hb hkind _ h₂, _, hf => by
      obtain ⟨l₁, ok₁⟩ := h₁.ok hf
      obtain ⟨rs₂, l₂, ok₂, fine₂⟩ := h₂.ok (ok₁.goto c)
      -- The body is still open behind the expression, and of the same kind.
      have hscope : f₁.scope = some (true, body.locals.length) := by
        simp [Front.scope, hb, hkind]
      have hle : Scope.Le f₁.scope f'.scope := l₂.scope
      refine ⟨rs₂, l₁.trans ⟨l₂.records, hle⟩, ok₂, fine₂, ?_⟩
      rw [hscope] at hle
      obtain ⟨m, hm, -⟩ := hle.eq_some
      exact ⟨m, hm⟩
  | @Statement.returnBare _ f₁ c body h₁ hb hkind _, rs, hf => by
      obtain ⟨l₁, ok₁⟩ := h₁.ok hf
      refine ⟨rs, ⟨l₁.records, l₁.scope⟩, ok₁.goto c, body.locals.length, ?_⟩
      show f₁.scope = _
      simp [Front.scope, hb, hkind]
  | .ifThen h₁ h₂ h₃ h₄ h₅, _, hf => by
      obtain ⟨l₁, ok₁⟩ := h₁.ok hf
      obtain ⟨rs₂, l₂, ok₂, fine₂⟩ := h₂.ok ok₁
      obtain ⟨l₃, ok₃⟩ := h₃.ok ok₂
      obtain ⟨rs₄, l₄, ok₄, fine₄⟩ := Block.ok h₄ ok₃
      obtain ⟨l₅, ok₅⟩ := h₅.ok ok₄
      have l := l₃.trans (l₄.trans l₅)
      exact ⟨rs₄, l₁.trans (l₂.trans l), ok₅, fine₂.mono l.records l.scope,
        fine₄.mono l₅.records l₅.scope⟩
  | .ifElse h₁ h₂ h₃ h₄ h₅ h₆ h₇ h₈, _, hf => by
      obtain ⟨l₁, ok₁⟩ := h₁.ok hf
      obtain ⟨rs₂, l₂, ok₂, fine₂⟩ := h₂.ok ok₁
      obtain ⟨l₃, ok₃⟩ := h₃.ok ok₂
      obtain ⟨rs₄, l₄, ok₄, fine₄⟩ := Block.ok h₄ ok₃
      obtain ⟨l₅, ok₅⟩ := h₅.ok ok₄
      obtain ⟨l₆, ok₆⟩ := h₆.ok ok₅
      obtain ⟨rs₇, l₇, ok₇, fine₇⟩ := Block.ok h₇ ok₆
      obtain ⟨l₈, ok₈⟩ := h₈.ok ok₇
      have l' := l₅.trans (l₆.trans (l₇.trans l₈))
      have l := l₃.trans (l₄.trans l')
      exact ⟨rs₇, l₁.trans (l₂.trans l), ok₈, fine₂.mono l.records l.scope,
        fine₄.mono l'.records l'.scope, fine₇.mono l₈.records l₈.scope⟩
  | .whileDo h₁ h₂ h₃ h₄ h₅, _, hf => by
      obtain ⟨l₁, ok₁⟩ := h₁.ok hf
      obtain ⟨rs₂, l₂, ok₂, fine₂⟩ := h₂.ok ok₁
      obtain ⟨l₃, ok₃⟩ := h₃.ok ok₂
      obtain ⟨rs₄, l₄, ok₄, fine₄⟩ := Block.ok h₄ ok₃
      obtain ⟨l₅, ok₅⟩ := h₅.ok ok₄
      have l := l₃.trans (l₄.trans l₅)
      exact ⟨rs₄, l₁.trans (l₂.trans l), ok₅, fine₂.mono l.records l.scope,
        fine₄.mono l₅.records l₅.scope⟩
  | .repeatUntil h₁ h₂ h₃ h₄ h₅, _, hf => by
      obtain ⟨l₁, ok₁⟩ := h₁.ok hf
      obtain ⟨l₂, ok₂⟩ := h₂.ok ok₁
      obtain ⟨rs₃, l₃, ok₃, fine₃⟩ := Block.ok h₃ ok₂
      obtain ⟨l₄, ok₄⟩ := h₄.ok ok₃
      obtain ⟨rs₅, l₅, ok₅, fine₅⟩ := h₅.ok ok₄
      have l := l₄.trans l₅
      exact ⟨rs₅, l₁.trans (l₂.trans (l₃.trans l)), ok₅, fine₅, fine₃.mono l.records l.scope⟩

theorem Block.ok {f f' : Front} {s : Stmt} {ds : List (Definition × Nat)} {a n : Nat} :
    Block f s f' → ∀ {rs}, f.Ok rs ds a n →
      ∃ rs', Later f rs f' rs' ∧ f'.Ok rs' ds a n ∧ s.Fine rs' f'.scope
  | .nil, rs, hf => ⟨rs, .same rfl fun _ h => h, hf, trivial⟩
  | .snoc h₁ h₂ h₃, _, hf => by
      obtain ⟨rs₁, l₁, ok₁, fine₁⟩ := Block.ok h₁ hf
      obtain ⟨rs₂, l₂, ok₂, fine₂⟩ := Statement.ok h₂ ok₁
      obtain ⟨l₃, ok₃⟩ := h₃.ok ok₂
      have l := l₂.trans l₃
      exact ⟨rs₂, l₁.trans l, ok₃, fine₁.mono l.records l.scope, fine₂.mono l₃.records l₃.scope⟩

end

/-! ### Definitions and programs -/

section

variable {f f' : Front} {rs : List Record} {ds : List (Definition × Nat)} {a n : Nat}

theorem Parameter.ok (h : Parameter f f') (hf : f.Ok rs ds a n) :
    ∃ rs', Later f rs f' rs' ∧ f'.Ok rs' ds a n := by
  cases h with
  | mk h₁ hb hnew h₂ =>
      obtain ⟨rs₁, l₁, ok₁, hid⟩ := h₁.ok hf
      obtain ⟨l₂, ok₂, -⟩ := h₂.ok hb hnew ok₁ hid
      exact ⟨rs₁, l₁.trans l₂, ok₂⟩

theorem Parameters.ok (h : Parameters f f') (hf : f.Ok rs ds a n) :
    ∃ rs', Later f rs f' rs' ∧ f'.Ok rs' ds a n := by
  induction h generalizing rs with
  | last h₁ h₂ =>
      obtain ⟨rs₁, l₁, ok₁⟩ := h₁.ok hf
      obtain ⟨l₂, ok₂⟩ := h₂.ok ok₁
      exact ⟨rs₁, l₁.trans l₂, ok₂⟩
  | more h₁ h₂ _ ih =>
      obtain ⟨rs₁, l₁, ok₁⟩ := h₁.ok hf
      obtain ⟨l₂, ok₂⟩ := h₂.ok ok₁
      obtain ⟨rs₃, l₃, ok₃⟩ := ih ok₂
      exact ⟨rs₃, l₁.trans (l₂.trans l₃), ok₃⟩

theorem ParameterList.ok (h : ParameterList f f') (hf : f.Ok rs ds a n) :
    ∃ rs', Later f rs f' rs' ∧ f'.Ok rs' ds a n := by
  cases h with
  | none h₁ h₂ =>
      obtain ⟨l₁, ok₁⟩ := h₁.ok hf
      obtain ⟨l₂, ok₂⟩ := h₂.ok ok₁
      exact ⟨rs, l₁.trans l₂, ok₂⟩
  | some h₁ h₂ h₃ h₄ =>
      obtain ⟨l₁, ok₁⟩ := h₁.ok hf
      obtain ⟨l₂, ok₂⟩ := h₂.ok ok₁
      obtain ⟨rs₃, l₃, ok₃⟩ := h₃.ok ok₂
      obtain ⟨l₄, ok₄⟩ := h₄.ok ok₃
      exact ⟨rs₃, l₁.trans (l₂.trans (l₃.trans l₄)), ok₄⟩

/-- Behind the first statement of a definition its body is open, with the parameters as
locals. -/
theorem Header.ok {isFunc : Bool} {entry : Nat} {body : Body}
    (h : Header isFunc (UInt16.ofNat entry) f body f') (hf : f.Ok rs ds a n) :
    ∃ rs', (∀ r ∈ rs, r ∈ rs') ∧ f'.Ok rs' ds entry body.locals.length ∧
      f'.scope = some (isFunc, body.locals.length) := by
  cases h with
  | @mk _ _ f₃ _ _ h₁ h₂ hb hv h₃ hbody =>
      obtain ⟨l₁, ok₁⟩ := h₁.ok hf
      obtain ⟨rs₂, l₂, ok₂, hid⟩ := h₂.ok ok₁
      obtain ⟨rs₃, l₃, ok₃⟩ := h₃.ok (ok₂.openBody hb hid hv isFunc entry)
      refine ⟨rs₃, fun r hr => l₃.records r (l₂.records r (l₁.records r hr)),
        ok₃.countParameters hbody, ?_⟩
      have hle : Scope.Le (some (isFunc, 0)) f₃.scope := l₃.scope
      obtain ⟨m, hm, -⟩ := hle.eq_some
      simp only [Front.scope, hbody, Option.map_some, Option.some.injEq, Prod.mk.injEq] at hm
      simp [Front.scope, Front.countParameters, withHeap, hbody, hm.1]

end

end Grammar

/-- The definitions of a program whose code begins at `a`, with the addresses of their
bodies. -/
def Stmt.definitions (a : Nat) : Stmt → List (Definition × Nat)
  | seq s t => s.definitions a ++ t.definitions (a + s.size)
  | define d _ => [(d, a + 3)]
  | _ => []

namespace Grammar

open Front

theorem Statement.definitions {f f' : Front} {s : Stmt} (h : Statement f s f') (a : Nat) :
    s.definitions a = [] := by
  cases h <;> rfl

theorem Items.ok {f f' : Front} {t : Stmt} (h : Items f t f') {rs : List Record}
    (hf : f.Ok rs [] 0 0) (hb : f.body = none) :
    ∃ rs', f'.Ok rs' (t.definitions 0) 0 0 ∧ f'.body = none ∧ t.Fine rs' none := by
  induction h with
  | nil => exact ⟨rs, hf, hb, trivial⟩
  | @statement f₁ f₂ f₃ t s _ h₂ h₃ ih =>
      obtain ⟨rs₁, ok₁, hb₁, fine₁⟩ := ih
      obtain ⟨rs₂, l₂, ok₂, fine₂⟩ := h₂.ok ok₁
      obtain ⟨l₃, ok₃⟩ := h₃.ok ok₂
      have l := l₂.trans l₃
      have hscope : f₁.scope = none := by simp [Front.scope, hb₁]
      have hscope₃ : f₃.scope = none := by
        have hle := l.scope
        rw [hscope] at hle
        cases hs : f₃.scope with
        | none => rfl
        | some p =>
            rw [hs] at hle
            exact False.elim hle
      have hfine := fine₁.mono l.records (Scope.Le.refl none)
      have hfine' := fine₂.mono l₃.records l₃.scope
      rw [hscope₃] at hfine'
      refine ⟨rs₂, ?_, by simpa [Front.scope] using hscope₃, hfine, hfine'⟩
      rw [Stmt.definitions, h₂.definitions, List.append_nil]
      exact ok₃
  | @definition f₁ f₂ f₃ f₄ f₅ f₆ t s isFunc head body _ hsize h₂ h₃ h₄ h₅ hbody h₆ ih =>
      obtain ⟨rs₁, ok₁, hb₁, fine₁⟩ := ih
      obtain ⟨rs₂, hr₂, ok₂, hscope₂⟩ := h₂.ok ok₁
      obtain ⟨l₃, ok₃⟩ := h₃.ok ok₂
      obtain ⟨rs₄, l₄, ok₄, fine₄⟩ := h₄.ok ok₃
      obtain ⟨l₅, ok₅⟩ := h₅.ok ok₄
      have l := l₃.trans (l₄.trans l₅)
      -- The body that is closed is the one that was opened, with locals added to it.
      have hle := l.scope
      rw [hscope₂] at hle
      obtain ⟨m, hm, hparams⟩ := hle.eq_some
      simp only [Front.scope, hbody, Option.map_some, Option.some.injEq, Prod.mk.injEq] at hm
      obtain ⟨rfl, rfl⟩ := hm
      obtain ⟨l₆, ok₆⟩ := h₆.ok (ok₅.closeBody hbody)
      have hmax := ok₅.maxSlots
      have hslots := (ok₅.body body hbody).2.2.1
      have hfine := fine₄.mono l₅.records l₅.scope
      simp only [Front.scope, hbody, Option.map_some] at hfine
      have hb₆ : f₆.body = none := by cases h₆; rfl
      refine ⟨rs₄, ?_, hb₆, fine₁.mono (fun r hr => l.records r (hr₂ r hr)) (Scope.Le.refl none),
        rfl, hparams, Nat.le_trans hslots hmax, hfine⟩
      rw [Stmt.definitions, Nat.zero_add]
      exact ok₆

end Grammar

/-! ### What a program leaves in the heap -/

/-- A heap with the records `rs`, in which the entries of the definitions `ds` say what these
declare, and all other entries nothing. -/
structure Heap.Declares (h : Heap) (rs : List Record) (ds : List (Definition × Nat)) : Prop where
  ledger : Ledger h rs
  kinds : ∀ r ∈ rs, r.kind ≠ .array
  defined : ∀ d ∈ ds, HasIdent rs d.1.id ∧ h.entry d.1.id = d.1.entry d.2
  others : ∀ id, HasIdent rs id → (∀ d ∈ ds, d.1.id ≠ id) → h.entry id = .fresh

/-- What has been read outside of bodies, up to any place. -/
theorem Grammar.Items.declares {source : Source} {limits : Limits} {t : Stmt} {f : Front}
    (h : Items (start source limits) t f) (hmax : limits.maxSlots ≤ 255)
    (hbuckets : 0 < limits.identBuckets) :
    ∃ rs, f.store.Ok rs ∧ f.body = none ∧ f.store.heap.Declares rs (t.definitions 0) ∧
      t.Fine rs none := by
  have hstart : (start source limits).Ok [] [] 0 0 := by
    refine ⟨Store.ok_ofSize _ hbuckets, hmax, by simp, ?_, ?_⟩
    · rintro id ⟨n, hn⟩ -
      cases hn
    · rintro body ⟨⟩
  obtain ⟨rs, ok, hb, fine⟩ := h.ok hstart rfl
  refine ⟨rs, ok.store, hb, ⟨ok.store.ledger, ok.store.kinds, ok.defined, fun id hid hds => ?_⟩,
    fine⟩
  rw [ok.others id hid hds, Front.expected, hb]

theorem Grammar.Reads.declares {source : Source} {limits : Limits} {t : Stmt} {store : Store}
    (h : Reads source limits t store) (hmax : limits.maxSlots ≤ 255)
    (hbuckets : 0 < limits.identBuckets) :
    ∃ rs, store.Ok rs ∧ store.heap.Declares rs (t.definitions 0) ∧ t.Fine rs none := by
  obtain ⟨f, hitems, -, rfl⟩ := h
  obtain ⟨rs, hok, -, hdeclares, hfine⟩ := hitems.declares hmax hbuckets
  exact ⟨rs, hok, hdeclares, hfine⟩

/-- Bodies of different definitions begin at different addresses. -/
theorem Stmt.definitions_within {t : Stmt} {a : Nat} {d : Definition × Nat}
    (h : d ∈ t.definitions a) : a < d.2 ∧ d.2 < a + t.size := by
  induction t generalizing a with
  | seq s t ihs iht =>
      obtain h | h := List.mem_append.1 h
      · have := ihs h
        simp only [size]
        omega
      · have := iht h
        simp only [size]
        omega
  | define d s ih =>
      obtain rfl := List.mem_singleton.1 h
      simp only [size]
      omega
  | _ => cases h

theorem Stmt.definitions_inj {t : Stmt} {a : Nat} {d d' : Definition × Nat}
    (h : d ∈ t.definitions a) (h' : d' ∈ t.definitions a) (he : d.2 = d'.2) : d = d' := by
  induction t generalizing a with
  | seq s t ihs iht =>
      obtain h | h := List.mem_append.1 h <;> obtain h' | h' := List.mem_append.1 h'
      · exact ihs h h'
      · have := definitions_within h
        have := definitions_within h'
        omega
      · have := definitions_within h
        have := definitions_within h'
        omega
      · exact iht h h'
  | define d s ih =>
      obtain rfl := List.mem_singleton.1 h
      obtain rfl := List.mem_singleton.1 h'
      rfl
  | _ => cases h

theorem Stmt.Fine.definitions {rs : List Record} {sc : Scope} {t : Stmt}
    (h : t.Fine rs sc) {a : Nat} {d : Definition × Nat} (hd : d ∈ t.definitions a) :
    d.1.params ≤ d.1.slots ∧ d.1.slots ≤ 255 := by
  induction t generalizing a with
  | seq s t ihs iht =>
      obtain hd | hd := List.mem_append.1 hd
      · exact ihs h.1 hd
      · exact iht h.2 hd
  | define d s ih =>
      obtain rfl := List.mem_singleton.1 hd
      exact ⟨h.2.1, h.2.2.1⟩
  | _ => cases hd

end CellScript
