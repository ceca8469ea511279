import CellScript.Proofs.Parallel
import CellScript.Proofs.Scopes

/-!
Compiling with more room.

The compiler keeps what it knows in an arena, in a buffer and on stacks, all of
them bounded. Two compilers that differ in nothing but these bounds go through a
text in step: every choice is made by looking at the text or at what lies in the
stores, never at how much more would fit. So the code is the same, byte for byte,
unless the tighter compiler gives up with an error of the resource family.

What is written into a record must lie in the smaller arena already. A name that
was looked up has a record there, hence the relation keeps the names met so far.
-/

namespace CellScript

/-! ### Stacks, code and names -/

/-- The second stack has the same items and at least as much room. -/
structure BoundedStack.Roomier {α : Type} (s t : BoundedStack α) : Prop where
  items : t.items = s.items
  room : s.capacity ≤ t.capacity

namespace BoundedStack

variable {α : Type} {s t : BoundedStack α}

theorem Roomier.size (hr : Roomier s t) : t.size = s.size := by
  rw [BoundedStack.size, BoundedStack.size, hr.items]

theorem Roomier.isEmpty (hr : Roomier s t) : t.isEmpty = s.isEmpty := by
  rw [BoundedStack.isEmpty, BoundedStack.isEmpty, hr.items]

theorem Roomier.top? (hr : Roomier s t) : t.top? = s.top? := by
  rw [BoundedStack.top?, BoundedStack.top?, hr.items]

theorem Roomier.pop (hr : Roomier s t) : Roomier s.pop t.pop :=
  ⟨by rw [BoundedStack.pop, BoundedStack.pop, hr.items], hr.room⟩

theorem Roomier.push? (hr : Roomier s t) {a : α} {s' : BoundedStack α} (h : s.push? a = some s') :
    ∃ t', t.push? a = some t' ∧ Roomier s' t' := by
  have hroom := hr.room
  have hsize := hr.size
  unfold BoundedStack.push? at h ⊢
  split at h
  · cases h
  · cases h
    exact ⟨_, if_neg (by omega), congrArg (a :: ·) hr.items, hroom⟩

end BoundedStack

namespace CodeBuffer

/-- The second buffer holds the same code and has at least as much room. -/
structure Roomier (b c : CodeBuffer) : Prop where
  code : c.code = b.code
  openFixups : c.openFixups = b.openFixups
  room : b.capacity ≤ c.capacity

/-- An operation does the same on a roomier buffer. All of its errors are of too little room. -/
abbrev Scales {α : Type} (x : Action α) : Prop := Parallel Roomier (fun _ => True) x x

theorem Roomier.pos {b c : CodeBuffer} (hr : Roomier b c) : c.pos = b.pos :=
  congrArg Array.size hr.code

theorem scales_emit (bytes : List UInt8) : Scales (emit bytes) where
  ok {b c _ _} hr hok := by
    have hroom := hr.room
    unfold emit at hok ⊢
    split at hok
    · cases hok
    · cases hok
      refine ⟨{ c with code := b.code ++ bytes }, ?_, rfl, hr.openFixups, hroom⟩
      rw [hr.code, if_neg (by omega)]
  error _ _ hno := absurd trivial hno

theorem scales_emitForward (op : Opcode) : Scales (emitForward op) := by
  refine .bind (scales_emit _) fun _ => .get_bind fun b c hr => ?_
  rw [hr.pos]
  refine .bind (scales_emit _) fun _ => .bind (.modify fun b c hr => ?_) fun _ => .pure _
  exact ⟨hr.code, congrArg (· + 1) hr.openFixups, hr.room⟩

theorem scales_emitBackward (op : Opcode) (target : Nat) : Scales (emitBackward op target) := by
  refine .bind (scales_emit _) fun _ => .get_bind fun b c hr => ?_
  rw [hr.pos]
  split
  · exact scales_emit _
  · exact .throw _

theorem scales_patchTo (f : Fixup) (target : Nat) : Scales (patchTo f target) := by
  unfold patchTo
  split
  · refine .modify fun b c hr => ⟨?_, congrArg (· - 1) hr.openFixups, hr.room⟩
    simp only [hr.code]
  · exact .throw _

theorem scales_patch (f : Fixup) : Scales (patch f) := by
  refine .get_bind fun b c hr => ?_
  rw [hr.pos]
  exact scales_patchTo f _

end CodeBuffer

namespace Store

/-- The second store has the same content and at least as much room. -/
structure Roomier (s t : Store) : Prop where
  heap : s.heap.Roomier t.heap
  buckets : t.buckets = s.buckets

variable {s t : Store}

theorem Roomier.write (hr : Roomier s t) {i : Nat} {bs : List UInt8}
    (hi : i + bs.length ≤ s.heap.bytes.size) :
    Roomier { s with heap := s.heap.write i bs } { t with heap := t.heap.write i bs } :=
  ⟨hr.heap.write hi, hr.buckets⟩

theorem chainFrom_roomier {h h' : Heap} (hr : h.Roomier h') (fuel : Nat) (o : UInt16) :
    h'.chainFrom fuel o = h.chainFrom fuel o := by
  induction fuel generalizing o with
  | zero => rfl
  | succ fuel ih => rw [Heap.chainFrom, Heap.chainFrom, hr.word, ih]

theorem Roomier.chain (hr : Roomier s t) (b : Nat) : t.chain b = s.chain b := by
  rw [Store.chain, Store.chain, hr.buckets, hr.heap.top, chainFrom_roomier hr.heap]

theorem Roomier.find? (hr : Roomier s t) (name : List UInt8) : t.find? name = s.find? name := by
  have hnamed : t.heap.isNamed name = s.heap.isNamed name := by
    funext id
    simp only [Heap.isNamed, Heap.identHash, Heap.identName, hr.heap.word, hr.heap.slice,
      hr.heap.byte]
  simp only [Store.find?, bucketOf, hr.chain, hr.buckets, hnamed]

/-- The link that is written lies in a record, hence in both arenas. -/
theorem Roomier.link {rs : List Record} (hr : Roomier s t) {n : Nat} (hs : s.Ok rs)
    (hn : n ≤ s.heap.bytes.size) (b : Nat) (id : Ident) :
    Roomier ((s.withTop n).link b id) ((t.withTop n).link b id) := by
  have hr' : Roomier (s.withTop n) (t.withTop n) :=
    ⟨⟨rfl, hr.heap.byte, hn, hr.heap.room⟩, hr.buckets⟩
  unfold Store.link
  rw [hr'.chain]
  split
  · exact ⟨hr'.heap, by rw [hr'.buckets]⟩
  · rename_i last hlast
    have hrecord := hs.ledger.ident_within (hs.chain n b last (List.mem_of_getLast? hlast))
    have hfits := hr.heap.fits
    refine ⟨hr'.heap.write ?_, hr'.buckets⟩
    simp only [Word.length_bytes, Ident.nameField] at hrecord ⊢
    simp only [withTop]
    omega

theorem Roomier.withRecord {rs : List Record} (hr : Roomier s t) {n : Nat} (hs : s.Ok rs)
    (hn : n ≤ s.heap.bytes.size) {name : List UInt8} {id : Ident}
    (hfits : id.offset.toNat + (Heap.identRecord name).length ≤ s.heap.bytes.size) :
    Roomier ((s.withTop n).withRecord name id) ((t.withTop n).withRecord name id) := by
  have hbucket : (t.withTop n).bucketOf (Ident.hash name) =
      (s.withTop n).bucketOf (Ident.hash name) := by
    simp only [bucketOf, withTop, hr.buckets]
  rw [Store.withRecord, Store.withRecord, hbucket]
  refine (hr.link hs hn _ id).write ?_
  rwa [size_link]

theorem Roomier.intern {rs : List Record} (hr : Roomier s t) (hs : s.Ok rs) {name : List UInt8}
    {a : Ident × Bool} {s' : Store} (hi : Store.intern name s = .ok a s') :
    ∃ t', Store.intern name t = .ok a t' ∧ Roomier s' t' := by
  cases interned_of_eq hi with
  | known hlen hf =>
      have hi' : t.Interned name _ := .known hlen ((hr.find? name).trans hf)
      exact ⟨t, hi'.eq, hr⟩
  | @fresh id hlen hf ho hsize hreach =>
      have hroom := hr.heap.room
      have htop := hr.heap.top
      have hi' : t.Interned name _ := .fresh hlen ((hr.find? name).trans hf) (ho.trans htop.symm)
        (by omega) (by omega)
      rw [htop] at hi'
      refine ⟨_, hi'.eq, hr.withRecord hs hsize ?_⟩
      rw [length_identRecord, ho]
      exact hsize

end Store

namespace Compiler

/-- Names that have a record in the store, and so have the open body and its locals. -/
def Knows (ids : List Ident) (s : Compiler) : Prop :=
  ∃ rs, s.store.Ok rs ∧ (∀ id ∈ ids, HasIdent rs id) ∧
    ∀ body, s.body = some body → HasIdent rs body.id ∧ ∀ id ∈ body.locals, HasIdent rs id

/-- The second compiler is in the same state and has at least as much room. -/
structure Roomier (ids : List Ident) (s t : Compiler) : Prop where
  source : t.source = s.source
  cursor : t.cursor = s.cursor
  code : s.code.Roomier t.code
  store : s.store.Roomier t.store
  sourceMap : t.sourceMap = s.sourceMap
  maxSlots : s.maxSlots ≤ t.maxSlots
  pending : s.pending.Roomier t.pending
  blocks : s.blocks.Roomier t.blocks
  loopStarts : s.loopStarts.Roomier t.loopStarts
  savedExits : s.savedExits.Roomier t.savedExits
  loopExits : s.loopExits.Roomier t.loopExits
  exitCount : t.exitCount = s.exitCount
  forward : s.forward.Roomier t.forward
  body : t.body = s.body
  known : s.Knows ids

/-- An error of the resource family. -/
def GaveUp (e : CompileError) : Prop := 400 ≤ e.cause.number

/-- A step does the same with more room. -/
abbrev Scales {α : Type} (ids : List Ident) (x : Compile α) : Prop :=
  Parallel (Roomier ids) GaveUp x x

variable {α : Type} {ids : List Ident}

theorem Knows.mono {ids' : List Ident} {s : Compiler} (hk : s.Knows ids')
    (h : ∀ id ∈ ids, id ∈ ids') : s.Knows ids := by
  obtain ⟨rs, hs, hids, hbody⟩ := hk
  exact ⟨rs, hs, fun id hid => hids id (h id hid), hbody⟩

theorem Roomier.mono {ids' : List Ident} {s t : Compiler} (hr : Roomier ids' s t)
    (h : ∀ id ∈ ids, id ∈ ids') : Roomier ids s t :=
  { hr with known := hr.known.mono h }

/-! ### Reading -/

theorem scales_read (f : Cursor → α × Cursor) : Scales ids (read f) where
  ok {s t _ _} hr hok := by
    obtain ⟨rfl, rfl⟩ := read_eq_ok.1 hok
    exact ⟨_, read_eq_ok.2 ⟨by rw [hr.cursor], rfl⟩, { hr with cursor := by rw [hr.cursor] }⟩
  error _ herr := by cases herr

theorem scales_tryRead (act : Cursor.Action α) : Scales ids (tryRead act) where
  ok {s t _ _} hr hok := by
    obtain ⟨c, hc, rfl⟩ := tryRead_eq_ok.1 hok
    exact ⟨_, tryRead_eq_ok.2 ⟨c, by rw [hr.cursor, hc], rfl⟩, { hr with cursor := rfl }⟩
  error {s t _ _} hr herr _ := by
    unfold tryRead at herr
    split at herr
    · cases herr
    · rename_i e c hc
      cases herr
      exact ⟨{ t with cursor := c }, by rw [tryRead, hr.cursor, hc], { hr with cursor := rfl }⟩

theorem scales_failHere (cause : Cause) : Scales ids (failHere cause : Compile α) where
  ok _ hok := (failHere_eq_ok.1 hok).elim
  error {s t _ _} hr herr _ := by
    cases herr
    exact ⟨t, by rw [failHere, hr.cursor], hr⟩

theorem scales_failAt (w : WordToken) (cause : Cause) : Scales ids (failAt w cause : Compile α) :=
  .throw _

theorem scales_symbol (b : UInt8) : Scales ids (symbol b) := scales_read _

theorem scales_failWanting (wanted : Wanted) : Scales ids (failWanting wanted : Compile α) :=
  .bind (scales_read _) fun _ => .ite (fun _ => scales_failHere _) fun _ => scales_failHere _

theorem scales_expect (b : UInt8) : Scales ids (expect b) :=
  .bind (scales_symbol b) fun _ => .ite (fun _ => .pure _) fun _ => scales_failWanting _

theorem scales_name (wanted : Wanted) : Scales ids (name wanted) := by
  refine .bind (scales_read _) fun w => ?_
  cases w with
  | none => exact scales_failWanting _
  | some w => exact .when (scales_failAt _ _) fun _ => .pure _

/-! ### Code, names and stacks -/

theorem scales_onCode {act : CodeBuffer.Action α} (h : CodeBuffer.Scales act) :
    Scales ids (onCode act) where
  ok {s t _ _} hr hok := by
    obtain ⟨b, hb, rfl⟩ := onCode_eq_ok.1 hok
    obtain ⟨c, hc, hr'⟩ := h.ok hr.code hb
    exact ⟨_, onCode_eq_ok.2 ⟨c, hc, rfl⟩, { hr with code := hr' }⟩
  error {s t _ _} hr herr hno := by
    unfold onCode at herr
    split at herr
    · cases herr
    · cases herr
      exact absurd (show 400 ≤ 403 by decide) hno

theorem scales_emitOp (op : Opcode) : Scales ids (emitOp op) :=
  scales_onCode (CodeBuffer.scales_emit _)

theorem scales_emitByte (b : UInt8) : Scales ids (emitByte b) :=
  scales_onCode (CodeBuffer.scales_emit _)

theorem scales_emitWord (w : UInt16) : Scales ids (emitWord w) :=
  scales_onCode (CodeBuffer.scales_emit _)

theorem scales_emitOpByte (op : Opcode) (b : UInt8) : Scales ids (emitOpByte op b) :=
  .bind (scales_emitOp op) fun _ => scales_emitByte b

theorem scales_emitOpWord (op : Opcode) (w : UInt16) : Scales ids (emitOpWord op w) :=
  .bind (scales_emitOp op) fun _ => scales_emitWord w

theorem scales_emitCall (op : Opcode) (n : UInt8) (id : Ident) : Scales ids (emitCall op n id) :=
  .bind (scales_emitOp op) fun _ => .bind (scales_emitByte n) fun _ => scales_emitWord _

/-- The name is known in what follows. -/
theorem scales_intern {name : List UInt8} {f : Ident → Compile α}
    (hf : ∀ id, Scales (id :: ids) (f id)) : Scales ids (intern name >>= f) := by
  have hintern {s t s₁ : Compiler} {id : Ident} (hr : Roomier ids s t)
      (hok : intern name s = .ok id s₁) :
      ∃ t₁, intern name t = .ok id t₁ ∧ Roomier (id :: ids) s₁ t₁ := by
    obtain ⟨new, st, hi, rfl⟩ := intern_eq_ok.1 hok
    obtain ⟨rs, hs, hids, hbody⟩ := hr.known
    obtain ⟨st', hi', hr'⟩ := hr.store.intern hs hi
    obtain ⟨rs', hs', hmono, hid, -, -⟩ := hs.intern hi
    refine ⟨_, intern_eq_ok.2 ⟨new, st', hi', rfl⟩, { hr with store := hr', known := ?_ }⟩
    refine ⟨rs', hs', fun id' hm => ?_, fun body hb => ?_⟩
    · obtain rfl | hm := List.mem_cons.1 hm
      · exact hid
      · exact (hids id' hm).mono hmono
    · obtain ⟨h₁, h₂⟩ := hbody body hb
      exact ⟨h₁.mono hmono, fun id hm => (h₂ id hm).mono hmono⟩
  have hweaken {s t : Compiler} {id : Ident} (hr : Roomier (id :: ids) s t) : Roomier ids s t :=
    hr.mono fun _ hm => List.mem_cons_of_mem _ hm
  refine ⟨fun {s t s' b} hr hok => ?_, fun {s t s' e} hr herr hno => ?_⟩
  · obtain ⟨id, s₁, hs, hok⟩ := Action.bind_eq_ok.1 hok
    obtain ⟨t₁, ht, hr₁⟩ := hintern hr hs
    obtain ⟨t', ht', hr'⟩ := (hf id).ok hr₁ hok
    exact ⟨t', Action.bind_eq_ok.2 ⟨id, t₁, ht, ht'⟩, hweaken hr'⟩
  · simp only [Bind.bind, EStateM.bind] at herr ⊢
    cases hs : intern name s with
    | ok id s₁ =>
        obtain ⟨t₁, ht, hr₁⟩ := hintern hr hs
        rw [hs] at herr
        obtain ⟨t', ht', hr'⟩ := (hf id).error hr₁ herr hno
        exact ⟨t', by rw [ht]; exact ht', hweaken hr'⟩
    | error e' s₁ =>
        -- A name that cannot be entered is an error of the arena.
        rw [hs] at herr
        cases herr
        simp only [intern, onStore, Bind.bind, EStateM.bind] at hs
        cases hi : Store.intern name s.store with
        | ok a st => simp [hi, pure, EStateM.pure] at hs
        | error e₀ st =>
            rw [hi] at hs
            cases hs
            exact absurd (show 400 ≤ 402 by decide) hno

theorem scales_valueOf (id : Ident) : Scales ids (valueOf id) := by
  refine .get_bind fun s t hr => ?_
  rw [hr.store.heap.identValue]
  exact .pure _

theorem scales_slotOf (id : Ident) : Scales ids (slotOf id) := by
  refine .get_bind fun s t hr => ?_
  rw [hr.body, hr.store.heap.identSlot]
  cases s.body with
  | none => exact .pure _
  | some body => exact .pure _

theorem scales_argumentCount (n : Nat) (w : WordToken) : Scales ids (argumentCount n w) :=
  .ite (fun _ => .pure _) fun _ => scales_failAt _ _

/-- Something is pushed onto one of the stacks. -/
theorem scales_push {β : Type} (stack : Compiler → BoundedStack β) (item : Compiler → β)
    (enter : Compiler → BoundedStack β → Compiler) (bound : Bound) {push : Compile Unit}
    (hpush : ∀ s, push s = ((stack s).push? (item s)).elim
      (.error (s.cursor.error (.tooComplex bound)) s) fun st => .ok () (enter s st))
    (hstack : ∀ {s t}, Roomier ids s t → (stack s).Roomier (stack t))
    (hitem : ∀ {s t}, Roomier ids s t → item t = item s)
    (henter : ∀ {s t st st'}, Roomier ids s t → BoundedStack.Roomier st st' →
      Roomier ids (enter s st) (enter t st')) : Scales ids push where
  ok {s t _ _} hr hok := by
    rw [hpush] at hok ⊢
    cases hst : (stack s).push? (item s) with
    | none =>
        rw [hst] at hok
        cases hok
    | some st =>
        rw [hst] at hok
        cases hok
        obtain ⟨st', hst', hr'⟩ := (hstack hr).push? hst
        exact ⟨enter t st', by rw [hitem hr, hst']; rfl, henter hr hr'⟩
  error {s t _ _} hr herr hno := by
    rw [hpush] at herr
    cases hst : (stack s).push? (item s) with
    | none =>
        rw [hst] at herr
        cases herr
        exact absurd (show 400 ≤ 400 by decide) hno
    | some st =>
        rw [hst] at herr
        cases herr

theorem scales_pushPending (p : Pending) : Scales ids (pushPending p) :=
  scales_push pending (fun _ => p) (fun s pending => { s with pending }) .pending
    (fun s => by unfold pushPending; split <;> simp [*])
    Roomier.pending (fun _ => rfl) fun hr h => { hr with pending := h }

theorem scales_pushBlock (c : Construct) (w : WordToken) : Scales ids (pushBlock c w) :=
  scales_push blocks (fun _ => ⟨c, w.start, w.stop⟩) (fun s blocks => { s with blocks }) .control
    (fun s => by unfold pushBlock; split <;> simp [*])
    Roomier.blocks (fun _ => rfl) fun hr h => { hr with blocks := h }

theorem scales_pushForward (f : Fixup) : Scales ids (pushForward f) :=
  scales_push forward (fun _ => f) (fun s forward => { s with forward }) .jumps
    (fun s => by unfold pushForward; split <;> simp [*])
    Roomier.forward (fun _ => rfl) fun hr h => { hr with forward := h }

theorem scales_pushLoopStart (offset : Nat) : Scales ids (pushLoopStart offset) :=
  scales_push loopStarts (fun _ => offset) (fun s loopStarts => { s with loopStarts }) .loops
    (fun s => by unfold pushLoopStart; split <;> simp [*])
    Roomier.loopStarts (fun _ => rfl) fun hr h => { hr with loopStarts := h }

theorem scales_saveExits : Scales ids saveExits :=
  scales_push savedExits exitCount
    (fun s savedExits => { s with savedExits, exitCount := 0 }) .loops
    (fun s => by unfold saveExits; split <;> simp [*])
    Roomier.savedExits Roomier.exitCount fun hr h => { hr with savedExits := h, exitCount := rfl }

theorem scales_pushLoopExit (f : Fixup) : Scales ids (pushLoopExit f) :=
  scales_push loopExits (fun _ => f)
    (fun s loopExits => { s with loopExits, exitCount := s.exitCount + 1 }) .jumps
    (fun s => by unfold pushLoopExit; split <;> simp [*])
    Roomier.loopExits (fun _ => rfl)
    fun hr h => { hr with loopExits := h, exitCount := congrArg (· + 1) hr.exitCount }

/-! ### Expressions -/

theorem scales_flush (incoming : Option Nat) (fuel : Nat) : Scales ids (flush incoming fuel) := by
  have hpop : Scales ids (modify fun s => { s with pending := s.pending.pop }) :=
    .modify fun s t hr => { hr with pending := hr.pending.pop }
  induction fuel with
  | zero => exact .pure _
  | succ fuel ih =>
      refine .get_bind fun s t hr => ?_
      rw [hr.pending.top?]
      split
      · exact .pure _
      · exact .ite (fun _ => hpop) fun _ => .pure _
      · exact .ite (fun _ => .pure _) fun _ => .bind hpop fun _ =>
          .bind (scales_emitOp _) fun _ => ih

theorem scales_flushAll (incoming : Option Nat) :
    Scales ids (do flush incoming ((← get).pending.size + 1)) := by
  refine .get_bind fun s t hr => ?_
  rw [hr.pending.size]
  exact scales_flush _ _

theorem scales_unaryOperators (fuel : Nat) : Scales ids (unaryOperators fuel) := by
  induction fuel with
  | zero => exact scales_failHere _
  | succ fuel ih =>
      refine .bind (scales_read _) fun t => ?_
      cases t with
      | none => exact .pure _
      | some t => exact .bind (scales_pushPending _) fun _ => ih

theorem scales_numberLiteral (n : Number) : Scales ids (numberLiteral n) := by
  cases n <;> exact scales_emitOpWord _ _

theorem scales_allocStr (data : List UInt8) :
    Scales ids (onStore (Store.onHeap id (Heap.allocStr data))) where
  ok {s t _ _} hr hok := by
    obtain ⟨st, hst, rfl⟩ := onStore_eq_ok.1 hok
    simp only [Store.onHeap] at hst
    split at hst
    · rename_i o heap ha
      cases hst
      obtain ⟨heap', ha', hr'⟩ := (Heap.parallel_allocStr data).ok hr.store.heap ha
      obtain ⟨rs, hs, hids, hbody⟩ := hr.known
      obtain ⟨hs', hmono, -, -⟩ := hs.allocStr ha
      refine ⟨{ t with store := ⟨heap', t.store.buckets⟩ }, ?_,
        { hr with store := ⟨hr', hr.store.buckets⟩, known := ⟨_, hs', ?_, ?_⟩ }⟩
      · exact onStore_eq_ok.2 ⟨_, by simp only [Store.onHeap, ha'], rfl⟩
      · exact fun id hm => (hids id hm).mono hmono
      · exact fun body hb => ⟨(hbody body hb).1.mono hmono,
          fun id hm => ((hbody body hb).2 id hm).mono hmono⟩
    · cases hst
  error {s t _ _} hr herr hno := by
    unfold onStore at herr
    split at herr
    · cases herr
    · cases herr
      exact absurd (show 400 ≤ 402 by decide) hno

theorem scales_stringLiteral (t : StringToken) : Scales ids (stringLiteral t) := by
  cases t with
  | empty => exact scales_emitOp _
  | char c => exact scales_emitOpByte _ _
  | long start raw length => exact .bind (scales_allocStr _) fun _ => scales_emitOpWord _ _

theorem scales_arrayLiteral (start n : Nat) : Scales ids (arrayLiteral start n) := by
  refine .ite (fun _ => ?_) fun _ => scales_emitOpByte _ _
  refine .get_bind fun s t hr => ?_
  rw [hr.cursor]
  exact .bind (.throw _) fun _ => scales_emitOpByte _ _

/-- All parts of an expression, with some fuel. -/
structure ScalesAt (fuel : Nat) : Prop where
  expr : ∀ {ids}, Scales ids (expr fuel)
  operands : ∀ {ids}, Scales ids (operands fuel)
  operand : ∀ {ids}, Scales ids (operand fuel)
  wordOperand : ∀ {ids} w, Scales ids (wordOperand fuel w)
  exprList : ∀ {ids} close, Scales ids (exprList fuel close)
  exprListFrom : ∀ {ids} close n, Scales ids (exprListFrom fuel close n)
  indices : ∀ {ids}, Scales ids (indices fuel)

theorem scalesAt_zero : ScalesAt 0 where
  expr := by unfold Compiler.expr; exact scales_failHere _
  operands := by unfold Compiler.operands; exact scales_failHere _
  operand := by unfold Compiler.operand; exact scales_failHere _
  wordOperand w := by unfold Compiler.wordOperand; exact scales_failHere _
  exprList close := by unfold Compiler.exprList; exact scales_failHere _
  exprListFrom close n := by unfold Compiler.exprListFrom; exact scales_failHere _
  indices := by unfold Compiler.indices; exact scales_failHere _

variable {fuel : Nat}

theorem ScalesAt.operands_succ (ih : ScalesAt fuel) :
    Scales ids (Compiler.operands (fuel + 1)) := by
  unfold Compiler.operands
  refine .bind (scales_unaryOperators _) fun _ => .bind ih.operand fun _ =>
    .bind (scales_read _) fun t => ?_
  cases t with
  | none => exact scales_flushAll _
  | some t =>
      refine .get_bind fun s s' hr => ?_
      rw [hr.pending.size]
      exact .bind (scales_flush _ _) fun _ => .bind (scales_pushPending _) fun _ => ih.operands

theorem ScalesAt.operand_succ (ih : ScalesAt fuel) : Scales ids (Compiler.operand (fuel + 1)) := by
  unfold Compiler.operand
  refine .bind (scales_symbol _) fun _ => .ite (fun _ => ?_) fun _ => ?_
  · exact .bind ih.expr fun _ => scales_expect _
  · refine .bind (scales_symbol _) fun _ => .ite (fun _ => ?_) fun _ => ?_
    · refine .get_bind fun s t hr => ?_
      rw [hr.cursor]
      exact .bind (ih.exprList _) fun _ => scales_arrayLiteral _ _
    · refine .bind (scales_tryRead _) fun t => ?_
      cases t with
      | some t => exact scales_numberLiteral _
      | none =>
          refine .bind (scales_tryRead _) fun t => ?_
          cases t with
          | some t => exact scales_stringLiteral _
          | none =>
              refine .bind (scales_read _) fun w => ?_
              cases w with
              | some w => exact ih.wordOperand w
              | none =>
                  exact .bind (scales_read _) fun _ =>
                    .ite (fun _ => scales_failHere _) fun _ => scales_failHere _

theorem ScalesAt.wordOperand_succ (ih : ScalesAt fuel) (w : WordToken) :
    Scales ids (Compiler.wordOperand (fuel + 1) w) := by
  unfold Compiler.wordOperand
  split
  · exact scales_emitOp _
  · refine .bind (scales_expect _) fun _ => .bind (ih.exprList _) fun n => ?_
    exact .when (scales_failAt _ _) fun _ => scales_emitOp _
  · exact scales_failAt _ _
  · refine scales_intern fun id => .bind (scales_symbol _) fun _ => .ite (fun _ => ?_) fun _ => ?_
    · exact .bind (ih.exprList _) fun n => .bind (scales_argumentCount _ _) fun _ =>
        scales_emitCall _ _ _
    · refine .bind (scales_slotOf id) fun slot => ?_
      cases slot with
      | some slot => exact .bind (scales_emitOpByte _ _) fun _ => ih.indices
      | none => exact .bind (scales_emitOpWord _ _) fun _ => ih.indices

theorem ScalesAt.indices_succ (ih : ScalesAt fuel) : Scales ids (Compiler.indices (fuel + 1)) := by
  unfold Compiler.indices
  refine .bind (scales_symbol _) fun _ => .ite (fun _ => ?_) fun _ => .pure _
  refine .bind ih.expr fun _ => .bind (scales_symbol _) fun _ => .ite (fun _ => ?_) fun _ => ?_
  · exact .bind ih.expr fun _ => .bind (scales_expect _) fun _ => .bind (scales_emitOp _) fun _ =>
      ih.indices
  · exact .bind (scales_expect _) fun _ => .bind (scales_emitOp _) fun _ => ih.indices

theorem ScalesAt.succ (ih : ScalesAt fuel) : ScalesAt (fuel + 1) where
  expr := by
    unfold Compiler.expr
    exact .bind (scales_pushPending _) fun _ => ih.operands
  operands := ih.operands_succ
  operand := ih.operand_succ
  wordOperand := ih.wordOperand_succ
  exprList close := by
    unfold Compiler.exprList
    exact .bind (scales_symbol _) fun _ => .ite (fun _ => .pure _) fun _ => ih.exprListFrom _ _
  exprListFrom close n := by
    unfold Compiler.exprListFrom
    refine .bind ih.expr fun _ => .bind (scales_symbol _) fun _ => .ite (fun _ => ?_) fun _ => ?_
    · exact ih.exprListFrom _ _
    · exact .bind (scales_expect _) fun _ => .pure _
  indices := ih.indices_succ

theorem scalesAt (fuel : Nat) : ScalesAt fuel := by
  induction fuel with
  | zero => exact scalesAt_zero
  | succ fuel ih => exact ih.succ

/-- A loop whose fuel is the length of the text. -/
theorem scales_loop {f : Nat → Compile α} (g : Nat → Nat) (hf : ∀ fuel, Scales ids (f fuel)) :
    Scales ids (do f (g (← get).cursor.rest.length)) := by
  refine .get_bind fun s t hr => ?_
  rw [hr.cursor]
  exact hf _

theorem scales_expression : Scales ids expression :=
  scales_loop (fun n => 8 * (n + 1)) fun fuel => (scalesAt fuel).expr

/-! ### Storing -/

/-- Only fields of the given names are overwritten, so both arenas reach that far. -/
structure Touches (ids : List Ident) (f : Heap → Heap) : Prop where
  keeps : ∀ {s t : Store} {rs : List Record}, s.Ok rs → (∀ id ∈ ids, HasIdent rs id) →
    s.Roomier t → Store.Ok { s with heap := f s.heap } rs ∧
      Store.Roomier { s with heap := f s.heap } { t with heap := f t.heap }

theorem Touches.comp {f g : Heap → Heap} (hf : Touches ids f) (hg : Touches ids g) :
    Touches ids fun h => g (f h) where
  keeps hs hids hr := by
    obtain ⟨hs', hr'⟩ := hf.keeps hs hids hr
    exact hg.keeps hs' hids hr'

/-- A field between the link and the length of a record. -/
theorem touches_write {id : Ident} (hid : id ∈ ids) (k : Nat) (bs : List UInt8) (hk : 2 ≤ k)
    (hend : k + bs.length ≤ Ident.lengthField) :
    Touches ids fun h => h.write (id.offset.toNat + k) bs := by
  refine ⟨fun {s t rs} hs hids hr => ?_⟩
  have hwithin := hs.ledger.ident_within (hids id hid)
  have hfits := hr.heap.fits
  simp only [Ident.nameField, Ident.lengthField] at hwithin hend
  refine ⟨hs.setField (hids id hid) (Heap.sameOutside_write _ _ _) (by omega) ?_,
    hr.write (by omega)⟩
  simp only [Ident.lengthField]
  omega

theorem touches_setIdentSlot {id : Ident} (hid : id ∈ ids) (b : UInt8) :
    Touches ids fun h => h.setIdentSlot id b :=
  touches_write hid 7 [b] (by decide) (by simp [Ident.lengthField])

theorem touches_setIdentArguments {id : Ident} (hid : id ∈ ids) (b : UInt8) :
    Touches ids fun h => h.setIdentArguments id b :=
  touches_write hid 8 [b] (by decide) (by simp [Ident.lengthField])

theorem touches_setIdentValue {id : Ident} (hid : id ∈ ids) (v : Value) :
    Touches ids fun h => h.setIdentValue id v :=
  touches_write hid 4 v.encode (by decide) (by simp [Ident.lengthField, Value.encode, Word.bytes])

theorem touches_clearSlots {locals : List Ident} (hids : ∀ id ∈ locals, id ∈ ids) :
    Touches ids fun h => locals.foldl (fun h id => h.setIdentSlot id Ident.noSlot) h := by
  induction locals with
  | nil => exact ⟨fun hs _ hr => ⟨hs, hr⟩⟩
  | cons id locals ih =>
      exact (touches_setIdentSlot (hids id (List.mem_cons_self ..)) _).comp
        (ih fun id hm => hids id (List.mem_cons_of_mem _ hm))

theorem scales_modifyHeap {f : Heap → Heap} (hf : Touches ids f) : Scales ids (modifyHeap f) := by
  refine .modify fun s t hr => ?_
  obtain ⟨rs, hs, hids, hbody⟩ := hr.known
  obtain ⟨hs', hr'⟩ := hf.keeps hs hids hr.store
  exact { hr with store := hr', known := ⟨rs, hs', hids, hbody⟩ }

/-- The names of the open body. -/
def names (s : Compiler) : List Ident := (s.body.map fun b => b.id :: b.locals).getD []

/-- Having looked at the state, one knows the names of the open body too. -/
theorem scales_get {f g : Compiler → Compile α}
    (h : ∀ s t, Roomier ids s t → Parallel (Roomier (s.names ++ ids)) GaveUp (f s) (g t)) :
    Parallel (Roomier ids) GaveUp (get >>= f) (get >>= g) := by
  have hstrong {s t : Compiler} (hr : Roomier ids s t) : Roomier (s.names ++ ids) s t := by
    obtain ⟨rs, hs, hids, hbody⟩ := hr.known
    refine { hr with known := ⟨rs, hs, fun id hm => ?_, hbody⟩ }
    obtain hm | hm := List.mem_append.1 hm
    · cases hb : s.body with
      | none => simp [names, hb] at hm
      | some body =>
          obtain ⟨h₁, h₂⟩ := hbody body hb
          simp only [names, hb, Option.map_some, Option.getD_some] at hm
          obtain rfl | hm := List.mem_cons.1 hm
          · exact h₁
          · exact h₂ id hm
    · exact hids id hm
  have hweaken {s t u : Compiler} (hr : Roomier (u.names ++ ids) s t) : Roomier ids s t :=
    hr.mono fun _ hm => List.mem_append_right _ hm
  refine ⟨fun hr hok => ?_, fun hr herr hno => ?_⟩
  · obtain ⟨t', ht', hr'⟩ := (h _ _ hr).ok (hstrong hr) hok
    exact ⟨t', ht', hweaken hr'⟩
  · obtain ⟨t', ht', hr'⟩ := (h _ _ hr).error (hstrong hr) herr hno
    exact ⟨t', ht', hweaken hr'⟩

/-- A body is opened, or its locals are changed. -/
theorem scales_setBody {body : Body} (hid : body.id ∈ ids)
    (hlocals : ∀ id ∈ body.locals, id ∈ ids) :
    Scales ids (modify fun s => { s with body := some body }) := by
  refine .modify fun s t hr => ?_
  obtain ⟨rs, hs, hids, -⟩ := hr.known
  refine { hr with body := rfl, known := ⟨rs, hs, hids, ?_⟩ }
  rintro _ ⟨⟩
  exact ⟨hids _ hid, fun id hm => hids id (hlocals id hm)⟩

theorem scales_redefinition (v : Value) (w : WordToken) :
    Scales ids (redefinition v w : Compile α) := by
  unfold redefinition
  split <;> exact scales_failAt _ _

theorem scales_declareLocal {id : Ident} (hid : id ∈ ids) (w : WordToken) :
    Scales ids (declareLocal id w) := by
  refine .bind (scales_valueOf id) fun v => .when (scales_redefinition v w) fun _ => ?_
  refine scales_get fun s t hr => ?_
  rw [hr.body]
  cases hb : s.body with
  | none => exact scales_failAt _ _
  | some body =>
      have hmax := hr.maxSlots
      by_cases hfull : body.locals.length ≥ s.maxSlots
      · simp only [if_pos hfull]
        exact .giveUp (show GaveUp (w.error (.tooManyLocals s.maxSlots)) from
          show 400 ≤ 401 by decide) _
      · simp only [if_neg hfull, if_neg (show ¬ body.locals.length ≥ t.maxSlots by omega)]
        have hbody : body.id ∈ s.names ++ ids := by simp [names, hb]
        have hid : id ∈ s.names ++ ids := List.mem_append_right _ hid
        refine .bind (scales_setBody hbody fun id' hm => ?_) fun _ =>
          .bind (scales_modifyHeap ?_) fun _ => .pure _
        · obtain hm | hm := List.mem_append.1 hm
          · simp [names, hb, hm]
          · rw [List.mem_singleton.1 hm]
            exact hid
        · exact (touches_setIdentSlot hid _).comp (touches_setIdentSlot hbody _)

theorem scales_assign {id : Ident} (hid : id ∈ ids) (w : WordToken) :
    Scales ids (assign id w) := by
  refine .get_bind fun s t hr => ?_
  rw [hr.body]
  cases s.body with
  | none =>
      exact .bind (scales_valueOf id) fun v => .when (scales_redefinition v w) fun _ =>
        scales_emitOpWord _ _
  | some body =>
      refine .bind (scales_slotOf id) fun slot => ?_
      cases slot with
      | some slot => exact scales_emitOpByte _ _
      | none => exact .bind (scales_declareLocal hid w) fun _ => scales_emitOpByte _ _

/-! ### Commands -/

theorem scales_argumentsFrom (fuel n : Nat) : Scales ids (argumentsFrom fuel n) := by
  induction fuel generalizing n with
  | zero => exact scales_failHere _
  | succ fuel ih =>
      exact .bind scales_expression fun _ => .bind (scales_symbol _) fun _ =>
        .ite (fun _ => ih _) fun _ => .pure _

theorem scales_arguments : Scales ids arguments :=
  .bind (scales_read _) fun _ => .ite (fun _ => .pure _) fun _ =>
    scales_loop (· + 1) fun fuel => scales_argumentsFrom fuel 0

theorem scales_printStatement (w : WordToken) : Scales ids (printStatement w) :=
  .bind scales_arguments fun _ => .bind (scales_argumentCount _ _) fun _ => scales_emitOpByte _ _

theorem scales_inputStatement (fuel : Nat) : Scales ids (inputStatement fuel) := by
  induction fuel generalizing ids with
  | zero => exact scales_failHere _
  | succ fuel ih =>
      refine .bind (scales_name _) fun w => scales_intern fun id =>
        .bind (scales_emitOp _) fun _ => ?_
      exact .bind (scales_assign (List.mem_cons_self ..) w) fun _ =>
        .bind (scales_symbol _) fun _ =>
        .ite (fun _ => ih) fun _ => .pure _

/-! ### Blocks -/

theorem scales_popBlock (w : WordToken) (opener : Construct) (others : List Construct) :
    Scales ids (popBlock w opener others) := by
  refine .get_bind fun s t hr => ?_
  rw [hr.blocks.top?]
  split
  · exact scales_failAt _ _
  · exact .ite (fun _ => .modify fun s t hr => { hr with blocks := hr.blocks.pop })
      fun _ => scales_failAt _ _

theorem scales_popForward : Scales ids popForward := by
  refine .get_bind fun s t hr => ?_
  rw [hr.forward.top?]
  split
  · exact scales_failHere _
  · exact .bind (.modify fun s t hr => { hr with forward := hr.forward.pop }) fun _ => .pure _

theorem scales_beginLoop : Scales ids beginLoop := by
  refine .get_bind fun s t hr => ?_
  rw [hr.code.pos]
  exact .bind (scales_pushLoopStart _) fun _ => scales_saveExits

theorem scales_patchExits (n : Nat) : Scales ids (patchExits n) := by
  induction n with
  | zero => exact .pure _
  | succ n ih =>
      refine .get_bind fun s t hr => ?_
      rw [hr.loopExits.top?]
      split
      · exact .pure _
      · exact .bind (.modify fun s t hr => { hr with loopExits := hr.loopExits.pop }) fun _ =>
          .bind (scales_onCode (CodeBuffer.scales_patch _)) fun _ => ih

theorem scales_endLoop (op : Opcode) : Scales ids (endLoop op) := by
  refine .get_bind fun s t hr => ?_
  rw [hr.loopStarts.top?]
  split
  · exact scales_failHere _
  · refine .bind (.modify fun s t hr => { hr with loopStarts := hr.loopStarts.pop }) fun _ =>
      .bind (scales_onCode (CodeBuffer.scales_emitBackward _ _)) fun _ => .get_bind fun s t hr => ?_
    rw [hr.exitCount]
    refine .bind (scales_patchExits _) fun _ => .modify fun s t hr => ?_
    exact { hr with savedExits := hr.savedExits.pop, exitCount := by rw [hr.savedExits.top?] }

/-- A jump whose target follows later is remembered. -/
theorem scales_emitForward (op : Opcode) {push : Fixup → Compile Unit}
    (hpush : ∀ f, Scales ids (push f)) :
    Scales ids (do push (← onCode (CodeBuffer.emitForward op))) :=
  .bind (scales_onCode (CodeBuffer.scales_emitForward op)) hpush

theorem scales_elseStatement (w : WordToken) : Scales ids (elseStatement w) := by
  refine .bind (scales_popBlock _ _ _) fun _ => .bind (scales_pushBlock _ _) fun _ =>
    .bind scales_popForward fun skip => .get_bind fun s t hr => ?_
  rw [hr.code.pos]
  exact .bind (scales_onCode (CodeBuffer.scales_patchTo _ _)) fun _ =>
    scales_emitForward _ scales_pushForward

theorem scales_patchForward : Scales ids (do onCode (CodeBuffer.patch (← popForward))) :=
  .bind scales_popForward fun _ => scales_onCode (CodeBuffer.scales_patch _)

theorem scales_whileStatement (w : WordToken) : Scales ids (whileStatement w) :=
  .bind (scales_pushBlock _ _) fun _ => .bind scales_beginLoop fun _ =>
    .bind scales_expression fun _ => scales_emitForward _ scales_pushLoopExit

theorem scales_breakStatement (w : WordToken) : Scales ids (breakStatement w) := by
  refine .get_bind fun s t hr => ?_
  rw [hr.loopStarts.isEmpty]
  exact .when (scales_failAt _ _) fun _ => scales_emitForward _ scales_pushLoopExit

/-! ### Bodies -/

theorem scales_parameters (fuel : Nat) : Scales ids (parameters fuel) := by
  induction fuel generalizing ids with
  | zero => exact scales_failHere _
  | succ fuel ih =>
      refine .bind (scales_name _) fun w => scales_intern fun id =>
        .bind (scales_slotOf id) fun _ => ?_
      exact .when (scales_failAt _ _) fun _ =>
        .bind (scales_declareLocal (List.mem_cons_self ..) w) fun _ =>
          .bind (scales_symbol _) fun _ =>
          .ite (fun _ => ih) fun _ => .pure _

theorem scales_parameterList : Scales ids parameterList := by
  refine .bind (scales_expect _) fun _ => .bind (scales_symbol _) fun _ =>
    .ite (fun _ => .pure _) fun _ => .get_bind fun s t hr => ?_
  rw [hr.cursor]
  exact .bind (scales_parameters _) fun _ => scales_expect _

/-- The record of a body is made and its parameters are read. -/
theorem scales_bodyStatement (isFunc : Bool) (w : WordToken) :
    Scales ids (bodyStatement isFunc w) := by
  refine .get_bind fun s t hr => ?_
  rw [hr.blocks.isEmpty, hr.body]
  refine .when (scales_failAt _ _) fun _ => .bind (scales_pushBlock _ _) fun _ =>
    .bind (scales_onCode (CodeBuffer.scales_emitForward _)) fun f =>
    .bind (scales_pushForward f) fun _ => .bind (scales_name _) fun nameWord =>
    scales_intern fun id => .bind (scales_valueOf id) fun v => .when (scales_failAt _ _) fun _ =>
    .get_bind fun s t hr => ?_
  rw [hr.code.pos]
  refine .when (scales_failHere _) fun _ => .bind (scales_modifyHeap ?_) fun _ =>
    .bind (scales_setBody (List.mem_cons_self ..) (by simp)) fun _ =>
    .bind scales_parameterList fun _ => .get_bind fun s t hr => ?_
  · exact (touches_setIdentValue (List.mem_cons_self ..) _).comp
      (touches_setIdentSlot (List.mem_cons_self ..) _)
  · rw [hr.body]
    exact scales_modifyHeap (touches_setIdentArguments (List.mem_cons_self ..) _)

theorem scales_returnStatement (w : WordToken) : Scales ids (returnStatement w) := by
  refine .get_bind fun s t hr => ?_
  rw [hr.body]
  cases s.body with
  | none => exact scales_failAt _ _
  | some body =>
      refine .bind (scales_read _) fun bare => .ite (fun _ => ?_) fun _ => ?_
      · exact .when (scales_failAt _ _) fun _ => .bind scales_expression fun _ => scales_emitOp _
      · exact .ite (fun _ => scales_emitOp _) fun _ => .bind (scales_failHere _) fun _ =>
          scales_emitOp _

theorem scales_endStatement (w : WordToken) : Scales ids (endStatement w) := by
  refine .bind (scales_popBlock _ _ _) fun _ => scales_get fun s t hr => ?_
  rw [hr.body]
  cases hb : s.body with
  | none => exact scales_failAt _ _
  | some body =>
      refine .bind (.modify fun s t hr => ?_) fun _ => .bind (scales_emitOp _) fun _ =>
        .bind (scales_modifyHeap (touches_clearSlots fun id hm => ?_)) fun _ => scales_patchForward
      · obtain ⟨rs, hs, hids, -⟩ := hr.known
        exact { hr with body := rfl, known := ⟨rs, hs, hids, nofun⟩ }
      · simp [names, hb, hm]

/-! ### Programs -/

theorem scales_controlStatement (op : Opcode) (w : WordToken) :
    Scales ids (controlStatement op w) := by
  unfold controlStatement
  split
  · exact .bind (scales_pushBlock _ _) fun _ => .bind scales_expression fun _ =>
      scales_emitForward _ scales_pushForward
  · exact scales_elseStatement w
  · exact .bind (scales_popBlock _ _ _) fun _ => scales_patchForward
  · exact scales_whileStatement w
  · exact .bind (scales_popBlock _ _ _) fun _ => scales_endLoop _
  · exact .bind (scales_pushBlock _ _) fun _ => scales_beginLoop
  · exact .bind (scales_popBlock _ _ _) fun _ => .bind scales_expression fun _ => scales_endLoop _
  · exact scales_breakStatement w
  · exact scales_bodyStatement true w
  · exact scales_bodyStatement false w
  · exact scales_returnStatement w
  · exact scales_endStatement w

theorem scales_statementAt (w : WordToken) : Scales ids (statementAt w) := by
  refine .bind (.modify fun s t hr => ?_) fun _ => ?_
  · exact { hr with sourceMap := by rw [hr.sourceMap, hr.code.pos, hr.source] }
  · split
    · exact scales_emitOp _
    · exact scales_printStatement w
    · exact scales_loop (· + 1) scales_inputStatement
    · exact scales_controlStatement _ w
    · exact scales_failAt _ _
    · refine scales_intern fun id => .bind (scales_symbol _) fun _ => .ite (fun _ => ?_) fun _ => ?_
      · exact .bind scales_expression fun _ => scales_assign (List.mem_cons_self ..) w
      · exact .bind scales_arguments fun _ => .bind (scales_argumentCount _ _) fun _ =>
          scales_emitCall _ _ _

theorem scales_statement : Scales ids statement := by
  refine .bind (scales_read _) fun w => ?_
  cases w with
  | none => exact scales_failHere _
  | some w => exact scales_statementAt w

theorem scales_statements (fuel : Nat) : Scales ids (statements fuel) := by
  induction fuel with
  | zero => exact scales_failHere _
  | succ fuel ih =>
      refine .bind (scales_read _) fun _ => .ite (fun _ => .pure _) fun _ =>
        .bind scales_statement fun _ => .bind (scales_symbol _) fun _ =>
          .ite (fun _ => ih) fun _ => ?_
      exact .bind (scales_read _) fun _ => .ite (fun _ => scales_failHere _) fun _ =>
        scales_failHere _

theorem scales_program : Scales ids program := by
  refine .get_bind fun s t hr => ?_
  rw [hr.cursor]
  refine .bind (scales_statements _) fun _ => .get_bind fun s t hr => ?_
  rw [hr.blocks.top?]
  split
  · exact .throw _
  · exact scales_emitOp _

end Compiler

end CellScript
