import CellScript.Proofs.Activations

/-!
A step preserves the description of a machine.

Every instruction of a program flows, and `Flows` lists the fifteen kinds of
instruction there are. For each of them the module shows what a step does to a
described machine: it ends with a fault of the language, or it leads to another
described machine. Ten kinds produce a value and differ only in the computation
behind it; they are handled together.
-/

namespace CellScript

open Activation

/-! ### Sound computations -/

theorem Literal.Fine.sound {rs : List Record} {ds : List (Definition × Nat)} {l : Literal}
    (h : l.Fine rs) : l.value.Sound rs ds := by
  cases l with
  | long offset => exact h
  | _ => trivial

/-- A sound value came out and the heap grew, or a fault of the language. -/
def World.SoundAfter {κ : Type} (w : World κ) (rs : List Record) (ds : List (Definition × Nat)) :
    EStateM.Result Fault (World κ) Value → Prop
  | .ok v w' => ∃ rs', (∀ r ∈ rs, r ∈ rs') ∧ w.heap.Grows w'.heap ∧ w'.heap.Sound rs' ds ∧
      v.Sound rs' ds
  | .error e _ => e.isInternal = false

namespace World

variable {κ : Type} {w : World κ} {rs : List Record} {ds : List (Definition × Nat)}

theorem onHeap_sound {act : Operation Value} (h : w.heap.SoundAfter rs ds (act w.heap)) :
    w.SoundAfter rs ds (onHeap act w) := by
  unfold onHeap
  cases hr : act w.heap with
  | ok v heap =>
      rw [hr] at h
      exact h
  | error e heap =>
      rw [hr] at h
      exact h.2

/-- A value that was there already. -/
theorem ok_sound (hs : w.heap.Sound rs ds) {v : Value} (hv : v.Sound rs ds) :
    w.SoundAfter rs ds (.ok v w) :=
  ⟨rs, fun _ h => h, .refl _, hs, hv⟩

theorem lookup_sound (hs : w.heap.Sound rs ds) {id : Ident}
    (hv : (w.heap.identValue id).Sound rs ds) : w.SoundAfter rs ds (lookup id w) := by
  unfold lookup
  split
  · exact rfl
  · exact ok_sound hs hv

theorem index_sound (hs : w.heap.Sound rs ds) {c k : Value} (hc : c.Sound rs ds) :
    w.SoundAfter rs ds (index c k w) := by
  have hindex := Builtin.index_sound hs hc (i := k)
  unfold index
  cases hr : Builtin.index w.heap c k with
  | ok v =>
      rw [hr] at hindex
      exact ok_sound hs hindex
  | error e =>
      rw [hr] at hindex
      exact hindex

theorem readLine_sound [Console κ] (hs : w.heap.Sound rs ds) :
    w.SoundAfter rs ds (readLine w) := by
  unfold readLine
  cases Console.readLine? w.console with
  | none => exact rfl
  | some x =>
      have h := Builtin.makeStr_sound hs x.1
      exact onHeap_sound (w := { w with console := x.2 }) h

theorem operate_sound (hs : w.heap.Sound rs ds) {op : Opcode} {args : List Value}
    (ha : op.arity? = some args.length) (hargs : ∀ v ∈ args, v.Sound rs ds) :
    w.SoundAfter rs ds (operate op args w) := by
  cases applied_cases (κ := κ) ha with
  | rnd => exact ⟨rs, fun _ h => h, .refl _, hs, trivial⟩
  | left => exact onHeap_sound (Builtin.left_sound hs _ _)
  | right => exact onHeap_sound (Builtin.right_sound hs _ _)
  | index => exact index_sound hs (hargs _ (List.mem_cons_self ..))
  | substr => exact onHeap_sound (Builtin.substr_sound hs _ _ _)
  | slice => exact onHeap_sound (Builtin.slice_sound hs _ _ (hargs _ (List.mem_cons_self ..)))
  | unary _ ho =>
      rw [ho]
      exact onHeap_sound (Builtin.unary_sound hs _ _)
  | binary _ _ _ _ ho =>
      rw [ho]
      exact onHeap_sound (Builtin.binary_sound hs _ _ _)

end World

/-! ### What a step may lead to -/

/-- A fault of the language, the end of the run, or another described machine. -/
def StepsTo {κ : Type} (p : Program) (t : Stmt) (rs₀ : List Record) (cap : Nat)
    (rs : List Record) (m : Machine κ) (as : List Activation) (ops : List Value) :
    EStateM.Result Fault (Machine κ) Flow → Prop
  | .error e _ => e.isInternal = false
  | .ok .halt _ => True
  | .ok .next m' => ∃ rs' as' ops', (∀ r ∈ rs, r ∈ rs') ∧ Running p t rs₀ cap rs' m' as' ops' ∧
      Moves p t rs₀ m m' as ops as' ops'

/-- The result of an instruction as that of its step. -/
def stepResult {κ : Type} : EStateM.Result Fault (Machine κ) Unit →
    EStateM.Result Fault (Machine κ) Flow
  | .ok _ m => .ok .next m
  | .error e m => .error e m

/-- Whether an instruction is a call. -/
def Instr.isCall (i : Instr) : Bool := i.op = .callFunc || i.op = .callProc

/-- What flows into a call and out of it. -/
theorem Flows.call {rs : List Record} {S : Point → Prop} {q : Point} {i : Instr}
    (h : Flows rs S q i) (hi : i.isCall = true) :
    ∃ (isProc : Bool) (n k : Nat) (id : Ident),
      i = ⟨if isProc then .callProc else .callFunc, UInt8.ofNat n, id.offset⟩ ∧
      n ≤ 255 ∧ HasIdent rs id ∧ q.height = k + n ∧
      S ⟨q.addr + 4, q.body, k + if isProc then 0 else 1⟩ := by
  cases h with
  | callFunc hid hn hs => exact ⟨false, _, _, _, rfl, hn, hid, rfl, hs⟩
  | callProc hid hn hs => exact ⟨true, _, _, _, rfl, hn, hid, rfl, hs⟩
  | @literal _ _ _ l =>
      cases l with
      | truth b => cases b <;> cases hi
      | _ => cases hi
  | @load _ _ _ q => cases q <;> cases hi
  | @store _ _ _ q => cases q <;> cases hi
  | @apply _ _ _ _ op ha => cases op <;> first | (cases ha; done) | cases hi
  | _ => cases hi

namespace Running

variable {κ : Type} {p : Program} {t : Stmt} {rs₀ rs rs' : List Record} {cap : Nat} {m : Machine κ}
  {as : List Activation} {ops : List Value}

/-- The operands that an instruction takes. -/
theorem split_operands {n k : Nat} (h : ops.length = k + n) :
    ∃ kept args, ops = kept ++ args ∧ kept.length = k ∧ args.length = n :=
  ⟨ops.take k, ops.drop k, (List.take_append_drop k ops).symm,
    by rw [List.length_take]; omega, by rw [List.length_drop]; omega⟩

theorem split_operand {k : Nat} (h : ops.length = k + 1) :
    ∃ kept v, ops = kept ++ [v] ∧ kept.length = k := by
  obtain ⟨kept, args, hops, hkept, hargs⟩ := split_operands h
  obtain ⟨v, rfl⟩ := List.length_eq_one_iff.1 hargs
  exact ⟨kept, v, hops, hkept⟩

/-- The operands that an instruction takes lie on top of the stack. -/
theorem stack_operands (h : Running p t rs₀ cap rs m as ops) {kept args : List Value}
    (hops : ops = kept ++ args) : m.stack.Holds cap (image as kept ++ Value.encodeAll args) := by
  rw [← image_append, ← hops]
  exact h.stack

theorem stack_operand (h : Running p t rs₀ cap rs m as ops) {kept : List Value} {v : Value}
    (hops : ops = kept ++ [v]) : m.stack.Holds cap (image as kept ++ v.encode) := by
  rw [← Value.encodeAll_singleton]
  exact h.stack_operands hops

/-- Adding records leaves the entries of the names alone. -/
theorem entry_of_grows (h : Running p t rs₀ cap rs m as ops) {heap : Heap}
    (hgrow : m.heap.Grows heap) {id : Ident} (hid : HasIdent rs₀ id) :
    heap.entry id = m.heap.entry id :=
  hgrow.entry (h.heap.ledger.ident_within (hid.mono h.records)).2

theorem values_of_grows (h : Running p t rs₀ cap rs m as ops) {heap : Heap}
    (hgrow : m.heap.Grows heap) (hr : ∀ r ∈ rs, r ∈ rs') {id : Ident} (hid : HasIdent rs₀ id) :
    (heap.identValue id).Sound rs' (t.definitions 0) := by
  have hv : heap.identValue id = m.heap.identValue id :=
    congrArg Entry.value (h.entry_of_grows hgrow hid)
  rw [hv]
  exact (h.values id hid).mono hr

theorem counts_of_entry (h : Running p t rs₀ cap rs m as ops) {heap : Heap} {id : Ident}
    (hid : HasIdent rs₀ id) (hs : (heap.entry id).slot = (m.heap.entry id).slot)
    (ha : (heap.entry id).arguments = (m.heap.entry id).arguments) :
    heap.identSlot id = p.heap.identSlot id ∧ heap.identArguments id = p.heap.identArguments id :=
  ⟨hs.trans (h.counts id hid).1, ha.trans (h.counts id hid).2⟩

/-- A step that produces a value. -/
theorem produce (h : Running p t rs₀ cap rs m as ops) {kept args : List Value}
    (hops : ops = kept ++ args) {x : EStateM.Result Fault (Machine κ) Unit} {pc : Nat}
    {r : EStateM.Result Fault (World κ) Value}
    (hx : Machine.Produces x { m with pc } cap (image as kept) r)
    (hr : m.world.SoundAfter rs (t.definitions 0) r)
    (hpoint : t.HasPoint ⟨pc, bodyOf as, kept.length + 1⟩) :
    StepsTo p t rs₀ cap rs m as ops (stepResult x) := by
  cases r with
  | error e w =>
      obtain ⟨m', rfl, -⟩ := hx
      exact hr
  | ok v w =>
      by_cases hfit : (image as kept).length + 3 ≤ cap
      · obtain ⟨s, hs, rfl⟩ := hx.1 hfit
        obtain ⟨rs', hrecords, hgrow, hheap, hv⟩ := hr
        refine ⟨rs', as, kept ++ [v], hrecords,
          ⟨?_, ?_, h.fp, h.depth, h.linked, ?_, hheap, ?_, ?_, ?_, ?_⟩, .stay hgrow⟩
        · rw [List.length_append]
          exact hpoint
        · rw [image_append, Value.encodeAll_singleton]
          exact hs
        · exact fun r hr => hrecords r (h.records r hr)
        · intro u hu
          obtain hu | hu := List.mem_append.1 hu
          · exact (h.operands u (hops ▸ List.mem_append_left _ hu)).mono hrecords
          · obtain rfl := List.mem_singleton.1 hu
            exact hv
        · exact fun a ha u hu => (h.frames a ha u hu).mono hrecords
        · exact fun id hid => h.values_of_grows hgrow hrecords hid
        · intro id hid
          have he := h.entry_of_grows hgrow hid
          exact h.counts_of_entry hid (congrArg Entry.slot he) (congrArg Entry.arguments he)
      · obtain ⟨m', rfl, -⟩ := hx.2 (by omega)
        exact rfl

/-- Operands are taken, and nothing else changes that the description mentions. -/
theorem consume (h : Running p t rs₀ cap rs m as ops) {kept args : List Value}
    (hops : ops = kept ++ args) {m' : Machine κ} (hstack : m'.stack.Holds cap (image as kept))
    (hheap : m'.heap = m.heap) (hfp : m'.fp = m.fp) (hdepth : m'.depth = m.depth)
    (hpoint : t.HasPoint ⟨m'.pc, bodyOf as, kept.length⟩) :
    Running p t rs₀ cap rs m' as kept where
  point := hpoint
  stack := hstack
  fp := hfp.trans h.fp
  depth := hdepth.trans h.depth
  linked := h.linked
  records := h.records
  heap := hheap ▸ h.heap
  operands v hv := h.operands v (hops ▸ List.mem_append_left _ hv)
  frames := h.frames
  values := hheap ▸ h.values
  counts := hheap ▸ h.counts

theorem consume_steps (h : Running p t rs₀ cap rs m as ops) {kept args : List Value}
    (hops : ops = kept ++ args) {m' : Machine κ} (hstack : m'.stack.Holds cap (image as kept))
    (hheap : m'.heap = m.heap) (hfp : m'.fp = m.fp) (hdepth : m'.depth = m.depth)
    (hpoint : t.HasPoint ⟨m'.pc, bodyOf as, kept.length⟩) :
    StepsTo p t rs₀ cap rs m as ops (.ok .next m') :=
  ⟨rs, as, kept, fun _ hr => hr, h.consume hops hstack hheap hfp hdepth hpoint,
    .stay (hheap ▸ .refl _)⟩

/-- A name gets a value. -/
theorem setName (h : Running p t rs₀ cap rs m [] ops) {kept : List Value} {v : Value}
    (hops : ops = kept ++ [v]) {id : Ident} (hid : HasIdent rs₀ id) {m' : Machine κ}
    (hstack : m'.stack.Holds cap (image [] kept)) (hheap : m'.heap = m.heap.setIdentValue id v)
    (hfp : m'.fp = m.fp) (hdepth : m'.depth = m.depth)
    (hpoint : t.HasPoint ⟨m'.pc, none, kept.length⟩) : Running p t rs₀ cap rs m' [] kept := by
  have hid' : HasIdent rs id := hid.mono h.records
  have hentry {id' : Ident} (hid₀ : HasIdent rs₀ id') : m'.heap.entry id' =
      if id' = id then { m.heap.entry id with value := v } else m.heap.entry id' := by
    rw [hheap]
    exact h.heap.ledger.entry_setIdentValue hid' (hid₀.mono h.records) v
  refine ⟨hpoint, hstack, hfp.trans h.fp, hdepth.trans h.depth, h.linked, h.records, ?_,
    ?_, ?_, ?_, ?_⟩
  · rw [hheap]
    exact h.heap.setIdentValue hid' v
  · exact fun u hu => h.operands u (hops ▸ List.mem_append_left _ hu)
  · intro a ha
    cases ha
  · intro id' hid₀
    rw [hheap, h.heap.ledger.identValue_setIdentValue hid' (hid₀.mono h.records) v]
    split
    · exact h.operands v (by simp [hops])
    · exact h.values id' hid₀
  · intro id' hid₀
    have he := hentry hid₀
    refine h.counts_of_entry hid₀ ?_ ?_
    · rw [he]
      split <;> simp_all
    · rw [he]
      split <;> simp_all

/-- A slot of the running body gets a value. -/
theorem setSlot {a : Activation} (h : Running p t rs₀ cap rs m (a :: as) ops) {kept : List Value}
    {v : Value} (hops : ops = kept ++ [v]) {k : Nat} {m' : Machine κ}
    (hstack : m'.stack.Holds cap (image ({ a with slots := a.slots.set k v } :: as) kept))
    (hheap : m'.heap = m.heap) (hfp : m'.fp = m.fp) (hdepth : m'.depth = m.depth)
    (hpoint : t.HasPoint ⟨m'.pc, some a.body, kept.length⟩) :
    Running p t rs₀ cap rs m' ({ a with slots := a.slots.set k v } :: as) kept where
  point := hpoint
  stack := hstack
  fp := hfp.trans h.fp
  depth := hdepth.trans h.depth
  linked := by
    obtain ⟨h₁, h₂, h₃⟩ := h.linked
    exact ⟨h₁, by rwa [List.length_set], h₃⟩
  records := h.records
  heap := hheap ▸ h.heap
  operands u hu := h.operands u (hops ▸ List.mem_append_left _ hu)
  frames b hb u hu := by
    obtain rfl | hb := List.mem_cons.1 hb
    · obtain hu | hu := hu
      · obtain hu | rfl := List.mem_or_eq_of_mem_set hu
        · exact h.frames a (List.mem_cons_self ..) u (.inl hu)
        · exact h.operands u (by simp [hops])
      · exact h.frames a (List.mem_cons_self ..) u (.inr hu)
    · exact h.frames b (List.mem_cons_of_mem _ hb) u hu
  values := hheap ▸ h.values
  counts := hheap ▸ h.counts

variable [Console κ]

theorem step_setName (h : Running p t rs₀ cap rs m [] ops) {kept : List Value} {v : Value}
    (hops : ops = kept ++ [v]) {id : Ident} (hid : HasIdent rs₀ id)
    (hd : Instruction.decode? p.code m.pc = some ((Place.global id).store.place m.pc))
    (hpoint : t.HasPoint ⟨m.pc + 3, none, kept.length⟩) :
    StepsTo p t rs₀ cap rs m [] ops (Machine.step p.code m) := by
  obtain ⟨s, hs, he⟩ := Machine.execute_setGlobal (m := { m with pc := m.pc + 3 }) m.pc
    (h.heap.ledger.identAt (hid.mono h.records)) (h.stack_operand hops)
  rw [Machine.step_eq hd rfl (by simp [Place.store, Instr.withWord]),
    show (Place.global id).store.size = 3 from rfl, he]
  exact ⟨rs, [], kept, fun _ hr => hr, h.setName hops hid hs rfl rfl rfl hpoint, .assign hid hd rfl⟩

/-- A slot within the frame, in the bytes of the stack. -/
theorem image_slot (a : Activation) (as : List Activation) (ops : List Value) {k : Nat} {v : Value}
    (hk : a.slots[k]? = some v) : ∃ pre post, pre.length = base (a :: as) + 3 * k ∧
      image (a :: as) ops = pre ++ v.encode ++ post ∧
      ∀ w, image ({ a with slots := a.slots.set k w } :: as) ops = pre ++ w.encode ++ post := by
  obtain ⟨hlt, hv⟩ := List.getElem?_eq_some_iff.1 hk
  have hsplit : a.slots = a.slots.take k ++ v :: a.slots.drop (k + 1) := by
    rw [← hv, List.getElem_cons_drop, List.take_append_drop]
  have hset (w : Value) : a.slots.set k w = a.slots.take k ++ w :: a.slots.drop (k + 1) := by
    rw [List.set_eq_take_append_cons_drop, if_pos hlt]
  -- Everything but the slot itself stays where it is.
  have himage (w : Value) :
      image ({ a with slots := a.slots.take k ++ w :: a.slots.drop (k + 1) } :: as) ops =
        (image as a.below ++ Value.encodeAll (a.slots.take k)) ++ w.encode ++
        (Value.encodeAll (a.slots.drop (k + 1)) ++ Word.bytes (UInt16.ofNat (base as)) ++
          Word.bytes (UInt16.ofNat (image as a.below).length) ++ Word.bytes (UInt16.ofNat a.ret) ++
          Value.encodeAll ops) := by
    simp only [image, Machine.framed, Value.encodeAll_append, Value.encodeAll_cons,
      List.append_assoc]
  refine ⟨_, _, ?_, Eq.trans ?_ (himage v), fun w => Eq.trans ?_ (himage w)⟩
  · rw [List.length_append, Value.length_encodeAll, List.length_take, base]
    omega
  · rw [← hsplit]
  · rw [hset]

/-- Reading a slot. -/
theorem step_getSlot {a : Activation} (h : Running p t rs₀ cap rs m (a :: as) ops) {k : UInt8}
    (hk : k.toNat < a.slots.length)
    (hd : Instruction.decode? p.code m.pc = some ((Place.slot k).load.place m.pc))
    (hpoint : t.HasPoint ⟨m.pc + 2, some a.body, ops.length + 1⟩) :
    StepsTo p t rs₀ cap rs m (a :: as) ops (Machine.step p.code m) := by
  have hv : a.slots[k.toNat]? = some a.slots[k.toNat] := List.getElem?_eq_getElem hk
  obtain ⟨pre, post, hpre, himage, -⟩ := image_slot a as ops hv
  have he := Machine.execute_getSlot (m := { m with pc := m.pc + 2 }) m.pc h.stack himage
    (by rw [hpre, ← h.fp])
  have hsound : (a.slots[k.toNat]).Sound rs (t.definitions 0) :=
    h.frames a (List.mem_cons_self ..) _ (.inl (List.getElem_mem hk))
  rw [Machine.step_eq hd rfl (by simp [Place.load, Instr.withByte]),
    show (Place.slot k).load.size = 2 from rfl]
  refine h.produce (List.append_nil ops).symm he ?_ hpoint
  split
  · exact rfl
  · exact World.ok_sound h.heap hsound

/-- Storing to a slot. -/
theorem step_setSlot {a : Activation} (h : Running p t rs₀ cap rs m (a :: as) ops) {k : UInt8}
    {kept : List Value} {v : Value} (hops : ops = kept ++ [v]) (hk : k.toNat < a.slots.length)
    (hd : Instruction.decode? p.code m.pc = some ((Place.slot k).store.place m.pc))
    (hpoint : t.HasPoint ⟨m.pc + 2, some a.body, kept.length⟩) :
    StepsTo p t rs₀ cap rs m (a :: as) ops (Machine.step p.code m) := by
  have hv : a.slots[k.toNat]? = some a.slots[k.toNat] := List.getElem?_eq_getElem hk
  obtain ⟨pre, post, hpre, himage, hset⟩ := image_slot a as kept hv
  obtain ⟨s, hs, he⟩ := Machine.execute_setSlot (m := { m with pc := m.pc + 2 }) m.pc
    (h.stack_operand hops) himage (by rw [hpre, ← h.fp])
  rw [← hset v] at hs
  rw [Machine.step_eq hd rfl (by simp [Place.store, Instr.withByte]),
    show (Place.slot k).store.size = 2 from rfl, he]
  exact ⟨rs, _, kept, fun _ hr => hr, h.setSlot hops hs rfl rfl rfl hpoint,
    .slot (List.length_set) rfl⟩

/-! ### Calls and returns -/

omit [Console κ] in
/-- The body that a callee of the wanted kind leads to. -/
theorem callee (hp : p.Checked t rs₀) (h : Running p t rs₀ cap rs m as ops) {id : Ident}
    (hid : HasIdent rs₀ id) {isProc : Bool} {entry : UInt16}
    (he : Machine.entryOf m.heap id isProc = .ok entry) :
    ∃ d ∈ t.definitions 0, d.1.isFunc = !isProc ∧
      m.heap.identValue id = (d.1.entry d.2).value ∧ entry.toNat = d.2 := by
  have hv := h.values id hid
  unfold Machine.entryOf at he
  split at he
  · cases he
  · rename_i hval
    cases he
    rw [hval] at hv
    obtain ⟨d, hd, hkind, rfl⟩ := hv
    refine ⟨d, hd, hkind, ?_, hp.entry_toNat hd⟩
    rw [hval, Definition.entry, hkind]
    rfl
  · rename_i hval
    cases he
    rw [hval] at hv
    obtain ⟨d, hd, hkind, rfl⟩ := hv
    refine ⟨d, hd, hkind, ?_, hp.entry_toNat hd⟩
    rw [hval, Definition.entry, hkind]
    rfl
  · cases he

/-- A call from a described machine is refused, or it enters a body of the program. Nothing is
said here of the room that the body has. -/
theorem call_enters (hp : p.Checked t rs₀) (h : Running p t rs₀ cap rs m as ops)
    {kept args : List Value} (hops : ops = kept ++ args) (hlen : args.length ≤ 255) {id : Ident}
    (hid : HasIdent rs₀ id) {isProc : Bool}
    (hd : Instruction.decode? p.code m.pc = some (Instr.place
      ⟨if isProc then .callProc else .callFunc, UInt8.ofNat args.length, id.offset⟩ m.pc)) :
    (∃ e m', Machine.step p.code m = .error e m' ∧ e.isInternal = false) ∨
    (∃ d s, d ∈ t.definitions 0 ∧ d.1.isFunc = !isProc ∧
      m.heap.identValue id = (d.1.entry d.2).value ∧ args.length ≤ (m.heap.identSlot id).toNat ∧
      OperandStack.Holds s cap (Machine.framed (image as kept)
        (Machine.slotsOf args (m.heap.identSlot id).toNat) m.fp (m.pc + 4)) ∧
      Machine.step p.code m = .ok .next { m.withStack s with
        fp := (image as kept).length, pc := d.2, depth := m.depth + 1 }) := by
  have hcount : (UInt8.ofNat args.length).toNat = args.length := by
    rw [UInt8.toNat_ofNat']
    omega
  have hroom : (m.heap.identArguments id).toNat ≤ (m.heap.identSlot id).toNat := by
    rw [(h.counts id hid).1, (h.counts id hid).2]
    exact hp.arguments_le_slot hid
  have hstep : Machine.step p.code m = stepResult (Machine.call isProc (UInt8.ofNat args.length)
      id.offset { m with pc := m.pc + 4 }) := by
    cases isProc <;> exact Machine.step_eq hd rfl (by simp)
  obtain ⟨e, m', hrun, he, -⟩ | ⟨entry, s, hentry, hargs, hs, hrun⟩ :=
    @Machine.call_cases κ { m with pc := m.pc + 4 } cap (image as kept) isProc id args _
      (h.heap.ledger.identAt (hid.mono h.records)) hcount (h.stack_operands hops) hroom
  · exact .inl ⟨e, m', hstep.trans (congrArg stepResult hrun), he⟩
  · obtain ⟨d, hmem, hkind, hvalue, haddr⟩ := h.callee hp hid hentry
    refine .inr ⟨d, s, hmem, hkind, hvalue, ?_, hs, ?_⟩
    · rw [← hcount, ← hargs]
      exact hroom
    · rw [hstep, hrun, haddr]
      rfl

theorem step_call (hp : p.Checked t rs₀) (h : Running p t rs₀ cap rs m as ops) (hwide : Wide p t m)
    {kept args : List Value} (hops : ops = kept ++ args) (hlen : args.length ≤ 255) {id : Ident}
    (hid : HasIdent rs₀ id) (isProc : Bool)
    (hd : Instruction.decode? p.code m.pc = some (Instr.place
      ⟨if isProc then .callProc else .callFunc, UInt8.ofNat args.length, id.offset⟩ m.pc))
    (hpoint : t.HasPoint ⟨m.pc + 4, bodyOf as, kept.length + (if isProc then 0 else 1)⟩) :
    StepsTo p t rs₀ cap rs m as ops (Machine.step p.code m) := by
  obtain ⟨e, m', hstep, he⟩ | ⟨d, s, hmem, hkind, -, hslots, hs, hstep⟩ :=
    h.call_enters hp hops hlen hid hd
  · rw [hstep]
    exact he
  · have hfits := hwide _ d.1 hstep (Nat.lt_succ_self _) hmem
    rw [Machine.calledSlots_eq (Machine.called_eq hd)] at hfits
    rw [hstep]
    refine ⟨rs, ⟨d.1, Machine.slotsOf args (m.heap.identSlot id).toNat, kept, m.pc + 4⟩ :: as, [],
      fun _ hr => hr, ⟨?_, ?_, rfl, congrArg (· + 1) h.depth, ⟨?_, ?_, h.linked⟩, h.records,
        h.heap, ?_, ?_, h.values, h.counts⟩, ?_⟩
    · exact Stmt.hasPoint_definition hmem
    · rw [image, Value.encodeAll_nil, List.append_nil, ← h.fp]
      exact hs
    · show t.HasPoint ⟨m.pc + 4, bodyOf as, kept.length + (if d.1.isFunc then 1 else 0)⟩
      rw [hkind]
      cases isProc <;> exact hpoint
    · rw [Machine.length_slotsOf hslots]
      exact hfits
    · intro v hv
      cases hv
    · intro a ha v hv
      obtain rfl | ha := List.mem_cons.1 ha
      · obtain hv | hv := hv
        · obtain hv | hv := List.mem_append.1 hv
          · exact h.operands v (hops ▸ List.mem_append_right _ hv)
          · obtain rfl := (List.mem_replicate.1 hv).2
            trivial
        · exact h.operands v (hops ▸ List.mem_append_left _ hv)
      · exact h.frames a ha v hv
    · subst hops
      exact @Moves.enter κ p t rs₀ m _
        ⟨d.1, Machine.slotsOf args (m.heap.identSlot id).toNat, kept, m.pc + 4⟩ as args id isProc hd
        hmem hkind rfl hslots rfl rfl

omit [Console κ] in
/-- The caller goes on behind its call, with the result of a function on the stack. -/
theorem returned {a : Activation} (h : Running p t rs₀ cap rs m (a :: as) ops) {m' : Machine κ}
    {result : List Value} (hresult : ∀ v ∈ result, v.Sound rs (t.definitions 0))
    (hlen : result.length = (if a.body.isFunc then 1 else 0))
    (hstack : m'.stack.Holds cap (image as (a.below ++ result))) (hheap : m'.heap = m.heap)
    (hfp : m'.fp = base as) (hdepth : m'.depth = m.depth - 1) (hpc : m'.pc = a.ret) :
    Running p t rs₀ cap rs m' as (a.below ++ result) where
  point := by
    rw [hpc, List.length_append, hlen]
    exact h.linked.1
  stack := hstack
  fp := hfp
  depth := by
    rw [hdepth, h.depth, List.length_cons, Nat.add_sub_cancel]
  linked := h.linked.2.2
  records := h.records
  heap := hheap ▸ h.heap
  operands v hv := by
    obtain hv | hv := List.mem_append.1 hv
    · exact h.frames a (List.mem_cons_self ..) v (.inr hv)
    · exact hresult v hv
  frames b hb := h.frames b (List.mem_cons_of_mem _ hb)
  values := hheap ▸ h.values
  counts := hheap ▸ h.counts

omit [Console κ] in
/-- The saved registers are what they were. -/
theorem leave_frame (hp : p.Checked t rs₀) (hcap : cap ≤ 65535) {a : Activation}
    (h : Running p t rs₀ cap rs m (a :: as) ops) {n : Machine κ}
    (hn : n.stack.Holds cap (image (a :: as) [])) :
    ∃ s : OperandStack, s.Holds cap (image as a.below) ∧ Machine.leave n =
      .ok () { n.withStack s with fp := base as, pc := a.ret, depth := n.depth - 1 } := by
  rw [image, Value.encodeAll_nil, List.append_nil] at hn
  have hlen := hn.length_le
  rw [Machine.length_framed] at hlen
  have hbase := base_le_length as a.below
  have hret : a.ret ≤ t.size := h.linked.1.addr_le
  have hsize := hp.code.size_lt
  exact Machine.leave_eq hn (by omega) (by omega) (by omega)

theorem step_returnBare (hp : p.Checked t rs₀) (hcap : cap ≤ 65535) {a : Activation}
    (h : Running p t rs₀ cap rs m (a :: as) []) (hkind : a.body.isFunc = false)
    (hd : Instruction.decode? p.code m.pc = some ((Instr.plain .returnProc).place m.pc)) :
    StepsTo p t rs₀ cap rs m (a :: as) [] (Machine.step p.code m) := by
  obtain ⟨s, hs, hleave⟩ := h.leave_frame hp hcap (n := { m with pc := m.pc + 1 }) h.stack
  have hstep : Machine.step p.code m = stepResult (Machine.leave { m with pc := m.pc + 1 }) :=
    Machine.step_eq hd rfl (by simp [Instr.plain])
  have hlen : ([] : List Value).length = (if a.body.isFunc then 1 else 0) := by
    rw [hkind]
    rfl
  rw [hstep, hleave]
  refine ⟨rs, as, a.below ++ [], fun _ hr => hr,
    h.returned (by simp) hlen ?_ rfl rfl rfl rfl, .leave rfl hlen rfl⟩
  rw [List.append_nil]
  exact hs

theorem step_returnValue (hp : p.Checked t rs₀) (hcap : cap ≤ 65535) {a : Activation} {v : Value}
    (h : Running p t rs₀ cap rs m (a :: as) [v]) (hkind : a.body.isFunc = true)
    (hd : Instruction.decode? p.code m.pc = some ((Instr.plain .returnFunc).place m.pc)) :
    StepsTo p t rs₀ cap rs m (a :: as) [v] (Machine.step p.code m) := by
  have hstack : m.stack.Holds cap (image (a :: as) [] ++ v.encode) :=
    h.stack_operand (List.nil_append [v]).symm
  obtain ⟨s, hs, hpop⟩ := Machine.pop_eq (m := { m with pc := m.pc + 1 }) hstack
  obtain ⟨s', hs', hleave⟩ :=
    h.leave_frame hp hcap (n := Machine.withStack { m with pc := m.pc + 1 } s) hs
  -- There is room for the result where the frame was.
  have hroom : (image as a.below).length + v.encode.length ≤ cap := by
    have hlen := hstack.length_le
    rw [List.length_append, length_image, base] at hlen
    omega
  obtain ⟨s'', hpush, hs''⟩ := OperandStack.pushBytes_ok hs' hroom
  have hstep : Machine.step p.code m = stepResult ((do
      let v ← Machine.pop
      Machine.leave
      Machine.push v : Step κ Unit) { m with pc := m.pc + 1 }) :=
    Machine.step_eq hd rfl (by simp [Instr.plain])
  have hlen : [v].length = (if a.body.isFunc then 1 else 0) := by
    rw [hkind]
    rfl
  rw [hstep]
  simp only [bind, EStateM.bind, hpop, hleave]
  simp only [Machine.push, Machine.onStack, OperandStack.push, Machine.withStack, hpush]
  refine ⟨rs, as, a.below ++ [v], fun _ hr => hr,
    h.returned ?_ hlen ?_ rfl rfl rfl rfl, .leave rfl hlen rfl⟩
  · exact h.operands
  · rw [image_append, Value.encodeAll_singleton]
    exact hs''

/-! ### All instructions -/

omit [Console κ] in
/-- The slots of the running body are in its frame. -/
theorem slot_lt (h : Running p t rs₀ cap rs m as ops) {k : UInt8}
    (hk : ∃ isFunc n, Definition.scope (bodyOf as) = some (isFunc, n) ∧ k.toNat < n) :
    ∃ a rest, as = a :: rest ∧ k.toNat < a.slots.length := by
  obtain ⟨isFunc, n, hscope, hk⟩ := hk
  cases as with
  | nil => simp [bodyOf, Definition.scope] at hscope
  | cons a rest =>
      simp only [bodyOf, Definition.scope, Option.map_some, Option.some.injEq, Prod.mk.injEq]
        at hscope
      have hslots := h.linked.2.1
      exact ⟨a, rest, rfl, by omega⟩

theorem step_load (h : Running p t rs₀ cap rs m as ops) {q : Place}
    (hq : q.Fine rs₀ (Definition.scope (bodyOf as)))
    (hd : Instruction.decode? p.code m.pc = some (q.load.place m.pc))
    (hpoint : t.HasPoint ⟨m.pc + q.load.size, bodyOf as, ops.length + 1⟩) :
    StepsTo p t rs₀ cap rs m as ops (Machine.step p.code m) := by
  cases q with
  | global id =>
      rw [Machine.step_eq hd rfl (by simp [Place.load, Instr.withWord])]
      exact h.produce (List.append_nil ops).symm
        (Machine.execute_global (m := { m with pc := m.pc + 3 }) h.stack m.pc
          (h.heap.ledger.identAt (HasIdent.mono h.records hq)))
        (World.lookup_sound h.heap (h.values id hq)) hpoint
  | slot k =>
      obtain ⟨a, rest, rfl, hk⟩ := h.slot_lt hq
      exact h.step_getSlot hk hd hpoint

theorem step_store (h : Running p t rs₀ cap rs m as ops) {q : Place}
    (hq : q.Writable rs₀ (Definition.scope (bodyOf as))) {kept : List Value} {v : Value}
    (hops : ops = kept ++ [v])
    (hd : Instruction.decode? p.code m.pc = some (q.store.place m.pc))
    (hpoint : t.HasPoint ⟨m.pc + q.store.size, bodyOf as, kept.length⟩) :
    StepsTo p t rs₀ cap rs m as ops (Machine.step p.code m) := by
  cases q with
  | global id =>
      obtain ⟨hscope, hid⟩ := hq
      obtain rfl : as = [] := by
        cases as with
        | nil => rfl
        | cons a as => simp [bodyOf, Definition.scope] at hscope
      exact h.step_setName hops hid hd hpoint
  | slot k =>
      obtain ⟨a, rest, rfl, hk⟩ := h.slot_lt hq
      exact h.step_setSlot hops hk hd hpoint

theorem step_literal (h : Running p t rs₀ cap rs m as ops) {l : Literal} (hl : l.Fine rs₀)
    (hd : Instruction.decode? p.code m.pc = some (l.instr.place m.pc))
    (hpoint : t.HasPoint ⟨m.pc + l.instr.size, bodyOf as, ops.length + 1⟩) :
    StepsTo p t rs₀ cap rs m as ops (Machine.step p.code m) := by
  have hop : l.instr.op.isExecutable = true ∧ l.instr.op ≠ .stop := by
    cases l with
    | truth b => cases b <;> simp [Literal.instr, Instr.plain, Opcode.isExecutable]
    | _ => simp [Literal.instr, Instr.plain, Instr.withByte, Instr.withWord, Opcode.isExecutable]
  rw [Machine.step_eq hd hop.1 hop.2]
  refine h.produce (List.append_nil ops).symm
    (Machine.execute_literal (m := { m with pc := m.pc + l.instr.size }) h.stack m.pc ?_)
    (World.ok_sound h.heap ?_) hpoint
  · rintro o rfl
    exact h.heap.ledger.strAt (hl.mono h.records)
  · exact (hl.mono h.records).sound

/-- An operator or a function that is built in. -/
theorem step_apply (h : Running p t rs₀ cap rs m as ops) {kept args : List Value}
    (hops : ops = kept ++ args) {op : Opcode} (ha : op.arity? = some args.length)
    (hd : Instruction.decode? p.code m.pc = some ((Instr.plain op).place m.pc))
    (hpoint : t.HasPoint ⟨m.pc + 1, bodyOf as, kept.length + 1⟩) :
    StepsTo p t rs₀ cap rs m as ops (Machine.step p.code m) := by
  have hop : op.isExecutable = true ∧ op ≠ .stop := by
    cases op <;> first | contradiction | exact ⟨rfl, by simp⟩
  have hsize : (Instr.plain op).size = 1 := by
    rw [Instr.size, Instr.plain, Opcode.shape_of_arity ha]
    rfl
  rw [Machine.step_eq hd hop.1 hop.2, hsize]
  refine h.produce hops
    (Machine.execute_apply (m := { m with pc := m.pc + 1 }) m.pc ha (h.stack_operands hops))
    (World.operate_sound h.heap ha ?_) hpoint
  exact fun v hv => h.operands v (hops ▸ List.mem_append_right _ hv)

theorem step_array (h : Running p t rs₀ cap rs m as ops) {kept elems : List Value}
    (hops : ops = kept ++ elems) (hn : elems.length ≤ 255)
    (hd : Instruction.decode? p.code m.pc =
      some ((Instr.withByte .array (UInt8.ofNat elems.length)).place m.pc))
    (hpoint : t.HasPoint ⟨m.pc + 2, bodyOf as, kept.length + 1⟩) :
    StepsTo p t rs₀ cap rs m as ops (Machine.step p.code m) := by
  rw [Machine.step_eq hd rfl (by simp [Instr.withByte])]
  refine h.produce hops
    (Machine.execute_array (m := { m with pc := m.pc + 2 }) m.pc hn (h.stack_operands hops))
    (World.onHeap_sound (Builtin.makeArray_sound h.heap ?_)) hpoint
  exact fun v hv => h.operands v (hops ▸ List.mem_append_right _ hv)

theorem step_print (h : Running p t rs₀ cap rs m as ops) {kept args : List Value}
    (hops : ops = kept ++ args) (hn : args.length ≤ 255)
    (hd : Instruction.decode? p.code m.pc =
      some ((Instr.withByte .print (UInt8.ofNat args.length)).place m.pc))
    (hpoint : t.HasPoint ⟨m.pc + 2, bodyOf as, kept.length⟩) :
    StepsTo p t rs₀ cap rs m as ops (Machine.step p.code m) := by
  obtain ⟨s, hs, he⟩ :=
    Machine.execute_print (m := { m with pc := m.pc + 2 }) m.pc hn (h.stack_operands hops)
  rw [Machine.step_eq hd rfl (by simp [Instr.withByte]),
    show (Instr.withByte .print (UInt8.ofNat args.length)).size = 2 from rfl, he]
  exact h.consume_steps hops hs rfl rfl rfl hpoint

/-- A branch goes on behind itself or at its target, if its condition is a truth value. -/
theorem step_branch (h : Running p t rs₀ cap rs m as ops) {kept : List Value} {v : Value}
    (hops : ops = kept ++ [v]) {w : UInt16}
    (hd : Instruction.decode? p.code m.pc = some ((Instr.withWord .jfalse w).place m.pc))
    (hnext : t.HasPoint ⟨m.pc + 3, bodyOf as, kept.length⟩)
    (htarget : t.HasPoint
      ⟨((Instr.withWord .jfalse w).place m.pc).jumpCounter, bodyOf as, kept.length⟩) :
    StepsTo p t rs₀ cap rs m as ops (Machine.step p.code m) := by
  obtain ⟨s, hs, he⟩ :=
    Machine.execute_branch (m := { m with pc := m.pc + 3 }) m.pc w (h.stack_operand hops)
  rw [Machine.step_eq hd rfl (by simp [Instr.withWord]),
    show (Instr.withWord .jfalse w).size = 3 from rfl, he]
  cases v with
  | bool c =>
      cases c with
      | true => exact h.consume_steps hops hs rfl rfl rfl hnext
      | false => exact h.consume_steps hops hs rfl rfl rfl htarget
  | _ => exact rfl

/-- A step other than a call. -/
theorem step_other (hp : p.Checked t rs₀) (hcap : cap ≤ 65535) (h : Running p t rs₀ cap rs m as ops)
    {i : Instr} (hd : Instruction.decode? p.code m.pc = some (i.place m.pc))
    (hflow : Flows rs₀ t.HasPoint ⟨m.pc, bodyOf as, ops.length⟩ i) (hi : i.isCall = false) :
    StepsTo p t rs₀ cap rs m as ops (Machine.step p.code m) := by
  -- The rule by which the instruction flows gives its operands; the point says which they are.
  generalize hq : (⟨m.pc, bodyOf as, ops.length⟩ : Point) = q at hflow
  cases hflow with
  | literal hl hs =>
      cases hq
      exact h.step_literal hl hd hs
  | load hf hs =>
      cases hq
      exact h.step_load hf hd hs
  | store hf hs =>
      simp only [Point.mk.injEq] at hq
      obtain ⟨rfl, rfl, hlen⟩ := hq
      obtain ⟨kept, v, hops, rfl⟩ := split_operand hlen
      exact h.step_store hf hops hd hs
  | apply ha hs =>
      simp only [Point.mk.injEq] at hq
      obtain ⟨rfl, rfl, hlen⟩ := hq
      obtain ⟨kept, args, hops, rfl, rfl⟩ := split_operands hlen
      exact h.step_apply hops ha hd hs
  | array hn hs =>
      simp only [Point.mk.injEq] at hq
      obtain ⟨rfl, rfl, hlen⟩ := hq
      obtain ⟨kept, elems, hops, rfl, rfl⟩ := split_operands hlen
      exact h.step_array hops hn hd hs
  | callFunc => cases hi
  | callProc => cases hi
  | print hn hs =>
      simp only [Point.mk.injEq] at hq
      obtain ⟨rfl, rfl, hlen⟩ := hq
      obtain ⟨kept, args, hops, rfl, rfl⟩ := split_operands hlen
      exact h.step_print hops hn hd hs
  | input hs =>
      cases hq
      rw [Machine.step_eq hd rfl (by simp [Instr.plain])]
      exact h.produce (List.append_nil ops).symm
        (Machine.execute_input (m := { m with pc := m.pc + 1 }) h.stack m.pc)
        (World.readLine_sound h.heap) hs
  | jump hc hs =>
      cases hq
      rw [Machine.step_eq hd rfl (by simp [Instr.withWord]), Machine.execute_jump, hc]
      exact h.consume_steps (List.append_nil ops).symm h.stack rfl rfl rfl hs
  | branch hc hs hs' =>
      simp only [Point.mk.injEq] at hq
      obtain ⟨rfl, rfl, hlen⟩ := hq
      obtain ⟨kept, v, hops, rfl⟩ := split_operand hlen
      exact h.step_branch hops hd hs (hc.symm ▸ hs')
  | halt =>
      rw [Machine.step_stop hd]
      trivial
  | returnValue hkind =>
      simp only [Point.mk.injEq] at hq
      obtain ⟨rfl, hb, hlen⟩ := hq
      obtain ⟨v, rfl⟩ := List.length_eq_one_iff.1 hlen
      obtain _ | ⟨a, as⟩ := as
      · cases hb
      · cases hb
        exact h.step_returnValue hp hcap hkind hd
  | returnBare hkind =>
      simp only [Point.mk.injEq] at hq
      obtain ⟨rfl, hb, hlen⟩ := hq
      obtain rfl := List.eq_nil_of_length_eq_zero hlen
      obtain _ | ⟨a, as⟩ := as
      · cases hb
      · cases hb
        exact h.step_returnBare hp hcap hkind hd
  | missing =>
      rw [Machine.step_eq hd rfl (by simp [Instr.plain])]
      exact rfl

/-- A step of a described machine ends with a fault of the language, ends the run, or leads to
another described machine. -/
theorem step (hp : p.Checked t rs₀) (hcap : cap ≤ 65535) (h : Running p t rs₀ cap rs m as ops)
    (hwide : Wide p t m) : StepsTo p t rs₀ cap rs m as ops (Machine.step p.code m) := by
  obtain ⟨i, -, hd, hflow⟩ := hp.code.flows hp.fine h.point
  cases hi : i.isCall with
  | false => exact h.step_other hp hcap hd hflow hi
  | true =>
      obtain ⟨isProc, n, k, id, rfl, hn, hid, hlen, hpoint⟩ := hflow.call hi
      obtain ⟨kept, args, hops, rfl, rfl⟩ := split_operands hlen
      exact h.step_call hp hwide hops hn hid isProc hd hpoint

/-- Only calls lead deeper, and they enter a body of the program that the record leads to. -/
theorem call_of_deeper (hp : p.Checked t rs₀) (hcap : cap ≤ 65535)
    (h : Running p t rs₀ cap rs m as ops) {m' : Machine κ}
    (hs : Machine.step p.code m = .ok .next m') (hdeep : m.depth < m'.depth) :
    ∃ id, HasIdent rs₀ id ∧ m.called p.code = some id ∧
      ∃ d ∈ t.definitions 0, m'.pc = d.2 ∧ m.heap.identValue id = (d.1.entry d.2).value := by
  obtain ⟨i, -, hd, hflow⟩ := hp.code.flows hp.fine h.point
  cases hi : i.isCall with
  | false =>
      have hstep := h.step_other hp hcap hd hflow hi
      rw [hs] at hstep
      obtain ⟨rs', as', ops', -, h', hmoves⟩ := hstep
      rw [h.depth, h'.depth] at hdeep
      cases hmoves with
      | stay => exact absurd hdeep (Nat.lt_irrefl _)
      | assign => exact absurd hdeep (Nat.lt_irrefl _)
      | slot => exact absurd hdeep (Nat.lt_irrefl _)
      | leave => exact absurd hdeep (Nat.lt_asymm (Nat.lt_succ_self _))
      | @enter _ _ _ _ isProc hd' =>
          rw [hd] at hd'
          have hop := congrArg Instruction.op (Option.some.inj hd')
          rw [Instr.op_place, Instr.op_place] at hop
          cases isProc <;> simp [Instr.isCall, hop] at hi
  | true =>
      obtain ⟨isProc, n, k, id, rfl, hn, hid, hlen, -⟩ := hflow.call hi
      obtain ⟨kept, args, hops, rfl, rfl⟩ := split_operands hlen
      obtain ⟨e, m₁, hstep, -⟩ | ⟨d, s, hmem, -, hvalue, -, -, hstep⟩ :=
        h.call_enters hp hops hn hid hd
      · rw [hs] at hstep
        cases hstep
      · rw [hs] at hstep
        cases hstep
        exact ⟨id, hid, Machine.called_eq hd, d, hmem, rfl, hvalue⟩

end Running

end CellScript
