import CellScript.Machine.Step
import CellScript.Proofs.Operands
import CellScript.Proofs.Parallel

/-!
Runs with more room.

The machine meets the size of its stack where a value is pushed or a frame is
reserved, and where a slot is read that a damaged frame pointer puts outside of it.
All three end the run with an error of its own kind. Everything else goes the same
way on a stack of any size, since the bytes within the smaller one are the same.
-/

namespace CellScript

namespace OperandStack

/-- The second stack has the same content, as far as the first one reaches, and at least as much
room. -/
structure Roomier (s s' : OperandStack) : Prop where
  sp : s'.sp = s.sp
  byte : ∀ i < s.bytes.size, s'.byte i = s.byte i
  fits : s.sp ≤ s.bytes.size
  room : s.bytes.size ≤ s'.bytes.size

/-- An action does the same on a roomier stack. -/
abbrev Scales {α : Type} (x : Action α) : Prop := Parallel Roomier Fault.IsCapacity x x

theorem size_write (s : OperandStack) (i : Nat) (bs : List UInt8) :
    (s.write i bs).bytes.size = s.bytes.size := by
  induction bs generalizing s i with
  | nil => rfl
  | cons b bs ih => rw [write, ih, Array.size_setIfInBounds]

theorem Roomier.write {s s' : OperandStack} (hr : Roomier s s') {i : Nat} {bs : List UInt8}
    (hi : i + bs.length ≤ s.bytes.size) : Roomier (s.write i bs) (s'.write i bs) := by
  induction bs generalizing s s' i with
  | nil => exact hr
  | cons b bs ih =>
      have hroom := hr.room
      rw [List.length_cons] at hi
      rw [OperandStack.write, OperandStack.write]
      have hset : Roomier { s with bytes := s.bytes.setIfInBounds i b }
          { s' with bytes := s'.bytes.setIfInBounds i b } := by
        refine ⟨hr.sp, fun j hj => ?_, by simpa using hr.fits, by simpa using hroom⟩
        have hj : j < s.bytes.size := by simpa using hj
        have hsame := hr.byte j hj
        simp only [OperandStack.byte, Array.getD_eq_getD_getElem?] at hsame
        simp only [OperandStack.byte, Array.getD_eq_getD_getElem?, Array.getElem?_setIfInBounds]
        split
        · rw [if_pos (by omega), if_pos (by omega)]
        · exact hsame
      refine ih hset ?_
      simp only [Array.size_setIfInBounds]
      omega

/-- Bytes below a new stack pointer. -/
theorem Roomier.move {s s' : OperandStack} (hr : Roomier s s') {sp : Nat}
    (h : sp ≤ s.bytes.size) : Roomier { s with sp } { s' with sp } :=
  ⟨rfl, hr.byte, h, hr.room⟩

theorem scales_setPointer (sp : Nat) : Scales (setPointer sp) where
  ok {s s' _ _} hr hok := by
    have hfits := hr.fits
    have hroom := hr.room
    unfold setPointer at hok ⊢
    split at hok
    · cases hok
    · cases hok
      refine ⟨_, by rw [if_neg (by omega), hr.sp], Roomier.move (hr.write ?_) ?_⟩
      · rw [List.length_replicate]
        omega
      · rw [size_write]
        omega
  error hr herr hno := by
    unfold setPointer at herr
    split at herr
    · cases herr
      exact absurd trivial hno
    · cases herr

theorem scales_pushBytes (data : List UInt8) : Scales (pushBytes data) where
  ok {s s' _ _} hr hok := by
    have hroom := hr.room
    unfold pushBytes at hok ⊢
    split at hok
    · cases hok
    · cases hok
      refine ⟨{ s'.write s.sp data with sp := s.sp + data.length }, ?_, ?_⟩
      · rw [hr.sp, if_neg (by omega)]
        simp only [sp_write, hr.sp]
      · simp only [sp_write]
        exact Roomier.move (hr.write (by omega)) (by rw [size_write]; omega)
  error hr herr hno := by
    unfold pushBytes at herr
    split at herr
    · cases herr
      exact absurd trivial hno
    · cases herr

/-- A value is the same on both stacks if the smaller one reaches that far. -/
theorem Roomier.get {s s' : OperandStack} (hr : Roomier s s') {i : Nat}
    (h : s.get i ≠ .error .stackUnderflow) : s'.get i = s.get i := by
  have hroom := hr.room
  have hi : i + 3 ≤ s.bytes.size := by
    refine Nat.le_of_not_gt fun hgt => h ?_
    rw [OperandStack.get, if_pos (show i + Value.size > s.bytes.size from hgt)]
  rw [OperandStack.get, OperandStack.get, if_neg (by simp only [Value.size]; omega),
    if_neg (by simp only [Value.size]; omega), hr.byte i (by omega), hr.byte (i + 1) (by omega),
    hr.byte (i + 2) (by omega)]

theorem Roomier.getMany {s s' : OperandStack} (hr : Roomier s s') {i n : Nat}
    (h : s.getMany i n ≠ .error .stackUnderflow) : s'.getMany i n = s.getMany i n := by
  induction n generalizing i with
  | zero => rfl
  | succ n ih =>
      simp only [OperandStack.getMany, bind, Except.bind] at h ⊢
      cases hv : s.get i with
      | error e =>
          rw [hv] at h
          rw [hr.get (by rw [hv]; simpa using h), hv]
      | ok v =>
          rw [hv] at h
          rw [hr.get (by rw [hv]; simp), hv]
          simp only at h ⊢
          rw [ih]
          intro hmany
          rw [hmany] at h
          exact h rfl

/-- Values are read below the stack pointer and taken off. -/
theorem scales_take {α : Type} {x : Action α} {n : Nat} {f : OperandStack → Nat → Except Fault α}
    (hx : ∀ s, x s = if s.sp < n then .error .stackUnderflow s else
      match f s (s.sp - n) with
      | .ok a => .ok a { s with sp := s.sp - n }
      | .error e => .error e s)
    (hf : ∀ {s s' : OperandStack} {i : Nat}, Roomier s s' → f s i ≠ .error .stackUnderflow →
      f s' i = f s i) : Scales x where
  ok {s s' _ _} hr hok := by
    have hfits := hr.fits
    rw [hx] at hok ⊢
    split at hok
    · cases hok
    · rename_i hn
      split at hok
      · rename_i hv
        cases hok
        refine ⟨{ s' with sp := s.sp - n }, ?_, hr.move (by omega)⟩
        rw [hr.sp, if_neg hn, hf hr (by rw [hv]; nofun), hv]
      · cases hok
  error {s s' _ _} hr herr hno := by
    rw [hx] at herr ⊢
    split at herr
    · cases herr
      exact absurd trivial hno
    · rename_i hn
      split at herr
      · cases herr
      · rename_i hv
        cases herr
        have hne : f s (s.sp - n) ≠ .error .stackUnderflow := by
          rw [hv]
          rintro ⟨⟩
          exact hno trivial
        exact ⟨s', by rw [hr.sp, if_neg hn, hf hr hne, hv], hr⟩

theorem scales_pop : Scales pop := by
  refine scales_take (f := fun s i => s.get i) (n := Value.size) (fun s => ?_) fun hr h => hr.get h
  unfold pop
  split
  · rfl
  · cases s.get (s.sp - Value.size) <;> rfl

theorem scales_popMany (n : Nat) : Scales (popMany n) := by
  refine scales_take (f := fun s i => s.getMany i n) (n := n * Value.size) (fun s => ?_)
    fun hr h => hr.getMany h
  unfold popMany
  split
  · rfl
  · cases s.getMany (s.sp - n * Value.size) n <;> rfl

theorem scales_popWord : Scales popWord where
  ok {s s' _ _} hr hok := by
    have hfits := hr.fits
    unfold popWord at hok ⊢
    split at hok
    · cases hok
    · rename_i hn
      cases hok
      refine ⟨{ s' with sp := s.sp - 2 }, ?_, hr.move (by omega)⟩
      rw [hr.sp, if_neg hn, hr.byte _ (by omega), hr.byte _ (by omega)]
  error hr herr hno := by
    unfold popWord at herr
    split at herr
    · cases herr
      exact absurd trivial hno
    · cases herr

theorem scales_set (i : Nat) (v : Value) : Scales (set i v) where
  ok {s s' _ _} hr hok := by
    have hfits := hr.fits
    unfold set at hok ⊢
    split at hok
    · cases hok
    · rename_i hi
      cases hok
      refine ⟨_, by rw [hr.sp, if_neg hi], hr.write ?_⟩
      rw [Value.length_encode]
      omega
  error hr herr hno := by
    unfold set at herr
    split at herr
    · cases herr
      exact absurd trivial hno
    · cases herr

end OperandStack

/-! ### Machines -/

namespace Machine

variable {κ α : Type}

/-- The second machine is in the same state and has at least as much room. -/
structure Roomier (m m' : Machine κ) : Prop where
  heap : m.heap.Roomier m'.heap
  stack : m.stack.Roomier m'.stack
  random : m'.random = m.random
  pc : m'.pc = m.pc
  fp : m'.fp = m.fp
  depth : m'.depth = m.depth
  console : m'.console = m.console

/-- A step does the same on a roomier machine. -/
abbrev Scales (x : Step κ α) : Prop := Parallel Roomier Fault.IsCapacity x x

theorem scales_onStack {act : OperandStack.Action α} (h : OperandStack.Scales act) :
    Scales (onStack act : Step κ α) where
  ok {m m' _ _} hr hok := by
    cases hs : act m.stack with
    | ok a s =>
        simp only [onStack, hs] at hok ⊢
        cases hok
        obtain ⟨s', hs', hr'⟩ := h.ok hr.stack hs
        exact ⟨{ m' with stack := s' }, by rw [hs'], { hr with stack := hr' }⟩
    | error e s =>
        simp only [onStack, hs] at hok
        cases hok
  error {m m' _ _} hr herr hno := by
    cases hs : act m.stack with
    | ok a s =>
        simp only [onStack, hs] at herr
        cases herr
    | error e s =>
        simp only [onStack, hs] at herr ⊢
        cases herr
        obtain ⟨s', hs', hr'⟩ := h.error hr.stack hs hno
        exact ⟨{ m' with stack := s' }, by rw [hs'], { hr with stack := hr' }⟩

theorem scales_onHeap {act : Operation α} (h : Builtin.Scales act) :
    Scales (onHeap act : Step κ α) where
  ok {m m' _ _} hr hok := by
    cases hs : act m.heap with
    | ok a g =>
        simp only [onHeap, hs] at hok ⊢
        cases hok
        obtain ⟨g', hs', hr'⟩ := h.ok hr.heap hs
        exact ⟨{ m' with heap := g' }, by rw [hs'], { hr with heap := hr' }⟩
    | error e g =>
        simp only [onHeap, hs] at hok
        cases hok
  error {m m' _ _} hr herr hno := by
    cases hs : act m.heap with
    | ok a g =>
        simp only [onHeap, hs] at herr
        cases herr
    | error e g =>
        simp only [onHeap, hs] at herr ⊢
        cases herr
        obtain ⟨g', hs', hr'⟩ := h.error hr.heap hs hno
        exact ⟨{ m' with heap := g' }, by rw [hs'], { hr with heap := hr' }⟩

theorem scales_askHeap {f : Heap → Except Heap.Error α}
    (hf : ∀ h h', h.Roomier h' → f h' = f h) : Scales (askHeap f : Step κ α) where
  ok {m m' _ _} hr hok := by
    simp only [askHeap] at hok ⊢
    rw [hf _ _ hr.heap]
    cases hv : f m.heap with
    | ok a =>
        rw [hv] at hok
        cases hok
        exact ⟨m', rfl, hr⟩
    | error e =>
        rw [hv] at hok
        cases hok
  error {m m' _ _} hr herr _ := by
    simp only [askHeap] at herr ⊢
    rw [hf _ _ hr.heap]
    cases hv : f m.heap with
    | ok a =>
        rw [hv] at herr
        cases herr
    | error e =>
        rw [hv] at herr
        cases herr
        exact ⟨m', rfl, hr⟩

theorem scales_push (v : Value) : Scales (push v : Step κ Unit) :=
  scales_onStack (OperandStack.scales_pushBytes v.encode)

theorem scales_pop : Scales (pop : Step κ Value) := scales_onStack OperandStack.scales_pop

theorem scales_popMany (n : Nat) : Scales (popMany n : Step κ (List Value)) :=
  scales_onStack (OperandStack.scales_popMany n)

theorem scales_jumpTo (pc : Nat) : Scales (jumpTo pc : Step κ Unit) :=
  .modify fun _ _ hr => { hr with pc := rfl }

theorem scales_draw : Scales (draw : Step κ UInt16) where
  ok {m m' _ _} hr hok := by
    unfold draw at hok ⊢
    rw [hr.random]
    cases hok
    exact ⟨_, rfl, { hr with random := rfl }⟩
  error _ herr := by cases herr

theorem scales_writeLine [Console κ] (line : List UInt8) : Scales (writeLine line : Step κ Unit) :=
  .modify fun _ _ hr => { hr with console := congrArg (Console.writeLine line) hr.console }

theorem scales_readLine [Console κ] : Scales (readLine : Step κ (List UInt8)) where
  ok {m m' _ _} hr hok := by
    simp only [readLine, hr.console] at hok ⊢
    split at hok
    · cases hok
      exact ⟨_, rfl, { hr with console := rfl }⟩
    · cases hok
  error {m m' _ _} hr herr _ := by
    simp only [readLine, hr.console] at herr ⊢
    split at herr
    · cases herr
    · cases herr
      exact ⟨m', rfl, hr⟩

/-- The computed value is pushed. -/
theorem scales_produce {act : Operation Value} (h : Builtin.Scales act) :
    Scales (do push (← onHeap act) : Step κ Unit) :=
  .bind (scales_onHeap h) scales_push

theorem scales_unary (op : Opcode) : Scales (unary op : Step κ Unit) :=
  .bind scales_pop fun a => scales_produce (Builtin.scales_unary op a)

theorem scales_binary (op : Opcode) : Scales (binary op : Step κ Unit) :=
  .bind scales_pop fun b => .bind scales_pop fun a => scales_produce (Builtin.scales_binary op a b)

theorem scales_getGlobal (o : UInt16) : Scales (getGlobal o : Step κ Unit) := by
  refine .bind (scales_askHeap fun _ _ hr => hr.identAt o) fun id => .get_bind fun m m' hr => ?_
  dsimp only
  rw [hr.heap.identValue, hr.heap.identText]
  split
  · exact .throw _
  · exact scales_push _

/-- A record that was accepted lies within the arena. -/
theorem identAt_fits {h h' : Heap} (hr : h.Roomier h') {o : UInt16} {id : Ident}
    (hid : h.identAt o = .ok id) : id.offset.toNat + Ident.nameField ≤ h.bytes.size := by
  simp only [Heap.identAt] at hid
  split at hid
  · rename_i hin
    cases hid
    rw [Bool.and_eq_true, Heap.inBounds_iff] at hin
    exact Nat.le_trans hin.1.2 hr.fits
  · cases hid

theorem askHeap_eq_ok {f : Heap → Except Heap.Error α} {m m' : Machine κ} {a : α} :
    askHeap f m = .ok a m' ↔ f m.heap = .ok a ∧ m' = m := by
  unfold askHeap
  cases f m.heap <;> simp [eq_comm]

theorem heap_of_pop {m m' : Machine κ} {v : Value} (h : pop m = .ok v m') : m'.heap = m.heap := by
  cases hs : OperandStack.pop m.stack with
  | ok a s =>
      simp only [pop, onStack, hs] at h
      cases h
      rfl
  | error e s =>
      simp only [pop, onStack, hs] at h
      cases h

theorem scales_setGlobal (o : UInt16) : Scales (setGlobal o : Step κ Unit) := by
  have hset : (setGlobal o : Step κ Unit) = (do
      let x ← (do
        let id ← askHeap (·.identAt o)
        let v ← pop
        return (id, v))
      modify fun m => { m with heap := m.heap.setIdentValue x.1 x.2 }
      return ()) := by
    simp [setGlobal]
  rw [hset]
  refine .update (.bind (scales_askHeap fun _ _ hr => hr.identAt o) fun id =>
    .bind scales_pop fun v => .pure (id, v)) ?_ fun _ => .pure _
  rintro m m₂ m₂' x hok - hr
  simp only [Action.bind_eq_ok, Action.pure_eq_ok] at hok
  obtain ⟨id, m₁, hid, v, m₂, hpop, rfl, rfl⟩ := hok
  obtain ⟨hid, rfl⟩ := askHeap_eq_ok.1 hid
  have hfits := identAt_fits hr.heap (heap_of_pop hpop ▸ hid)
  refine { hr with heap := hr.heap.write ?_ }
  simp only [Ident.nameField, Ident.valueField, Value.length_encode, Value.size] at hfits ⊢
  omega

theorem scales_getSlot (slot : UInt8) : Scales (getSlot slot : Step κ Unit) := by
  refine .get_bind fun m m' hr => ?_
  rw [show m'.slotOffset slot = m.slotOffset slot by rw [slotOffset, slotOffset, hr.fp]]
  by_cases hunder : m.stack.get (m.slotOffset slot) = .error .stackUnderflow
  · rw [hunder]
    exact .giveUp trivial _
  · rw [hr.stack.get hunder]
    split
    · exact .throw _
    · exact .throw _
    · exact scales_push _

theorem scales_setSlot (slot : UInt8) : Scales (setSlot slot : Step κ Unit) := by
  refine .bind scales_pop fun v => .get_bind fun m m' hr => ?_
  rw [slotOffset, slotOffset, hr.fp]
  exact scales_onStack (OperandStack.scales_set _ v)

theorem scales_call (isProc : Bool) (n : UInt8) (o : UInt16) :
    Scales (call isProc n o : Step κ Unit) := by
  refine .bind (scales_askHeap fun _ _ hr => hr.identAt o) fun id => .get_bind fun m m' hr => ?_
  dsimp only
  have hentry : entryOf m'.heap id isProc = entryOf m.heap id isProc := by
    simp only [entryOf, hr.heap.identValue, hr.heap.identText]
  rw [hentry, hr.heap.identText, hr.heap.identSlot,
    show m'.heap.identArguments id = m.heap.identArguments id from hr.heap.byte _]
  split
  · exact .throw _
  · refine .when (.throw _) fun _ => .get_bind fun m₁ m₁' hr₁ => ?_
    rw [hr₁.stack.sp]
    refine .when (.throw _) fun _ => ?_
    refine .bind (scales_onStack (OperandStack.scales_setPointer _)) fun _ => ?_
    refine .get_bind fun m₂ m₂' hr₂ => ?_
    rw [hr₂.fp, hr₂.pc]
    refine .bind (scales_onStack (OperandStack.scales_pushBytes _)) fun _ => ?_
    refine .bind (scales_onStack (OperandStack.scales_pushBytes _)) fun _ => ?_
    refine .bind (scales_onStack (OperandStack.scales_pushBytes _)) fun _ => ?_
    exact .modify fun _ _ hr => { hr with fp := rfl, pc := rfl, depth := by simp only [hr.depth] }

theorem scales_leave : Scales (leave : Step κ Unit) := by
  refine .bind (scales_onStack OperandStack.scales_popWord) fun pc => ?_
  refine .bind (scales_onStack OperandStack.scales_popWord) fun sp => ?_
  refine .bind (scales_onStack OperandStack.scales_popWord) fun fp => ?_
  refine .bind (scales_onStack (OperandStack.scales_setPointer _)) fun _ => ?_
  exact .modify fun _ _ hr => { hr with fp := rfl, pc := rfl, depth := by simp only [hr.depth] }

theorem printedLine_roomier {h h' : Heap} (hr : h.Roomier h') (vs : List Value) :
    printedLine h' vs = printedLine h vs := by
  induction vs with
  | nil => rfl
  | cons v vs ih =>
      cases vs with
      | nil => exact Builtin.render_roomier hr v
      | cons u vs =>
          show Builtin.render h' v ++ 32 :: printedLine h' (u :: vs) = _
          rw [Builtin.render_roomier hr, ih]
          rfl

theorem scales_branch (target : Nat) : Scales (branch target : Step κ Unit) := by
  refine .bind scales_pop fun v => ?_
  split
  · exact .pure _
  · exact scales_jumpTo _
  · exact .throw _

theorem scales_execute [Console κ] (i : Instruction) : Scales (execute i : Step κ Unit) := by
  unfold execute
  split
  all_goals first
    | with_reducible exact scales_push _
    | with_reducible exact .throw _
    | with_reducible exact scales_getGlobal _
    | with_reducible exact scales_setGlobal _
    | with_reducible exact scales_getSlot _
    | with_reducible exact scales_setSlot _
    | with_reducible exact scales_jumpTo _
    | with_reducible exact scales_branch _
    | with_reducible exact scales_call _ _ _
    | with_reducible exact scales_leave
    | with_reducible exact scales_unary _
    | with_reducible exact scales_binary _
    | skip
  · exact .bind (scales_askHeap fun _ _ hr => hr.strAt _) fun _ => scales_push _
  · exact .bind scales_draw fun _ => scales_push _
  · exact .bind (scales_popMany _) fun _ => scales_produce (Builtin.scales_makeArray _)
  · exact .bind scales_pop fun _ => .bind scales_pop fun _ =>
      scales_produce (Builtin.scales_left _ _)
  · exact .bind scales_pop fun _ => .bind scales_pop fun _ =>
      scales_produce (Builtin.scales_right _ _)
  · exact .bind scales_pop fun _ => .bind scales_pop fun _ => .bind scales_pop fun _ =>
      scales_produce (Builtin.scales_substr _ _ _)
  · refine .bind scales_pop fun k => .bind scales_pop fun c => .get_bind fun m m' hr => ?_
    rw [Builtin.index_roomier hr.heap]
    split
    · exact scales_push _
    · exact .throw _
  · exact .bind scales_pop fun _ => .bind scales_pop fun _ => .bind scales_pop fun _ =>
      scales_produce (Builtin.scales_slice _ _ _)
  · refine .bind (scales_popMany _) fun vs => .get_bind fun m m' hr => ?_
    rw [printedLine_roomier hr.heap]
    exact scales_writeLine _
  · exact .bind scales_readLine fun line => scales_produce (Builtin.scales_makeStr line)
  · exact .bind scales_pop fun v => .bind scales_leave fun _ => scales_push v

theorem scales_step [Console κ] (code : Array UInt8) : Scales (step code : Step κ Flow) := by
  refine .get_bind fun m m' hr => ?_
  rw [hr.pc]
  split
  · exact .throw _
  · refine .bind (scales_jumpTo _) fun _ => ?_
    refine .ite (fun _ => .pure _) fun _ => .bind (scales_execute _) fun _ => .pure _

/-! ### Runs -/

/-- With more room a run comes as far, unless it ran out of room. -/
theorem Roomier.run [Console κ] {m m' : Machine κ} (hr : Roomier m m') (code : Array UInt8)
    (n : Nat) :
    match run code n m with
    | .running m₁ => ∃ m₁', run code n m' = .running m₁' ∧ Roomier m₁ m₁'
    | .halted m₁ => ∃ m₁', run code n m' = .halted m₁' ∧ Roomier m₁ m₁'
    | .trapped t m₁ => t.fault.IsCapacity ∨
        ∃ m₁', run code n m' = .trapped t m₁' ∧ Roomier m₁ m₁' := by
  induction n generalizing m m' with
  | zero => exact ⟨m', rfl, hr⟩
  | succ n ih =>
      simp only [Machine.run]
      cases hs : step code m with
      | ok flow m₁ =>
          obtain ⟨m₁', hs', hr₁⟩ := (scales_step code).ok hr hs
          rw [hs']
          cases flow with
          | next => exact ih hr₁
          | halt => exact ⟨m₁', rfl, hr₁⟩
      | error e m₁ =>
          by_cases hroom : e.IsCapacity
          · exact .inl hroom
          · obtain ⟨m₁', hs', hr₁⟩ := (scales_step code).error hr hs hroom
            exact .inr ⟨m₁', by rw [hs', hr.pc], hr₁⟩

end Machine

end CellScript
