import CellScript.Proofs.Fitting
import CellScript.Proofs.Steps

/-!
Errors about the stacks.

Some errors of the compiler say that its stacks do not describe the open blocks. Which
errors a step can end in depends on little of what the stacks hold: where a jump is
taken from its stack there has to be one, and the same goes for loops and bodies.
`Sane` is the judgement that a run does not end in such an error. Most steps are
`Neutral`: they are sane wherever they are run, and leave alone what the errors of
others depend on. So a statement is sane wherever the stacks agree with the open
blocks, and behind it the same operators wait as before, that is none.
-/

namespace CellScript

namespace Compiler

open Grammar

/-- A run ends as described, or in an error that is not about the stacks. -/
def Sane {α : Type} (P : α → Compiler → Prop) : EStateM.Result CompileError Compiler α → Prop
  | .ok a s => P a s
  | .error e _ => ¬ e.cause.IsDisorder

/-- The two states agree in what the errors of a statement depend on. -/
structure Keeps (s t : Compiler) : Prop where
  pending : t.pending = s.pending
  forward : t.forward = s.forward
  loopStarts : t.loopStarts = s.loopStarts
  savedExits : t.savedExits = s.savedExits
  body : t.body.isSome = s.body.isSome

/-- A step whose errors are not about the stacks, and which leaves them alone. -/
def Neutral {α : Type} (x : Compile α) : Prop := ∀ s, Sane (fun _ => Keeps s) (x s)

section

variable {α β : Type} {s : Compiler} {P P' : α → Compiler → Prop} {Q : β → Compiler → Prop}
  {x y : Compile α} {f : α → Compile β}

theorem Sane.bind (hx : Sane P (x s)) (hf : ∀ a t, x s = .ok a t → P a t → Sane Q (f a t)) :
    Sane Q ((x >>= f) s) := by
  simp only [Bind.bind, EStateM.bind]
  cases h : x s with
  | ok a t =>
      rw [h] at hx
      exact hf a t h hx
  | error e t =>
      rw [h] at hx
      exact hx

theorem Sane.mono (hx : Sane P (x s)) (hP : ∀ a t, P a t → P' a t) : Sane P' (x s) := by
  cases h : x s with
  | ok a t =>
      rw [h] at hx
      exact hP a t hx
  | error e t =>
      rw [h] at hx
      exact hx

theorem Sane.run (hx : Sane P (x s)) : Sane (fun a t => x s = .ok a t) (x s) := by
  cases h : x s with
  | ok a t => rfl
  | error e t =>
      rw [h] at hx
      exact hx

theorem Keeps.refl (s : Compiler) : Keeps s s := ⟨rfl, rfl, rfl, rfl, rfl⟩

theorem Keeps.trans {t u : Compiler} (h : Keeps s t) (h' : Keeps t u) : Keeps s u :=
  ⟨h'.pending.trans h.pending, h'.forward.trans h.forward, h'.loopStarts.trans h.loopStarts,
    h'.savedExits.trans h.savedExits, h'.body.trans h.body⟩

namespace Neutral

theorem pure (a : α) : Neutral (pure a) := fun s => .refl s

theorem bind (hx : Neutral x) (hf : ∀ a, Neutral (f a)) : Neutral (x >>= f) := fun s =>
  (hx s).bind fun a t _ ht => (hf a t).mono fun _ _ hu => ht.trans hu

theorem ite {c : Prop} [Decidable c] (hx : Neutral x) (hy : Neutral y) :
    Neutral (if c then x else y) := by
  split
  · exact hx
  · exact hy

theorem get_bind {f : Compiler → Compile α} (hf : ∀ s, Neutral (f s)) : Neutral (get >>= f) :=
  fun s => hf s s

theorem throw {e : CompileError} (h : ¬ e.cause.IsDisorder) : Neutral (throw e : Compile α) :=
  fun _ => h

theorem failHere {cause : Cause} (h : ¬ cause.IsDisorder) :
    Neutral (failHere cause : Compile α) := fun _ => h

/-- A guard that only fails. -/
theorem guarded {c : Prop} [Decidable c] {x : Compile Unit} {f : Unit → Compile α}
    (hx : Neutral x) (hf : Neutral (f ())) : Neutral (if c then x >>= f else f ()) :=
  .ite (hx.bind fun _ => hf) hf

theorem modify {g : Compiler → Compiler} (hg : ∀ s, Keeps s (g s)) : Neutral (modify g) :=
  fun s => hg s

theorem read (r : Cursor → α × Cursor) : Neutral (read r) := fun _ => ⟨rfl, rfl, rfl, rfl, rfl⟩

theorem onStore (act : EStateM Heap.Error Store α) : Neutral (onStore act) := by
  intro s
  simp only [Compiler.onStore]
  cases act s.store with
  | ok a st => exact ⟨rfl, rfl, rfl, rfl, rfl⟩
  | error e st => exact id

theorem onCode {act : CodeBuffer.Action α} (hact : CodeBuffer.Settles act) :
    Neutral (onCode act) := by
  intro s
  simp only [Compiler.onCode]
  cases h : act s.code with
  | ok a b => exact ⟨rfl, rfl, rfl, rfl, rfl⟩
  | error e b =>
      have he := hact _ _ _ h
      cases e with
      | unresolved n => exact he.elim
      | overflow | jumpOutOfRange => exact id

end Neutral

/-! ### Expressions -/

/-- A step whose errors are not about the stacks. -/
def Harmless {α : Type} (x : Compile α) : Prop := ∀ s, Sane (fun _ _ => True) (x s)

theorem Neutral.harmless (hx : Neutral x) : Harmless x := fun s => (hx s).mono fun _ _ _ => trivial

theorem harmless_tryRead {act : Cursor.Action α}
    (hact : ∀ c e c', act c = .error e c' → ¬ e.cause.IsDisorder) : Harmless (tryRead act) := by
  intro s
  simp only [tryRead]
  cases h : act s.cursor with
  | ok a c => trivial
  | error e c => exact hact _ _ _ h

theorem harmless_number : Harmless (tryRead Cursor.number) := by
  refine harmless_tryRead fun c e c' h => ?_
  simp only [Cursor.number] at h
  split at h
  · cases h
  · cases h
    exact id
  · cases h
  · split at h
    · cases h
    · cases h
      exact id

theorem harmless_string : Harmless (tryRead Cursor.string) := by
  refine harmless_tryRead fun c e c' h => ?_
  simp only [Cursor.string] at h
  split at h
  · split at h
    all_goals
      cases h
      try exact id
  · cases h

theorem pervades_harmless : Pervades @Harmless where
  pure a := (Neutral.pure a).harmless
  bind hx hf s := (hx s).bind fun a t _ _ => hf a t
  get_bind hf s := hf s s
  throw h := (Neutral.throw h).harmless
  failHere h := (Neutral.failHere h).harmless
  symbol _ := (Neutral.read _).harmless
  atEnd := (Neutral.read _).harmless
  word := (Neutral.read _).harmless
  unaryOperator := (Neutral.read _).harmless
  binaryOperator := (Neutral.read _).harmless
  number := harmless_number
  string := harmless_string
  emit bytes := (Neutral.onCode (CodeBuffer.settles_emit bytes)).harmless
  allocStr _ := (Neutral.onStore _).harmless
  intern _ := (Neutral.onStore _).harmless
  push p s := by
    simp only [pushPending]
    split
    · trivial
    · exact id
  pop _ := trivial

theorem neutral_expression : Neutral expression := by
  intro s
  have hsafe := pervades_harmless.expression s
  cases h : expression s with
  | ok u t =>
      obtain ⟨e, g, he, rfl⟩ := expression_ok h
      have hbody : g.body.isSome = s.front.body.isSome := by
        simpa using congrArg Option.isSome (steady_sameBody.expression he)
      exact ⟨rfl, rfl, rfl, rfl, hbody⟩
  | error e t =>
      rw [h] at hsafe
      exact hsafe

/-! ### Commands -/

theorem neutral_failWanting (wanted : Wanted) : Neutral (failWanting wanted : Compile α) :=
  (Neutral.read _).bind fun _ => .ite (.failHere id) (.failHere id)

theorem neutral_expect (b : UInt8) : Neutral (expect b) :=
  (Neutral.read _).bind fun _ => .ite (.pure _) (neutral_failWanting _)

theorem neutral_name (wanted : Wanted) : Neutral (name wanted) := by
  refine (Neutral.read _).bind fun w => ?_
  cases w with
  | none => exact neutral_failWanting _
  | some w => exact .guarded (.throw id) (.pure _)

theorem neutral_emit (bytes : List UInt8) : Neutral (onCode (CodeBuffer.emit bytes)) :=
  .onCode (CodeBuffer.settles_emit bytes)

theorem neutral_emitOpByte (op : Opcode) (b : UInt8) : Neutral (emitOpByte op b) :=
  (neutral_emit _).bind fun _ => neutral_emit _

theorem neutral_emitOpWord (op : Opcode) (w : UInt16) : Neutral (emitOpWord op w) :=
  (neutral_emit _).bind fun _ => neutral_emit _

theorem neutral_emitCall (op : Opcode) (n : UInt8) (id : Ident) : Neutral (emitCall op n id) :=
  (neutral_emit _).bind fun _ => (neutral_emit _).bind fun _ => neutral_emit _

theorem neutral_intern (bytes : List UInt8) : Neutral (intern bytes) :=
  (Neutral.onStore _).bind fun _ => .pure _

theorem neutral_valueOf (id : Ident) : Neutral (valueOf id) := .get_bind fun _ => .pure _

theorem neutral_slotOf (id : Ident) : Neutral (slotOf id) := by
  refine .get_bind fun s => ?_
  cases s.body <;> exact .pure _

theorem neutral_modifyHeap (g : Heap → Heap) : Neutral (modifyHeap g) :=
  .modify fun _ => ⟨rfl, rfl, rfl, rfl, rfl⟩

theorem neutral_argumentCount (n : Nat) (w : WordToken) : Neutral (argumentCount n w) :=
  .ite (.pure _) (.throw id)

theorem neutral_redefinition (v : Value) (w : WordToken) :
    Neutral (redefinition v w : Compile α) := by
  unfold redefinition
  split <;> exact .throw id

/-- A local is declared in a body. -/
theorem sane_declareLocal (hbody : s.body.isSome = true) (x : Ident) (w : WordToken) :
    Sane (fun _ => Keeps s) (declareLocal x w s) := by
  obtain ⟨body, hb⟩ := Option.isSome_iff_exists.1 hbody
  refine (neutral_valueOf x s).bind fun v t hv _ => ?_
  obtain ⟨-, rfl⟩ := valueOf_eq_ok.1 hv
  split
  · exact (neutral_redefinition _ _ s).bind fun _ _ h => (redefinition_eq_ok.1 h).elim
  · simp only [bind, EStateM.bind, Action.get_apply, hb]
    split
    · exact id
    · exact ⟨rfl, rfl, rfl, rfl, hbody.symm⟩

theorem neutral_assign (id : Ident) (w : WordToken) : Neutral (assign id w) := by
  intro s
  rw [assign, Action.get_bind_apply]
  cases hb : s.body with
  | none =>
      refine (neutral_valueOf id s).bind fun v t _ ht => ?_
      refine (Neutral.guarded ?_ ?_ t).mono fun _ _ => ht.trans
      · exact neutral_redefinition _ _
      · exact neutral_emitOpWord _ _
  | some body =>
      refine (neutral_slotOf id s).bind fun slot t _ ht => ?_
      cases slot with
      | some k => exact (neutral_emitOpByte _ _ t).mono fun _ _ => ht.trans
      | none =>
          have hbody : t.body.isSome = true := by rw [ht.body, hb]; rfl
          refine (sane_declareLocal hbody id w).bind fun k u _ hu => ?_
          exact (neutral_emitOpByte _ _ u).mono fun _ _ hv => ht.trans (hu.trans hv)

theorem neutral_argumentsFrom (fuel n : Nat) : Neutral (argumentsFrom fuel n) := by
  induction fuel generalizing n with
  | zero => exact .failHere id
  | succ fuel ih =>
      exact neutral_expression.bind fun _ => (Neutral.read _).bind fun _ => .ite (ih _) (.pure _)

theorem neutral_arguments : Neutral arguments :=
  (Neutral.read _).bind fun _ => .ite (.pure _) (.get_bind fun _ => neutral_argumentsFrom _ _)

theorem neutral_printStatement (w : WordToken) : Neutral (printStatement w) :=
  neutral_arguments.bind fun _ => (neutral_argumentCount _ _).bind fun _ => neutral_emitOpByte _ _

theorem neutral_inputStatement (fuel : Nat) : Neutral (inputStatement fuel) := by
  induction fuel with
  | zero => exact .failHere id
  | succ fuel ih =>
      exact (neutral_name _).bind fun _ => (neutral_intern _).bind fun _ =>
        (neutral_emit _).bind fun _ => (neutral_assign _ _).bind fun _ =>
          (Neutral.read _).bind fun _ => .ite ih (.pure _)

/-! ### Blocks -/

/-- A run from `s` is sane, and the operators that wait are the same behind it. -/
def SaneFrom (s : Compiler) (r : EStateM.Result CompileError Compiler α) : Prop :=
  Sane (fun _ t => t.pending = s.pending) r

theorem SaneFrom.bind (hx : SaneFrom s (x s)) (hf : ∀ a t, x s = .ok a t → SaneFrom t (f a t)) :
    SaneFrom s ((x >>= f) s) :=
  Sane.bind hx fun a t hok ht => (hf a t hok).mono fun _ _ hu => hu.trans ht

theorem SaneFrom.get_bind {f : Compiler → Compile α} (h : SaneFrom s (f s s)) :
    SaneFrom s ((get >>= f) s) := h

theorem SaneFrom.modify_bind {g : Compiler → Compiler} {f : PUnit → Compile α}
    (hg : (g s).pending = s.pending) (h : SaneFrom (g s) (f ⟨⟩ (g s))) :
    SaneFrom s ((modify g >>= f) s) :=
  Sane.mono h fun _ _ ht => ht.trans hg

/-- A guard that only fails. -/
theorem SaneFrom.guarded {c : Prop} [Decidable c] {x : Compile Unit} {f : Unit → Compile α}
    (hx : Sane (fun _ _ => False) (x s)) (hf : SaneFrom s (f () s)) :
    SaneFrom s ((if c then x >>= f else f ()) s) := by
  split
  · exact Sane.bind hx fun _ _ _ h => h.elim
  · exact hf

theorem Neutral.keeps (hx : Neutral x) {a : α} {t : Compiler} (h : x s = .ok a t) : Keeps s t := by
  have hsane := hx s
  rw [h] at hsane
  exact hsane

theorem Neutral.from (hx : Neutral x) (s : Compiler) : SaneFrom s (x s) :=
  (hx s).mono fun _ _ => Keeps.pending

theorem neutral_pushBlock (k : Construct) (w : WordToken) : Neutral (pushBlock k w) := by
  intro s
  simp only [pushBlock]
  split
  · exact ⟨rfl, rfl, rfl, rfl, rfl⟩
  · exact id

theorem neutral_pushLoopExit (x : Fixup) : Neutral (pushLoopExit x) := by
  intro s
  simp only [pushLoopExit]
  split
  · exact ⟨rfl, rfl, rfl, rfl, rfl⟩
  · exact id

theorem saneFrom_pushForward (x : Fixup) (s : Compiler) : SaneFrom s (pushForward x s) := by
  simp only [pushForward]
  split
  · rfl
  · exact id

theorem saneFrom_pushLoopStart (a : Nat) (s : Compiler) : SaneFrom s (pushLoopStart a s) := by
  simp only [pushLoopStart]
  split
  · rfl
  · exact id

theorem saneFrom_saveExits (s : Compiler) : SaneFrom s (saveExits s) := by
  simp only [saveExits]
  split
  · rfl
  · exact id

theorem saneFrom_beginLoop (s : Compiler) : SaneFrom s (beginLoop s) :=
  (saneFrom_pushLoopStart s.code.pos s).bind fun _ t _ => saneFrom_saveExits t

theorem neutral_popBlock (w : WordToken) (k : Construct) (ks : List Construct) :
    Neutral (popBlock w k ks) := by
  refine .get_bind fun s => ?_
  cases s.blocks.top? with
  | none => exact .throw id
  | some b => exact .ite (.modify fun _ => ⟨rfl, rfl, rfl, rfl, rfl⟩) (.throw id)

theorem neutral_patchExits (n : Nat) : Neutral (patchExits n) := by
  induction n with
  | zero => exact .pure _
  | succ n ih =>
      refine .get_bind fun s => ?_
      cases s.loopExits.top? with
      | none => exact .pure _
      | some x =>
          refine .bind (.modify fun _ => ⟨rfl, rfl, rfl, rfl, rfl⟩) fun _ => ?_
          exact (Neutral.onCode (CodeBuffer.settles_patch x)).bind fun _ => ih

/-- A jump is taken from a stack that has one. -/
theorem saneFrom_popForward (h : s.forward.items ≠ []) : SaneFrom s (popForward s) := by
  obtain ⟨x, xs, hx⟩ := List.exists_cons_of_ne_nil h
  rw [popForward, Action.get_bind_apply]
  simp only [BoundedStack.top?, hx, List.head?_cons]
  rfl

/-- A loop is closed that has been opened. -/
theorem saneFrom_endLoop (op : Opcode) (h : s.loopStarts.items ≠ []) :
    SaneFrom s (endLoop op s) := by
  obtain ⟨start, starts, hs⟩ := List.exists_cons_of_ne_nil h
  rw [endLoop, Action.get_bind_apply]
  simp only [BoundedStack.top?, hs, List.head?_cons]
  refine .modify_bind rfl ?_
  refine ((Neutral.onCode (CodeBuffer.settles_emitBackward op start)).from _).bind fun _ t _ => ?_
  exact .get_bind (((neutral_patchExits _).from t).bind fun _ _ _ => rfl)

/-- A block that is no loop has its jump. -/
theorem Placed.forward_of_popBlock {u : Unit} {t : Compiler} {k : Construct} {ks : List Construct}
    {w : WordToken} (hp : Placed s) (h : popBlock w k ks s = .ok u t)
    (hk : ∀ k' ∈ k :: ks, k' ∈ [Construct.ifBlock, .elseBlock] ++ [.funcBody, .procBody]) :
    t.forward.items ≠ [] := by
  obtain ⟨b, bs, hb, hmem, rfl⟩ := popBlock_ok h
  exact hp.forward b bs hb (hk _ hmem)

/-- A loop has its start. -/
theorem Placed.loopStarts_of_popBlock {u : Unit} {t : Compiler} {k : Construct} {w : WordToken}
    (hp : Placed s) (h : popBlock w k [] s = .ok u t) (hk : k = .whileLoop ∨ k = .repeatLoop) :
    t.loopStarts.items ≠ [] := by
  obtain ⟨b, bs, hb, hmem, rfl⟩ := popBlock_ok h
  obtain hbk : b.construct = k := by simpa using hmem
  refine hp.loopStarts_ne ?_
  rw [hb, Nesting.setting, hbk]
  obtain rfl | rfl := hk <;> rfl

/-! ### Statements -/

theorem saneFrom_ifStatement (w : WordToken) (s : Compiler) : SaneFrom s (ifStatement w s) := by
  refine ((neutral_pushBlock _ w).from s).bind fun _ t _ => ?_
  refine (neutral_expression.from t).bind fun _ u _ => ?_
  refine ((Neutral.onCode (CodeBuffer.settles_emitForward _)).from u).bind fun x v _ => ?_
  exact saneFrom_pushForward x v

theorem saneFrom_elseStatement (w : WordToken) (hp : Placed s) :
    SaneFrom s (elseStatement w s) := by
  refine ((neutral_popBlock w _ _).from s).bind fun _ t hpop => ?_
  have hforward := hp.forward_of_popBlock hpop (by simp)
  refine ((neutral_pushBlock _ w).from t).bind fun _ u hpush => ?_
  have hforward : u.forward.items ≠ [] := by
    obtain rfl := pushBlock_ok hpush
    exact hforward
  refine (saneFrom_popForward hforward).bind fun x v _ => ?_
  refine ((Neutral.onCode (CodeBuffer.settles_patchTo x _)).from v).bind fun _ s₁ _ => ?_
  refine ((Neutral.onCode (CodeBuffer.settles_emitForward _)).from s₁).bind fun y s₂ _ => ?_
  exact saneFrom_pushForward y s₂

theorem saneFrom_endifStatement (w : WordToken) (hp : Placed s) :
    SaneFrom s (endifStatement w s) := by
  refine ((neutral_popBlock w _ _).from s).bind fun _ t hpop => ?_
  refine (saneFrom_popForward (hp.forward_of_popBlock hpop (by simp))).bind fun x u _ => ?_
  exact (Neutral.onCode (CodeBuffer.settles_patch x)).from u

theorem saneFrom_whileStatement (w : WordToken) (s : Compiler) :
    SaneFrom s (whileStatement w s) := by
  refine ((neutral_pushBlock _ w).from s).bind fun _ t _ =>
    (saneFrom_beginLoop t).bind fun _ u _ => ?_
  refine (neutral_expression.from u).bind fun _ v _ => ?_
  refine ((Neutral.onCode (CodeBuffer.settles_emitForward _)).from v).bind fun x v' _ => ?_
  exact (neutral_pushLoopExit x).from v'

theorem saneFrom_wendStatement (w : WordToken) (hp : Placed s) :
    SaneFrom s (wendStatement w s) :=
  ((neutral_popBlock w _ _).from s).bind fun _ _ hpop =>
    saneFrom_endLoop _ (hp.loopStarts_of_popBlock hpop (.inl rfl))

theorem saneFrom_repeatStatement (w : WordToken) (s : Compiler) :
    SaneFrom s (repeatStatement w s) :=
  ((neutral_pushBlock _ w).from s).bind fun _ t _ => saneFrom_beginLoop t

theorem saneFrom_untilStatement (w : WordToken) (hp : Placed s) :
    SaneFrom s (untilStatement w s) := by
  refine ((neutral_popBlock w _ _).from s).bind fun _ t hpop => ?_
  refine (neutral_expression.from t).bind fun _ u hexp => ?_
  have hloop := hp.loopStarts_of_popBlock hpop (.inr rfl)
  obtain ⟨_, _, -, rfl⟩ := expression_ok hexp
  exact saneFrom_endLoop _ hloop

theorem neutral_breakStatement (w : WordToken) : Neutral (breakStatement w) :=
  .get_bind fun _ => .guarded (.throw id)
    ((Neutral.onCode (CodeBuffer.settles_emitForward _)).bind neutral_pushLoopExit)

/-! ### Bodies -/

theorem sane_parameters (fuel : Nat) (hbody : s.body.isSome = true) :
    Sane (fun _ => Keeps s) (parameters fuel s) := by
  induction fuel generalizing s with
  | zero => exact id
  | succ fuel ih =>
      refine (neutral_name _ s).bind fun w t _ ht => ?_
      refine (neutral_intern _ t).bind fun x u _ hu => ?_
      refine (neutral_slotOf x u).bind fun slot v _ hv => ?_
      have hkeeps := ht.trans (hu.trans hv)
      split
      · exact id
      · refine (sane_declareLocal (by rw [hkeeps.body, hbody]) x w).bind fun _ s₁ _ h₁ => ?_
        refine (Neutral.read _ s₁).bind fun comma s₂ _ h₂ => ?_
        have hkeeps := hkeeps.trans (h₁.trans h₂)
        split
        · exact (ih (by rw [hkeeps.body, hbody])).mono fun _ _ => hkeeps.trans
        · exact hkeeps

theorem sane_parameterList (hbody : s.body.isSome = true) :
    Sane (fun _ => Keeps s) (parameterList s) := by
  refine (neutral_expect _ s).bind fun _ t _ ht => ?_
  refine (Neutral.read _ t).bind fun close u _ hu => ?_
  have hkeeps := ht.trans hu
  split
  · exact hkeeps
  · refine Sane.bind (x := get) (P := fun _ => Keeps u) (.refl u) fun _ v _ hv => ?_
    have hkeeps := hkeeps.trans hv
    refine (sane_parameters _ (by rw [hkeeps.body, hbody])).bind fun _ s₁ _ h₁ => ?_
    exact (neutral_expect _ s₁).mono fun _ _ h₂ => hkeeps.trans (h₁.trans h₂)

theorem saneFrom_bodyStatement (isFunc : Bool) (w : WordToken) (s : Compiler) :
    SaneFrom s (bodyStatement isFunc w s) := by
  refine .get_bind (.guarded id ?_)
  refine ((neutral_pushBlock _ w).from s).bind fun _ s₁ _ => ?_
  refine ((Neutral.onCode (CodeBuffer.settles_emitForward _)).from s₁).bind fun x s₂ _ => ?_
  refine (saneFrom_pushForward x s₂).bind fun _ s₃ _ => ?_
  refine ((neutral_name _).from s₃).bind fun nameWord s₄ _ => ?_
  refine ((neutral_intern _).from s₄).bind fun y s₅ _ => ?_
  refine ((neutral_valueOf y).from s₅).bind fun v s₆ _ => .guarded id (.get_bind (.guarded id ?_))
  refine ((neutral_modifyHeap _).from s₆).bind fun _ s₇ _ => .modify_bind rfl ?_
  -- From here on a body is compiled, so its parameters can be declared.
  refine SaneFrom.bind ((sane_parameterList rfl).mono fun _ _ => Keeps.pending) fun _ s₈ _ => ?_
  exact .get_bind ((neutral_modifyHeap _).from s₈)

theorem neutral_returnStatement (w : WordToken) : Neutral (returnStatement w) := by
  refine .get_bind fun s => ?_
  cases s.body with
  | none => exact .throw id
  | some body =>
      refine (Neutral.read _).bind fun bare => .ite ?_ ?_
      · exact .guarded (.throw id) (neutral_expression.bind fun _ => neutral_emit _)
      · exact .ite (neutral_emit _) ((Neutral.failHere id).bind fun _ => neutral_emit _)

theorem saneFrom_endStatement (w : WordToken) (hp : Placed s) :
    SaneFrom s (endStatement w s) := by
  refine ((neutral_popBlock w _ _).from s).bind fun _ t hpop => .get_bind ?_
  have hforward := hp.forward_of_popBlock hpop (by simp)
  cases t.body with
  | none => exact id
  | some body =>
      refine .modify_bind rfl (SaneFrom.bind ((neutral_emit _).from _) fun _ t₂ h₂ => ?_)
      obtain rfl := (emit_ok h₂).1
      refine ((neutral_modifyHeap _).from _).bind fun _ t₃ h₃ => ?_
      obtain rfl := modifyHeap_eq_ok.1 h₃
      refine SaneFrom.bind (saneFrom_popForward (by exact hforward)) fun x t₄ _ => ?_
      exact (Neutral.onCode (CodeBuffer.settles_patch x)).from t₄

theorem saneFrom_controlStatement (op : Opcode) (w : WordToken) (hp : Placed s) :
    SaneFrom s (controlStatement op w s) := by
  unfold controlStatement
  split
  · exact saneFrom_ifStatement w s
  · exact saneFrom_elseStatement w hp
  · exact saneFrom_endifStatement w hp
  · exact saneFrom_whileStatement w s
  · exact saneFrom_wendStatement w hp
  · exact saneFrom_repeatStatement w s
  · exact saneFrom_untilStatement w hp
  · exact (neutral_breakStatement w).from s
  · exact saneFrom_bodyStatement true w s
  · exact saneFrom_bodyStatement false w s
  · exact (neutral_returnStatement w).from s
  · exact saneFrom_endStatement w hp

/-- No statement ends in an error about the stacks where they describe the open blocks. -/
theorem saneFrom_statementAt (w : WordToken) (hp : Placed s) : SaneFrom s (statementAt w s) := by
  refine SaneFrom.bind (x := modify _) rfl fun _ t hnoted => ?_
  have hp : Placed t := by
    obtain rfl := Action.modify_eq_ok.1 hnoted
    exact ⟨hp.loops, hp.body, hp.forward⟩
  cases Keyword.lookup? w.bytes with
  | some k =>
      obtain ⟨op, cls⟩ := k
      cases cls with
      | command => exact (neutral_emit _).from t
      | listCommand => exact (neutral_printStatement w).from t
      | input => exact .get_bind ((neutral_inputStatement _).from t)
      | control => exact saneFrom_controlStatement op w hp
      | constant | function => exact id
  | none =>
      refine ((neutral_intern _).from t).bind fun x u _ => ?_
      refine ((Neutral.read _).from u).bind fun equals v _ => ?_
      split
      · refine (neutral_expression.from v).bind fun _ v₁ _ => ?_
        exact (neutral_assign x w).from v₁
      · refine (neutral_arguments.from v).bind fun n v₁ _ => ?_
        refine ((neutral_argumentCount n w).from v₁).bind fun k v₂ _ => ?_
        exact (neutral_emitCall _ k x).from v₂

end

end Compiler

end CellScript
