import CellScript.Proofs.ProgramCode

/-!
Every jump without a target is on a stack.

The code buffer only counts the jumps whose targets are not known yet. The compiler
keeps the jumps themselves, on one stack for branches and bodies and on another for
the exits of loops, so the count has to be the height of the two stacks together.
While a statement is being compiled, a jump may have left one and not be on its way
out of the count yet, or the other way round; `Moves` keeps the books on that. When
no block is open, both stacks are empty, and the code can be finished.
-/

namespace CellScript

/-! ### The count -/

namespace CodeBuffer

variable {b b' : CodeBuffer} {u : Unit}

theorem openFixups_of_emit {bytes : List UInt8} (h : emit bytes b = .ok u b') :
    b'.openFixups = b.openFixups := by
  simp only [emit] at h
  split at h
  · cases h
  · cases h
    rfl

theorem openFixups_of_emitForward {op : Opcode} {x : Fixup}
    (h : emitForward op b = .ok x b') : b'.openFixups = b.openFixups + 1 := by
  simp only [emitForward, Action.bind_eq_ok, Action.get_eq_ok, Action.modify_eq_ok,
    Action.pure_eq_ok] at h
  obtain ⟨_, b₁, h₁, _, _, ⟨rfl, rfl⟩, _, b₂, h₂, _, _, rfl, rfl, rfl⟩ := h
  exact congrArg (· + 1) ((openFixups_of_emit h₂).trans (openFixups_of_emit h₁))

theorem openFixups_of_emitBackward {op : Opcode} {target : Nat}
    (h : emitBackward op target b = .ok u b') : b'.openFixups = b.openFixups := by
  simp only [emitBackward, Action.bind_eq_ok, Action.get_eq_ok] at h
  obtain ⟨_, b₁, h₁, _, _, ⟨rfl, rfl⟩, h⟩ := h
  cases hd : distance (b₁.pos + 2) target with
  | ok d =>
      rw [hd] at h
      exact (openFixups_of_emit h).trans (openFixups_of_emit h₁)
  | error e =>
      rw [hd] at h
      cases h

theorem openFixups_of_patchTo {x : Fixup} {target : Nat} (h : patchTo x target b = .ok u b') :
    b'.openFixups = b.openFixups - 1 := by
  unfold patchTo at h
  cases hd : distance (x.operand + 2) target with
  | ok d =>
      rw [hd] at h
      obtain rfl := Action.modify_eq_ok.1 h
      rfl
  | error e =>
      rw [hd] at h
      cases h

theorem openFixups_of_patch {x : Fixup} (h : patch x b = .ok u b') :
    b'.openFixups = b.openFixups - 1 := by
  simp only [patch, Action.bind_eq_ok, Action.get_eq_ok] at h
  obtain ⟨_, _, ⟨rfl, rfl⟩, h⟩ := h
  exact openFixups_of_patchTo h

end CodeBuffer

namespace Compiler

open Grammar

/-- All but `k` of the jumps without a target are on the stacks. -/
def Tally (k : Nat) (s : Compiler) : Prop :=
  s.code.openFixups = s.forward.items.length + s.loopExits.items.length + k

/-- If all but `k` jumps are on the stacks before a step that succeeds, all but `k'` are there
behind it. -/
def Moves {α : Type} (k k' : Nat) (x : Compile α) : Prop :=
  ∀ s a t, x s = .ok a t → s.Tally k → t.Tally k'

section

variable {α β : Type} {k k' k'' : Nat} {x y : Compile α} {f : α → Compile β}

/-! ### Steps -/

theorem Moves.bind (hx : Moves k k' x) (hf : ∀ a, Moves k' k'' (f a)) : Moves k k'' (x >>= f) := by
  intro s b t h hs
  obtain ⟨a, u, ha, hb⟩ := Action.bind_eq_ok.1 h
  exact hf a u b t hb (hx s a u ha hs)

/-- What fails moves nothing. -/
theorem Moves.of_fails (h : ∀ s a t, x s = .ok a t ↔ False) : Moves k k' x :=
  fun s a t hok => ((h s a t).1 hok).elim

theorem Moves.pure (a : α) : Moves k k (Pure.pure a) := by
  intro s b t h hs
  obtain ⟨-, rfl⟩ := Action.pure_eq_ok.1 h
  exact hs

theorem Moves.ite {c : Prop} [Decidable c] (hx : Moves k k' x) (hy : Moves k k' y) :
    Moves k k' (if c then x else y) := by
  split
  · exact hx
  · exact hy

/-- A guard in front of a step. -/
theorem Moves.guard {c : Prop} [Decidable c] (hx : ∀ s a t, x s = .ok a t ↔ False)
    {g : Compile β} (hg : Moves k k' g) : Moves k k' (if c then x >>= f else g) := by
  refine .ite (.of_fails fun s b t => ?_) hg
  simp only [Action.bind_eq_ok, hx, false_and, exists_false]

theorem Moves.get {f : Compiler → Compile β} (hf : ∀ s, Moves k k' (f s)) :
    Moves k k' (MonadState.get >>= f) := by
  intro s b t h
  obtain ⟨_, _, hget, hb⟩ := Action.bind_eq_ok.1 h
  obtain ⟨rfl, rfl⟩ := Action.get_eq_ok.1 hget
  exact hf _ _ b t hb

/-- Neither the count nor the stacks change. -/
theorem Moves.of_same (h : ∀ s a t, x s = .ok a t → t.code.openFixups = s.code.openFixups ∧
    t.forward = s.forward ∧ t.loopExits = s.loopExits) : Moves k k x := by
  intro s a t hok hs
  obtain ⟨hcount, hforward, hexits⟩ := h s a t hok
  rw [Tally, hcount, hforward, hexits]
  exact hs

theorem Moves.of_advance (h : ∀ s a t, x s = .ok a t → ∃ g code, t = s.advance g code) :
    Moves k k x := by
  refine .of_same fun s a t hok => ?_
  obtain ⟨g, code, rfl⟩ := h s a t hok
  exact ⟨rfl, rfl, rfl⟩

theorem Moves.modify {g : Compiler → Compiler} {f : PUnit → Compile β}
    (h : ∀ s, (g s).code.openFixups = s.code.openFixups ∧ (g s).forward = s.forward ∧
      (g s).loopExits = s.loopExits) (hf : Moves k k' (f ⟨⟩)) :
    Moves k k' ((modify g : Compile PUnit) >>= f) := by
  refine Moves.bind (.of_same fun s a t hok => ?_) fun _ => hf
  obtain rfl := Action.modify_eq_ok.1 hok
  exact h s

/-- What an operation on the code does to the count. -/
theorem moves_onCode {act : CodeBuffer.Action α} {g : Nat → Nat}
    (hact : ∀ b a b', act b = .ok a b' → b'.openFixups = g b.openFixups)
    (hg : ∀ n, g (n + k) = n + k') : Moves k k' (onCode act) := by
  intro s a t h hs
  obtain ⟨b, hb, rfl⟩ := onCode_eq_ok.1 h
  exact (hact _ _ _ hb).trans ((congrArg g hs).trans (hg _))

theorem moves_emit (bytes : List UInt8) : Moves k k (onCode (CodeBuffer.emit bytes)) :=
  moves_onCode (g := id) (fun _ _ _ => CodeBuffer.openFixups_of_emit) fun _ => rfl

theorem moves_emitForward (op : Opcode) : Moves k (k + 1) (onCode (CodeBuffer.emitForward op)) :=
  moves_onCode (g := (· + 1)) (fun _ _ _ => CodeBuffer.openFixups_of_emitForward) fun _ => rfl

theorem moves_emitBackward (op : Opcode) (target : Nat) :
    Moves k k (onCode (CodeBuffer.emitBackward op target)) :=
  moves_onCode (g := id) (fun _ _ _ => CodeBuffer.openFixups_of_emitBackward) fun _ => rfl

theorem moves_patchTo (x : Fixup) (target : Nat) :
    Moves (k + 1) k (onCode (CodeBuffer.patchTo x target)) :=
  moves_onCode (g := (· - 1)) (fun _ _ _ => CodeBuffer.openFixups_of_patchTo) fun _ => rfl

theorem moves_patch (x : Fixup) : Moves (k + 1) k (onCode (CodeBuffer.patch x)) :=
  moves_onCode (g := (· - 1)) (fun _ _ _ => CodeBuffer.openFixups_of_patch) fun _ => rfl

/-! ### Stacks -/

theorem moves_pushForward (x : Fixup) : Moves (k + 1) k (pushForward x) := by
  intro s u t h hs
  obtain rfl := pushForward_ok h
  simp only [Tally, List.length_cons] at hs ⊢
  omega

theorem moves_pushLoopExit (x : Fixup) : Moves (k + 1) k (pushLoopExit x) := by
  intro s u t h hs
  obtain rfl := pushLoopExit_ok h
  simp only [Tally, List.length_cons] at hs ⊢
  omega

theorem moves_popForward : Moves k (k + 1) popForward := by
  intro s x t h hs
  obtain ⟨xs, hx, rfl⟩ := popForward_ok h
  simp only [Tally, hx, List.length_cons] at hs ⊢
  omega

theorem moves_pushBlock (c : Construct) (w : WordToken) : Moves k k (pushBlock c w) :=
  .of_same fun s _ t h => by
    obtain rfl := pushBlock_ok h
    exact ⟨rfl, rfl, rfl⟩

theorem moves_popBlock (w : WordToken) (c : Construct) (cs : List Construct) :
    Moves k k (popBlock w c cs) :=
  .of_same fun s _ t h => by
    obtain ⟨_, _, -, -, rfl⟩ := popBlock_ok h
    exact ⟨rfl, rfl, rfl⟩

theorem moves_beginLoop : Moves k k beginLoop :=
  .of_same fun s _ t h => by
    obtain rfl := beginLoop_ok h
    exact ⟨rfl, rfl, rfl⟩

/-- An exit leaves its stack to be patched. -/
theorem moves_patchExits (n : Nat) : Moves k k (patchExits n) := by
  induction n with
  | zero => exact .pure _
  | succ n ih =>
      intro s u t h hs
      simp only [patchExits, Action.bind_eq_ok, Action.get_eq_ok] at h
      obtain ⟨_, _, ⟨rfl, rfl⟩, h⟩ := h
      cases hx : s.loopExits.items with
      | nil =>
          simp only [BoundedStack.top?, hx, List.head?_nil] at h
          exact Moves.pure _ s u t h hs
      | cons x xs =>
          simp only [BoundedStack.top?, hx, List.head?_cons, Action.bind_eq_ok,
            Action.modify_eq_ok] at h
          obtain ⟨_, _, rfl, _, s₁, hpatch, hrest⟩ := h
          refine ih _ _ _ hrest (moves_patch x _ _ _ hpatch ?_)
          simp only [Tally, BoundedStack.pop, hx, List.tail_cons, List.length_cons] at hs ⊢
          omega

theorem moves_endLoop (op : Opcode) : Moves k k (endLoop op) := by
  refine .get fun s => ?_
  split
  · exact .of_fails fun _ _ _ => failHere_eq_ok
  · refine .modify (fun _ => ⟨rfl, rfl, rfl⟩) ((moves_emitBackward op _).bind fun _ => ?_)
    refine .get fun _ => (moves_patchExits _).bind fun _ => .of_same fun s _ t h => ?_
    obtain rfl := Action.modify_eq_ok.1 h
    exact ⟨rfl, rfl, rfl⟩

/-! ### Statements -/

theorem moves_expression : Moves k k expression :=
  .of_advance fun _ _ _ h => by
    obtain ⟨_, g, -, rfl⟩ := expression_ok h
    exact ⟨g, _, rfl⟩

theorem moves_read {α : Type} (r : Cursor → α × Cursor) : Moves k k (read r) :=
  .of_advance fun _ _ _ h => by
    obtain ⟨_, -, rfl⟩ := read_ok h
    exact ⟨_, _, rfl⟩

theorem moves_symbol (b : UInt8) : Moves k k (symbol b) :=
  moves_read _

theorem moves_name (wanted : Wanted) : Moves k k (name wanted) :=
  .of_advance fun _ _ _ h => by
    obtain ⟨_, -, -, rfl⟩ := name_ok h
    exact ⟨_, _, rfl⟩

theorem moves_intern (bytes : List UInt8) : Moves k k (intern bytes) :=
  .of_advance fun _ _ _ h => by
    obtain ⟨_, _, -, rfl⟩ := intern_ok h
    exact ⟨_, _, rfl⟩

theorem moves_valueOf (id : Ident) : Moves k k (valueOf id) :=
  .get fun _ => .pure _

theorem moves_modifyHeap (f : Heap → Heap) : Moves k k (modifyHeap f) :=
  .of_same fun s _ t h => by
    obtain rfl := Action.modify_eq_ok.1 h
    exact ⟨rfl, rfl, rfl⟩

theorem moves_assign (id : Ident) (w : WordToken) : Moves k k (assign id w) :=
  .of_advance fun _ _ _ h => by
    obtain ⟨_, g, -, rfl⟩ := assign_ok h
    exact ⟨g, _, rfl⟩

theorem moves_arguments : Moves k k arguments :=
  .of_advance fun _ _ _ h => by
    obtain ⟨_, g, -, -, rfl⟩ := arguments_ok h
    exact ⟨g, _, rfl⟩

theorem moves_argumentCount (n : Nat) (w : WordToken) : Moves k k (argumentCount n w) :=
  .ite (.pure _) (.of_fails fun _ _ _ => failAt_eq_ok)

theorem moves_emitCall (op : Opcode) (n : UInt8) (id : Ident) : Moves k k (emitCall op n id) :=
  (moves_emit _).bind fun _ => (moves_emit _).bind fun _ => moves_emit _

theorem moves_printStatement (w : WordToken) : Moves k k (printStatement w) :=
  .of_advance fun _ _ _ h => by
    obtain ⟨_, g, -, -, rfl⟩ := printStatement_ok h
    exact ⟨g, _, rfl⟩

theorem moves_inputStatement (fuel : Nat) : Moves k k (inputStatement fuel) :=
  .of_advance fun _ _ _ h => by
    obtain ⟨_, g, -, rfl⟩ := inputStatement_ok h
    exact ⟨g, _, rfl⟩

theorem moves_parameterList : Moves k k parameterList :=
  .of_advance fun _ _ _ h => by
    obtain ⟨g, -, rfl⟩ := parameterList_ok h
    exact ⟨g, _, rfl⟩

theorem moves_ifStatement (w : WordToken) : Moves k k (ifStatement w) :=
  (moves_pushBlock _ w).bind fun _ => moves_expression.bind fun _ =>
    (moves_emitForward _).bind moves_pushForward

theorem moves_elseStatement (w : WordToken) : Moves k k (elseStatement w) :=
  (moves_popBlock w _ _).bind fun _ => (moves_pushBlock _ w).bind fun _ =>
    moves_popForward.bind fun x => .get fun _ => (moves_patchTo x _).bind fun _ =>
      (moves_emitForward _).bind moves_pushForward

theorem moves_endifStatement (w : WordToken) : Moves k k (endifStatement w) :=
  (moves_popBlock w _ _).bind fun _ => moves_popForward.bind moves_patch

theorem moves_whileStatement (w : WordToken) : Moves k k (whileStatement w) :=
  (moves_pushBlock _ w).bind fun _ => moves_beginLoop.bind fun _ =>
    moves_expression.bind fun _ => (moves_emitForward _).bind moves_pushLoopExit

theorem moves_wendStatement (w : WordToken) : Moves k k (wendStatement w) :=
  (moves_popBlock w _ _).bind fun _ => moves_endLoop _

theorem moves_repeatStatement (w : WordToken) : Moves k k (repeatStatement w) :=
  (moves_pushBlock _ w).bind fun _ => moves_beginLoop

theorem moves_untilStatement (w : WordToken) : Moves k k (untilStatement w) :=
  (moves_popBlock w _ _).bind fun _ => moves_expression.bind fun _ => moves_endLoop _

theorem moves_breakStatement (w : WordToken) : Moves k k (breakStatement w) :=
  .get fun _ => .guard (fun _ _ _ => failAt_eq_ok)
    ((moves_emitForward _).bind moves_pushLoopExit)

theorem moves_bodyStatement (isFunc : Bool) (w : WordToken) :
    Moves k k (bodyStatement isFunc w) := by
  refine .get fun _ => .guard (fun _ _ _ => failAt_eq_ok) ?_
  refine (moves_pushBlock _ w).bind fun _ => (moves_emitForward _).bind fun x =>
    (moves_pushForward x).bind fun _ => ?_
  refine (moves_name _).bind fun _ => (moves_intern _).bind fun id => ?_
  refine (moves_valueOf id).bind fun _ => .guard (fun _ _ _ => failAt_eq_ok) ?_
  refine .get fun _ => .guard (fun _ _ _ => failHere_eq_ok) ?_
  refine (moves_modifyHeap _).bind fun _ => .modify (fun _ => ⟨rfl, rfl, rfl⟩) ?_
  exact moves_parameterList.bind fun _ => .get fun _ => moves_modifyHeap _

theorem moves_returnStatement (w : WordToken) : Moves k k (returnStatement w) := by
  refine .get fun s => ?_
  split
  · exact .of_fails fun _ _ _ => failAt_eq_ok
  · refine (moves_read _).bind fun _ => .ite ?_ ?_
    · refine .guard (fun _ _ _ => failAt_eq_ok) ?_
      exact moves_expression.bind fun _ => moves_emit _
    · refine .ite (moves_emit _) (.of_fails fun _ _ _ => ?_)
      simp only [Action.bind_eq_ok, failHere_eq_ok, false_and, exists_false]

theorem moves_endStatement (w : WordToken) : Moves k k (endStatement w) := by
  refine (moves_popBlock w _ _).bind fun _ => .get fun s => ?_
  split
  · exact .of_fails fun _ _ _ => failAt_eq_ok
  · refine .modify (fun _ => ⟨rfl, rfl, rfl⟩) ((moves_emit _).bind fun _ => ?_)
    exact (moves_modifyHeap _).bind fun _ => moves_popForward.bind moves_patch

theorem moves_controlStatement (op : Opcode) (w : WordToken) :
    Moves k k (controlStatement op w) := by
  unfold controlStatement
  split
  · exact moves_ifStatement w
  · exact moves_elseStatement w
  · exact moves_endifStatement w
  · exact moves_whileStatement w
  · exact moves_wendStatement w
  · exact moves_repeatStatement w
  · exact moves_untilStatement w
  · exact moves_breakStatement w
  · exact moves_bodyStatement true w
  · exact moves_bodyStatement false w
  · exact moves_returnStatement w
  · exact moves_endStatement w

theorem moves_statementAt (w : WordToken) : Moves k k (statementAt w) := by
  refine .modify (fun _ => ⟨rfl, rfl, rfl⟩) ?_
  split
  · exact moves_emit _
  · exact moves_printStatement w
  · exact .get fun _ => moves_inputStatement _
  · exact moves_controlStatement _ w
  · exact .of_fails fun _ _ _ => failAt_eq_ok
  · refine (moves_intern _).bind fun id => (moves_symbol _).bind fun _ => .ite ?_ ?_
    · exact moves_expression.bind fun _ => moves_assign id w
    · exact moves_arguments.bind fun n => (moves_argumentCount n w).bind fun _ =>
        moves_emitCall _ _ id

theorem moves_statement : Moves k k statement := by
  refine (moves_read _).bind fun w => ?_
  split
  · exact .of_fails fun _ _ _ => failHere_eq_ok
  · exact moves_statementAt _

theorem moves_statements (fuel : Nat) : Moves k k (statements fuel) := by
  induction fuel with
  | zero => exact .of_fails fun _ _ _ => failHere_eq_ok
  | succ fuel ih =>
      refine (moves_read _).bind fun _ => .ite (.pure _) (moves_statement.bind fun _ => ?_)
      refine (moves_symbol _).bind fun _ => .ite ih ((moves_read _).bind fun _ => .ite ?_ ?_)
      all_goals exact .of_fails fun _ _ _ => failHere_eq_ok

end

/-! ### Programs -/

/-- Without open blocks no jump lacks a target. -/
theorem Follows.openFixups {cur : Stmt} {s : Compiler} (h : Follows [] cur s) (hs : s.Tally 0) :
    s.code.openFixups = 0 := by
  have hexits : s.loopExits.items = [] := by
    rw [h.loopExits, Outline.exits, h.enclosed.2]
    rfl
  rw [hs, show s.forward.items = [] from h.forward, hexits]
  rfl

/-- The code of a whole text can be finished. -/
theorem finish_of_program {source : Source} {limits : Limits} {u : Unit} {s : Compiler}
    (h : program (start source limits) = .ok u s) : s.code.finish = .ok s.code.code := by
  simp only [program, Action.bind_eq_ok, Action.get_eq_ok] at h
  obtain ⟨_, _, ⟨rfl, rfl⟩, _, s₁, hst, _, _, ⟨rfl, rfl⟩, h⟩ := h
  have hnothing : Reading (Grammar.start source limits) [] .skip (Grammar.start source limits) :=
    .top .nil
  obtain ⟨fs, cur, -, hfollows, -⟩ := statements_ok (follows_start source limits) hnothing
    (by simp [Mapped, start, SourceMap.empty]) hst
  have hstart : (start source limits).Tally 0 := rfl
  have htally : s₁.Tally 0 := moves_statements _ _ _ _ hst hstart
  cases hb : s₁.blocks.items with
  | cons b bs => simp [BoundedStack.top?, hb, Action.throw_eq_ok] at h
  | nil =>
      obtain rfl : fs = [] := by simpa [hb] using hfollows.blocks.symm
      simp only [BoundedStack.top?, hb, List.head?_nil] at h
      obtain ⟨b, hemit, rfl⟩ := onCode_eq_ok.1 h
      have hcount := (CodeBuffer.openFixups_of_emit hemit).trans (hfollows.openFixups htally)
      rw [CodeBuffer.finish, if_pos hcount]

end Compiler

end CellScript
