import CellScript.Proofs.Admission

/-!
Statements fit or do not.

Each kind of statement has a lemma of its own. A statement that only has expressions
and names in it needs nothing but what it says itself. One that opens a block pushes
it; one that closes a block needs that block on top, a jump that waits for its end,
or the start of a loop to jump back to. `Placed` says that the stacks have these
whenever the blocks that are open ask for them, and with it one step of the nesting
is one run of the compiler, whether it succeeds or is refused.
-/

namespace CellScript

/-- An error at the next byte has at most that byte in its range. -/
theorem Cursor.error_range (c : Cursor) (cause : Cause) :
    (c.error cause).start = c.skipBlank.pos ∧ (c.error cause).stop ≤ c.skipBlank.pos + 1 :=
  ⟨rfl, Nat.add_le_add_left (Nat.min_le_left 1 _) _⟩

namespace Compiler

section

variable {names : List (List UInt8)} {rs rs' : List Record} {s t u : Compiler} {c d : Cursor}
  {id : Ident} {w : WordToken}

/-! ### Statements -/

theorem Comes.stacks (h : Comes s rs names d t rs') : t.blocks = s.blocks ∧
    t.forward = s.forward ∧ t.loopStarts = s.loopStarts := by
  obtain ⟨code, ht⟩ := h.advanced
  rw [ht]
  exact ⟨rfl, rfl, rfl⟩

/-- A statement has been read up to `d`. These blocks are open behind it, and these names have
values. -/
structure Passes (names : List (List UInt8)) (bs : List Block) (d : Cursor) (t : Compiler) :
    Prop where
  cursor : t.cursor.skipBlank = d.skipBlank
  blocks : t.blocks.items = bs
  named : ∃ rs, t.front.Named rs names

theorem Passes.reach {bs : List Block} (h : Passes names bs c t)
    (hd : c.skipBlank = d.skipBlank) : Passes names bs d t :=
  { h with cursor := h.cursor.trans hd }

theorem Comes.passes (h : Comes s rs names d t rs') : Passes names s.blocks.items d t :=
  ⟨h.cursor, by rw [h.stacks.1], rs', h.named⟩

/-- What is behind a part of a statement does not read on. -/
theorem Comes.passes_of (h : Comes s rs names d t rs') {bs : List Block}
    (hfront : u.front = t.front) (hblocks : u.blocks.items = bs) : Passes names bs d u := by
  have hcursor : u.cursor = t.cursor := congrArg Front.cursor hfront
  exact ⟨by rw [hcursor, h.cursor], hblocks, rs', hfront ▸ h.named⟩

/-! Code and stacks -/

/-- Nothing has been read, and the blocks are the same. -/
structure Rests (s t : Compiler) : Prop where
  front : t.front = s.front
  blocks : t.blocks = s.blocks

theorem Rests.trans (h : Rests s t) (h' : Rests t u) : Rests s u :=
  ⟨h'.front.trans h.front, h'.blocks.trans h.blocks⟩

theorem settles_onCode {α : Type} {act : CodeBuffer.Action α} (hact : CodeBuffer.Settles act) :
    Settles (fun _ => Rests s) (onCode act s) := by
  simp only [onCode]
  split
  · exact ⟨rfl, rfl⟩
  · exact hact _ _ _ ‹_›

theorem settles_emitForward (op : Opcode) :
    Settles (fun _ => Rests s) (onCode (CodeBuffer.emitForward op) s) :=
  settles_onCode (CodeBuffer.settles_emitForward op)

theorem settles_patch (x : Fixup) : Settles (fun _ => Rests s) (onCode (CodeBuffer.patch x) s) :=
  settles_onCode (CodeBuffer.settles_patch x)

theorem settles_pushForward (x : Fixup) : Settles (fun _ => Rests s) (pushForward x s) := by
  simp only [pushForward]
  split
  · exact ⟨rfl, rfl⟩
  · trivial

theorem settles_pushLoopExit (x : Fixup) : Settles (fun _ => Rests s) (pushLoopExit x s) := by
  simp only [pushLoopExit]
  split
  · exact ⟨rfl, rfl⟩
  · trivial

/-- A jump is emitted and put on a stack. -/
theorem settles_jump {op : Opcode} {push : Fixup → Compile Unit}
    (hpush : ∀ x t, Settles (fun _ => Rests t) (push x t)) :
    Settles (fun _ => Rests s) ((onCode (CodeBuffer.emitForward op) >>= push) s) :=
  (settles_emitForward op).bind fun x t _ ht => (hpush x t).mono fun _ _ _ => ht.trans

theorem settles_beginLoop : Settles (fun _ => Rests s) (beginLoop s) := by
  refine .of_ok (Action.get_apply s) (Settles.bind (P := fun _ => Rests s) ?_ fun _ t _ ht => ?_)
  · simp only [pushLoopStart]
    split
    · exact ⟨rfl, rfl⟩
    · trivial
  · simp only [saveExits]
    split
    · exact ⟨ht.front, ht.blocks⟩
    · trivial

theorem settles_patchExits (n : Nat) : Settles (fun _ => Rests s) (patchExits n s) := by
  induction n generalizing s with
  | zero => exact ⟨rfl, rfl⟩
  | succ n ih =>
      rw [patchExits]
      refine .of_ok (Action.get_apply s) ?_
      cases s.loopExits.top? with
      | none => exact ⟨rfl, rfl⟩
      | some x =>
          refine .of_ok (Action.modify_apply _ _) ((settles_patch _).bind fun _ t _ ht => ?_)
          exact ih.mono fun _ u _ hu => ⟨hu.front.trans ht.front, hu.blocks.trans ht.blocks⟩

theorem settles_endLoop (op : Opcode) (h : s.loopStarts.items ≠ []) :
    Settles (fun _ => Rests s) (endLoop op s) := by
  obtain ⟨start, starts, hstarts⟩ := List.exists_cons_of_ne_nil h
  rw [endLoop]
  refine .of_ok (Action.get_apply s) ?_
  simp only [BoundedStack.top?, hstarts, List.head?_cons]
  have hback : CodeBuffer.Settles (CodeBuffer.emitBackward op start) :=
    CodeBuffer.settles_emitBackward op start
  refine .of_ok (Action.modify_apply _ _) ((settles_onCode hback).bind fun _ t _ ht => ?_)
  refine .of_ok (Action.get_apply _) ((settles_patchExits _).bind fun _ u _ hu => ?_)
  exact ⟨hu.front.trans ht.front, hu.blocks.trans ht.blocks⟩

/-- The text, the names and the stacks are the same, but for the open blocks. -/
structure Reopened (s : Compiler) (bs : List Block) (t : Compiler) : Prop where
  front : t.front = s.front
  blocks : t.blocks.items = bs
  forward : t.forward = s.forward
  loopStarts : t.loopStarts = s.loopStarts

variable {block : Block} {blocks : List Block}

theorem settles_pushBlock (k : Construct) (w : WordToken) :
    Settles (fun _ => Reopened s (⟨k, w.start, w.stop⟩ :: s.blocks.items)) (pushBlock k w s) := by
  have hroom : Settles (fun _ _ => True) (pushBlock k w s) := by
    simp only [pushBlock]
    split
    · trivial
    · trivial
  refine hroom.mono fun _ t hok _ => ?_
  obtain rfl := pushBlock_ok hok
  exact ⟨rfl, rfl, rfl, rfl⟩

theorem settles_emitOp (op : Opcode) :
    Settles (fun _ => Reopened s s.blocks.items) (emitOp op s) := by
  refine (reaches_emitOp op).settles.mono fun _ t hok _ => ?_
  obtain rfl := (emit_ok hok).1
  exact ⟨rfl, rfl, rfl, rfl⟩

theorem popBlock_of {k : Construct} {ks : List Construct} (hb : s.blocks.items = block :: blocks)
    (hk : block.construct ∈ k :: ks) :
    ∃ t, popBlock w k ks s = .ok () t ∧ Reopened s blocks t := by
  have hcontains : (k :: ks).contains block.construct = true := by simpa using hk
  simp only [popBlock, bind, EStateM.bind, Action.get_apply, BoundedStack.top?, hb,
    List.head?_cons, hcontains, if_true, Action.modify_apply]
  exact ⟨_, rfl, rfl, by simp [BoundedStack.pop, hb], rfl, rfl⟩

theorem popForward_of (h : s.forward.items ≠ []) :
    ∃ x t, popForward s = .ok x t ∧ Rests s t := by
  obtain ⟨x, xs, hx⟩ := List.exists_cons_of_ne_nil h
  simp only [popForward, bind, EStateM.bind, Action.get_apply, BoundedStack.top?, hx,
    List.head?_cons, Action.modify_apply]
  exact ⟨x, _, rfl, rfl, rfl⟩

/-! Blocks -/

/-- The condition of a block. -/
theorem settles_condition {e : Phrase} (hfront : t.front = s.front) (hn : s.front.Named rs names)
    (hs : e.Stratified) (hspans : Spans e.tokens s.cursor c)
    (hc : (Token.symbol Symbol.semicolon).Stands c d) :
    Settles (fun _ u => ∃ rs', Comes t rs names c u rs') (expression t) := by
  have hcursor : t.cursor = s.cursor := congrArg Front.cursor hfront
  refine settles_expression (hfront ▸ hn) hs ?_ (Cursor.closed_of_symbol hc (by decide))
  rw [hcursor]
  exact hspans

/-- A statement without anything behind its word. -/
theorem passes_of_front (hn : s.front.Named rs names) (hfront : t.front = s.front)
    {bs : List Block} (hblocks : t.blocks.items = bs) : Passes names bs s.cursor t :=
  have hstart : Comes s rs names s.cursor s rs := .emitted hn rfl advance_front.symm
  hstart.passes_of hfront hblocks

theorem settles_ifStatement {e : Phrase} (hn : s.front.Named rs names) (hs : e.Stratified)
    (hspans : Spans e.tokens s.cursor c) (hc : (Token.symbol Symbol.semicolon).Stands c d) :
    Settles (fun _ => Passes names (⟨.ifBlock, w.start, w.stop⟩ :: s.blocks.items) c)
      (ifStatement w s) := by
  rw [ifStatement]
  refine (settles_pushBlock _ w).bind fun _ t₁ _ hopened => ?_
  refine (settles_condition hopened.front hn hs hspans hc).bind ?_
  rintro _ t₂ - ⟨rs', hcomes⟩
  refine (settles_jump fun _ _ => settles_pushForward _).mono fun _ t₃ _ hrests => ?_
  exact hcomes.passes_of hrests.front (by rw [hrests.blocks, hcomes.stacks.1, hopened.blocks])

theorem settles_elseStatement (hn : s.front.Named rs names) (hb : s.blocks.items = block :: blocks)
    (hk : block.construct = .ifBlock) (hf : s.forward.items ≠ []) :
    Settles (fun _ => Passes names (⟨.elseBlock, w.start, w.stop⟩ :: blocks) s.cursor)
      (elseStatement w s) := by
  rw [elseStatement]
  obtain ⟨t₁, hpop, hclosed⟩ := popBlock_of (w := w) hb (List.mem_singleton.2 hk)
  refine .of_ok hpop ((settles_pushBlock _ w).bind fun _ t₂ _ hopened => ?_)
  obtain ⟨x, t₃, hfwd, hrests⟩ := popForward_of (s := t₂) (by
    rw [hopened.forward, hclosed.forward]
    exact hf)
  refine .of_ok hfwd (.of_ok (Action.get_apply _) ?_)
  refine (settles_onCode (CodeBuffer.settles_patchTo x _)).bind fun _ t₄ _ h₄ => ?_
  refine (settles_jump fun _ _ => settles_pushForward _).mono fun _ t₅ _ h₅ => ?_
  replace hrests := hrests.trans (h₄.trans h₅)
  refine passes_of_front hn (hrests.front.trans (hopened.front.trans hclosed.front)) ?_
  rw [hrests.blocks, hopened.blocks, hclosed.blocks]

theorem settles_endifStatement (hn : s.front.Named rs names)
    (hb : s.blocks.items = block :: blocks)
    (hk : block.construct ∈ [Construct.ifBlock, .elseBlock]) (hf : s.forward.items ≠ []) :
    Settles (fun _ => Passes names blocks s.cursor) (endifStatement w s) := by
  rw [endifStatement]
  obtain ⟨t₁, hpop, hclosed⟩ := popBlock_of (w := w) hb hk
  obtain ⟨x, t₂, hfwd, hrests⟩ := popForward_of (s := t₁) (by
    rw [hclosed.forward]
    exact hf)
  refine .of_ok hpop (.of_ok hfwd ((settles_patch _).mono fun _ t₃ _ h₃ => ?_))
  replace hrests := hrests.trans h₃
  refine passes_of_front hn (hrests.front.trans hclosed.front) ?_
  rw [hrests.blocks, hclosed.blocks]

theorem settles_whileStatement {e : Phrase} (hn : s.front.Named rs names) (hs : e.Stratified)
    (hspans : Spans e.tokens s.cursor c) (hc : (Token.symbol Symbol.semicolon).Stands c d) :
    Settles (fun _ => Passes names (⟨.whileLoop, w.start, w.stop⟩ :: s.blocks.items) c)
      (whileStatement w s) := by
  rw [whileStatement]
  refine (settles_pushBlock _ w).bind fun _ t₁ _ hopened => ?_
  refine settles_beginLoop.bind fun _ t₂ _ hbegun => ?_
  refine (settles_condition (hbegun.front.trans hopened.front) hn hs hspans hc).bind ?_
  rintro _ t₃ - ⟨rs', hcomes⟩
  refine (settles_jump fun _ _ => settles_pushLoopExit _).mono fun _ t₄ _ hrests => ?_
  refine hcomes.passes_of hrests.front ?_
  rw [hrests.blocks, hcomes.stacks.1, hbegun.blocks, hopened.blocks]

theorem settles_wendStatement (hn : s.front.Named rs names) (hb : s.blocks.items = block :: blocks)
    (hk : block.construct = .whileLoop) (hl : s.loopStarts.items ≠ []) :
    Settles (fun _ => Passes names blocks s.cursor) (wendStatement w s) := by
  rw [wendStatement]
  obtain ⟨t₁, hpop, hclosed⟩ := popBlock_of (w := w) hb (List.mem_singleton.2 hk)
  refine .of_ok hpop ((settles_endLoop .jump (by rw [hclosed.loopStarts]; exact hl)).mono ?_)
  intro _ t₂ _ hrests
  refine passes_of_front hn (hrests.front.trans hclosed.front) ?_
  rw [hrests.blocks, hclosed.blocks]

theorem settles_repeatStatement (hn : s.front.Named rs names) :
    Settles (fun _ => Passes names (⟨.repeatLoop, w.start, w.stop⟩ :: s.blocks.items) s.cursor)
      (repeatStatement w s) := by
  rw [repeatStatement]
  refine (settles_pushBlock _ w).bind fun _ t₁ _ hopened => ?_
  refine settles_beginLoop.mono fun _ t₂ _ hbegun => ?_
  exact passes_of_front hn (hbegun.front.trans hopened.front)
    (by rw [hbegun.blocks, hopened.blocks])

theorem settles_untilStatement {e : Phrase} (hn : s.front.Named rs names) (hs : e.Stratified)
    (hspans : Spans e.tokens s.cursor c) (hc : (Token.symbol Symbol.semicolon).Stands c d)
    (hb : s.blocks.items = block :: blocks) (hk : block.construct = .repeatLoop)
    (hl : s.loopStarts.items ≠ []) :
    Settles (fun _ => Passes names blocks c) (untilStatement w s) := by
  rw [untilStatement]
  obtain ⟨t₁, hpop, hclosed⟩ := popBlock_of (w := w) hb (List.mem_singleton.2 hk)
  refine .of_ok hpop ((settles_condition hclosed.front hn hs hspans hc).bind ?_)
  rintro _ t₂ - ⟨rs', hcomes⟩
  obtain ⟨hblocks, -, hstarts⟩ := hcomes.stacks
  have hloop : t₂.loopStarts.items ≠ [] := by
    rw [hstarts, hclosed.loopStarts]
    exact hl
  refine (settles_endLoop .jfalse hloop).mono fun _ t₃ _ hrests => ?_
  exact hcomes.passes_of hrests.front (by rw [hrests.blocks, hblocks, hclosed.blocks])

theorem settles_breakStatement (hn : s.front.Named rs names) (hl : s.loopStarts.items ≠ []) :
    Settles (fun _ => Passes names s.blocks.items s.cursor) (breakStatement w s) := by
  rw [breakStatement]
  refine .of_ok (Action.get_apply s) ?_
  simp only [BoundedStack.isEmpty, List.isEmpty_eq_false_iff.2 hl, Bool.false_eq_true, if_false]
  refine (settles_jump fun _ _ => settles_pushLoopExit _).mono fun _ t _ hrests => ?_
  exact passes_of_front hn hrests.front (by rw [hrests.blocks])

/-! Bodies -/

theorem settles_returnStatement {e : Option Phrase} {body : Body} (hn : s.front.Named rs names)
    (hb : s.body = some body) (hk : body.isFunc = e.isSome)
    (hs : Phrase.AllStratified (Clause.giveBack e).phrases)
    (hspans : Spans (Clause.giveBack e).rest s.cursor c)
    (hc : (Token.symbol Symbol.semicolon).Stands c d) :
    Settles (fun _ => Passes names s.blocks.items c) (returnStatement w s) := by
  rw [returnStatement]
  refine .of_ok (Action.get_apply s) ?_
  simp only [hb]
  cases e with
  | none =>
      have hskip : c.skipBlank = s.cursor.skipBlank := hspans
      have hend := Cursor.atStatementEnd_eq (hskip ▸ hc.head? rfl)
      refine .of_ok (read_of hend) ?_
      simp only [hk, Option.isSome_none, Bool.false_eq_true, if_false]
      have hgoto : Comes s rs names c { s with cursor := s.cursor.skipBlank } rs :=
        .goto hn ((Cursor.skipBlank_idem _).trans hskip.symm)
      refine (reaches_emitOp .returnProc).settles.mono fun _ t hok _ => ?_
      obtain rfl := emitOp_ok rfl hok
      exact hgoto.passes_of rfl rfl
  | some e =>
      have hspans : Spans e.tokens s.cursor c := hspans
      obtain ⟨b, hb, hsemi, -⟩ := Phrase.head?_of_spans hspans
      refine .of_ok (read_of (Cursor.atStatementEnd_eq hb)) ?_
      simp only [hk, Option.isSome_some, if_true, beq_eq_false_iff_ne.2 hsemi, Bool.false_eq_true,
        if_false]
      have hgoto : Comes s rs names s.cursor { s with cursor := s.cursor.skipBlank } rs :=
        .goto hn (Cursor.skipBlank_idem _)
      refine (settles_expression hgoto.named hs.1 (Spans.skipBlank_left.2 hspans)
        (Cursor.closed_of_symbol hc (by decide))).bind ?_
      rintro _ t - ⟨rs', hcomes⟩
      refine (reaches_emitOp .returnFunc).settles.mono fun _ u hok _ => ?_
      obtain rfl := emitOp_ok rfl hok
      exact hcomes.passes_of rfl (congrArg BoundedStack.items hcomes.stacks.1)

theorem settles_endStatement {body : Body} (hn : s.front.Named rs names)
    (hb : s.blocks.items = block :: blocks)
    (hk : block.construct ∈ [Construct.funcBody, .procBody]) (hbody : s.body = some body)
    (hf : s.forward.items ≠ []) :
    Settles (fun _ => Passes names blocks s.cursor) (endStatement w s) := by
  rw [endStatement]
  obtain ⟨t₁, hpop, hclosed⟩ := popBlock_of (w := w) hb hk
  refine .of_ok hpop (.of_ok (Action.get_apply t₁) ?_)
  have hbody₁ : t₁.body = some body := (congrArg Front.body hclosed.front).trans hbody
  simp only [hbody₁]
  refine .of_modify fun t₂ h₂ => (settles_emitOp _).bind fun _ t₃ _ hemitted => ?_
  refine .of_modify fun t₄ h₄ => ?_
  have hforward : t₄.forward = s.forward :=
    calc t₄.forward = t₃.forward := by rw [h₄]
      _ = t₂.forward := hemitted.forward
      _ = t₁.forward := by rw [h₂]
      _ = s.forward := hclosed.forward
  have hblocks : t₄.blocks.items = blocks :=
    calc t₄.blocks.items = t₃.blocks.items := by rw [h₄]
      _ = t₂.blocks.items := hemitted.blocks
      _ = t₁.blocks.items := by rw [h₂]
      _ = blocks := hclosed.blocks
  have hfront : t₄.front = s.front.closeBody body := by
    have h₃ : t₃.front = { s.front with body := none } := by
      rw [hemitted.front, h₂, ← hclosed.front]
      rfl
    have h₄ : t₄.front = t₃.front.withHeap
        (body.locals.foldl (fun h id => h.setIdentSlot id Ident.noSlot) t₃.front.store.heap) := by
      rw [h₄]
      rfl
    rw [h₄, h₃]
    rfl
  obtain ⟨x, t₅, hfwd, hrests⟩ := popForward_of (by
    rw [hforward]
    exact hf)
  refine .of_ok hfwd ((settles_patch _).mono fun _ t₆ _ h₆ => ?_)
  replace hrests := hrests.trans h₆
  obtain ⟨-, hnamed⟩ := hn.closeBody hbody
  refine ⟨?_, by rw [hrests.blocks, hblocks], rs, ?_⟩
  · have hcursor : t₆.cursor = s.cursor := congrArg Front.cursor (hrests.front.trans hfront)
    rw [hcursor]
  · rw [hrests.front, hfront]
    exact hnamed

/-- What is left of the first statement of a body once its name has a record. -/
theorem settles_header {isFunc : Bool} {entry : UInt16} {params : List Clause.Name}
    {name : List UInt8} (hn : s.front.Named rs names) (hid : HasIdent rs id)
    (hname : s.front.store.heap.identName id = name)
    (hspans : Spans (.openParen :: Clause.parameterTokens params) s.cursor c)
    (hfree : ∀ y ∈ params, y.bytes ∉ name :: names)
    (hdistinct : (params.map Clause.Name.bytes).Nodup) :
    Settles (fun _ => Passes (name :: names) s.blocks.items c)
      ((do
        modifyHeap fun h =>
          (h.setIdentValue id (if isFunc then .func entry else .proc entry)).setIdentSlot id 0
        modify fun s => { s with body := some { id, isFunc, locals := [] } }
        parameterList
        let count := ((← get).body.map fun b => b.locals.length).getD 0
        modifyHeap fun h => h.setIdentArguments id (UInt8.ofNat count) : Compile Unit) s) := by
  refine .of_modify fun t₁ h₁ => .of_modify fun t₂ h₂ => ?_
  have hfront : t₂.front = s.front.openBody id isFunc entry := by
    rw [h₂, h₁]
    rfl
  have hbody : t₂.body = some ⟨id, isFunc, []⟩ := by rw [h₂]
  obtain ⟨-, hnamed⟩ := hn.openBody hid isFunc entry
  rw [← hfront, hname] at hnamed
  have hspans : Spans (.openParen :: Clause.parameterTokens params) t₂.cursor c := by
    rw [h₂, h₁]
    exact hspans
  refine (settles_parameterList hnamed hbody hspans hfree hdistinct).bind ?_
  rintro _ t₃ hok ⟨rs', hcomes⟩
  -- The parameters belong to the body that has just been opened.
  obtain ⟨g, hparams, rfl⟩ := parameterList_ok hok
  obtain ⟨head, hhead, hheadId, -⟩ := (Grammar.steady_sameBody.parameterList hparams).some hbody
  have hhead : (t₂.advance g []).body = some head := hhead
  obtain ⟨-, hnamed⟩ := hcomes.named.countParameters hhead
  refine .of_ok (Action.get_apply _) ?_
  rw [hhead, Option.map_some, Option.getD_some, ← show head.id = id from hheadId]
  refine ⟨hcomes.cursor, ?_, rs', hnamed⟩
  show t₂.blocks.items = s.blocks.items
  rw [h₂, h₁]

theorem settles_bodyStatement {isFunc : Bool} {x : Clause.Name} {params : List Clause.Name}
    (hn : s.front.Named rs names) (hblocks : s.blocks.items = []) (hbody : s.body = none)
    (hspans : Spans (Clause.openBody isFunc x params).rest s.cursor c)
    (hnew : x.bytes ∉ names) (hfree : ∀ y ∈ params, y.bytes ∉ x.bytes :: names)
    (hdistinct : (params.map Clause.Name.bytes).Nodup) :
    Settles (fun _ => Passes (x.bytes :: names) [⟨.ofBody isFunc, w.start, w.stop⟩] c)
      (bodyStatement isFunc w s) := by
  obtain ⟨c₁, hx, hspans⟩ := hspans
  rw [bodyStatement]
  refine .of_ok (Action.get_apply s) ?_
  simp only [BoundedStack.isEmpty, hblocks, hbody, List.isEmpty_nil, Bool.not_true,
    Option.isSome_none, Bool.or_self, Bool.false_eq_true, if_false]
  refine (settles_pushBlock _ w).bind fun _ t₁ _ hopened => ?_
  refine (settles_emitForward _).bind fun _ t₂ _ h₂ => ?_
  refine (settles_pushForward _).bind fun _ t₃ _ h₃ => ?_
  have hfront₃ : t₃.front = s.front := (h₃.front.trans h₂.front).trans hopened.front
  have hblocks₃ : t₃.blocks.items = [⟨.ofBody isFunc, w.start, w.stop⟩] := by
    rw [h₃.blocks, h₂.blocks, hopened.blocks, hblocks]
    rfl
  have hx₃ : (Token.word x.bytes).Stands t₃.cursor c₁ := by
    rw [show t₃.cursor = s.cursor from congrArg Front.cursor hfront₃]
    exact hx
  have hgoto : Comes t₃ rs names c₁ { t₃ with cursor := c₁ } rs := .goto (hfront₃ ▸ hn) rfl
  refine .of_ok (name_of _ hx₃) ((settles_intern hgoto.named x.bytes).bind ?_)
  rintro id t₄ - ⟨hcursor₄, hname, rs₁, hcomes₄, hid⟩
  have hunset : t₄.store.heap.identValue id = .unset :=
    hcomes₄.named.unset hid (by rw [show t₄.front.store = t₄.store from rfl, hname]; exact hnew)
  refine .of_ok (valueOf_eq_ok.2 ⟨rfl, rfl⟩) ?_
  simp only [hunset, ne_eq, not_true_eq_false, if_false]
  refine .of_ok (Action.get_apply t₄) ?_
  by_cases hpos : t₄.code.pos > 65535
  · simp only [if_pos hpos]
    trivial
  simp only [if_neg hpos]
  refine (settles_header hcomes₄.named hid hname (by rw [hcursor₄]; exact hspans) hfree
    hdistinct).mono fun _ u _ hpasses => ?_
  rw [hcomes₄.stacks.1, hblocks₃] at hpasses
  exact hpasses

/-! Commands -/

theorem settles_printStatement {args : List Phrase} (hn : s.front.Named rs names)
    (hs : Phrase.AllStratified args) (hcount : args.length ≤ 255)
    (hspans : Spans (Phrase.listTokens args) s.cursor c)
    (hc : (Token.symbol Symbol.semicolon).Stands c d) :
    Settles (fun _ => Passes names s.blocks.items c) (printStatement w s) := by
  rw [printStatement]
  refine (settles_arguments hn hs hspans hc).bind ?_
  rintro n t - ⟨rfl, rs', hcomes⟩
  refine .of_ok (argumentCount_eq_ok.2 ⟨hcount, rfl, rfl⟩) ?_
  refine (reaches_emitOpByte .print _).settles.mono fun _ u hok _ => ?_
  obtain rfl := emitOpByte_ok rfl hok
  exact hcomes.passes_of rfl (congrArg BoundedStack.items hcomes.stacks.1)

/-- The statement that the word opens has been entered in the source map. -/
def noted (s : Compiler) (w : WordToken) : Compiler :=
  { s with sourceMap := s.sourceMap.push s.code.pos (s.source.span w.start w.stop) }

theorem statementAt_of_control {op : Opcode}
    (h : Keyword.lookup? w.bytes = some ⟨op, .control⟩) :
    statementAt w s = controlStatement op w (s.noted w) := by
  simp only [statementAt, bind, EStateM.bind, Action.modify_apply, h]
  rfl

theorem settles_assignment {x : Clause.Name} {e : Phrase} (hw : w.bytes = x.bytes)
    (hn : s.front.Named rs names) (hfree : x.bytes ∉ names) (hs : e.Stratified)
    (hspans : Spans (.symbol Symbol.equals :: e.tokens) s.cursor c)
    (hc : (Token.symbol Symbol.semicolon).Stands c d) :
    Settles (fun _ => Passes names s.blocks.items c) (statementAt w s) := by
  obtain ⟨c₁, hequals, hspans⟩ := hspans
  refine .of_ok (Action.modify_apply _ s) ?_
  simp only [hw, x.free]
  have hn : (s.noted w).front.Named rs names := hn
  refine (settles_intern hn x.bytes).bind ?_
  rintro id t₁ - ⟨hcursor, hname, rs₁, hcomes₁, hid⟩
  obtain ⟨hmark, hcomes₂⟩ := hcomes₁.mark hequals
  refine .of_ok hmark ((settles_expression hcomes₂.named hs hspans
    (Cursor.closed_of_symbol hc (by decide))).bind ?_)
  rintro _ t₃ - ⟨rs₃, hcomes₃⟩
  have hsame : t₃.store.heap.identName id = x.bytes :=
    (hcomes₃.kept.identName hcomes₂.named.sound hid).trans hname
  refine (settles_assign hcomes₃.named (hid.mono hcomes₃.kept.records)
    (hsame ▸ hfree)).mono fun _ u _ hcomes₄ => ?_
  exact (hcomes₂.trans (hcomes₃.trans (hcomes₄.reach hcomes₃.cursor))).passes

theorem settles_call {x : Clause.Name} {args : List Phrase} (hw : w.bytes = x.bytes)
    (hn : s.front.Named rs names) (hs : Phrase.AllStratified args) (hcount : args.length ≤ 255)
    (hspans : Spans (Phrase.listTokens args) s.cursor c)
    (hc : (Token.symbol Symbol.semicolon).Stands c d) :
    Settles (fun _ => Passes names s.blocks.items c) (statementAt w s) := by
  refine .of_ok (Action.modify_apply _ s) ?_
  simp only [hw, x.free]
  have hn : (s.noted w).front.Named rs names := hn
  refine (settles_intern hn x.bytes).bind ?_
  rintro id t₁ - ⟨hcursor, hname, rs₁, hcomes₁, hid⟩
  have hequals : t₁.cursor.skipBlank.rest.head? ≠ some Symbol.equals := by
    rw [hcursor]
    exact Phrase.head?_ne_equals hspans hc
  have hcomes₂ : Comes (s.noted w) rs names s.cursor
      { t₁ with cursor := t₁.cursor.skipBlank } rs₁ :=
    hcomes₁.trans (.goto hcomes₁.named (by rw [Cursor.skipBlank_idem, hcursor]; rfl))
  have hskip : t₁.cursor.skipBlank = s.cursor.skipBlank := by rw [hcursor]; rfl
  have hspans₂ : Spans (Phrase.listTokens args) t₁.cursor.skipBlank c := by
    rw [hskip]
    exact Spans.skipBlank_left.2 hspans
  refine .of_ok (symbol_of_head? hequals) ((settles_arguments hcomes₂.named hs hspans₂ hc).bind ?_)
  rintro n t₃ - ⟨rfl, rs₃, hcomes₃⟩
  refine .of_ok (argumentCount_eq_ok.2 ⟨hcount, rfl, rfl⟩) ?_
  refine (reaches_emitCall .callProc _ _).settles.mono fun _ u hok _ => ?_
  obtain rfl := emitCall_ok rfl hok
  have hcomes := hcomes₂.trans hcomes₃
  exact hcomes.passes_of rfl (congrArg BoundedStack.items hcomes.stacks.1)

/-! ### Statements that fit -/

/-- The stacks of the compiler agree with the blocks that are open. -/
structure Placed (s : Compiler) : Prop where
  loops : s.loopStarts.items = [] ↔ (Nesting.setting s.blocks.items).inLoop = false
  body : s.body.map Body.isFunc = (Nesting.setting s.blocks.items).body
  /-- A jump waits for the end of a block that is no loop. -/
  forward : ∀ b bs, s.blocks.items = b :: bs →
    b.construct ∈ [Construct.ifBlock, .elseBlock] ++ [.funcBody, .procBody] → s.forward.items ≠ []

theorem Placed.loopStarts_ne (h : Placed s)
    (hl : (Nesting.setting s.blocks.items).inLoop = true) : s.loopStarts.items ≠ [] := by
  intro hnil
  rw [h.loops.1 hnil] at hl
  cases hl

theorem Placed.body_eq (h : Placed s) {isFunc : Bool}
    (hb : (Nesting.setting s.blocks.items).body = some isFunc) :
    ∃ body, s.body = some body ∧ body.isFunc = isFunc := by
  rw [← h.body] at hb
  exact Option.map_eq_some_iff.1 hb

variable {bs : List Block} {finish : Nat}

/-- A statement that neither opens nor closes a block is read where it stands. -/
theorem settles_command {x : Clause} (hn : s.front.Named rs names) (hwf : x.WellFormed names)
    (hw : w.bytes = x.word) (hspans : Spans x.rest s.cursor c)
    (hc : (Token.symbol Symbol.semicolon).Stands c d) (hplain : x.control = .plain) :
    Settles (fun _ => Passes (x.defines ++ names) s.blocks.items c) (statementAt w s) := by
  have hlookup : Keyword.lookup? w.bytes = x.keyword? := by rw [hw, x.lookup?_word]
  have hn' : (s.noted w).front.Named rs names := hn
  cases x with
  | assign x e =>
      exact settles_assignment hw hn (hwf.unused _ List.mem_cons_self) hwf.stratified.1 hspans hc
  | perform x args => exact settles_call hw hn hwf.stratified hwf.counted hspans hc
  | print args =>
      refine .of_ok (Action.modify_apply _ s) ?_
      simp only [hlookup, Clause.keyword?]
      exact settles_printStatement hn' hwf.stratified hwf.counted hspans hc
  | input x xs =>
      refine .of_ok (Action.modify_apply _ s) ?_
      simp only [hlookup, Clause.keyword?]
      refine .of_ok (Action.get_apply _) ?_
      have hfuel : xs.length < s.cursor.rest.length + 1 := by
        have hlength := hspans.length_le (Clause.visible_nameTokens x xs)
        rw [show (Clause.input x xs).rest = Clause.nameTokens x xs from rfl,
          Clause.length_nameTokens] at hlength
        omega
      have hfree : ∀ y ∈ x :: xs, y.bytes ∉ names := fun y hy =>
        hwf.unused _ (List.mem_map_of_mem hy)
      refine (settles_inputs hn' hspans hc hfree hfuel).mono ?_
      rintro _ t - ⟨rs', hcomes⟩
      exact hcomes.passes
  | halt =>
      refine .of_ok (Action.modify_apply _ s) ?_
      simp only [hlookup, Clause.keyword?]
      refine (settles_emitOp .stop).mono fun _ t _ hemitted => ?_
      have hskip : c.skipBlank = s.cursor.skipBlank := hspans
      exact (passes_of_front hn' hemitted.front hemitted.blocks).reach hskip.symm
  | _ => cases hplain

/-- A statement that opens or closes a block is read where it may stand, and so is one that leaves
a loop or a body. -/
theorem settles_control {x : Clause} (hp : Placed s) (hn : s.front.Named rs names)
    (hwf : x.WellFormed names) (hw : w.bytes = x.word) (hspans : Spans x.rest s.cursor c)
    (hc : (Token.symbol Symbol.semicolon).Stands c d) (hplain : x.control ≠ .plain)
    (hstep : Nesting.step s.blocks.items ⟨x.control, w.start, w.stop, finish⟩ = some bs) :
    Settles (fun _ => Passes (x.defines ++ names) bs c) (statementAt w s) := by
  have hlookup : Keyword.lookup? w.bytes = x.keyword? := by rw [hw, x.lookup?_word]
  have hn' : (s.noted w).front.Named rs names := hn
  -- `hfits` is what the statement asks of its setting, `hclose` what it takes off the blocks.
  obtain ⟨hfits, bs₁, hclose, rfl⟩ := Nesting.step_eq_some.1 hstep
  cases x with
  | openIf e =>
      cases hclose
      rw [statementAt_of_control hlookup]
      exact settles_ifStatement hn' hwf.stratified.1 hspans hc
  | openElse =>
      obtain ⟨b, hb, hk⟩ := Nesting.close_eq_some hclose
      have hk : b.construct = .ifBlock := List.mem_singleton.1 hk
      -- The block that is closed has left a jump on the stack of forward jumps.
      have hf := hp.forward b bs₁ hb (by rw [hk]; exact List.mem_cons_self)
      have hskip : c.skipBlank = s.cursor.skipBlank := hspans
      rw [statementAt_of_control hlookup]
      exact (settles_elseStatement hn' hb hk hf).mono fun _ _ _ hpasses => hpasses.reach hskip.symm
  | closeIf =>
      obtain ⟨b, hb, hk⟩ := Nesting.close_eq_some hclose
      have hf := hp.forward b bs₁ hb (List.mem_append_left _ hk)
      have hskip : c.skipBlank = s.cursor.skipBlank := hspans
      rw [statementAt_of_control hlookup]
      exact (settles_endifStatement hn' hb hk hf).mono fun _ _ _ hpasses =>
        hpasses.reach hskip.symm
  | openWhile e =>
      cases hclose
      rw [statementAt_of_control hlookup]
      exact settles_whileStatement hn' hwf.stratified.1 hspans hc
  | closeWhile =>
      obtain ⟨b, hb, hk⟩ := Nesting.close_eq_some hclose
      have hk : b.construct = .whileLoop := List.mem_singleton.1 hk
      have hl := hp.loopStarts_ne (by rw [hb, Nesting.setting, hk]; rfl)
      have hskip : c.skipBlank = s.cursor.skipBlank := hspans
      rw [statementAt_of_control hlookup]
      exact (settles_wendStatement hn' hb hk hl).mono fun _ _ _ hpasses => hpasses.reach hskip.symm
  | openRepeat =>
      cases hclose
      have hskip : c.skipBlank = s.cursor.skipBlank := hspans
      rw [statementAt_of_control hlookup]
      exact (settles_repeatStatement hn').mono fun _ _ _ hpasses => hpasses.reach hskip.symm
  | closeRepeat e =>
      obtain ⟨b, hb, hk⟩ := Nesting.close_eq_some hclose
      have hk : b.construct = .repeatLoop := List.mem_singleton.1 hk
      have hl := hp.loopStarts_ne (by rw [hb, Nesting.setting, hk]; rfl)
      rw [statementAt_of_control hlookup]
      exact settles_untilStatement hn' hwf.stratified.1 hspans hc hb hk hl
  | openBody isFunc x params =>
      cases hclose
      have hb : s.blocks.items = [] := Nesting.atTop_setting hfits
      have hbody : s.body = none := by
        have := hp.body
        rw [hb] at this
        exact Option.map_eq_none_iff.1 this
      rw [statementAt_of_control hlookup, hb]
      cases isFunc
      all_goals
        exact settles_bodyStatement hn' hb hbody hspans (hwf.new _ List.mem_cons_self)
          (fun y hy => hwf.unused _ (List.mem_map_of_mem hy)) hwf.distinct
  | closeBody =>
      obtain ⟨b, hb, hk⟩ := Nesting.close_eq_some hclose
      have hf := hp.forward b bs₁ hb (List.mem_append_right _ hk)
      obtain ⟨isFunc, hset⟩ : ∃ isFunc, (Nesting.setting s.blocks.items).body = some isFunc := by
        rw [hb, Nesting.setting]
        obtain hk | hk := List.mem_cons.1 hk
        · exact ⟨true, by rw [hk]; rfl⟩
        · exact ⟨false, by rw [List.mem_singleton.1 hk]; rfl⟩
      obtain ⟨body, hbody, -⟩ := hp.body_eq hset
      have hskip : c.skipBlank = s.cursor.skipBlank := hspans
      rw [statementAt_of_control hlookup]
      exact (settles_endStatement hn' hb hk hbody hf).mono fun _ _ _ hpasses =>
        hpasses.reach hskip.symm
  | exitLoop =>
      cases hclose
      have hskip : c.skipBlank = s.cursor.skipBlank := hspans
      rw [statementAt_of_control hlookup]
      exact (settles_breakStatement hn' (hp.loopStarts_ne hfits)).mono fun _ _ _ hpasses =>
        hpasses.reach hskip.symm
  | giveBack e =>
      cases hclose
      obtain ⟨body, hbody, hk⟩ := hp.body_eq (beq_iff_eq.1 hfits)
      rw [statementAt_of_control hlookup]
      exact settles_returnStatement hn' hbody hk hwf.stratified hspans hc
  | _ => exact absurd rfl hplain

/-- A well-formed statement that may stand in the open blocks is read up to its semicolon. -/
theorem settles_statementAt {x : Clause} (hp : Placed s) (hn : s.front.Named rs names)
    (hwf : x.WellFormed names) (hw : w.bytes = x.word) (hspans : Spans x.rest s.cursor c)
    (hc : (Token.symbol Symbol.semicolon).Stands c d)
    (hstep : Nesting.step s.blocks.items ⟨x.control, w.start, w.stop, finish⟩ = some bs) :
    Settles (fun _ => Passes (x.defines ++ names) bs c) (statementAt w s) := by
  by_cases hplain : x.control = .plain
  · rw [hplain] at hstep
    obtain rfl := Option.some.inj ((Nesting.step_single rfl rfl rfl).symm.trans hstep)
    exact settles_command hn hwf hw hspans hc hplain
  · exact settles_control hp hn hwf hw hspans hc hplain hstep

/-! ### Statements that do not fit -/

/-- A run fails with an error about nesting, in a range of the text. -/
def Refuses {α : Type} (start stop : Nat) (r : EStateM.Result CompileError Compiler α) : Prop :=
  ∃ e t, r = .error e t ∧ e.cause.number ∈ [301, 306, 307, 308] ∧ start ≤ e.start ∧ e.stop ≤ stop

section

variable {α β : Type} {x : Compile α} {f : α → Compile β} {start stop : Nat}

theorem Refuses.bind (h : Refuses start stop (x s)) : Refuses start stop ((x >>= f) s) := by
  obtain ⟨e, t, hx, he⟩ := h
  exact ⟨e, t, by simp only [Bind.bind, EStateM.bind, hx], he⟩

theorem Refuses.of_ok {a : α} (hx : x s = .ok a t) (hf : Refuses start stop (f a t)) :
    Refuses start stop ((x >>= f) s) := by
  obtain ⟨e, u, hu, he⟩ := hf
  exact ⟨e, u, by simpa only [Bind.bind, EStateM.bind, hx] using hu, he⟩

theorem refuses_failAt {cause : Cause} (hcause : cause.number ∈ [301, 306, 307, 308])
    (hw : w.stop ≤ stop) : Refuses w.start stop ((failAt w cause : Compile α) s) :=
  ⟨w.error cause, s, rfl, hcause, Nat.le_refl _, hw⟩

end

theorem refuses_popBlock {k : Construct} {ks : List Construct} {stop : Nat}
    (h : Nesting.close (k :: ks) s.blocks.items = none) (hw : w.stop ≤ stop) :
    Refuses w.start stop (popBlock w k ks s) := by
  refine .of_ok (Action.get_apply s) ?_
  cases hb : s.blocks.items with
  | nil =>
      simp only [BoundedStack.top?, hb, List.head?_nil]
      exact refuses_failAt (by simp [Cause.number]) hw
  | cons b bs =>
      rw [hb, Nesting.close] at h
      split at h
      · cases h
      · rename_i hk
        have hcontains : (k :: ks).contains b.construct = false := by simpa using hk
        simp only [BoundedStack.top?, hb, List.head?_cons, hcontains, Bool.false_eq_true, if_false]
        exact refuses_failAt (by simp [Cause.number]) hw

theorem refuses_returnStatement {e : Option Phrase} (hk : s.body.map Body.isFunc ≠ some e.isSome)
    (hspans : Spans (Clause.giveBack e).rest s.cursor c)
    (hc : (Token.symbol Symbol.semicolon).Stands c d) (hstop : w.stop ≤ s.cursor.pos) :
    Refuses w.start c.skipBlank.pos (returnStatement w s) := by
  have hpos := hspans.pos_le (Clause.giveBack e).visible_rest
  obtain ⟨blanks, -, -, hblanks, -⟩ := s.cursor.skipBlank_split
  have hw : w.stop ≤ c.skipBlank.pos := by omega
  refine .of_ok (Action.get_apply s) ?_
  cases hb : s.body with
  | none => exact refuses_failAt (by simp [Cause.number]) hw
  | some body =>
      rw [hb, Option.map_some, ne_eq, Option.some.injEq] at hk
      cases e with
      | none =>
          have hskip : c.skipBlank = s.cursor.skipBlank := hspans
          have hfunc : body.isFunc = true := by simpa using hk
          refine .of_ok (read_of (Cursor.atStatementEnd_eq (hskip ▸ hc.head? rfl))) ?_
          simp only [hfunc, if_true]
          exact (refuses_failAt (by simp [Cause.number]) hw).bind
      | some e =>
          have hspans : Spans e.tokens s.cursor c := hspans
          obtain ⟨b, hb, hsemi, -⟩ := Phrase.head?_of_spans hspans
          have hproc : body.isFunc = false := by simpa using hk
          refine .of_ok (read_of (Cursor.atStatementEnd_eq hb)) ?_
          simp only [hproc, Bool.false_eq_true, if_false, beq_eq_false_iff_ne.2 hsemi]
          -- The error is at the first byte of the value.
          obtain ⟨t, ts, htokens, -⟩ := e.tokens_eq_cons
          have hlength : 1 ≤ e.tokens.length := by simp [htokens]
          have hpos : s.cursor.skipBlank.pos + e.tokens.length ≤ c.skipBlank.pos := hpos
          have herror := s.cursor.skipBlank.error_range .returnWithValue
          rw [Cursor.skipBlank_idem] at herror
          have hword : w.start ≤ w.stop := Nat.le_add_right _ _
          have hfrom : w.start ≤ (s.cursor.skipBlank.error .returnWithValue).start := by omega
          have hto : (s.cursor.skipBlank.error .returnWithValue).stop ≤ c.skipBlank.pos := by omega
          exact Refuses.bind ⟨_, _, rfl, by simp [Cursor.error, Cause.number], hfrom, hto⟩

/-- A statement that may not stand in the open blocks is refused where it stands. -/
theorem refuses_statementAt {x : Clause} (hp : Placed s) (hw : w.bytes = x.word)
    (hspans : Spans x.rest s.cursor c) (hc : (Token.symbol Symbol.semicolon).Stands c d)
    (hstop : w.stop ≤ s.cursor.pos)
    (hstep : Nesting.step s.blocks.items ⟨x.control, w.start, w.stop, finish⟩ = none) :
    Refuses w.start c.skipBlank.pos (statementAt w s) := by
  have hlookup : Keyword.lookup? w.bytes = x.keyword? := by rw [hw, x.lookup?_word]
  have hpos := hspans.pos_le x.visible_rest
  obtain ⟨blanks, -, -, hblanks, -⟩ := s.cursor.skipBlank_split
  have hw' : w.stop ≤ c.skipBlank.pos := by omega
  -- Either the setting is wrong or there is no block to close, and each statement can fail in
  -- one of the two ways only.
  rw [Nesting.step_eq_none] at hstep
  cases x with
  | openElse | closeIf | closeWhile | closeRepeat e | closeBody =>
      obtain hfits | hclose := hstep
      · cases hfits
      · rw [statementAt_of_control hlookup]
        exact (refuses_popBlock (s := s.noted w) hclose hw').bind
  | openBody isFunc x params =>
      obtain hfits | hclose := hstep
      · have hopen : s.blocks.items.isEmpty = false := by
          cases hb : s.blocks.items with
          | nil =>
              rw [hb] at hfits
              cases hfits
          | cons b bs => rfl
        rw [statementAt_of_control hlookup]
        cases isFunc
        all_goals
          refine .of_ok (Action.get_apply _) ?_
          simp only [noted, BoundedStack.isEmpty, hopen, Bool.not_false, Bool.true_or, if_true]
          exact (refuses_failAt (by simp [Cause.number]) hw').bind
      · cases hclose
  | exitLoop =>
      obtain hfits | hclose := hstep
      · have hnone : s.loopStarts.items = [] := hp.loops.2 hfits
        rw [statementAt_of_control hlookup]
        refine .of_ok (Action.get_apply _) ?_
        simp only [noted, BoundedStack.isEmpty, hnone, List.isEmpty_nil, if_true]
        exact (refuses_failAt (by simp [Cause.number]) hw').bind
      · cases hclose
  | giveBack e =>
      obtain hfits | hclose := hstep
      · rw [statementAt_of_control hlookup]
        refine refuses_returnStatement (s := s.noted w) ?_ hspans hc hstop
        have hne : (Nesting.setting s.blocks.items).body ≠ some e.isSome :=
          beq_eq_false_iff_ne.1 hfits
        rwa [← hp.body] at hne
      · cases hclose
  | _ =>
      obtain hfits | hclose := hstep
      · cases hfits
      · cases hclose

end

end Compiler

end CellScript
