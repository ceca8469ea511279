import CellScript.Proofs.Balance
import CellScript.Proofs.Sanity

/-!
The stacks of the compiler describe the open blocks.

The compiler keeps what it has to remember about open blocks on several stacks, and
two counters beside them. Each statement updates some of these. Between two statements
they fit together again: every open block has its jump or the start of its loop where
it belongs, every exit is counted once, and no operator waits (`Described`). So the
code that the compiler has for stacks that do not fit is never run.

Where such code ends in an error with a cause of its own, no text is refused for that
cause. Where it does not, any other code in its place would do as well (`endLoopOr`,
`endStatementOr`).
-/

namespace CellScript

namespace Construct

def jump? : Construct → Option Opcode
  | ifBlock => some .jfalse
  | elseBlock | funcBody | procBody => some .jump
  | whileLoop | repeatLoop => none

/-- What a body is the body of. -/
def isFunc? : Construct → Option Bool
  | funcBody => some true
  | procBody => some false
  | ifBlock | elseBlock | whileLoop | repeatLoop => none

end Construct

namespace Compiler

open Grammar

/-- Beside the open blocks, the innermost first, lie the jumps around those that are no loops,
and the addresses at which the loops begin. Each stands behind what the blocks around it have
there, and before `bound`. The operand of a jump is still zero. -/
inductive Beside (code : List UInt8) : List Construct → List Fixup → List Nat → Nat → Prop
  | nil {bound : Nat} : Beside code [] [] [] bound
  | jump {k : Construct} {ks : List Construct} {op : Opcode} {xs : List Fixup} {starts : List Nat}
      {a bound : Nat} :
      k.jump? = some op → code[a]? = some op.toByte → code[a + 1]? = some 0 →
      code[a + 2]? = some 0 → a + 3 ≤ bound → Beside code ks xs starts a →
      Beside code (k :: ks) (⟨a + 1⟩ :: xs) starts bound
  | loop {k : Construct} {ks : List Construct} {xs : List Fixup} {starts : List Nat}
      {a bound : Nat} :
      k.jump? = none → a ≤ bound → Beside code ks xs starts a →
      Beside code (k :: ks) xs (a :: starts) bound

/-- The stacks describe the open blocks. -/
structure Described (s : Compiler) : Prop where
  beside : Beside s.code.code.toList (s.blocks.items.map Block.construct) s.forward.items
    s.loopStarts.items s.code.pos
  savedExits : s.savedExits.size = s.loopStarts.size
  loopExits : s.loopExits.size = s.exitCount + s.savedExits.items.sum
  /-- Outside of all loops there was no exit. -/
  outermost : ∀ n, s.savedExits.items.getLast? = some n → n = 0
  openFixups : s.code.openFixups = s.forward.size + s.loopExits.size
  /-- A body is compiled if the outermost block is one. -/
  body : s.body.map Body.isFunc = s.blocks.items.getLast?.bind fun b => b.construct.isFunc?
  /-- The other blocks are no bodies. -/
  inner : ∀ b ∈ s.blocks.items.dropLast, b.construct.isFunc? = none
  pending : s.pending.items = []

/-- The states between two statements of a text. -/
inductive Between (source : Source) (limits : Limits) : Compiler → Prop
  | start : Between source limits (start source limits)
  | next {s s₁ s₂ : Compiler} {w : WordToken} :
      Between source limits s → Turn s w s₁ s₂ → Between source limits s₂

/-! ### Jumps and loops -/

namespace Beside

variable {code : List UInt8} {ks : List Construct} {xs : List Fixup} {starts : List Nat}
  {bound bound' : Nat}

theorem mono (h : Beside code ks xs starts bound) (hb : bound ≤ bound') :
    Beside code ks xs starts bound' := by
  cases h with
  | nil => exact .nil
  | jump hk h₀ h₁ h₂ ha h => exact .jump hk h₀ h₁ h₂ (Nat.le_trans ha hb) h
  | loop hk ha h => exact .loop hk (Nat.le_trans ha hb) h

theorem length_jumps (h : Beside code ks xs starts bound) :
    xs.length = ks.countP fun k => k.jump?.isSome := by
  induction h with
  | nil => rfl
  | jump hk _ _ _ _ _ ih => simp [hk, ih]
  | loop hk _ _ ih => simp [hk, ih]

theorem length_starts (h : Beside code ks xs starts bound) :
    starts.length = ks.countP fun k => k.jump?.isNone := by
  induction h with
  | nil => rfl
  | jump hk _ _ _ _ _ ih => simp [hk, ih]
  | loop hk _ _ ih => simp [hk, ih]

end Beside

/-- A jump whose target is not known yet, as it stands in the code. -/
theorem getElem?_jump {c : Code} {op : Opcode} {a : Nat} {bytes : List UInt8}
    (hop : op.shape = .word) (h : (c ++ [Instr.jump op a none]).bytes <+: bytes) :
    bytes[c.size]? = some op.toByte ∧ bytes[c.size + 1]? = some 0 ∧
      bytes[c.size + 2]? = some 0 := by
  obtain ⟨rest, rfl⟩ := h
  have hjump : (Instr.jump op a none).bytes = [op.toByte, 0, 0] := Instr.bytes_withWord hop 0
  rw [Code.bytes_append, ← Code.length_bytes, List.append_assoc]
  simp [hjump]

/-- The stacks of an outline lie beside its open blocks. -/
theorem beside_outline {bytes : List UInt8} {fs : List Frame} {cur : Stmt}
    (h : (Outline.code fs cur).bytes <+: bytes) :
    Beside bytes (fs.map Frame.construct) (Outline.forward fs) (Outline.loopStarts fs)
      (Outline.size fs cur) := by
  induction fs generalizing cur with
  | nil => exact .nil
  | cons f fs ih =>
      simp only [Outline.code, Code.bytes_append] at h
      have hlead := (List.prefix_append _ _).trans h
      have hbefore := ih ((List.prefix_append _ _).trans hlead)
      rw [← Code.bytes_append] at hlead
      -- The jump that opened the block is the last instruction of the code in front of it.
      have hopen {c : Code} {a : Nat} (op : Opcode) (hop : op.shape = .word)
          (hc : f.lead (Outline.size fs f.before) = c ++ [Instr.jump op a none]) := by
        rw [hc, ← List.append_assoc] at hlead
        exact getElem?_jump hop hlead
      simp only [Code.size_append, Outline.size_code] at hopen
      have hsize : Outline.size fs f.before ≤ Outline.size (f :: fs) cur := by
        simp only [Outline.size]
        omega
      cases f with
      | ifThen b c =>
          obtain ⟨h₀, h₁, h₂⟩ := hopen .jfalse rfl rfl
          refine .jump rfl h₀ h₁ h₂ ?_ (hbefore.mono (Nat.le_add_right _ _))
          simp only [Outline.size, Frame.before, Frame.leadSize]
          omega
      | ifElse b c s =>
          obtain ⟨h₀, h₁, h₂⟩ := hopen (a := Outline.size fs b + c.code.size + 3 + s.size)
            (c := c.code ++ .jump .jfalse (Outline.size fs b + c.code.size)
              (some (Outline.size fs b + c.code.size + 3 + s.size + 3)) ::
                s.code none (Outline.size fs b + c.code.size + 3)) .jump rfl rfl
          have hpos : Outline.size fs b + (c.code ++ .jump .jfalse (Outline.size fs b + c.code.size)
              (some (Outline.size fs b + c.code.size + 3 + s.size + 3)) ::
                s.code none (Outline.size fs b + c.code.size + 3)).size =
              Outline.size fs b + c.code.size + 3 + s.size := by
            simp [Opcode.shape, Shape.size]
            omega
          simp only [Frame.before, hpos] at h₀ h₁ h₂
          refine .jump rfl h₀ h₁ h₂ ?_ (hbefore.mono ?_)
          · simp only [Outline.size, Frame.before, Frame.leadSize]
            omega
          · simp only [Frame.before]
            omega
      | whileDo b c => exact .loop rfl hsize hbefore
      | repeatUntil b => exact .loop rfl hsize hbefore
      | body b head =>
          obtain ⟨h₀, h₁, h₂⟩ := hopen (c := []) .jump rfl rfl
          have hjump : (Frame.construct (.body b head)).jump? = some .jump := by
            simp only [Frame.construct]
            split <;> rfl
          refine .jump hjump h₀ h₁ h₂ ?_ hbefore
          · simp only [Outline.size, Frame.before, Frame.leadSize]
            omega

/-! ### Exits -/

theorem length_exits (fs : List Frame) (cur : Stmt) :
    (Outline.exits fs cur).2.length = (Outline.loopStarts fs).length := by
  induction fs generalizing cur with
  | nil => rfl
  | cons f fs ih => cases hf : f.isLoop <;> simp [Outline.exits, Outline.loopStarts, hf, ih]

theorem exits_outermost {fs : List Frame} {cur : Stmt} (h : Outline.Enclosed fs cur) :
    (Outline.loopStarts fs = [] → (Outline.exits fs cur).1 = []) ∧
      ∀ xs, (Outline.exits fs cur).2.getLast? = some xs → xs = [] := by
  induction fs generalizing cur with
  | nil => exact ⟨fun _ => h.2, by simp [Outline.exits]⟩
  | cons f fs ih =>
      obtain ⟨hbefore, -, -, hown⟩ := h
      obtain ⟨hfirst, hlast⟩ := ih hbefore
      have hlength := length_exits fs f.before
      cases hf : f.isLoop with
      | false =>
          simp only [Outline.exits, hf, Bool.false_eq_true, if_false]
          refine ⟨fun hnone => ?_, hlast⟩
          obtain ⟨hlead, hcur⟩ := hown hnone
          simp only [Outline.loopStarts, hf, Bool.false_eq_true, if_false] at hnone
          rw [hfirst hnone, hlead, hcur]
          rfl
      | true =>
          simp only [Outline.exits, Outline.loopStarts, hf, if_true, List.cons_ne_nil,
            false_implies, true_and]
          intro xs hxs
          cases hout : (Outline.exits fs f.before).2 with
          | nil =>
              rw [hout] at hxs hlength
              obtain rfl : (Outline.exits fs f.before).1 = xs := by simpa using hxs
              exact hfirst (List.eq_nil_of_length_eq_zero hlength.symm)
          | cons ys yss =>
              rw [hout, List.getLast?_cons_cons] at hxs
              exact hlast xs (hout ▸ hxs)

theorem length_exitStack (e : List Nat × List (List Nat)) :
    (Outline.exitStack e).length = e.1.length + (e.2.map List.length).sum := by
  simp [Outline.exitStack]

/-! ### Bodies -/

/-- The outermost block says what body is open, and the others are no bodies. -/
def BodyOutermost (bs : List Block) : Prop :=
  (Nesting.setting bs).body = bs.getLast?.bind (fun b => b.construct.isFunc?) ∧
    ∀ b ∈ bs.dropLast, b.construct.isFunc? = none

theorem BodyOutermost.cons {b : Block} {bs : List Block} (h : BodyOutermost bs)
    (hb : b.construct.isFunc? = none) : BodyOutermost (b :: bs) := by
  obtain ⟨hbody, hinner⟩ := h
  have hsetting : (Nesting.setting (b :: bs)).body = (Nesting.setting bs).body := by
    rw [Nesting.setting]
    cases hk : b.construct <;> simp_all [Construct.isFunc?, Nesting.Setting.enter]
  cases bs with
  | nil => exact ⟨by rw [hsetting]; exact hb.symm, by simp⟩
  | cons b' bs =>
      refine ⟨by rw [hsetting, hbody, List.getLast?_cons_cons], ?_⟩
      rw [List.dropLast_cons_cons]
      simpa [hb] using hinner

theorem bodyOutermost_singleton (b : Block) : BodyOutermost [b] := by
  refine ⟨?_, by simp⟩
  rw [Nesting.setting, List.getLast?_singleton, Option.bind_some]
  cases b.construct <;> rfl

/-- Bodies are not nested in other blocks. -/
theorem bodyOutermost_of_reading {f₀ f : Front} {fs : List Frame} {cur : Stmt}
    (hr : Reading f₀ fs cur f) {bs : List Block}
    (hbs : bs.map Block.construct = fs.map Frame.construct) : BodyOutermost bs := by
  induction hr generalizing bs with
  | top =>
      obtain rfl := List.map_eq_nil_iff.1 hbs
      exact ⟨rfl, by simp⟩
  | body =>
      obtain ⟨b, bs, rfl, -, hnil⟩ := List.map_eq_cons_iff.1 hbs
      obtain rfl := List.map_eq_nil_iff.1 hnil
      exact bodyOutermost_singleton b
  | _ =>
      rename_i ih
      obtain ⟨b, bs, rfl, hb, hbs⟩ := List.map_eq_cons_iff.1 hbs
      exact (ih hbs).cons (by rw [hb]; rfl)

/-- What is read off the outline, with the count of the jumps and the operators that wait. -/
theorem Follows.described {f₀ : Front} {fs : List Frame} {cur : Stmt} {s : Compiler}
    (hf : Follows fs cur s) (hr : Reading f₀ fs cur s.front) (h₀ : f₀.body = none)
    (htally : s.Tally 0) (hpending : s.pending.items = []) : Described s where
  beside := by
    rw [hf.blocks, hf.forward, hf.loopStarts, hf.code, CodeBuffer.pos, hf.size]
    exact beside_outline List.prefix_rfl
  savedExits := by
    simp only [BoundedStack.size, hf.savedExits, hf.loopStarts, List.length_map, length_exits]
  loopExits := by
    simp only [BoundedStack.size, hf.loopExits, hf.exitCount, hf.savedExits, length_exitStack]
  outermost n hn := by
    rw [hf.savedExits, List.getLast?_map, Option.map_eq_some_iff] at hn
    obtain ⟨xs, hxs, rfl⟩ := hn
    rw [(exits_outermost hf.enclosed).2 xs hxs, List.length_nil]
  openFixups := htally
  body := by
    rw [← (bodyOutermost_of_reading hr hf.blocks).1]
    exact (setting_of_reading hr h₀ hf.blocks).2
  inner := (bodyOutermost_of_reading hr hf.blocks).2
  pending := hpending

/-! ### From statement to statement -/

/-- The outline of a text between two statements, with what it does not say: the count of the
jumps, and that no operator waits. -/
structure Standing (f₀ : Front) (s : Compiler) : Prop where
  outline : ∃ fs cur, Follows fs cur s ∧ Reading f₀ fs cur s.front
  tally : s.Tally 0
  pending : s.pending.items = []

section

variable {f₀ : Front} {s s₁ s₂ : Compiler} {w : WordToken} {source : Source} {limits : Limits}

theorem Standing.placed (h : Standing f₀ s) (h₀ : f₀.body = none) : Placed s := by
  obtain ⟨fs, cur, hf, hr⟩ := h.outline
  exact hf.placed hr h₀

theorem Standing.described (h : Standing f₀ s) (h₀ : f₀.body = none) : Described s := by
  obtain ⟨fs, cur, hf, hr⟩ := h.outline
  exact hf.described hr h₀ h.tally h.pending

/-- Behind a statement the same operators wait as before. -/
theorem Turn.pending (ht : Turn s w s₁ s₂) (hp : Placed s) : s₂.pending = s.pending := by
  have hsane := saneFrom_statementAt (s := { s with cursor := s.cursor.word.2 }) w
    ⟨hp.loops, hp.body, hp.forward⟩
  rw [ht.statement] at hsane
  rw [ht.passes]
  exact hsane

theorem Standing.next (h : Standing f₀ s) (h₀ : f₀.body = none) (ht : Turn s w s₁ s₂) :
    Standing f₀ s₂ := by
  obtain ⟨fs, cur, hf, hr⟩ := h.outline
  obtain ⟨fs', cur', -, hf', hr', -⟩ := ht.continues hf hr
  have htally := moves_statementAt w _ _ _ ht.statement (show Tally 0 _ from h.tally)
  refine ⟨⟨fs', cur', hf', hr'⟩, ?_, ?_⟩
  · rw [ht.passes]
    exact htally
  · rw [ht.pending (h.placed h₀)]
    exact h.pending

theorem Between.standing (h : Between source limits s) :
    Standing (Grammar.start source limits) s := by
  induction h with
  | start => exact ⟨⟨[], .skip, follows_start source limits, .top .nil⟩, rfl, rfl⟩
  | next _ ht ih => exact ih.next rfl ht

theorem Between.placed (h : Between source limits s) : Placed s := h.standing.placed rfl

theorem Between.described (h : Between source limits s) : Described s := h.standing.described rfl

/-- The next statement is read where the last one has ended. -/
theorem sane_statement (h : Between source limits s) :
    Sane (fun _ s₁ => ∃ w, s.cursor.word.1 = some w ∧
        statementAt w { s with cursor := s.cursor.word.2 } = .ok () s₁)
      (statement { s with cursor := s.cursor.atEnd.2 }) := by
  have hskip : s.cursor.atEnd.2.word = s.cursor.word := Cursor.word_skipBlank _
  refine (Neutral.read Cursor.word _).bind fun word t hword _ => ?_
  obtain ⟨hw, rfl⟩ := read_eq_ok.1 hword
  simp only [hskip] at hw ⊢
  cases word with
  | none => exact id
  | some w =>
      have hp := h.placed
      have hsane := saneFrom_statementAt (s := { s with cursor := s.cursor.word.2 }) w
        ⟨hp.loops, hp.body, hp.forward⟩
      exact hsane.run.mono fun _ _ hok => ⟨w, hw, hok⟩

theorem sane_statements (fuel : Nat) (h : Between source limits s) :
    Sane (fun _ _ => True) (statements fuel s) := by
  induction fuel generalizing s with
  | zero => exact id
  | succ fuel ih =>
      refine (Neutral.read _ s).bind fun atEnd t hend _ => ?_
      obtain ⟨-, rfl⟩ := read_eq_ok.1 hend
      split
      case isTrue => trivial
      refine Sane.bind (sane_statement h) fun _ s₁ _ ⟨w, hw, hst⟩ => ?_
      refine (Neutral.read _ s₁).bind fun semi s₂ hsemi _ => ?_
      split
      · rename_i hfound
        subst hfound
        exact ih (h.next ⟨hw, hst, hsemi⟩)
      · refine (Neutral.read _ s₂).bind fun _ _ _ _ => ?_
        split <;> exact id

theorem sane_program (source : Source) (limits : Limits) :
    Sane (fun _ _ => True) (program (start source limits)) := by
  refine Sane.bind (x := get) (P := fun _ t => t = start source limits) rfl ?_
  rintro _ _ - rfl
  refine (sane_statements _ .start).bind fun _ s _ _ => ?_
  refine Sane.bind (x := get) (P := fun _ _ => True) trivial fun t u _ _ => ?_
  cases t.blocks.top? with
  | some block => exact id
  | none => exact (neutral_emit _ u).mono fun _ _ _ => trivial

end

/-! ### Code that is never run

Three branches have no error of their own. To say that they are never taken, something
else is put in their place: it makes no difference. -/

/-- `patchExits`, with something else to do where an exit is missing. -/
def patchExitsOr (missing : Compile Unit) : (n : Nat) → Compile Unit
  | 0 => return
  | n + 1 => do
    match (← get).loopExits.top? with
    | none => missing
    | some f =>
      modify fun s => { s with loopExits := s.loopExits.pop }
      onCode (CodeBuffer.patch f)
      patchExitsOr missing n

/-- `endLoop`, with something else to do where an exit is missing, and another number of exits
where none has been put aside. -/
def endLoopOr (missing : Compile Unit) (outer : Nat) (op : Opcode) : Compile Unit := do
  match (← get).loopStarts.top? with
  | none => failHere .unbalancedLoop
  | some start =>
    modify fun s => { s with loopStarts := s.loopStarts.pop }
    onCode (CodeBuffer.emitBackward op start)
    patchExitsOr missing (← get).exitCount
    modify fun s =>
      { s with exitCount := s.savedExits.top?.getD outer, savedExits := s.savedExits.pop }

def wendStatementOr (missing : Compile Unit) (outer : Nat) (w : WordToken) : Compile Unit := do
  popBlock w .whileLoop []
  endLoopOr missing outer .jump

def untilStatementOr (missing : Compile Unit) (outer : Nat) (w : WordToken) : Compile Unit := do
  popBlock w .repeatLoop []
  expression
  endLoopOr missing outer .jfalse

/-- `endStatement`, with something else to do where no body is compiled. -/
def endStatementOr (missing : Compile Unit) (w : WordToken) : Compile Unit := do
  popBlock w .funcBody [.procBody]
  match (← get).body with
  | none => missing
  | some body =>
    modify fun s => { s with body := none }
    emitOp (if body.isFunc then .returnMissing else .returnProc)
    modifyHeap fun h => body.locals.foldl (fun h id => h.setIdentSlot id Ident.noSlot) h
    onCode (CodeBuffer.patch (← popForward))

theorem patchExitsOr_pure (n : Nat) : patchExitsOr (pure ()) n = patchExits n := by
  induction n with
  | zero => rfl
  | succ n ih =>
      simp only [patchExitsOr, ih]
      rfl

/-- What the compiler has in these places. -/
theorem statementsOr_of_source (w : WordToken) :
    wendStatementOr (pure ()) 0 w = wendStatement w ∧
      untilStatementOr (pure ()) 0 w = untilStatement w ∧
      endStatementOr (failAt w (.unopened w.text Construct.funcBody.word)) w = endStatement w := by
  have hloop (op : Opcode) : endLoopOr (pure ()) 0 op = endLoop op := by
    simp only [endLoopOr, patchExitsOr_pure]
    rfl
  refine ⟨?_, ?_, rfl⟩
  · rw [wendStatementOr, hloop]
    rfl
  · simp only [untilStatementOr, hloop]
    rfl

section

variable {s : Compiler} {missing : Compile Unit} {outer : Nat} {w : WordToken} {source : Source}
  {limits : Limits}

/-- Two steps agree, and what follows goes on in the same way. -/
theorem bind_congr_at {α β : Type} {x y : Compile α} {f g : α → Compile β} (hxy : x s = y s)
    (h : ∀ a t, y s = .ok a t → f a t = g a t) : (x >>= f) s = (y >>= g) s := by
  simp only [Bind.bind, EStateM.bind, hxy]
  cases hy : y s with
  | ok a t => exact h a t hy
  | error e t => rfl

theorem patchExitsOr_eq {n : Nat} (h : n ≤ s.loopExits.size) :
    patchExitsOr missing n s = patchExits n s := by
  induction n generalizing s with
  | zero => rfl
  | succ n ih =>
      rw [patchExitsOr, patchExits, Action.get_bind_apply, Action.get_bind_apply]
      cases hx : s.loopExits.items with
      | nil => simp [BoundedStack.size, hx] at h
      | cons x xs =>
          simp only [BoundedStack.top?, hx, List.head?_cons]
          refine bind_congr_at rfl fun _ t ht => bind_congr_at rfl fun _ u hu => ih ?_
          obtain rfl := Action.modify_eq_ok.1 ht
          obtain ⟨b, -, rfl⟩ := onCode_eq_ok.1 hu
          simp only [BoundedStack.size, BoundedStack.pop, hx, List.tail_cons,
            List.length_cons] at h ⊢
          omega

theorem endLoopOr_eq (op : Opcode) (hexits : s.exitCount ≤ s.loopExits.size)
    (hsaved : s.savedExits.items ≠ []) : endLoopOr missing outer op s = endLoop op s := by
  obtain ⟨n, ns, hn⟩ := List.exists_cons_of_ne_nil hsaved
  rw [endLoopOr, endLoop, Action.get_bind_apply, Action.get_bind_apply]
  cases s.loopStarts.top? with
  | none => rfl
  | some start =>
      refine bind_congr_at rfl fun _ t ht => bind_congr_at rfl fun _ u hu => ?_
      obtain rfl := Action.modify_eq_ok.1 ht
      obtain ⟨b, -, rfl⟩ := onCode_eq_ok.1 hu
      rw [Action.get_bind_apply, Action.get_bind_apply]
      refine bind_congr_at (patchExitsOr_eq hexits) fun _ v hv => ?_
      have hsaved := ((neutral_patchExits _).keeps hv).savedExits
      have htop : v.savedExits.top? = some n := by
        rw [hsaved, BoundedStack.top?]
        exact congrArg List.head? hn
      simp only [Action.modify_apply, htop, Option.getD_some]

/-- Where the stacks describe the open blocks, a loop that is closed has put a count aside, and
all exits that are counted are there. -/
theorem endLoopOr_eq_of_described {t : Compiler} (op : Opcode) (hd : Described s)
    (hloop : t.loopStarts.items ≠ []) (ht : t.loopStarts = s.loopStarts)
    (hcount : t.exitCount = s.exitCount) (hexits : t.loopExits = s.loopExits)
    (hsaved : t.savedExits = s.savedExits) : endLoopOr missing outer op t = endLoop op t := by
  refine endLoopOr_eq op ?_ fun hnil => hloop ?_
  · rw [hcount, hexits, hd.loopExits]
    exact Nat.le_add_right _ _
  · have hsize := hd.savedExits
    rw [← hsaved, ← ht, BoundedStack.size, BoundedStack.size, hnil] at hsize
    exact List.eq_nil_of_length_eq_zero hsize.symm

theorem wendStatementOr_eq (hd : Described s) (hp : Placed s) :
    wendStatementOr missing outer w s = wendStatement w s := by
  refine bind_congr_at rfl fun _ t hpop => ?_
  have hloop := hp.loopStarts_of_popBlock hpop (.inl rfl)
  obtain ⟨_, _, -, -, rfl⟩ := popBlock_ok hpop
  exact endLoopOr_eq_of_described _ hd hloop rfl rfl rfl rfl

theorem untilStatementOr_eq (hd : Described s) (hp : Placed s) :
    untilStatementOr missing outer w s = untilStatement w s := by
  refine bind_congr_at rfl fun _ t hpop => bind_congr_at rfl fun _ u hexp => ?_
  have hloop := hp.loopStarts_of_popBlock hpop (.inr rfl)
  obtain ⟨_, _, -, -, rfl⟩ := popBlock_ok hpop
  obtain ⟨_, _, -, rfl⟩ := expression_ok hexp
  exact endLoopOr_eq_of_described _ hd hloop rfl rfl rfl rfl

theorem endStatementOr_eq (hp : Placed s) : endStatementOr missing w s = endStatement w s := by
  refine bind_congr_at rfl fun _ t hpop => ?_
  obtain ⟨b, bs, hb, hk, rfl⟩ := popBlock_ok hpop
  have hsetting : ∃ isFunc, (Nesting.setting s.blocks.items).body = some isFunc := by
    rw [hb, Nesting.setting]
    obtain hk | hk : b.construct = .funcBody ∨ b.construct = .procBody := by simpa using hk
    all_goals
      rw [hk]
      exact ⟨_, rfl⟩
  obtain ⟨isFunc, hbody⟩ := hsetting
  obtain ⟨body, hbody, -⟩ := hp.body_eq hbody
  rw [Action.get_bind_apply, Action.get_bind_apply]
  simp only [hbody]

end

end Compiler

namespace Program

/-- No text is refused because the stacks of the compiler were in disorder. -/
theorem not_isDisorder_of_error {source : Source} {limits : Limits} {e : CompileError}
    (h : compile source limits = .error e) : ¬ e.cause.IsDisorder := by
  unfold compile compileWith at h
  split at h
  · cases h
    exact id
  · have hsane := Compiler.sane_program source limits
    split at h
    · rename_i e' s hrun
      cases h
      rw [hrun] at hsane
      exact hsane
    · rename_i s hrun
      rw [Compiler.finish_of_program hrun] at h
      cases h

/-- Between two statements the stacks describe the open blocks: each block that is no loop has one
jump and each loop one start, in the order of the blocks. So whatever is done where an exit, a count
or a body is missing makes no difference, the code of a text can be finished, and no text is refused
because something was missing on a stack. -/
theorem stacks_describe_blocks (source : Source) (limits : Limits) :
    (∀ s, Compiler.Between source limits s →
      s.Described ∧
      s.forward.size = s.blocks.items.countP (fun b => b.construct.jump?.isSome) ∧
      s.loopStarts.size = s.blocks.items.countP (fun b => b.construct.jump?.isNone) ∧
      ∀ c m w missing outer,
        let t := { s with cursor := c, sourceMap := m }
        Compiler.wendStatementOr missing outer w t = Compiler.wendStatement w t ∧
          Compiler.untilStatementOr missing outer w t = Compiler.untilStatement w t ∧
          Compiler.endStatementOr missing w t = Compiler.endStatement w t) ∧
    (∀ w, Compiler.wendStatementOr (pure ()) 0 w = Compiler.wendStatement w ∧
      Compiler.untilStatementOr (pure ()) 0 w = Compiler.untilStatement w ∧
      Compiler.endStatementOr (Compiler.failAt w (.unopened w.text Construct.funcBody.word)) w =
        Compiler.endStatement w) ∧
    (∀ s, Compiler.program (Compiler.start source limits) = .ok () s →
      s.code.finish = .ok s.code.code) ∧
    ∀ e, compile source limits = .error e → ¬ e.cause.IsDisorder := by
  refine ⟨fun s h => ?_, Compiler.statementsOr_of_source,
    fun s h => Compiler.finish_of_program h, fun e h => not_isDisorder_of_error h⟩
  have hd := h.described
  have hp := h.placed
  refine ⟨hd, ?_, ?_, fun c m w missing outer => ?_⟩
  · simpa [BoundedStack.size, List.countP_map, Function.comp_def] using hd.beside.length_jumps
  · simpa [BoundedStack.size, List.countP_map, Function.comp_def] using hd.beside.length_starts
  · -- The cursor and the source map do not matter for the stacks.
    have hd : Compiler.Described { s with cursor := c, sourceMap := m } := { hd with }
    have hp : Compiler.Placed { s with cursor := c, sourceMap := m } := { hp with }
    exact ⟨Compiler.wendStatementOr_eq hd hp, Compiler.untilStatementOr_eq hd hp,
      Compiler.endStatementOr_eq hp⟩

end Program

end CellScript
