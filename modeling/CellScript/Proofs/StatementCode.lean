import CellScript.Proofs.CommandCode
import CellScript.Proofs.Traversal

/-!
Statements compile to the code of their trees.

The state between two statements follows an outline (`Follows`): its code is the
code of the outline and its stacks are what the outline says they are. Each
statement takes an outline to the next one. A simple statement is appended, an
opening one adds a frame, a closing one turns the innermost frame into a statement
by patching the jumps that waited for its end. In parallel, what has been read is
a piece of the grammar with the same open blocks (`Reading`). At the end of the
text no block is open, so the outline is a tree and the reading a derivation.
-/

namespace CellScript

namespace Grammar

/-- The text between two places is an outline: blocks are open, and what stands before and in
them has been read. -/
inductive Reading (f₀ : Front) : List Frame → Stmt → Front → Prop
  | top {f : Front} {a : Stmt} : Items f₀ a f → Reading f₀ [] a f
  | ifThen {f f₁ f₂ f₃ f₄ : Front} {fs : List Frame} {b a : Stmt} {c : Expr} :
      Reading f₀ fs b f → Reserved ⟨.wordIf, .control⟩ f f₁ → Expression f₁ c f₂ →
      Mark Symbol.semicolon f₂ f₃ → Block f₃ a f₄ → Reading f₀ (.ifThen b c :: fs) a f₄
  | ifElse {f f₁ f₂ f₃ f₄ f₅ f₆ f₇ : Front} {fs : List Frame} {b a a' : Stmt} {c : Expr} :
      Reading f₀ fs b f → Reserved ⟨.wordIf, .control⟩ f f₁ → Expression f₁ c f₂ →
      Mark Symbol.semicolon f₂ f₃ → Block f₃ a f₄ → Reserved ⟨.wordElse, .control⟩ f₄ f₅ →
      Mark Symbol.semicolon f₅ f₆ → Block f₆ a' f₇ → Reading f₀ (.ifElse b c a :: fs) a' f₇
  | whileDo {f f₁ f₂ f₃ f₄ : Front} {fs : List Frame} {b a : Stmt} {c : Expr} :
      Reading f₀ fs b f → Reserved ⟨.wordWhile, .control⟩ f f₁ → Expression f₁ c f₂ →
      Mark Symbol.semicolon f₂ f₃ → Block f₃ a f₄ → Reading f₀ (.whileDo b c :: fs) a f₄
  | repeatUntil {f f₁ f₂ f₃ : Front} {fs : List Frame} {b a : Stmt} :
      Reading f₀ fs b f → Reserved ⟨.wordRepeat, .control⟩ f f₁ → Mark Symbol.semicolon f₁ f₂ →
      Block f₂ a f₃ → Reading f₀ (.repeatUntil b :: fs) a f₃
  | body {f f₁ f₂ f₃ : Front} {b a : Stmt} {head : Body} :
      Items f₀ b f → b.size + 3 ≤ 65535 →
      Header head.isFunc (UInt16.ofNat (b.size + 3)) f head f₁ → Mark Symbol.semicolon f₁ f₂ →
      Block f₂ a f₃ → Reading f₀ [.body b head] a f₃

/-- A statement continues the innermost block. -/
theorem Reading.snoc {f₀ f f' f'' : Front} {fs : List Frame} {cur s : Stmt}
    (h : Reading f₀ fs cur f) (hs : Statement f s f') (hm : Mark Symbol.semicolon f' f'') :
    Reading f₀ fs (.seq cur s) f'' := by
  cases h with
  | top h => exact .top (.statement h hs hm)
  | ifThen h h₁ h₂ h₃ h₄ => exact .ifThen h h₁ h₂ h₃ (.snoc h₄ hs hm)
  | ifElse h h₁ h₂ h₃ h₄ h₅ h₆ h₇ => exact .ifElse h h₁ h₂ h₃ h₄ h₅ h₆ (.snoc h₇ hs hm)
  | whileDo h h₁ h₂ h₃ h₄ => exact .whileDo h h₁ h₂ h₃ (.snoc h₄ hs hm)
  | repeatUntil h h₁ h₂ h₃ => exact .repeatUntil h h₁ h₂ (.snoc h₃ hs hm)
  | body h h₁ h₂ h₃ h₄ => exact .body h h₁ h₂ h₃ (.snoc h₄ hs hm)

end Grammar

namespace Compiler

open Grammar

/-- The state between two statements is what the outline says. -/
structure Follows (fs : List Frame) (cur : Stmt) (s : Compiler) : Prop where
  code : s.code.code.toList = (Outline.code fs cur).bytes
  blocks : s.blocks.items.map Block.construct = fs.map Frame.construct
  forward : s.forward.items = Outline.forward fs
  loopStarts : s.loopStarts.items = Outline.loopStarts fs
  loopExits : s.loopExits.items = Outline.exitStack (Outline.exits fs cur)
  exitCount : s.exitCount = (Outline.exits fs cur).1.length
  savedExits : s.savedExits.items = (Outline.exits fs cur).2.map List.length
  fits : Outline.Fits fs cur
  enclosed : Outline.Enclosed fs cur

/-- A statement takes the outline to the next one. The reading follows as soon as the
semicolon behind the statement has been read. -/
def Continues (f₀ : Front) (fs : List Frame) (cur : Stmt) (s s' : Compiler) : Prop :=
  ∃ fs' cur', Outline.Step fs cur fs' cur' ∧ Follows fs' cur' s' ∧
    (∀ f, Mark Symbol.semicolon s'.front f → Reading f₀ fs' cur' f) ∧
    s'.sourceMap = s.sourceMap ∧ s'.code.capacity = s.code.capacity

section

variable {f₀ f : Front} {fs : List Frame} {cur : Stmt} {s s' : Compiler}

theorem Follows.size (h : Follows fs cur s) : s.code.code.size = Outline.size fs cur := by
  rw [← Array.length_toList, h.code, Code.length_bytes, Outline.size_code]

/-- The innermost open block is the one on top of the stack. -/
theorem Follows.top (h : Follows fs cur s) {block : Block} {blocks : List Block}
    (hb : s.blocks.items = block :: blocks) :
    ∃ k fs', fs = k :: fs' ∧ block.construct = k.construct ∧
      blocks.map Block.construct = fs'.map Frame.construct := by
  have hblocks := h.blocks
  rw [hb] at hblocks
  cases fs with
  | nil => simp at hblocks
  | cons k fs' =>
      simp only [List.map_cons, List.cons.injEq] at hblocks
      exact ⟨k, fs', rfl, hblocks⟩

theorem toList_advance (s : Compiler) (g : Front) (c : Code) :
    (s.advance g c).code.code.toList = s.code.code.toList ++ c.bytes := by
  simp [advance]

/-- A statement without jumps of its own is appended. -/
theorem Follows.append (h : Follows fs cur s) {st : Stmt} (g : Front)
    (hfits : ∀ a, st.Fits none a) (hbreaks : ∀ a, st.breaks a = []) (henc : st.Enclosed) :
    Follows fs (.seq cur st) (s.advance g (st.code none (Outline.size fs cur))) where
  code := by rw [toList_advance, h.code, Outline.code_seq, Code.bytes_append]
  blocks := h.blocks
  forward := h.forward
  loopStarts := h.loopStarts
  loopExits := by rw [Outline.exits_seq_of_breaks fs cur (hbreaks _)]; exact h.loopExits
  exitCount := by rw [Outline.exits_seq_of_breaks fs cur (hbreaks _)]; exact h.exitCount
  savedExits := by rw [Outline.exits_seq_of_breaks fs cur (hbreaks _)]; exact h.savedExits
  fits := (Outline.fits_seq fs cur st).2 ⟨h.fits, hfits _⟩
  enclosed := (Outline.enclosed_seq fs cur st).2 ⟨h.enclosed, henc, fun _ => hbreaks _⟩

theorem Continues.append {st : Stmt} {g : Front} (h : Follows fs cur s) (hr : Reading f₀ fs cur f)
    (hst : Statement f st g) (hs' : s' = s.advance g (st.code none (Outline.size fs cur)))
    (hfits : ∀ a, st.Fits none a) (hbreaks : ∀ a, st.breaks a = []) (henc : st.Enclosed)
    (hstarts : ∀ a, st.starts a = [a]) : Continues f₀ fs cur s s' := by
  subst hs'
  refine ⟨fs, .seq cur st, .append hstarts, h.append g hfits hbreaks henc, ?_, rfl, rfl⟩
  intro f' hm
  exact hr.snoc hst hm

/-! ### Conditionals -/

/-- Opening a block that is no loop leaves the stacks of loops alone. -/
theorem Follows.openBlock {k : Frame} (h : Follows fs k.before s) (hloop : k.isLoop = false)
    (hexits : ∀ a, k.leadExits a = []) (hfits : ∀ a, k.LeadFits a) (henc : k.LeadEnclosed)
    (hcode : s'.code.code.toList =
      s.code.code.toList ++ (k.lead (Outline.size fs k.before)).bytes)
    (hblocks : s'.blocks.items.map Block.construct =
      k.construct :: s.blocks.items.map Block.construct)
    (hforward : s'.forward.items =
      (k.fixup? (Outline.size fs k.before)).toList ++ s.forward.items)
    (hstarts : s'.loopStarts = s.loopStarts) (hexit : s'.loopExits = s.loopExits)
    (hcount : s'.exitCount = s.exitCount) (hsaved : s'.savedExits = s.savedExits) :
    Follows (k :: fs) .skip s' where
  code := by rw [hcode, h.code, Outline.code_open, Code.bytes_append]
  blocks := by rw [hblocks, h.blocks, List.map_cons]
  forward := by rw [hforward, h.forward, Outline.forward]
  loopStarts := by simp [hstarts, h.loopStarts, Outline.loopStarts, hloop]
  loopExits := by rw [hexit, h.loopExits, Outline.exits_openBlock fs hloop (hexits _)]
  exitCount := by rw [hcount, h.exitCount, Outline.exits_openBlock fs hloop (hexits _)]
  savedExits := by rw [hsaved, h.savedExits, Outline.exits_openBlock fs hloop (hexits _)]
  fits := ⟨h.fits, hfits _, trivial⟩
  enclosed := ⟨h.enclosed, henc, trivial, fun _ => ⟨hexits _, rfl⟩⟩

theorem ifStatement_ok {w : WordToken} {u : Unit} (h : Follows fs cur s)
    (hr : Reading f₀ fs cur f) (hw : Reserved ⟨.wordIf, .control⟩ f s.front)
    (hok : ifStatement w s = .ok u s') : Continues f₀ fs cur s s' := by
  simp only [ifStatement, Action.bind_eq_ok] at hok
  obtain ⟨_, _, hblock, _, _, hexp, x, _, hjump, hfwd⟩ := hok
  obtain rfl := pushBlock_ok hblock
  obtain ⟨c, g, hc, rfl⟩ := expression_ok hexp
  obtain ⟨rfl, n, rfl⟩ := emitForward_ok rfl hjump
  obtain rfl := pushForward_ok hfwd
  refine ⟨.ifThen cur c :: fs, .skip, .begin (k := .ifThen cur c) fun a => rfl, ?_, ?_, rfl, rfl⟩
  · refine Follows.openBlock (k := .ifThen cur c) h rfl (fun _ => rfl) (fun _ => trivial) trivial
      ?_ rfl ?_ rfl rfl rfl rfl
    · simp [advance, setFixups, Frame.lead, Instr.jump]
    · simp [advance, setFixups, Frame.fixup?, size_append_list, h.size, Frame.before]
  · intro f' hm
    exact .ifThen hr hw hc hm .nil

/-- The jump over the first branch lands behind the jump over the second one. -/
theorem elseStatement_ok {w : WordToken} {u : Unit} (h : Follows fs cur s)
    (hr : Reading f₀ fs cur f) (hw : Reserved ⟨.wordElse, .control⟩ f s.front)
    (hok : elseStatement w s = .ok u s') : Continues f₀ fs cur s s' := by
  simp only [elseStatement, Action.bind_eq_ok, Action.get_eq_ok] at hok
  obtain ⟨_, _, hpop, _, _, hblock, x, _, hfwd, _, _, ⟨rfl, rfl⟩, _, _, hpatch, y, _, hjump,
    hpush⟩ := hok
  obtain ⟨block, blocks, hb, hk, rfl⟩ := popBlock_ok hpop
  obtain rfl := pushBlock_ok hblock
  obtain ⟨xs, hx, rfl⟩ := popForward_ok hfwd
  obtain ⟨hreach, b, rfl, hcap, hcode⟩ := patchTo_ok hpatch
  obtain ⟨rfl, n, rfl⟩ := emitForward_ok rfl hjump
  obtain rfl := pushForward_ok hpush
  -- The block on top of the compiler's stack is the innermost frame of the outline.
  obtain ⟨k, fs, rfl, hconstruct, hblocks⟩ := h.top hb
  obtain hk : k.construct = .ifBlock := by simpa [hconstruct] using hk
  cases k with
  | ifThen before c =>
      cases hr with
      | ifThen hr h₁ h₂ h₃ h₄ =>
          obtain ⟨rfl, rfl⟩ : x = ⟨Outline.conditionFixup fs before c⟩ ∧
              xs = Outline.forward fs := List.cons.inj (hx.symm.trans h.forward)
          -- The condition now leads behind the jump that is emitted next.
          have hpatched : b.code.toList =
              setWordAt (Outline.code (.ifThen before c :: fs) cur).bytes
                (Outline.conditionFixup fs before c)
                (Instr.distanceWord (Outline.conditionFixup fs before c + 2)
                  (Outline.size (.ifThen before c :: fs) cur + 3)) := by
            rw [← h.code, ← h.size]
            exact hcode
          have hsize : b.code.size = Outline.size (.ifThen before c :: fs) cur := by
            rw [← Array.length_toList, hpatched]
            simp [setWordAt]
          refine ⟨.ifElse before c cur :: fs, .skip, .divide, ?_, ?_, rfl, hcap⟩
          · exact {
              code := by
                rw [← Outline.code_divide]
                simp [setFixups, advance, hpatched]
              blocks := congrArg (Construct.elseBlock :: ·) hblocks
              forward := by
                simp [setFixups, advance, hsize, Outline.forward, Frame.fixup?, Outline.size,
                  Frame.before, Frame.leadSize, Nat.add_assoc]
              loopStarts := h.loopStarts
              loopExits := by rw [Outline.exits_divide]; exact h.loopExits
              exitCount := by rw [Outline.exits_divide]; exact h.exitCount
              savedExits := by rw [Outline.exits_divide]; exact h.savedExits
              fits := h.fits.divide (by rw [← h.size]; exact hreach)
              enclosed := h.enclosed.divide }
          · intro f' hm
            exact .ifElse hr h₁ h₂ h₃ h₄ hw hm .nil
  | body before head => cases hf : head.isFunc <;> simp [Frame.construct, hf] at hk
  | _ => simp [Frame.construct] at hk

/-- Closing a block that is no loop: its jump has been patched, and the stacks of loops are
as they were. -/
theorem Follows.closeBlock {k : Frame} {t : Stmt} (h : Follows (k :: fs) cur s)
    (hloop : k.isLoop = false)
    (hbreaks : t.breaks (Outline.size fs k.before) =
      k.leadExits (Outline.size fs k.before) ++ cur.breaks (Outline.base (k :: fs)))
    (henc : k.LeadEnclosed → cur.Enclosed → t.Enclosed)
    (hfits : t.Fits none (Outline.size fs k.before))
    (hcode : s'.code.code.toList = (Outline.code fs (.seq k.before t)).bytes)
    (hblocks : s'.blocks.items.map Block.construct = fs.map Frame.construct)
    (hforward : s'.forward.items = Outline.forward fs)
    (hstarts : s'.loopStarts = s.loopStarts) (hexit : s'.loopExits = s.loopExits)
    (hcount : s'.exitCount = s.exitCount) (hsaved : s'.savedExits = s.savedExits) :
    Follows fs (.seq k.before t) s' where
  code := hcode
  blocks := hblocks
  forward := hforward
  loopStarts := by simp [hstarts, h.loopStarts, Outline.loopStarts, hloop]
  loopExits := by rw [hexit, h.loopExits, Outline.exits_closeBlock hloop hbreaks]
  exitCount := by rw [hcount, h.exitCount, Outline.exits_closeBlock hloop hbreaks]
  savedExits := by rw [hsaved, h.savedExits, Outline.exits_closeBlock hloop hbreaks]
  fits := (Outline.fits_seq _ _ _).2 ⟨h.fits.1, hfits⟩
  enclosed := h.enclosed.closeBlock hloop hbreaks henc

theorem endifStatement_ok {w : WordToken} {u : Unit} (h : Follows fs cur s)
    (hr : Reading f₀ fs cur f) (hw : Reserved ⟨.wordEndif, .control⟩ f s.front)
    (hok : endifStatement w s = .ok u s') : Continues f₀ fs cur s s' := by
  simp only [endifStatement, Action.bind_eq_ok] at hok
  obtain ⟨_, _, hpop, x, _, hfwd, hpatch⟩ := hok
  obtain ⟨block, blocks, hb, hk, rfl⟩ := popBlock_ok hpop
  obtain ⟨xs, hx, rfl⟩ := popForward_ok hfwd
  obtain ⟨hreach, b, rfl, hcap, hcode⟩ := patch_ok hpatch
  obtain ⟨k, fs, rfl, hconstruct, hblocks⟩ := h.top hb
  -- Without `else` it is the condition's jump that ends here, with it the one over the second
  -- branch.
  obtain hk : k.construct = .ifBlock ∨ k.construct = .elseBlock := by simpa [hconstruct] using hk
  cases k with
  | ifThen before c =>
      cases hr with
      | ifThen hr h₁ h₂ h₃ h₄ =>
          obtain ⟨rfl, rfl⟩ : x = ⟨Outline.conditionFixup fs before c⟩ ∧
              xs = Outline.forward fs := List.cons.inj (hx.symm.trans h.forward)
          refine ⟨fs, .seq before (.ifThen c cur), .finish (k := .ifThen before c) rfl, ?_, ?_,
            rfl, hcap⟩
          · refine h.closeBlock (t := .ifThen c cur) rfl ?_ (fun _ h => h) ⟨?_, ?_⟩ ?_ hblocks rfl
              rfl rfl rfl rfl
            · simp [Stmt.breaks, Frame.leadExits, Outline.base, Frame.leadSize, Frame.before,
                Nat.add_assoc]
            · have hreach' : Instr.InReach (Outline.conditionFixup fs before c + 2)
                  (Outline.size (.ifThen before c :: fs) cur) := by
                rw [← h.size]
                exact hreach
              simpa [Outline.conditionFixup, Outline.size, Frame.before, Frame.leadSize,
                Nat.add_assoc] using hreach'
            · simpa [Outline.base, Frame.before, Frame.leadSize, Nat.add_assoc] using h.fits.2.2
            · show _ = (Outline.code fs (.seq before (.ifThen c cur))).bytes
              rw [← Outline.code_endif, ← h.code, ← h.size]
              exact hcode
          · intro f' hm
            exact hr.snoc (.ifThen h₁ h₂ h₃ h₄ hw) hm
  | ifElse before c a =>
      cases hr with
      | ifElse hr h₁ h₂ h₃ h₄ h₅ h₆ h₇ =>
          obtain ⟨rfl, rfl⟩ :
              x = ⟨Outline.size fs before + c.code.size + 3 + a.size + 1⟩ ∧
              xs = Outline.forward fs := List.cons.inj (hx.symm.trans h.forward)
          obtain ⟨-, ⟨hskip, ha⟩, hcur⟩ := h.fits
          refine ⟨fs, .seq before (.ifElse c a cur), .finish (k := .ifElse before c a) rfl, ?_, ?_,
            rfl, hcap⟩
          · refine h.closeBlock (t := .ifElse c a cur) rfl ?_ (fun h h' => ⟨h, h'⟩)
              ⟨hskip, ha, ?_, ?_⟩ ?_ hblocks rfl rfl rfl rfl rfl
            · simp [Stmt.breaks, Frame.leadExits, Outline.base, Frame.leadSize, Frame.before,
                Nat.add_assoc]
            · have hreach' : Instr.InReach
                  (Outline.size fs before + c.code.size + 3 + a.size + 1 + 2)
                  (Outline.size (.ifElse before c a :: fs) cur) := by
                rw [← h.size]
                exact hreach
              simpa [Outline.size, Frame.before, Frame.leadSize, Nat.add_assoc] using hreach'
            · simpa [Outline.base, Frame.before, Frame.leadSize, Nat.add_assoc] using hcur
            · show _ = (Outline.code fs (.seq before (.ifElse c a cur))).bytes
              rw [← Outline.code_endifElse, ← h.code, ← h.size]
              exact hcode
          · intro f' hm
            exact hr.snoc (.ifElse h₁ h₂ h₃ h₄ h₅ h₆ h₇ hw) hm
  | body before head => cases hf : head.isFunc <;> simp [Frame.construct, hf] at hk
  | _ => simp [Frame.construct] at hk

/-! ### Loops -/

theorem whileStatement_ok {w : WordToken} {u : Unit} (h : Follows fs cur s)
    (hr : Reading f₀ fs cur f) (hw : Reserved ⟨.wordWhile, .control⟩ f s.front)
    (hok : whileStatement w s = .ok u s') : Continues f₀ fs cur s s' := by
  simp only [whileStatement, Action.bind_eq_ok] at hok
  obtain ⟨_, _, hblock, _, _, hloop, _, _, hexp, x, _, hjump, hexit⟩ := hok
  obtain rfl := pushBlock_ok hblock
  obtain rfl := beginLoop_ok hloop
  obtain ⟨c, g, hc, rfl⟩ := expression_ok hexp
  obtain ⟨rfl, n, rfl⟩ := emitForward_ok rfl hjump
  obtain rfl := pushLoopExit_ok hexit
  have hexits : Outline.exits (.whileDo cur c :: fs) .skip =
      ([Outline.size fs cur + c.code.size + 1],
        (Outline.exits fs cur).1 :: (Outline.exits fs cur).2) :=
    Outline.exits_openLoop fs rfl
  refine ⟨.whileDo cur c :: fs, .skip, .begin (k := .whileDo cur c) fun a => rfl, ?_, ?_, rfl, rfl⟩
  · exact {
      code := by
        rw [Outline.code_open, Code.bytes_append, Frame.before, ← h.code]
        simp [setFixups, advance, Frame.lead, Instr.jump]
      blocks := congrArg (Construct.whileLoop :: ·) h.blocks
      forward := h.forward
      loopStarts := by
        simp [setFixups, advance, Outline.loopStarts, Frame.isLoop, Frame.before, h.size,
          h.loopStarts]
      loopExits := by
        rw [hexits, Outline.exitStack_open, ← h.loopExits]
        simp [setFixups, advance, size_append_list, h.size]
      exitCount := by
        rw [hexits]
        rfl
      savedExits := by
        rw [hexits]
        simp [setFixups, advance, h.exitCount, h.savedExits]
      fits := ⟨h.fits, trivial, trivial⟩
      enclosed := ⟨h.enclosed, trivial, trivial, by simp [Outline.loopStarts, Frame.isLoop]⟩ }
  · intro f' hm
    exact .whileDo hr hw hc hm .nil

theorem repeatStatement_ok {w : WordToken} {u : Unit} (h : Follows fs cur s)
    (hr : Reading f₀ fs cur f) (hw : Reserved ⟨.wordRepeat, .control⟩ f s.front)
    (hok : repeatStatement w s = .ok u s') : Continues f₀ fs cur s s' := by
  simp only [repeatStatement, Action.bind_eq_ok] at hok
  obtain ⟨_, _, hblock, hloop⟩ := hok
  obtain rfl := pushBlock_ok hblock
  obtain rfl := beginLoop_ok hloop
  have hexits : Outline.exits (.repeatUntil cur :: fs) .skip =
      ([], (Outline.exits fs cur).1 :: (Outline.exits fs cur).2) :=
    Outline.exits_openLoop fs rfl
  refine ⟨.repeatUntil cur :: fs, .skip, .begin (k := .repeatUntil cur) fun a => rfl,
    ?_, ?_, rfl, rfl⟩
  · exact {
      code := by
        rw [Outline.code_open, Frame.lead, List.append_nil]
        exact h.code
      blocks := congrArg (Construct.repeatLoop :: ·) h.blocks
      forward := h.forward
      loopStarts := by
        simp [Outline.loopStarts, Frame.isLoop, Frame.before, h.size, h.loopStarts]
      loopExits := by
        rw [hexits, Outline.exitStack_open, ← h.loopExits]
        rfl
      exitCount := by
        rw [hexits]
        rfl
      savedExits := by
        rw [hexits]
        simp [h.exitCount, h.savedExits]
      fits := ⟨h.fits, trivial, trivial⟩
      enclosed := ⟨h.enclosed, trivial, trivial, by simp [Outline.loopStarts, Frame.isLoop]⟩ }
  · intro f' hm
    exact .repeatUntil hr hw hm .nil

/-- Closing a loop whose exits have been patched. -/
theorem Follows.closeLoop {k : Frame} {t : Stmt} {s₁ : Compiler} {b : CodeBuffer}
    (h : Follows (k :: fs) cur s) (hbreaks : ∀ a, t.breaks a = [])
    (henc : cur.Enclosed → t.Enclosed) (hfits : t.Fits none (Outline.size fs k.before))
    (hcode : b.code.toList = (Outline.code fs (.seq k.before t)).bytes)
    (hblocks : s₁.blocks.items.map Block.construct = fs.map Frame.construct)
    (hforward : s₁.forward.items = Outline.forward fs) :
    Follows fs (.seq k.before t) { s₁ with
      code := b
      loopStarts := { s₁.loopStarts with items := Outline.loopStarts fs }
      loopExits := { s₁.loopExits with items := Outline.exitStack (Outline.exits fs k.before) }
      exitCount := (Outline.exits fs k.before).1.length
      savedExits :=
        { s₁.savedExits with items := (Outline.exits fs k.before).2.map List.length } } where
  code := hcode
  blocks := hblocks
  forward := hforward
  loopStarts := rfl
  loopExits := by rw [Outline.exits_seq_of_breaks _ _ (hbreaks _)]
  exitCount := by rw [Outline.exits_seq_of_breaks _ _ (hbreaks _)]
  savedExits := by rw [Outline.exits_seq_of_breaks _ _ (hbreaks _)]
  fits := (Outline.fits_seq _ _ _).2 ⟨h.fits.1, hfits⟩
  enclosed := h.enclosed.closeLoop (hbreaks _) henc

/-- What the stacks of loops hold when the innermost block is a loop. -/
theorem Follows.loops {k : Frame} (h : Follows (k :: fs) cur s) (hk : k.isLoop = true) :
    s.loopStarts.items = Outline.size fs k.before :: Outline.loopStarts fs ∧
      s.loopExits.items = (Outline.exits (k :: fs) cur).1.reverse.map Fixup.mk ++
        Outline.exitStack (Outline.exits fs k.before) ∧
      s.savedExits.items =
        (Outline.exits fs k.before).1.length :: (Outline.exits fs k.before).2.map List.length := by
  refine ⟨?_, ?_, ?_⟩
  · rw [h.loopStarts]
    simp [Outline.loopStarts, hk]
  · rw [h.loopExits, ← Outline.exitStack_open]
    simp [Outline.exits, hk]
  · rw [h.savedExits]
    simp [Outline.exits, hk]

theorem wendStatement_ok {w : WordToken} {u : Unit} (h : Follows fs cur s)
    (hr : Reading f₀ fs cur f) (hw : Reserved ⟨.wordWend, .control⟩ f s.front)
    (hok : wendStatement w s = .ok u s') : Continues f₀ fs cur s s' := by
  simp only [wendStatement, Action.bind_eq_ok] at hok
  obtain ⟨_, _, hpop, hloop⟩ := hok
  obtain ⟨block, blocks, hb, hk, rfl⟩ := popBlock_ok hpop
  obtain ⟨k, fs, rfl, hconstruct, hblocks⟩ := h.top hb
  obtain hk : k.construct = .whileLoop := by simpa [hconstruct] using hk
  cases k with
  | whileDo before c =>
      cases hr with
      | whileDo hr h₁ h₂ h₃ h₄ =>
          obtain ⟨hstarts, hexits, hsaved⟩ := h.loops rfl
          obtain ⟨hback, hreach, b, rfl, hcap, hcode⟩ :=
            endLoop_ok hloop rfl hstarts hexits h.exitCount hsaved
          replace hback : Instr.InReach (s.code.code.size + 3) (Outline.size fs before) := hback
          replace hreach : ∀ x ∈ (Outline.exits (.whileDo before c :: fs) cur).1,
            Instr.InReach (x + 2) (s.code.code.size + 3) := hreach
          rw [h.size] at hback hreach
          simp only [Outline.size, Frame.before, Frame.leadSize, Outline.exits, Frame.isLoop,
            Frame.leadExits, Outline.base, if_true, List.cons_append, List.nil_append,
            List.mem_cons, forall_eq_or_imp, ← Nat.add_assoc] at hback hreach
          refine ⟨fs, .seq before (.whileDo c cur), .finish (k := .whileDo before c) rfl, ?_, ?_,
            rfl, hcap⟩
          · refine h.closeLoop (t := .whileDo c cur) (fun _ => rfl) (fun h => h) ⟨?_, ?_, ?_⟩ ?_
              hblocks h.forward
            · exact hreach.1
            · refine Stmt.Fits.of_breaks ?_ hreach.2
              simpa [Outline.base, Frame.before, Frame.leadSize, Nat.add_assoc] using h.fits.2.2
            · exact hback
            · show _ = (Outline.code fs (.seq before (.whileDo c cur))).bytes
              rw [← Outline.code_wend, ← h.code, ← h.size]
              exact hcode
          · intro f' hm
            exact hr.snoc (.whileDo h₁ h₂ h₃ h₄ hw) hm
  | body before head => cases hf : head.isFunc <;> simp [Frame.construct, hf] at hk
  | _ => simp [Frame.construct] at hk

theorem untilStatement_ok {w : WordToken} {u : Unit} (h : Follows fs cur s)
    (hr : Reading f₀ fs cur f) (hw : Reserved ⟨.wordUntil, .control⟩ f s.front)
    (hok : untilStatement w s = .ok u s') : Continues f₀ fs cur s s' := by
  simp only [untilStatement, Action.bind_eq_ok] at hok
  obtain ⟨_, _, hpop, _, _, hexp, hloop⟩ := hok
  obtain ⟨block, blocks, hb, hk, rfl⟩ := popBlock_ok hpop
  obtain ⟨c, g, hc, rfl⟩ := expression_ok hexp
  obtain ⟨k, fs, rfl, hconstruct, hblocks⟩ := h.top hb
  obtain hk : k.construct = .repeatLoop := by simpa [hconstruct] using hk
  cases k with
  | repeatUntil before =>
      cases hr with
      | repeatUntil hr h₁ h₂ h₃ =>
          obtain ⟨hstarts, hexits, hsaved⟩ := h.loops rfl
          obtain ⟨hback, hreach, b, rfl, hcap, hcode⟩ :=
            endLoop_ok hloop rfl hstarts hexits h.exitCount hsaved
          have hsize : (s.code.code ++ c.code.bytes).size =
              Outline.size (.repeatUntil before :: fs) cur + c.code.size := by
            rw [size_append_list, h.size, Code.length_bytes]
          replace hback : Instr.InReach ((s.code.code ++ c.code.bytes).size + 3)
            (Outline.size fs before) := hback
          replace hreach : ∀ x ∈ (Outline.exits (.repeatUntil before :: fs) cur).1,
            Instr.InReach (x + 2) ((s.code.code ++ c.code.bytes).size + 3) := hreach
          rw [hsize] at hback hreach
          simp only [Outline.size, Frame.before, Frame.leadSize, Outline.exits, Frame.isLoop,
            Frame.leadExits, Outline.base, if_true, List.nil_append, Nat.add_zero] at hback hreach
          refine ⟨fs, .seq before (.repeatUntil cur c), .finish (k := .repeatUntil before) ⟨c, rfl⟩,
            ?_, ?_, rfl, hcap⟩
          · refine h.closeLoop (t := .repeatUntil cur c) (fun _ => rfl) (fun h => h) ⟨?_, hback⟩ ?_
              hblocks h.forward
            · exact Stmt.Fits.of_breaks h.fits.2.2 hreach
            · show _ = (Outline.code fs (.seq before (.repeatUntil cur c))).bytes
              rw [← Outline.code_until, ← h.code, ← hsize,
                ← @Array.toList_appendList _ s.code.code c.code.bytes]
              exact hcode
          · intro f' hm
            exact hr.snoc (.repeatUntil h₁ h₂ h₃ hw hc) hm
  | body before head => cases hf : head.isFunc <;> simp [Frame.construct, hf] at hk
  | _ => simp [Frame.construct] at hk

theorem breakStatement_ok {w : WordToken} {u : Unit} (h : Follows fs cur s)
    (hr : Reading f₀ fs cur f) (hw : Reserved ⟨.wordBreak, .control⟩ f s.front)
    (hok : breakStatement w s = .ok u s') : Continues f₀ fs cur s s' := by
  simp only [breakStatement, Action.bind_eq_ok, Action.get_eq_ok, Action.ite_eq_ok, failAt_eq_ok,
    false_and, exists_false, and_false, false_or] at hok
  obtain ⟨_, _, ⟨rfl, rfl⟩, hinside, x, _, hjump, hexit⟩ := hok
  obtain ⟨rfl, n, rfl⟩ := emitForward_ok rfl hjump
  obtain rfl := pushLoopExit_ok hexit
  have hexits : Outline.exits fs (.seq cur .exitLoop) =
      ((Outline.exits fs cur).1 ++ [Outline.size fs cur + 1], (Outline.exits fs cur).2) :=
    Outline.exits_seq fs cur .exitLoop
  refine ⟨fs, .seq cur .exitLoop, .append fun _ => rfl, ?_, ?_, rfl, rfl⟩
  · exact {
      code := by
        rw [Outline.code_seq, Code.bytes_append, ← h.code]
        simp [setFixups, advance, Stmt.code, Instr.jump]
      blocks := h.blocks
      forward := h.forward
      loopStarts := h.loopStarts
      loopExits := by
        rw [hexits, Outline.exitStack_append, ← h.size]
        exact congrArg _ h.loopExits
      exitCount := by
        rw [hexits, List.length_append]
        exact congrArg (· + 1) h.exitCount
      savedExits := by
        rw [hexits]
        exact h.savedExits
      fits := (Outline.fits_seq _ _ _).2 ⟨h.fits, by rintro _ ⟨⟩⟩
      enclosed := by
        refine (Outline.enclosed_seq _ _ _).2 ⟨h.enclosed, trivial, fun hl => ?_⟩
        rw [← h.loopStarts] at hl
        simp [BoundedStack.isEmpty, hl] at hinside }
  · intro f' hm
    exact hr.snoc (.exitLoop hw) hm

/-! ### Bodies -/

theorem parameters_ok {fuel : Nat} {u : Unit} (h : parameters fuel s = .ok u s') :
    ∃ g, Parameters s.front g ∧ s' = s.advance g [] := by
  induction fuel generalizing s with
  | zero => simp [parameters, failHere_eq_ok] at h
  | succ fuel ih =>
      simp only [parameters, Action.bind_eq_ok, Action.ite_eq_ok, failAt_eq_ok, false_and,
        exists_false, and_false, false_or, Action.pure_eq_ok] at h
      obtain ⟨w, _, hn, id, _, hi, slot, _, hslot, hnew, _, _, hd, comma, _, hc, h⟩ := h
      obtain ⟨c, hw, hk, rfl⟩ := name_ok hn
      obtain ⟨new, st, hst, rfl⟩ := intern_ok hi
      obtain ⟨rfl, hfound⟩ := slotOf_ok hslot
      obtain ⟨body, g₁, hb, -, hdecl, rfl⟩ := declareLocal_ok hd
      have hfree : body.locals.contains id = false := by
        obtain ⟨_, _, _, rfl⟩ | ⟨_, hfree⟩ := hfound
        · simp at hnew
        · exact hfree body hb
      have hpar : Parameter s.front g₁ := .mk (.mk hw hk hst) hb hfree hdecl
      obtain ⟨rfl, h⟩ | ⟨hf, _, rfl⟩ := h
      · obtain ⟨g₂, hm, rfl⟩ := symbol_ok hc
        obtain ⟨g₃, hps, rfl⟩ := ih h
        exact ⟨g₃, .more hpar hm hps, by simp⟩
      · obtain rfl : comma = false := by simpa using hf
        obtain ⟨g₂, hm, rfl⟩ := symbol_ok_false hc
        exact ⟨g₂, .last hpar hm, by simp⟩

theorem parameterList_ok {u : Unit} (h : parameterList s = .ok u s') :
    ∃ g, ParameterList s.front g ∧ s' = s.advance g [] := by
  simp only [parameterList, Action.bind_eq_ok, Action.ite_eq_ok, Action.pure_eq_ok,
    Action.get_eq_ok] at h
  obtain ⟨_, _, ho, close, _, hc, h⟩ := h
  obtain ⟨g₁, hopen, rfl⟩ := expect_ok ho
  obtain ⟨rfl, _, rfl⟩ | ⟨hf, _, _, ⟨rfl, rfl⟩, _, _, hps, h⟩ := h
  · obtain ⟨g₂, hclose, rfl⟩ := symbol_ok hc
    exact ⟨g₂, .none hopen hclose, by simp⟩
  · obtain rfl : close = false := by simpa using hf
    obtain ⟨g₂, hm, rfl⟩ := symbol_ok_false hc
    obtain ⟨g₃, hpar, rfl⟩ := parameters_ok hps
    obtain ⟨g₄, hclose, rfl⟩ := expect_ok h
    exact ⟨g₄, .some hopen hm hpar hclose, by simp⟩

/-- The jump around a body stands before the name is read. -/
theorem openBody_ok {c : Construct} {w : WordToken} {x : Fixup} {u v : Unit} {s₁ s₂ : Compiler}
    (hblock : pushBlock c w s = .ok u s₁)
    (hjump : onCode (CodeBuffer.emitForward .jump) s₁ = .ok x s₂)
    (hfwd : pushForward x s₂ = .ok v s') :
    s'.front = s.front ∧ s'.code.code = s.code.code ++ (Instr.withWord .jump 0).bytes ∧
      s'.blocks.items.map Block.construct = c :: s.blocks.items.map Block.construct ∧
      s'.forward.items = ⟨s.code.code.size + 1⟩ :: s.forward.items ∧
      s'.loopStarts = s.loopStarts ∧ s'.loopExits = s.loopExits ∧ s'.exitCount = s.exitCount ∧
      s'.savedExits = s.savedExits ∧ s'.sourceMap = s.sourceMap ∧
      s'.code.capacity = s.code.capacity := by
  obtain rfl := pushBlock_ok hblock
  obtain ⟨rfl, n, rfl⟩ := emitForward_ok rfl hjump
  obtain rfl := pushForward_ok hfwd
  refine ⟨rfl, ?_, rfl, rfl, rfl, rfl, rfl, rfl, rfl, rfl⟩
  simp [setFixups, advance]

theorem bodyStatement_ok (isFunc : Bool) {w : WordToken} {u : Unit} (h : Follows fs cur s)
    (hr : Reading f₀ fs cur f) (hw : Reserved (opener isFunc) f s.front)
    (hok : bodyStatement isFunc w s = .ok u s') : Continues f₀ fs cur s s' := by
  simp only [bodyStatement, Action.bind_eq_ok, Action.get_eq_ok, Action.ite_eq_ok, failAt_eq_ok,
    failHere_eq_ok, false_and, exists_false, and_false, false_or, valueOf_eq_ok, modifyHeap_eq_ok,
    Action.modify_eq_ok] at hok
  obtain ⟨_, _, ⟨rfl, rfl⟩, htop, _, s₁, hblock, x, s₂, hjump, _, s₃, hfwd, nameWord, _, hn, id, _,
    hi, _, _, ⟨rfl, rfl⟩, hunset, _, _, ⟨rfl, rfl⟩, hpos, _, _, rfl, _, _, rfl, _, _, hps, _, _,
    ⟨rfl, rfl⟩, rfl⟩ := hok
  obtain ⟨hfront, hcode, hblocks, hforward, hstarts, hexits, hcount, hsaved, hmap, hcap⟩ :=
    openBody_ok hblock hjump hfwd
  clear hblock hjump hfwd
  -- No block is open, so the outline is a tree.
  simp only [Bool.or_eq_true, Bool.not_eq_true', not_or, Bool.not_eq_true,
    Option.isSome_eq_false_iff, Option.isNone_iff_eq_none, BoundedStack.isEmpty,
    Bool.not_eq_false, List.isEmpty_iff] at htop
  obtain rfl : fs = [] := by simpa [htop.1] using h.blocks.symm
  have hsize : s.code.code.size = cur.size := h.size
  have hentry : s₃.code.code.size = cur.size + 3 := by
    rw [hcode, size_append_list, hsize]
    rfl
  -- Reading the name and the parameters only moves the front.
  obtain ⟨c, hword, hk, rfl⟩ := name_ok hn
  obtain ⟨new, st, hst, rfl⟩ := intern_ok hi
  obtain ⟨g, hparams, rfl⟩ := parameterList_ok hps
  obtain ⟨head, hhead, hid, hisFunc⟩ := (steady_sameBody.parameterList hparams).some rfl
  have hheader : Header head.isFunc (UInt16.ofNat (cur.size + 3)) f head
      (g.countParameters head) := by
    rw [hisFunc]
    have hopener : Reserved (opener isFunc) f s₃.front := by
      rw [hfront]
      exact hw
    refine .mk hopener (.mk hword hk hst) ?_ ?_ ?_ hhead
    · exact (congrArg Front.body hfront).trans htop.2
    · exact Decidable.not_not.1 hunset
    · rw [← hentry]
      exact hparams
  refine ⟨[.body cur head], .skip, .begin (k := .body cur head) fun _ => rfl, ?_, ?_, hmap, hcap⟩
  · refine Follows.openBlock (k := .body cur head) h rfl (fun _ => rfl) (fun _ => trivial) trivial
      ?_ ?_ ?_ hstarts hexits hcount hsaved
    · simp [advance, hcode, Frame.lead, Instr.jump]
    · refine hblocks.trans ?_
      simp [Frame.construct, hisFunc]
    · refine hforward.trans ?_
      simp [Frame.fixup?, Outline.size, Frame.before, hsize]
  · intro f' hm
    cases hr with
    | top hr =>
        refine .body hr ?_ hheader ?_ .nil
        · rw [← hentry]
          exact Nat.le_of_not_gt hpos
        · have hcount : (g.body.map fun b => b.locals.length).getD 0 = head.locals.length := by
            simp [hhead]
          have hid : id = head.id := hid.symm
          subst hid
          simpa [front, advance, hcount, Front.countParameters, Front.withHeap] using hm

theorem returnStatement_ok {w : WordToken} {u : Unit} (h : Follows fs cur s)
    (hr : Reading f₀ fs cur f) (hw : Reserved ⟨.wordReturn, .control⟩ f s.front)
    (hok : returnStatement w s = .ok u s') : Continues f₀ fs cur s s' := by
  simp only [returnStatement, Action.bind_eq_ok, Action.get_eq_ok] at hok
  obtain ⟨_, _, ⟨rfl, rfl⟩, hok⟩ := hok
  cases hb : s.body with
  | none => simp [hb, failAt_eq_ok] at hok
  | some body =>
      simp only [hb, Action.bind_eq_ok, Action.ite_eq_ok, failAt_eq_ok, failHere_eq_ok, false_and,
        exists_false, and_false, false_or, or_false] at hok
      obtain ⟨bare, _, hread, hok⟩ := hok
      obtain ⟨c, hc, rfl⟩ := read_ok hread
      obtain ⟨hfunc, hbare, _, _, hexp, hemit⟩ | ⟨hproc, hbare, hemit⟩ := hok
      · obtain rfl : bare = false := by simpa using hbare
        obtain ⟨e, g, he, rfl⟩ := expression_ok hexp
        have hs' := emitOp_ok rfl hemit
        simp only [advance_advance, List.nil_append, front_advance] at hs'
        exact .append h hr (.returnValue hw hb hfunc hc he) hs' (fun _ => trivial) (fun _ => rfl)
          trivial (fun _ => rfl)
      · obtain rfl : bare = true := by simpa using hbare
        have hs' := emitOp_ok rfl hemit
        simp only [advance_advance, List.nil_append, front_advance] at hs'
        exact .append h hr (.returnBare hw hb (by simpa using hproc) hc) hs' (fun _ => trivial)
          (fun _ => rfl) trivial (fun _ => rfl)

theorem endStatement_ok {w : WordToken} {u : Unit} (h : Follows fs cur s)
    (hr : Reading f₀ fs cur f) (hw : Reserved ⟨.wordEnd, .control⟩ f s.front)
    (hok : endStatement w s = .ok u s') : Continues f₀ fs cur s s' := by
  simp only [endStatement, Action.bind_eq_ok, Action.get_eq_ok] at hok
  obtain ⟨_, s₁, hpop, _, _, ⟨rfl, rfl⟩, hok⟩ := hok
  obtain ⟨block, blocks, hb, hk, rfl⟩ := popBlock_ok hpop
  obtain ⟨k, fs, rfl, hconstruct, hblocks⟩ := h.top hb
  obtain hk : k.construct = .funcBody ∨ k.construct = .procBody := by simpa [hconstruct] using hk
  cases hbody : s.body with
  | none => simp [hbody, failAt_eq_ok] at hok
  | some body =>
  simp only [hbody, Action.bind_eq_ok, Action.modify_eq_ok, modifyHeap_eq_ok] at hok
  obtain ⟨_, _, rfl, _, _, hemit, _, _, rfl, x, _, hfwd, hpatch⟩ := hok
  cases k with
  | body before head =>
      cases hr with
      | body hitems hlimit hheader hm hblock =>
          obtain rfl := (emit_ok hemit).1
          obtain ⟨xs, hx, rfl⟩ := popForward_ok hfwd
          obtain ⟨hreach, b, rfl, hcap, hcode⟩ := patch_ok hpatch
          obtain ⟨rfl, rfl⟩ : x = ⟨before.size + 1⟩ ∧ xs = [] :=
            List.cons.inj (hx.symm.trans h.forward)
          -- The body that is open is the one that the header opened.
          have hsame := steady_sameBody.trans (steady_sameBody.mark hm)
            (steady_sameBody.trans (steady_sameBody.block hblock) (steady_sameBody.reserved hw))
          obtain ⟨body', hbody', -, hisFunc⟩ := hsame.some hheader.body_eq
          obtain rfl : body = body' := Option.some.inj (hbody.symm.trans hbody')
          have hnone : cur.breaks (before.size + 3) = [] := (h.enclosed.2.2.2 rfl).2
          have hend : (Stmt.bodyEnd head.isFunc).bytes =
              [(if body.isFunc then Opcode.returnMissing else .returnProc).toByte] := by
            rw [hisFunc]
            cases head.isFunc <;> rfl
          have hsize (byte : UInt8) : (s.code.code ++ [byte]).size =
              Outline.size [.body before head] cur + 1 := by
            rw [size_append_list, h.size]
            rfl
          refine ⟨[], .seq before (.define ⟨body.id, head.isFunc, head.locals.length,
            body.locals.length⟩ cur), .finish (k := .body before head) ⟨_, rfl⟩, ?_, ?_, rfl, hcap⟩
          · refine h.closeBlock (t := .define ⟨body.id, head.isFunc, head.locals.length,
              body.locals.length⟩ cur) rfl ?_ ?_ ⟨?_, ?_⟩ ?_ hblocks rfl rfl rfl rfl rfl
            · exact hnone.symm
            · exact fun _ h => ⟨fun _ => Stmt.breaks_eq_nil hnone, h⟩
            · show Instr.InReach _ (Outline.size [.body before head] cur + 1)
              rw [← hsize]
              exact hreach
            · exact h.fits.2.2
            · show _ = (Outline.code [] (.seq before (.define _ cur))).bytes
              rw [← Outline.code_end _ _ head, hend, ← h.code, ← Array.toList_appendList, ← hsize]
              exact hcode
          · intro f' hm'
            exact .top (.definition hitems hlimit hheader hm hblock hw hbody hm')
  | _ => simp [Frame.construct] at hk

end

end Compiler

end CellScript
