import CellScript.Proofs.Fitting
import CellScript.Proofs.Precedence
import CellScript.Proofs.Regions
import CellScript.Proofs.Tallies

/-!
A text compiles exactly if its blocks are nested.

Between two statements, the stacks of the compiler agree with the blocks that the
statements so far have left open. Each statement either fits and takes this to the
next place, or it is the first one that does not, and there the text can not be
completed any more. At the end of the text, blocks that are still open lack nothing
but their closing words, and the error is at the innermost of them.
-/

namespace CellScript

namespace Compiler

open Grammar

/-! ### The stacks agree -/

/-- The setting of open blocks as the outline has it. -/
theorem setting_of_reading {f₀ f : Front} {fs : List Frame} {cur : Stmt}
    (hr : Reading f₀ fs cur f) (h₀ : f₀.body = none) {bs : List Block}
    (hbs : bs.map Block.construct = fs.map Frame.construct) :
    (Outline.loopStarts fs = [] ↔ (Nesting.setting bs).inLoop = false) ∧
      f.body.map Body.isFunc = (Nesting.setting bs).body := by
  have H := steady_sameBody
  -- Reading a part never changes which body is being read, so the setting depends on the frames.
  have hsame {f f' : Front} (h : SameBody f f') :
      f'.body.map Body.isFunc = f.body.map Body.isFunc := by
    simpa [Option.map_map, Function.comp_def] using congrArg (Option.map Prod.snd) h
  induction hr generalizing bs with
  | top hitems =>
      obtain rfl := List.map_eq_nil_iff.1 hbs
      obtain ⟨-, hbody, -⟩ := hitems.flat h₀
      exact ⟨by simp [Outline.loopStarts, Nesting.setting, Nesting.Setting.top], by rw [hbody]; rfl⟩
  | ifThen _ h₁ h₂ h₃ h₄ ih =>
      obtain ⟨b, bs, rfl, hb, hbs⟩ := List.map_eq_cons_iff.1 hbs
      obtain ⟨hloops, hbody⟩ := ih hbs
      rw [Nesting.setting, hb]
      refine ⟨hloops, (hsame ?_).trans hbody⟩
      exact H.trans (H.reserved h₁) (H.trans (H.expression h₂) (H.trans (H.mark h₃) (H.block h₄)))
  | ifElse _ h₁ h₂ h₃ h₄ h₅ h₆ h₇ ih =>
      obtain ⟨b, bs, rfl, hb, hbs⟩ := List.map_eq_cons_iff.1 hbs
      obtain ⟨hloops, hbody⟩ := ih hbs
      rw [Nesting.setting, hb]
      refine ⟨hloops, (hsame ?_).trans hbody⟩
      exact H.trans (H.reserved h₁) (H.trans (H.expression h₂) (H.trans (H.mark h₃)
        (H.trans (H.block h₄) (H.trans (H.reserved h₅) (H.trans (H.mark h₆) (H.block h₇))))))
  | whileDo _ h₁ h₂ h₃ h₄ ih =>
      obtain ⟨b, bs, rfl, hb, hbs⟩ := List.map_eq_cons_iff.1 hbs
      obtain ⟨-, hbody⟩ := ih hbs
      rw [Nesting.setting, hb]
      refine ⟨by simp [Outline.loopStarts, Frame.isLoop, Frame.construct, Nesting.Setting.enter],
        (hsame ?_).trans hbody⟩
      exact H.trans (H.reserved h₁) (H.trans (H.expression h₂) (H.trans (H.mark h₃) (H.block h₄)))
  | repeatUntil _ h₁ h₂ h₃ ih =>
      obtain ⟨b, bs, rfl, hb, hbs⟩ := List.map_eq_cons_iff.1 hbs
      obtain ⟨-, hbody⟩ := ih hbs
      rw [Nesting.setting, hb]
      refine ⟨by simp [Outline.loopStarts, Frame.isLoop, Frame.construct, Nesting.Setting.enter],
        (hsame ?_).trans hbody⟩
      exact H.trans (H.reserved h₁) (H.trans (H.mark h₂) (H.block h₃))
  | @body _ _ _ _ _ _ head _ _ hheader h₂ h₃ =>
      obtain ⟨b, bs, rfl, hb, hnil⟩ := List.map_eq_cons_iff.1 hbs
      obtain rfl := List.map_eq_nil_iff.1 hnil
      have hbody := hsame (H.trans (H.mark h₂) (H.block h₃))
      rw [hheader.body_eq, Option.map_some] at hbody
      rw [Nesting.setting, hb, hbody, Frame.construct]
      cases head.isFunc
      all_goals
        exact ⟨by simp [Outline.loopStarts, Frame.isLoop, Nesting.Setting.enter], rfl⟩

theorem Follows.placed {f₀ : Front} {fs : List Frame} {cur : Stmt} {s : Compiler}
    (hf : Follows fs cur s) (hr : Reading f₀ fs cur s.front) (h₀ : f₀.body = none) : Placed s := by
  obtain ⟨hloops, hbody⟩ := setting_of_reading hr h₀ hf.blocks
  refine ⟨by rw [hf.loopStarts]; exact hloops, hbody, fun b bs hb hk => ?_⟩
  obtain ⟨k, fs, rfl, hconstruct, -⟩ := hf.top hb
  rw [hf.forward, Outline.forward]
  rw [hconstruct] at hk
  cases k with
  | whileDo | repeatUntil => simp [Frame.construct] at hk
  | _ => simp [Frame.fixup?]

/-! ### From statement to statement -/

/-- A place between two statements. -/
structure Stage (f₀ : Front) (names : List (List UInt8)) (s : Compiler) : Prop where
  outline : ∃ fs cur, Follows fs cur s ∧ Reading f₀ fs cur s.front
  named : ∃ rs, s.front.Named rs names

variable {f₀ : Front} {names : List (List UInt8)} {s : Compiler} {c₁ c₂ c₃ : Cursor}

theorem Stage.placed (h : Stage f₀ names s) (h₀ : f₀.body = none) : Placed s := by
  obtain ⟨fs, cur, hf, hr⟩ := h.outline
  exact hf.placed hr h₀

/-- The words of the statements that are read begin where they stand. -/
theorem word_of {x : Clause} (h : (Token.word x.word).Stands s.cursor c₁) :
    s.cursor.word = (some ⟨x.word, s.cursor.skipBlank.pos⟩, c₁) :=
  Cursor.word_iff.2 ⟨h, x.isWord_word, rfl⟩

/-- A statement that fits takes one place to the next. -/
theorem Stage.next {x : Clause} {w : WordToken} {bs : List Block} {t : Compiler}
    (h : Stage f₀ names s) (hword : s.cursor.word = (some w, c₁))
    (hst : statementAt w { s with cursor := c₁ } = .ok () t)
    (hpasses : Passes (x.defines ++ names) bs c₂ t)
    (hsemi : (Token.symbol Symbol.semicolon).Stands c₂ c₃) :
    symbol Symbol.semicolon t = .ok true { t with cursor := c₃ } ∧
      Stage f₀ (x.defines ++ names) { t with cursor := c₃ } := by
  obtain ⟨fs, cur, hf, hr⟩ := h.outline
  have hsymbol : symbol Symbol.semicolon t = .ok true { t with cursor := c₃ } :=
    symbol_of (hsemi.of_skipBlank_eq hpasses.cursor)
  have hturn : Turn s w t { t with cursor := c₃ } :=
    ⟨congrArg Prod.fst hword, by rw [hword]; exact hst, hsymbol⟩
  obtain ⟨fs', cur', -, hf', hr', -⟩ := hturn.continues hf hr
  obtain ⟨rs, hn⟩ := hpasses.named
  exact ⟨hsymbol, ⟨fs', cur', hf', hr'⟩, rs,
    hn.kept (hn.sound.kept rfl rfl) fun _ hid => .inl ⟨hid, rfl⟩⟩

theorem Stage.mono {names' : List (List UInt8)} (h : Stage f₀ names s)
    (hsub : ∀ name ∈ names, name ∈ names') : Stage f₀ names' s := by
  obtain ⟨rs, hn⟩ := h.named
  exact ⟨h.outline, rs, hn.sound, fun id hid hv => hsub _ (hn.valued id hid hv)⟩

/-- A statement comes next. -/
theorem statements_of_word {x : Clause} (h : (Token.word x.word).Stands s.cursor c₁) (fuel : Nat) :
    statements (fuel + 1) s =
      ((do
        statementAt ⟨x.word, s.cursor.skipBlank.pos⟩
        if ← symbol Symbol.semicolon then statements fuel
        else if ← read Cursor.atEnd then failHere (.endOfInput (.symbol Symbol.semicolon))
        else failHere .trailingInput : Compile Unit) { s with cursor := c₁ }) := by
  have hend : s.cursor.atEnd = (false, s.cursor.skipBlank) := by
    obtain ⟨b, hb, -⟩ := Ascii.isWord_head? x.isWord_word
    have hhead := h.head? hb
    cases hrest : s.cursor.skipBlank.rest with
    | nil => rw [hrest] at hhead; cases hhead
    | cons b' bs => simp [Cursor.atEnd, hrest]
  have hword : s.cursor.skipBlank.word = (some ⟨x.word, s.cursor.skipBlank.pos⟩, c₁) := by
    rw [Cursor.word_skipBlank, word_of h]
  simp only [statements, statement, bind, EStateM.bind, read_of hend, Bool.false_eq_true, if_false]
  simp only [read, hword]

/-- The first statement that does not fit has the error in it. -/
def Misfit (hs : List Nesting.Head) (e : CompileError) : Prop :=
  ∃ before h after blocks, hs = before ++ h :: after ∧ Nesting.run [] before = some blocks ∧
    Nesting.step blocks h = none ∧ e.cause.number ∈ [301, 306, 307, 308] ∧
    h.start ≤ e.start ∧ e.stop ≤ h.finish

theorem Misfit.run_eq {hs : List Nesting.Head} {e : CompileError} (h : Misfit hs e) :
    Nesting.run [] hs = none := by
  obtain ⟨before, h, after, blocks, rfl, hrun, hstep, -⟩ := h
  rw [Nesting.run_append, hrun, Option.bind_some, Nesting.run, hstep]
  rfl

/-- A run over statements leaves their blocks open, gives up for want of room, or stops at the
first statement that does not fit. -/
def Ends (hs : List Nesting.Head) : EStateM.Result CompileError Compiler Unit → Prop
  | .ok _ t => Nesting.run [] hs = some t.blocks.items
  | .error e _ => e.cause.IsCapacity ∨ Misfit hs e

/-- What one statement does to a run. -/
theorem ends_turn {x : Clause} {names : List (List UInt8)} {hs₀ hs : List Nesting.Head}
    {h : Nesting.Head} {fuel : Nat} (h₀ : f₀.body = none) (hstage : Stage f₀ names s)
    (hrun : Nesting.run [] hs₀ = some s.blocks.items)
    (hword : (Token.word x.word).Stands s.cursor c₁) (hrest : Spans x.rest c₁ c₂)
    (hsemi : (Token.symbol Symbol.semicolon).Stands c₂ c₃)
    (hh : h = ⟨x.control, s.cursor.skipBlank.pos, c₁.pos, c₂.skipBlank.pos⟩)
    (hwf : ∀ bs, Nesting.step s.blocks.items h = some bs → x.WellFormed names)
    (hnext : ∀ t, Nesting.step s.blocks.items h = some t.blocks.items → t.cursor = c₃ →
      Stage f₀ (x.defines ++ names) t → Ends (hs₀ ++ h :: hs) (statements fuel t)) :
    Ends (hs₀ ++ h :: hs) (statements (fuel + 1) s) := by
  obtain ⟨rs, hn⟩ := hstage.named
  have hplaced : Placed { s with cursor := c₁ } :=
    ⟨(hstage.placed h₀).loops, (hstage.placed h₀).body, (hstage.placed h₀).forward⟩
  have hnamed : ({ s with cursor := c₁ } : Compiler).front.Named rs names :=
    (Comes.goto hn (rfl : c₁.skipBlank = _)).named
  obtain ⟨w, hw⟩ : ∃ w : WordToken, w = ⟨x.word, s.cursor.skipBlank.pos⟩ := ⟨_, rfl⟩
  have hstop : w.stop = c₁.pos := by rw [hw, hword.pos]; rfl
  have hh : h = ⟨x.control, w.start, w.stop, c₂.skipBlank.pos⟩ := by rw [hstop, hw, hh]
  rw [statements_of_word hword, ← hw]
  cases hstep : Nesting.step s.blocks.items h with
  | none =>
      -- The statement does not fit: the run ends here, with the open blocks as they are.
      have hrefused := refuses_statementAt hplaced (show w.bytes = x.word by rw [hw]) hrest hsemi
        (Nat.le_of_eq hstop) (hh ▸ hstep)
      obtain ⟨e, t, herror, hnumber, hfrom, hto⟩ := hrefused.bind
      rw [herror]
      refine .inr ⟨hs₀, h, hs, s.blocks.items, rfl, hrun, hstep, hnumber, ?_, ?_⟩
      · rw [hh]
        exact hfrom
      · rw [hh]
        exact hto
  | some bs =>
      -- It fits, so it is read or runs out of some room.
      have hsettles := settles_statementAt hplaced hnamed (hwf bs hstep)
        (show w.bytes = x.word by rw [hw]) hrest hsemi (hh ▸ hstep)
      cases hst : statementAt w { s with cursor := c₁ } with
      | error e t =>
          rw [hst] at hsettles
          simp only [bind, EStateM.bind, hst]
          exact .inl hsettles
      | ok u t =>
          rw [hst] at hsettles
          obtain ⟨hsymbol, hstage⟩ := hstage.next (hw ▸ word_of hword) hst hsettles hsemi
          simp only [bind, EStateM.bind, hst, hsymbol, if_true]
          exact hnext _ (hstep.trans (congrArg some hsettles.blocks.symm)) rfl hstage

theorem ends_statements {cs done rest : List Clause} {hs₀ hs : List Nesting.Head} {c' : Cursor}
    (hwf : ∀ before x after, cs = before ++ x :: after →
      Nesting.Completable ((before ++ [x]).map Clause.control) →
      x.WellFormed (before.flatMap Clause.defines))
    (h₀ : f₀.body = none) (hcs : cs = done ++ rest)
    (hdone : Nesting.controls hs₀ = done.map Clause.control)
    (hrun : Nesting.run [] hs₀ = some s.blocks.items)
    (hstage : Stage f₀ (done.flatMap Clause.defines) s)
    (hheads : Clause.Heads s.cursor rest hs c') (hend : c'.skipBlank.rest = [])
    {fuel : Nat} (hfuel : rest.length < fuel) : Ends (hs₀ ++ hs) (statements fuel s) := by
  induction rest generalizing done hs₀ hs s fuel with
  | nil =>
      obtain ⟨fuel, rfl⟩ : ∃ k, fuel = k + 1 := ⟨fuel - 1, by omega⟩
      cases hheads with
      | nil hskip =>
          have hatEnd : s.cursor.atEnd = (true, s.cursor.skipBlank) := by
            rw [hskip] at hend
            simp [Cursor.atEnd, hend]
          rw [List.append_nil]
          simp only [statements, bind, EStateM.bind, read_of hatEnd, if_true]
          exact hrun
  | cons x rest ih =>
      obtain ⟨fuel, rfl⟩ : ∃ k, fuel = k + 1 := ⟨fuel - 1, by omega⟩
      cases hheads with
      | @cons _ c₁ c₂ c₃ _ _ _ hs hword hrest hsemi htail =>
          obtain ⟨h, hh⟩ : ∃ h : Nesting.Head,
              h = ⟨x.control, s.cursor.skipBlank.pos, c₁.pos, c₂.skipBlank.pos⟩ := ⟨_, rfl⟩
          rw [← hh]
          have hcontrols : Nesting.controls (hs₀ ++ [h]) = (done ++ [x]).map Clause.control := by
            simp [hdone, hh]
          -- What has been read so far stays completable when this statement fits.
          have hstep' {bs : List Block} (hstep : Nesting.step s.blocks.items h = some bs) :
              Nesting.run [] (hs₀ ++ [h]) = some bs := by rwa [Nesting.run_snoc, hrun]
          refine ends_turn h₀ hstage hrun hword hrest hsemi hh (fun bs hstep => ?_)
            fun t hstep hcursor hstage => ?_
          · refine hwf done x rest hcs ?_
            rw [← hcontrols]
            exact Nesting.completable_iff.2 ⟨bs, hstep' hstep⟩
          · rw [List.append_cons]
            refine ih (by rw [hcs, ← List.append_cons]) hcontrols (hstep' hstep)
              (hstage.mono ?_) (hcursor ▸ htail) (by simpa using hfuel)
            intro name hname
            simpa [or_comm] using hname

theorem stage_start {source : Source} {limits : Limits} (hv : limits.validate = .ok ()) :
    Stage (Grammar.start source limits) [] (start source limits) where
  outline := ⟨[], .skip, follows_start source limits, .top .nil⟩
  named := by
    refine ⟨[], sound_start source hv, ?_⟩
    rintro id ⟨n, hn⟩
    cases hn

/-- What is left open at the end is an error, too. -/
def EndsWhole (hs : List Nesting.Head) : EStateM.Result CompileError Compiler Unit → Prop
  | .ok _ _ => Nesting.run [] hs = some []
  | .error e _ => e.cause.IsCapacity ∨ Misfit hs e ∨ ∃ b bs, Nesting.run [] hs = some (b :: bs) ∧
      e = ⟨.unterminated b.construct.word, b.start, b.stop⟩

theorem ends_program {source : Source} {limits : Limits} {cs : List Clause}
    {hs : List Nesting.Head} {c' : Cursor} (hv : limits.validate = .ok ())
    (hwf : ∀ before x after, cs = before ++ x :: after →
      Nesting.Completable ((before ++ [x]).map Clause.control) →
      x.WellFormed (before.flatMap Clause.defines))
    (hheads : Clause.Heads ⟨0, source.bytes.toList⟩ cs hs c') (hend : c'.skipBlank.rest = []) :
    EndsWhole hs (program (start source limits)) := by
  have hlength : cs.length < source.bytes.toList.length + 1 := Nat.lt_succ_of_le
    (Nat.le_trans (Clause.length_le_script cs)
      (hheads.spans.length_le (Clause.visible_script cs)))
  have hends : Ends ([] ++ hs)
      (statements (source.bytes.toList.length + 1) (start source limits)) :=
    ends_statements hwf rfl (List.nil_append cs).symm rfl rfl (stage_start hv) hheads hend hlength
  rw [List.nil_append] at hends
  have hrest : (start source limits).cursor.rest = source.bytes.toList := rfl
  simp only [program, bind, EStateM.bind, Action.get_apply, hrest]
  cases hst : statements (source.bytes.toList.length + 1) (start source limits) with
  | error e t =>
      rw [hst] at hends
      exact hends.imp_right .inl
  | ok u t =>
      rw [hst] at hends
      cases hb : t.blocks.items with
      | cons b bs =>
          simp only [BoundedStack.top?, hb, List.head?_cons, Action.throw_apply]
          exact .inr (.inr ⟨b, bs, hb ▸ hends, rfl⟩)
      | nil =>
          simp only [BoundedStack.top?, hb, List.head?_nil]
          have hstop : Settles (fun _ => Reopened t t.blocks.items) (emitOp .stop t) :=
            settles_emitOp .stop
          cases hemit : emitOp .stop t with
          | ok v u =>
              have hrun : Nesting.run [] hs = some t.blocks.items := hends
              exact hrun.trans (congrArg some hb)
          | error e u =>
              rw [hemit] at hstop
              exact .inl hstop

end Compiler

namespace Program

/-- What compiling the statements of a text comes to. -/
theorem ends_compile {source : Source} {limits : Limits} {cs : List Clause}
    {hs : List Nesting.Head} {c' : Cursor}
    (hwf : ∀ before x after, cs = before ++ x :: after →
      Nesting.Completable ((before ++ [x]).map Clause.control) →
      x.WellFormed (before.flatMap Clause.defines))
    (hheads : Clause.Heads ⟨0, source.bytes.toList⟩ cs hs c') (hend : c'.skipBlank.rest = []) :
    (∃ p, compile source limits = .ok p ∧ Nesting.run [] hs = some []) ∨
      ∃ e, compile source limits = .error e ∧ (e.cause.IsCapacity ∨ Compiler.Misfit hs e ∨
        ∃ b bs, Nesting.run [] hs = some (b :: bs) ∧
          e = ⟨.unterminated b.construct.word, b.start, b.stop⟩) := by
  unfold compile compileWith
  cases hv : limits.validate with
  | error e => exact .inr ⟨_, rfl, .inl trivial⟩
  | ok u =>
      have hends := Compiler.ends_program hv hwf hheads hend
      cases hp : Compiler.program (Compiler.start source limits) with
      | error e s =>
          rw [hp] at hends
          exact .inr ⟨e, rfl, hends⟩
      | ok u s =>
          rw [hp] at hends
          have hfinish := Compiler.finish_of_program hp
          exact .inl ⟨⟨s.code.code, s.store, s.sourceMap⟩, by simp only [hfinish], hends⟩

/-- The error is in the first statement up to which the text cannot be completed. -/
def Misplaced (text : List UInt8) (cs : List Clause) (e : CompileError) : Prop :=
  ∃ before x after start stop finish, cs = before ++ x :: after ∧
    Nesting.Completable (before.map Clause.control) ∧
    ¬ Nesting.Completable ((before ++ [x]).map Clause.control) ∧
    x.Stands text before after start stop finish ∧ e.cause.number ∈ [301, 306, 307, 308] ∧
    start ≤ e.start ∧ e.stop ≤ finish

/-- Only closing words are missing, and the error is at the word that opened the innermost block:
what stands behind it is properly nested. -/
def Unfinished (text : List UInt8) (cs : List Clause) (e : CompileError) : Prop :=
  (∃ ks : List Construct, Nesting.Derives (cs.map Clause.control ++ ks.map Control.closer)) ∧
    ∃ before x after start stop finish k s, cs = before ++ x :: after ∧
      x.control.opens? = some k ∧ Nesting.Sequence s (after.map Clause.control) ∧
      x.Stands text before after start stop finish ∧ e = ⟨.unterminated k.word, start, stop⟩

section

variable {text : List UInt8} {cs : List Clause} {hs : List Nesting.Head} {c' : Cursor}

theorem Misplaced.of_misfit {e : CompileError} (hheads : Clause.Heads ⟨0, text⟩ cs hs c')
    (hend : c'.skipBlank.rest = []) (h : Compiler.Misfit hs e) : Misplaced text cs e := by
  obtain ⟨before, h, after, blocks, rfl, hrun, hstep, hnumber, hfrom, hto⟩ := h
  obtain ⟨pre, x, post, rfl, hpre, hx, -, hstands⟩ := hheads.stands hend
  refine ⟨pre, x, post, _, _, _, rfl, ?_, ?_, hstands, hnumber, hfrom, hto⟩
  · rw [hpre]
    exact Nesting.completable_iff.2 ⟨blocks, hrun⟩
  · have hall : (pre ++ [x]).map Clause.control = Nesting.controls (before ++ [h]) := by
      simp [hpre, hx]
    rw [hall, Nesting.completable_iff, Nesting.run_snoc, hrun]
    rintro ⟨bs, hbs⟩
    rw [Option.bind_some, hstep] at hbs
    cases hbs

theorem Unfinished.of_run {b : Block} {bs : List Block}
    (hheads : Clause.Heads ⟨0, text⟩ cs hs c') (hend : c'.skipBlank.rest = [])
    (hrun : Nesting.run [] hs = some (b :: bs)) :
    Unfinished text cs ⟨.unterminated b.construct.word, b.start, b.stop⟩ := by
  have hopened := Nesting.opened_of_run hrun
  refine ⟨⟨(b :: bs).map Block.construct, ?_⟩, ?_⟩
  · rw [List.map_map, ← hheads.controls]
    exact hopened.completed
  · obtain ⟨before, o, after, k, rfl, hopens, hb, s, hpiece⟩ := hopened.innermost
    obtain ⟨pre, x, post, rfl, -, hx, hpost, hstands⟩ := hheads.stands hend
    refine ⟨pre, x, post, _, _, _, k, s, rfl, by rw [hx, hopens], ?_, hstands, ?_⟩
    · rw [hpost]
      exact hpiece
    · rw [hb]
      rfl

end

/-! Two small texts -/

/-- The statements of `proc p(); repeat; break; until 2; end;`. -/
def looping : List Clause :=
  [.openBody false ⟨[112], by decide, by decide⟩ [], .openRepeat, .exitLoop,
    .closeRepeat (.numeral ⟨[50], .int 2, by decide⟩), .closeBody]

theorem renders_looping : Renders (Clause.script looping)
    (Source.ofText "m" "proc p();repeat;break;until 2;end;").bytes.toList := by
  rw [show (Source.ofText "m" "proc p();repeat;break;until 2;end;").bytes.toList =
    Ascii.bytes "proc p();repeat;break;until 2;end;" by decide +kernel]
  exact @Renders.token _ _ [] _ rfl rfl <| @Renders.token _ _ [32] _ rfl rfl <|
    @Renders.token _ _ [] _ rfl rfl <| @Renders.token _ _ [] _ rfl rfl <|
    @Renders.token _ _ [] _ rfl rfl <| @Renders.token _ _ [] _ rfl rfl <|
    @Renders.token _ _ [] _ rfl rfl <| @Renders.token _ _ [] _ rfl rfl <|
    @Renders.token _ _ [] _ rfl rfl <| @Renders.token _ _ [] _ rfl rfl <|
    @Renders.token _ _ [32] _ rfl rfl <| @Renders.token _ _ [] _ rfl rfl <|
    @Renders.token _ _ [] _ rfl rfl <| @Renders.token _ _ [] _ rfl rfl <| .done rfl

theorem renders_crossed : Renders (Clause.script [.openRepeat, .closeWhile])
    (Source.ofText "m" "repeat;wend;").bytes.toList := by
  rw [show (Source.ofText "m" "repeat;wend;").bytes.toList = Ascii.bytes "repeat;wend;" by
    decide +kernel]
  exact @Renders.token _ _ [] _ rfl rfl <| @Renders.token _ _ [] _ rfl rfl <|
    @Renders.token _ _ [] _ rfl rfl <| @Renders.token _ _ [] _ rfl rfl <| .done rfl

theorem wellFormed_looping (before : List Clause) (x : Clause) (after : List Clause)
    (h : looping = before ++ x :: after) : x.WellFormed (before.flatMap Clause.defines) := by
  cases before with
  | nil =>
      obtain ⟨rfl, -⟩ := List.cons.inj h
      exact ⟨trivial, by decide, by simp, by simp [Clause.stores], List.nodup_nil⟩
  | cons y before =>
      -- Only the first statement names anything.
      have hx : x ∈ looping.tail := by simp [h]
      simp only [looping, List.tail_cons, List.mem_cons, List.not_mem_nil, or_false] at hx
      obtain rfl | rfl | rfl | rfl := hx
      all_goals
        exact ⟨by simp [Clause.phrases, Phrase.AllStratified, Phrase.Stratified], by decide,
          by simp [Clause.defines], by simp [Clause.stores], List.nodup_nil⟩

theorem wellFormed_crossed (before : List Clause) (x : Clause) (after : List Clause)
    (h : [.openRepeat, .closeWhile] = before ++ x :: after) :
    x.WellFormed (before.flatMap Clause.defines) := by
  have hx : x ∈ [Clause.openRepeat, .closeWhile] := by simp [h]
  simp only [List.mem_cons, List.not_mem_nil, or_false] at hx
  obtain rfl | rfl := hx
  all_goals
    exact ⟨trivial, by decide, by simp [Clause.defines], by simp [Clause.stores], List.nodup_nil⟩

/-! The equivalence -/

/-- Statements that are well formed by themselves compile, room apart, exactly if their words are
derived from the grammar of blocks. Otherwise the error is at the first statement that no
continuation can follow, or at the innermost block that is left open. -/
theorem compile_iff_derives {source : Source} {limits : Limits} {cs : List Clause}
    (htext : Renders (Clause.script cs) source.bytes.toList)
    (hwf : ∀ before x after, cs = before ++ x :: after →
      Nesting.Completable ((before ++ [x]).map Clause.control) →
      x.WellFormed (before.flatMap Clause.defines))
    (hroom : ∀ e, compile source limits = .error e → ¬ e.cause.IsCapacity) :
    ((∃ p, compile source limits = .ok p) ↔ Nesting.Derives (cs.map Clause.control)) ∧
      ∀ e, compile source limits = .error e →
        Misplaced source.bytes.toList cs e ∨ Unfinished source.bytes.toList cs e := by
  obtain ⟨c', hspans, hend⟩ := htext.spans_all (Clause.visible_script cs) 0
  obtain ⟨hs, hheads⟩ := Clause.exists_heads hspans
  have hcontrols := hheads.controls
  have hderives : Nesting.Derives (cs.map Clause.control) ↔ Nesting.run [] hs = some [] := by
    rw [← hcontrols]
    exact Nesting.derives_iff
  obtain ⟨p, hok, hrun⟩ | ⟨e, herror, hcases⟩ := ends_compile hwf hheads hend
  · refine ⟨⟨fun _ => hderives.2 hrun, fun _ => ⟨p, hok⟩⟩, fun e herror => ?_⟩
    rw [hok] at herror
    cases herror
  · have hrun : Nesting.run [] hs ≠ some [] := by
      obtain hgave | hmisfit | ⟨b, bs, hrun, -⟩ := hcases
      · exact absurd hgave (hroom e herror)
      · simp [hmisfit.run_eq]
      · simp [hrun]
    refine ⟨⟨?_, fun h => absurd (hderives.1 h) hrun⟩, fun e' he' => ?_⟩
    · rintro ⟨p, hok⟩
      rw [herror] at hok
      cases hok
    · obtain rfl := Except.error.inj (herror.symm.trans he')
      obtain hgave | hmisfit | ⟨b, bs, hrun, rfl⟩ := hcases
      · exact absurd hgave (hroom e herror)
      · exact .inl (.of_misfit hheads hend hmisfit)
      · exact .inr (.of_run hheads hend hrun)

/-- The first text compiles; in the second, the second statement is the error. -/
theorem compile_iff_derives_of_loops :
    (∃ p, compile (.ofText "m" "proc p();repeat;break;until 2;end;") default = .ok p) ∧
      Nesting.Derives (looping.map Clause.control) ∧
      ∃ e, compile (.ofText "m" "repeat;wend;") default = .error e ∧
        e.cause = .mismatched "wend" "repeat" ∧
        Misplaced (Source.ofText "m" "repeat;wend;").bytes.toList [.openRepeat, .closeWhile] e := by
  have hlooping : (match compile (.ofText "m" "proc p();repeat;break;until 2;end;") default with
      | .error e => some e.cause
      | .ok _ => none) = none := by decide +kernel
  have hcrossed : (match compile (.ofText "m" "repeat;wend;") default with
      | .error e => some e.cause
      | .ok _ => none) = some (.mismatched "wend" "repeat") := by decide +kernel
  cases hok : compile (.ofText "m" "proc p();repeat;break;until 2;end;") default with
  | error e =>
      rw [hok] at hlooping
      cases hlooping
  | ok p =>
      have hroom : ∀ e, compile (.ofText "m" "proc p();repeat;break;until 2;end;") default =
          .error e → ¬ e.cause.IsCapacity := by simp [hok]
      have hderives := (compile_iff_derives renders_looping
        (fun before x after h _ => wellFormed_looping before x after h) hroom).1
      refine ⟨⟨p, rfl⟩, hderives.1 ⟨p, hok⟩, ?_⟩
      cases herror : compile (.ofText "m" "repeat;wend;") default with
      | ok p =>
          rw [herror] at hcrossed
          cases hcrossed
      | error e =>
          rw [herror] at hcrossed
          have hcause : e.cause = .mismatched "wend" "repeat" := Option.some.inj hcrossed
          have hroom : ∀ e', compile (.ofText "m" "repeat;wend;") default = .error e' →
              ¬ e'.cause.IsCapacity := by
            intro e' he'
            obtain rfl := Except.error.inj (herror.symm.trans he')
            rw [hcause]
            exact id
          obtain hmisplaced | ⟨-, _, _, _, _, _, _, _, _, -, -, -, -, rfl⟩ :=
            (compile_iff_derives renders_crossed
              (fun before x after h _ => wellFormed_crossed before x after h) hroom).2 e herror
          · exact ⟨e, rfl, hcause, hmisplaced⟩
          · cases hcause

end Program

end CellScript
