import CellScript.Compiler.State

/-!
The nesting of blocks.

Of a statement, the word that it begins with decides where it may stand: some words
open a block, some close one, and some are only allowed in certain blocks. The rules
are those of a context-free grammar (`Nesting.Sequence`), in which a block stands
between its opening and its closing word as one piece.

The compiler knows no such pieces. It keeps the blocks that are open on a stack and
looks at its top (`Nesting.step`). Both agree: the stack that the words of a text
lead to says what the text lacks to be derived, and when there is none, no
continuation helps (`Nesting.completable_iff`). The innermost open block has its
opening word in front of a piece that is complete (`Nesting.Opened`).
-/

namespace CellScript

/-- What a statement does to the nesting of blocks. -/
inductive Control where
  | plain
  | openIf
  | openElse
  | closeIf
  | openWhile
  | closeWhile
  | openRepeat
  | closeRepeat
  | openBody (isFunc : Bool)
  | closeBody
  | exitLoop
  /-- Leaves a body, with a value or without. -/
  | giveBack (value : Bool)
  deriving Repr, DecidableEq

def Construct.ofBody (isFunc : Bool) : Construct := if isFunc then .funcBody else .procBody

namespace Nesting

/-- Where a statement stands: outside of all blocks, in a loop, and in the body of a function
or procedure. -/
structure Setting where
  atTop : Bool
  inLoop : Bool
  /-- `some true` in a function, `some false` in a procedure. -/
  body : Option Bool
  deriving Repr, DecidableEq

namespace Setting

def top : Setting := ⟨true, false, none⟩

/-- The setting in a block. The loops around a body do not count in it. -/
def enter (k : Setting) : Construct → Setting
  | .ifBlock | .elseBlock => ⟨false, k.inLoop, k.body⟩
  | .whileLoop | .repeatLoop => ⟨false, true, k.body⟩
  | .funcBody => ⟨false, false, some true⟩
  | .procBody => ⟨false, false, some false⟩

end Setting

/-! ### The grammar -/

/-- Statements that are properly nested, in a setting. -/
inductive Sequence : Setting → List Control → Prop
  | nil {k : Setting} : Sequence k []
  | plain {k : Setting} {xs : List Control} : Sequence k xs → Sequence k (xs ++ [.plain])
  | exitLoop {k : Setting} {xs : List Control} :
      Sequence k xs → k.inLoop = true → Sequence k (xs ++ [.exitLoop])
  | giveBack {k : Setting} {xs : List Control} {isFunc : Bool} :
      Sequence k xs → k.body = some isFunc → Sequence k (xs ++ [.giveBack isFunc])
  | ifThen {k : Setting} {xs as : List Control} :
      Sequence k xs → Sequence (k.enter .ifBlock) as →
      Sequence k (xs ++ (.openIf :: as ++ [.closeIf]))
  | ifElse {k : Setting} {xs as bs : List Control} :
      Sequence k xs → Sequence (k.enter .ifBlock) as → Sequence (k.enter .elseBlock) bs →
      Sequence k (xs ++ (.openIf :: as ++ .openElse :: bs ++ [.closeIf]))
  | whileDo {k : Setting} {xs as : List Control} :
      Sequence k xs → Sequence (k.enter .whileLoop) as →
      Sequence k (xs ++ (.openWhile :: as ++ [.closeWhile]))
  | repeatUntil {k : Setting} {xs as : List Control} :
      Sequence k xs → Sequence (k.enter .repeatLoop) as →
      Sequence k (xs ++ (.openRepeat :: as ++ [.closeRepeat]))
  | define {k : Setting} {xs as : List Control} {isFunc : Bool} :
      Sequence k xs → k.atTop = true → Sequence (k.enter (.ofBody isFunc)) as →
      Sequence k (xs ++ (.openBody isFunc :: as ++ [.closeBody]))

/-- The words of a whole text. -/
abbrev Derives (xs : List Control) : Prop := Sequence .top xs

/-- More words make the text whole. -/
def Completable (xs : List Control) : Prop := ∃ ys, Derives (xs ++ ys)

theorem Sequence.append {k : Setting} {xs ys : List Control} (hx : Sequence k xs)
    (hy : Sequence k ys) : Sequence k (xs ++ ys) := by
  induction hy with
  | nil => rwa [List.append_nil]
  | plain _ ih => rw [← List.append_assoc]; exact (ih hx).plain
  | exitLoop _ hk ih => rw [← List.append_assoc]; exact (ih hx).exitLoop hk
  | giveBack _ hk ih => rw [← List.append_assoc]; exact (ih hx).giveBack hk
  | ifThen _ ha ih _ => rw [← List.append_assoc]; exact (ih hx).ifThen ha
  | ifElse _ ha hb ih _ _ => rw [← List.append_assoc]; exact (ih hx).ifElse ha hb
  | whileDo _ ha ih _ => rw [← List.append_assoc]; exact (ih hx).whileDo ha
  | repeatUntil _ ha ih _ => rw [← List.append_assoc]; exact (ih hx).repeatUntil ha
  | define _ hk ha ih _ => rw [← List.append_assoc]; exact (ih hx).define hk ha

end Nesting

/-! ### The stack of open blocks -/

namespace Control

/-- The block that a word opens. -/
def opens? : Control → Option Construct
  | openIf => some .ifBlock
  | openElse => some .elseBlock
  | openWhile => some .whileLoop
  | openRepeat => some .repeatLoop
  | openBody isFunc => some (.ofBody isFunc)
  | _ => none

/-- The blocks that a word can close. -/
def closes : Control → List Construct
  | openElse => [.ifBlock]
  | closeIf => [.ifBlock, .elseBlock]
  | closeWhile => [.whileLoop]
  | closeRepeat => [.repeatLoop]
  | closeBody => [.funcBody, .procBody]
  | _ => []

/-- The word that only closes a block. -/
def closer : Construct → Control
  | .ifBlock | .elseBlock => closeIf
  | .whileLoop => closeWhile
  | .repeatLoop => closeRepeat
  | .funcBody | .procBody => closeBody

/-- Whether a word may stand in a setting, if it closes nothing. -/
def fits (k : Nesting.Setting) : Control → Bool
  | exitLoop => k.inLoop
  | giveBack value => k.body == some value
  | openBody _ => k.atTop
  | _ => true

end Control

namespace Nesting

/-- What a statement does to the nesting, the range of its first word, and where it ends. -/
structure Head where
  control : Control
  start : Nat
  stop : Nat
  finish : Nat
  deriving Repr, DecidableEq

def Head.block (h : Head) (k : Construct) : Block := ⟨k, h.start, h.stop⟩

def controls (hs : List Head) : List Control := hs.map Head.control

@[simp] theorem controls_append (hs hs' : List Head) :
    controls (hs ++ hs') = controls hs ++ controls hs' := List.map_append

@[simp] theorem controls_cons (h : Head) (hs : List Head) :
    controls (h :: hs) = h.control :: controls hs := rfl

@[simp] theorem controls_nil : controls [] = [] := rfl

/-- The setting in open blocks, the innermost first. -/
def setting : List Block → Setting
  | [] => .top
  | b :: bs => (setting bs).enter b.construct

theorem atTop_setting {bs : List Block} (h : (setting bs).atTop = true) : bs = [] := by
  cases bs with
  | nil => rfl
  | cons b bs =>
      rw [setting] at h
      cases hb : b.construct <;> simp [Setting.enter, hb] at h

/-- Takes the innermost block away, which has to be one of `ks`. -/
def close : List Construct → List Block → Option (List Block)
  | [], bs => some bs
  | _ :: _, [] => none
  | k :: ks, b :: bs => if b.construct ∈ k :: ks then some bs else none

/-- The blocks that are open behind a statement, if it may stand in the blocks before. -/
def step (bs : List Block) (h : Head) : Option (List Block) :=
  if h.control.fits (setting bs) then
    (close h.control.closes bs).map ((h.control.opens?.map h.block).toList ++ ·)
  else none

def run (bs : List Block) : List Head → Option (List Block)
  | [] => some bs
  | h :: hs => (step bs h).bind (run · hs)

variable {bs bs' : List Block} {h o : Head} {hs hs' : List Head}

theorem run_append (bs : List Block) (hs hs' : List Head) :
    run bs (hs ++ hs') = (run bs hs).bind (run · hs') := by
  induction hs generalizing bs with
  | nil => rfl
  | cons h hs ih =>
      rw [List.cons_append, run, run]
      cases step bs h with
      | none => rfl
      | some bs => exact ih bs

theorem run_singleton (bs : List Block) (h : Head) : run bs [h] = step bs h := by
  rw [run]
  cases step bs h <;> rfl

theorem run_snoc (bs : List Block) (hs : List Head) (h : Head) :
    run bs (hs ++ [h]) = (run bs hs).bind (step · h) := by
  rw [run_append]
  simp only [run_singleton]

theorem step_eq_some : step bs h = some bs' ↔ h.control.fits (setting bs) = true ∧
    ∃ bs₁, close h.control.closes bs = some bs₁ ∧
      bs' = (h.control.opens?.map h.block).toList ++ bs₁ := by
  rw [step]
  split
  · rename_i hfits
    rw [Option.map_eq_some_iff]
    simp only [hfits, true_and, @eq_comm _ _ bs']
  · rename_i hfits
    simp only [hfits, reduceCtorEq, false_and]

theorem step_eq_none : step bs h = none ↔ h.control.fits (setting bs) = false ∨
    close h.control.closes bs = none := by
  rw [step]
  cases h.control.fits (setting bs) <;> simp

theorem step_single (hopens : h.control.opens? = none) (hcloses : h.control.closes = [])
    (hfits : h.control.fits (setting bs) = true) : step bs h = some bs := by
  simp [step, hopens, hcloses, hfits, close]

theorem step_open {k : Construct} (hopens : h.control.opens? = some k)
    (hcloses : h.control.closes = []) (hfits : h.control.fits (setting bs) = true) :
    step bs h = some (h.block k :: bs) := by
  simp [step, hopens, hcloses, hfits, close]

theorem step_close {b : Block} (hopens : h.control.opens? = none)
    (hfits : ∀ s, h.control.fits s = true) (hb : b.construct ∈ h.control.closes) :
    step (b :: bs) h = some bs := by
  obtain ⟨k, ks, hcloses⟩ := List.exists_cons_of_ne_nil (List.ne_nil_of_mem hb)
  rw [hcloses] at hb
  simp [step, hopens, hcloses, hfits, close, List.mem_cons.1 hb]

theorem close_eq_some {k : Construct} {ks : List Construct} (hc : close (k :: ks) bs = some bs') :
    ∃ b, bs = b :: bs' ∧ b.construct ∈ k :: ks := by
  cases bs with
  | nil => cases hc
  | cons b bs =>
      rw [close] at hc
      split at hc
      · cases hc
        exact ⟨b, rfl, ‹_›⟩
      · cases hc

/-! ### What is derived leaves no block open -/

theorem exists_of_controls_append {xs ys : List Control} (h : controls hs = xs ++ ys) :
    ∃ hs₁ hs₂, hs = hs₁ ++ hs₂ ∧ controls hs₁ = xs ∧ controls hs₂ = ys :=
  List.map_eq_append_iff.1 h

theorem exists_of_controls_cons {x : Control} {xs : List Control} (h : controls hs = x :: xs) :
    ∃ o hs', hs = o :: hs' ∧ o.control = x ∧ controls hs' = xs :=
  List.map_eq_cons_iff.1 h

/-- A block that is opened and closed leaves the stack as it was. -/
theorem run_block {k : Construct} {x c : Control} {as : List Control}
    (hopens : x.opens? = some k) (hcloses : x.closes = []) (hfits : x.fits (setting bs) = true)
    (hc : c.opens? = none) (hcfits : ∀ s, c.fits s = true)
    (hinner : ∀ o hs', controls hs' = as →
      ∃ b, b.construct ∈ c.closes ∧ run (Head.block o k :: bs) hs' = some (b :: bs))
    (h : controls hs = x :: as ++ [c]) : run bs hs = some bs := by
  obtain ⟨hs₁, hs₂, rfl, h₁, h₂⟩ := exists_of_controls_append h
  obtain ⟨o, has, rfl, rfl, has'⟩ := exists_of_controls_cons h₁
  obtain ⟨e, _, rfl, rfl, hnil⟩ := exists_of_controls_cons h₂
  obtain rfl := List.map_eq_nil_iff.1 hnil
  obtain ⟨b, hb, hrun⟩ := hinner o has has'
  have hclose : step (b :: bs) e = some bs := step_close hc hcfits hb
  rw [run_append, run, step_open hopens hcloses hfits, Option.bind_some, hrun, Option.bind_some,
    run_singleton, hclose]

/-- Words that are derived in a setting may stand in every stack that has it, and leave it. -/
theorem run_of_sequence {k : Setting} {xs : List Control} (hx : Sequence k xs) :
    ∀ {bs hs}, setting bs = k → controls hs = xs → run bs hs = some bs := by
  have hafter {bs hs hs'} (h : run bs hs = some bs) (h' : run bs hs' = some bs) :
      run bs (hs ++ hs') = some bs := by rw [run_append, h, Option.bind_some, h']
  have hsingle {bs hs x} (hopens : Control.opens? x = none) (hcloses : x.closes = [])
      (hfits : x.fits (setting bs) = true) (h : controls hs = [x]) : run bs hs = some bs := by
    obtain ⟨o, _, rfl, rfl, hnil⟩ := exists_of_controls_cons h
    obtain rfl := List.map_eq_nil_iff.1 hnil
    rw [run_singleton, step_single hopens hcloses hfits]
  induction hx with
  | nil =>
      intro bs hs _ h
      obtain rfl := List.map_eq_nil_iff.1 h
      rfl
  | plain _ ih =>
      intro bs hs hk h
      obtain ⟨hs₁, hs₂, rfl, h₁, h₂⟩ := exists_of_controls_append h
      exact hafter (ih hk h₁) (hsingle rfl rfl rfl h₂)
  | exitLoop _ hloop ih =>
      intro bs hs hk h
      obtain ⟨hs₁, hs₂, rfl, h₁, h₂⟩ := exists_of_controls_append h
      exact hafter (ih hk h₁) (hsingle rfl rfl (hk ▸ hloop) h₂)
  | giveBack _ hbody ih =>
      intro bs hs hk h
      obtain ⟨hs₁, hs₂, rfl, h₁, h₂⟩ := exists_of_controls_append h
      exact hafter (ih hk h₁) (hsingle rfl rfl (by simp [Control.fits, hk, hbody]) h₂)
  | ifThen _ _ ih iha =>
      intro bs hs hk h
      obtain ⟨hs₁, hs₂, rfl, h₁, h₂⟩ := exists_of_controls_append h
      refine hafter (ih hk h₁) (run_block rfl rfl rfl rfl (fun _ => rfl) (fun o hs' h' => ?_) h₂)
      exact ⟨o.block .ifBlock, by simp [Head.block, Control.closes], iha (by rw [← hk]; rfl) h'⟩
  | ifElse _ _ _ ih iha ihb =>
      intro bs hs hk h
      obtain ⟨hs₁, hs₂, rfl, h₁, h₂⟩ := exists_of_controls_append h
      rw [List.cons_append] at h₂
      refine hafter (ih hk h₁) (run_block rfl rfl rfl rfl (fun _ => rfl) (fun o hs' h' => ?_) h₂)
      obtain ⟨ha, hb, rfl, ha', hb'⟩ := exists_of_controls_append h'
      obtain ⟨e, hb, rfl, he, hb'⟩ := exists_of_controls_cons hb'
      -- The dividing word puts its own block in the place of the first.
      have hdivide : step (o.block .ifBlock :: bs) e = some (e.block .elseBlock :: bs) := by
        simp [step, he, Control.fits, Control.closes, Control.opens?, close, Head.block]
      refine ⟨e.block .elseBlock, by simp [Head.block, Control.closes], ?_⟩
      rw [run_append, iha (by rw [← hk]; rfl) ha', Option.bind_some, run, hdivide,
        Option.bind_some, ihb (by rw [← hk]; rfl) hb']
  | whileDo _ _ ih iha =>
      intro bs hs hk h
      obtain ⟨hs₁, hs₂, rfl, h₁, h₂⟩ := exists_of_controls_append h
      refine hafter (ih hk h₁) (run_block rfl rfl rfl rfl (fun _ => rfl) (fun o hs' h' => ?_) h₂)
      exact ⟨o.block .whileLoop, by simp [Head.block, Control.closes], iha (by rw [← hk]; rfl) h'⟩
  | repeatUntil _ _ ih iha =>
      intro bs hs hk h
      obtain ⟨hs₁, hs₂, rfl, h₁, h₂⟩ := exists_of_controls_append h
      refine hafter (ih hk h₁) (run_block rfl rfl rfl rfl (fun _ => rfl) (fun o hs' h' => ?_) h₂)
      exact ⟨o.block .repeatLoop, by simp [Head.block, Control.closes], iha (by rw [← hk]; rfl) h'⟩
  | @define _ _ _ isFunc _ htop _ ih iha =>
      intro bs hs hk h
      obtain ⟨hs₁, hs₂, rfl, h₁, h₂⟩ := exists_of_controls_append h
      refine hafter (ih hk h₁)
        (run_block rfl rfl (hk ▸ htop) rfl (fun _ => rfl) (fun o hs' h' => ?_) h₂)
      refine ⟨o.block (.ofBody isFunc), ?_, iha (by rw [← hk]; rfl) h'⟩
      cases isFunc <;> simp [Head.block, Control.closes, Construct.ofBody]

/-! ### What leaves blocks open lacks their closing words -/

/-- The statements leave the blocks open: behind the word that opened a block stands a piece that
is complete. -/
inductive Opened : List Head → List Block → Prop
  | top {hs : List Head} : Derives (controls hs) → Opened hs []
  | block {hs hs' : List Head} {bs : List Block} {o : Head} {k : Construct} :
      Opened hs bs → o.control.opens? = some k → o.control.closes = [] →
      o.control.fits (setting bs) = true → Sequence ((setting bs).enter k) (controls hs') →
      Opened (hs ++ o :: hs') (o.block k :: bs)
  | divided {hs hs' : List Head} {b : Block} {bs : List Block} {o : Head} :
      Opened hs (b :: bs) → b.construct = .ifBlock → o.control = .openElse →
      Sequence ((setting bs).enter .elseBlock) (controls hs') →
      Opened (hs ++ o :: hs') (o.block .elseBlock :: bs)

/-- A complete piece goes on in the innermost block. -/
theorem Opened.append (h : Opened hs bs) (hx : Sequence (setting bs) (controls hs')) :
    Opened (hs ++ hs') bs := by
  cases h with
  | top h =>
      refine .top ?_
      rw [controls_append]
      exact h.append hx
  | block h hopens hcloses hfits hpiece =>
      rw [List.append_assoc, List.cons_append]
      refine .block h hopens hcloses hfits ?_
      rw [controls_append]
      exact hpiece.append hx
  | divided h hb ho hpiece =>
      rw [List.append_assoc, List.cons_append]
      refine .divided h hb ho ?_
      rw [controls_append]
      exact hpiece.append hx

/-- A block with both of its words is a complete piece. -/
theorem Sequence.block {s : Setting} {k : Construct} {x c : Control} {as : List Control}
    (hopens : x.opens? = some k) (hcloses : x.closes = []) (hfits : x.fits s = true)
    (hc : c.opens? = none) (hk : k ∈ c.closes) (ha : Sequence (s.enter k) as) :
    Sequence s (x :: as ++ [c]) := by
  have hnil : Sequence s [] := .nil
  cases x with
  | openIf =>
      cases hopens
      obtain rfl : c = .closeIf := by cases c <;> simp_all [Control.closes, Control.opens?]
      exact hnil.ifThen ha
  | openWhile =>
      cases hopens
      obtain rfl : c = .closeWhile := by cases c <;> simp_all [Control.closes, Control.opens?]
      exact hnil.whileDo ha
  | openRepeat =>
      cases hopens
      obtain rfl : c = .closeRepeat := by cases c <;> simp_all [Control.closes, Control.opens?]
      exact hnil.repeatUntil ha
  | openBody isFunc =>
      cases hopens
      obtain rfl : c = .closeBody := by
        cases c <;> cases isFunc <;> simp_all [Control.closes, Control.opens?, Construct.ofBody]
      exact hnil.define hfits ha
  | openElse => cases hcloses
  | _ => cases hopens

theorem Opened.close {b : Block} (ho : Opened hs (b :: bs)) (hb : b.construct ∈ h.control.closes)
    (hopens : h.control.opens? = none) : Opened (hs ++ [h]) bs := by
  cases ho with
  | @block hs hs' _ o k ho hk hcloses hfits hpiece =>
      rw [List.append_assoc]
      refine ho.append ?_
      rw [controls_append]
      exact .block hk hcloses hfits hopens hb hpiece
  | @divided hs hs' b _ o ho hif helse hpiece =>
      have hclose : h.control = .closeIf := by
        cases hx : h.control <;> simp_all [Control.closes, Control.opens?, Head.block]
      cases ho with
      | @block hs₀ as _ o₀ k ho hk _ _ ha =>
          obtain rfl : k = .ifBlock := hif
          have hopenIf : o₀.control = .openIf := by
            cases hx : o₀.control with
            | openBody isFunc => cases isFunc <;> simp_all [Control.opens?, Construct.ofBody]
            | _ => simp_all [Control.opens?]
          rw [List.append_assoc, List.append_assoc]
          refine ho.append ?_
          have hnil : Sequence (setting bs) [] := .nil
          simpa [hopenIf, helse, hclose] using hnil.ifElse ha hpiece
      | divided => cases hif

theorem Sequence.single {s : Setting} {x : Control} (hopens : x.opens? = none)
    (hcloses : x.closes = []) (hfits : x.fits s = true) : Sequence s [x] := by
  have hnil : Sequence s [] := .nil
  cases x with
  | plain => exact hnil.plain
  | exitLoop => exact hnil.exitLoop hfits
  | giveBack value => exact hnil.giveBack (by simpa [Control.fits] using hfits)
  | closeIf | closeWhile | closeRepeat | closeBody => cases hcloses
  | _ => cases hopens

theorem Opened.step (ho : Opened hs bs) (hstep : Nesting.step bs h = some bs') :
    Opened (hs ++ [h]) bs' := by
  obtain ⟨hfits, bs₁, hclose, rfl⟩ := step_eq_some.1 hstep
  cases hcloses : h.control.closes with
  | nil =>
      rw [hcloses] at hclose
      cases hclose
      cases hopens : h.control.opens? with
      | none => exact ho.append (.single hopens hcloses hfits)
      | some k => exact .block ho hopens hcloses hfits .nil
  | cons k ks =>
      rw [hcloses] at hclose
      obtain ⟨b, rfl, hb⟩ := close_eq_some hclose
      rw [← hcloses] at hb
      cases hopens : h.control.opens? with
      | none => exact ho.close hb hopens
      | some k' =>
          have helse : h.control = .openElse := by
            cases hx : h.control <;> simp_all [Control.closes, Control.opens?]
          rw [helse] at hb hopens
          cases hopens
          exact .divided ho (by simpa [Control.closes] using hb) helse .nil

theorem Opened.run (ho : Opened hs bs) (h : Nesting.run bs hs' = some bs') :
    Opened (hs ++ hs') bs' := by
  induction hs' generalizing hs bs with
  | nil =>
      cases h
      rwa [List.append_nil]
  | cons o hs' ih =>
      obtain ⟨bs₁, hstep, hrun⟩ := Option.bind_eq_some_iff.1 h
      rw [List.append_cons]
      exact ih (ho.step hstep) hrun

theorem opened_of_run (h : Nesting.run [] hs = some bs) : Opened hs bs :=
  have hnone : Opened [] [] := .top .nil
  hnone.run h

/-- The innermost open block was opened in front of a piece that is complete. -/
theorem Opened.innermost {b : Block} (h : Opened hs (b :: bs)) :
    ∃ before o after k, hs = before ++ o :: after ∧ o.control.opens? = some k ∧ b = o.block k ∧
      ∃ s, Sequence s (controls after) := by
  cases h with
  | block _ hopens _ _ hpiece => exact ⟨_, _, _, _, rfl, hopens, rfl, _, hpiece⟩
  | divided _ _ helse hpiece => exact ⟨_, _, _, _, rfl, by rw [helse]; rfl, rfl, _, hpiece⟩

/-! ### Completing -/

theorem Opened.derives (h : Opened hs []) : Derives (controls hs) := by
  cases h with
  | top h => exact h

/-- The words are derived exactly if they leave no block open. -/
theorem derives_iff : Derives (controls hs) ↔ run [] hs = some [] :=
  ⟨fun h => run_of_sequence h rfl rfl, fun h => (opened_of_run h).derives⟩

/-- The closing words of open blocks make what opened them whole. -/
theorem Opened.completed (h : Opened hs bs) :
    Derives (controls hs ++ bs.map fun b => .closer b.construct) := by
  induction bs generalizing hs with
  | nil =>
      rw [List.map_nil, List.append_nil]
      exact h.derives
  | cons b bs ih =>
      have hclose : Opened (hs ++ [⟨.closer b.construct, 0, 0, 0⟩]) bs := by
        refine h.close ?_ ?_
        · cases b.construct <;> simp [Control.closer, Control.closes]
        · cases b.construct <;> rfl
      simpa using ih hclose

/-- Statements can be completed exactly if every one of them may stand in the blocks before it. -/
theorem completable_iff : Completable (controls hs) ↔ ∃ bs, run [] hs = some bs := by
  constructor
  · rintro ⟨ys, h⟩
    have hmap : controls (ys.map fun y => ⟨y, 0, 0, 0⟩) = ys := by
      rw [controls, List.map_map]
      exact List.map_id ys
    have hwhole : controls (hs ++ ys.map fun y => ⟨y, 0, 0, 0⟩) = controls hs ++ ys := by
      rw [controls_append, hmap]
    rw [← hwhole, derives_iff, run_append] at h
    obtain ⟨bs, hbs, -⟩ := Option.bind_eq_some_iff.1 h
    exact ⟨bs, hbs⟩
  · rintro ⟨bs, h⟩
    exact ⟨_, (opened_of_run h).completed⟩

end Nesting

end CellScript
