import CellScript.Proofs.Preservation

/-!
The meaning of a program without procedures and functions.

Statements and expressions are run as they stand in the tree. An expression
computes a value in the world, its parts from left to right. A statement goes on,
leaves the innermost loop, halts the program or ends with a fault; what is left to
do after it does not matter to it, and no address or jump is mentioned. Loops may
go on forever, so that a statement is run for a number of turns: a loop that needs
more turns is unfinished.

Of the machine only the size of its stack shows: every operand that waits for
others takes three bytes of it.
-/

namespace CellScript

namespace World

variable {κ : Type}

/-- A value joins the operands that wait, if there is room. -/
def keep (cap pending : Nat) :
    EStateM.Result Fault (World κ) Value → EStateM.Result Fault (World κ) Value
  | .ok v w => if 3 * (pending + 1) ≤ cap then .ok v w else .error (.stackOverflow cap) w
  | .error e w => .error e w

def kept (cap pending : Nat) (x : Computation κ) : Computation κ := fun w => keep cap pending (x w)

/-- The value kept at a place. There are no slots outside of bodies. -/
def load : Place → Computation κ
  | .global id => lookup id
  | .slot k => fun w => .error (.undefinedVariable ("local #" ++ toString k.toNat)) w

/-- The world with a value kept at a place. -/
def store (w : World κ) : Place → Value → World κ
  | .global id, v => { w with heap := w.heap.setIdentValue id v }
  | .slot _, _ => w

def print [Console κ] (w : World κ) (vs : List Value) : World κ :=
  { w with console := Console.writeLine (Machine.printedLine w.heap vs) w.console }

end World

/-! ### Expressions -/

namespace Expr

variable {κ : Type}

mutual

/-- The value of an expression, while so many operands wait. Without definitions there is nothing
to call. -/
def eval (cap pending : Nat) : Expr → EStateM Fault (World κ) Value
  | literal l => World.kept cap pending fun w => .ok l.value w
  | name p => World.kept cap pending (World.load p)
  | apply op args => do
      let vs ← evalAll cap pending args
      World.kept cap pending (World.operate op vs)
  | array elems => do
      let vs ← evalAll cap pending elems
      World.kept cap pending (World.onHeap (Builtin.makeArray vs))
  | call id _ => fun w => .error (.undefinedCallTarget (w.heap.identText id)) w

/-- The values of expressions from left to right; each one waits while the next are computed. -/
def evalAll (cap pending : Nat) : List Expr → EStateM Fault (World κ) (List Value)
  | [] => pure []
  | e :: es => do
      let v ← eval cap pending e
      let vs ← evalAll cap (pending + 1) es
      return v :: vs

end

end Expr

/-! ### Statements -/

/-- What becomes of a statement. -/
inductive Completion (κ : Type) where
  | next (w : World κ)
  | exit (w : World κ)
  | halt (w : World κ)
  | fault (e : Fault) (w : World κ)
  /-- A loop in it needs more turns. -/
  | unfinished

namespace Completion

variable {κ α : Type}

def andThen (r : Completion κ) (f : World κ → Completion κ) : Completion κ :=
  match r with
  | next w => f w
  | r => r

@[simp] theorem andThen_next (r : Completion κ) : r.andThen next = r := by
  cases r <;> rfl

/-- Goes on with what a computation gives. -/
def after (r : EStateM.Result Fault (World κ) α) (f : α → World κ → Completion κ) : Completion κ :=
  match r with
  | .ok a w => f a w
  | .error e w => fault e w

/-- One of two ways, by a truth value. -/
def choose (yes no : World κ → Completion κ) : Value → World κ → Completion κ
  | .bool true, w => yes w
  | .bool false, w => no w
  | v, w => fault (.typeMismatch "condition" [v.kindName]) w

/-- Turns of a loop, until one leaves it. -/
def iterate (turn : World κ → Completion κ) : (turns : Nat) → World κ → Completion κ
  | 0, _ => unfinished
  | turns + 1, w =>
      match turn w with
      | next w => iterate turn turns w
      | exit w => next w
      | r => r

end Completion

section

variable {κ : Type} [Console κ]

/-- One of two ways, by a condition. -/
def Expr.test (cap : Nat) (c : Expr) (yes no : World κ → Completion κ) (w : World κ) :
    Completion κ :=
  .after (c.eval cap 0 w) (Completion.choose yes no)

def Place.input (cap : Nat) : List Place → World κ → Completion κ
  | [], w => .next w
  | p :: ps, w =>
      .after (World.kept cap 0 World.readLine w) fun v w => input cap ps (w.store p v)

/-- Runs a statement for so many turns of each loop. Calls, returns and definitions have no
meaning here. -/
def Stmt.exec (cap turns : Nat) : Stmt → World κ → Completion κ
  | skip, w => .next w
  | seq s t, w => (s.exec cap turns w).andThen (t.exec cap turns)
  | assign p e, w => .after (e.eval cap 0 w) fun v w => .next (w.store p v)
  | print es, w => .after (Expr.evalAll cap 0 es w) fun vs w => .next (w.print vs)
  | input ps, w => Place.input cap ps w
  | ifThen c s, w => c.test cap (s.exec cap turns) .next w
  | ifElse c s t, w => c.test cap (s.exec cap turns) (t.exec cap turns) w
  | whileDo c s, w => .iterate (c.test cap (s.exec cap turns) .exit) turns w
  | repeatUntil s c, w =>
      .iterate (fun w => (s.exec cap turns w).andThen (c.test cap .exit .next)) turns w
  | exitLoop, w => .exit w
  | halt, w => .halt w
  | perform _ _, _ | returnValue _, _ | returnBare, _ | define _ _, _ => .unfinished

end

/-- How a program ends, if it does. -/
inductive Outcome (κ : Type) where
  | forever
  | halts (w : World κ)
  | faults (e : Fault) (w : World κ)

/-- The outcome of a program that is run as it stands in the tree. -/
def Stmt.Ends {κ : Type} [Console κ] (cap : Nat) (t : Stmt) (w : World κ) : Outcome κ → Prop
  | .forever => ∀ turns, t.exec cap turns w = .unfinished
  | .halts w' => ∃ turns, t.exec cap turns w = .next w' ∨ t.exec cap turns w = .halt w'
  | .faults e w' => ∃ turns, t.exec cap turns w = .fault e w'

/-! ### What programs leave of the world -/

/-- The records `rs₀` of the names are there, and all values are sound. -/
structure World.Good {κ : Type} (w : World κ) (rs₀ : List Record) (ds : List (Definition × Nat))
    (rs : List Record) : Prop where
  records : ∀ r ∈ rs₀, r ∈ rs
  heap : w.heap.Sound rs ds
  values : ∀ id, HasIdent rs₀ id → (w.heap.identValue id).Sound rs ds

section

variable {κ : Type} {w w' : World κ} {rs₀ rs rs' : List Record} {ds : List (Definition × Nat)}
  {cap pending : Nat}

namespace World

theorem Good.identAt (h : w.Good rs₀ ds rs) {id : Ident} (hid : HasIdent rs₀ id) :
    w.heap.identAt id.offset = .ok id :=
  h.heap.ledger.identAt (hid.mono h.records)

theorem Good.grow (h : w.Good rs₀ ds rs) (hr : ∀ r ∈ rs, r ∈ rs') (hgrow : w.heap.Grows w'.heap)
    (hs : w'.heap.Sound rs' ds) : w'.Good rs₀ ds rs' := by
  refine ⟨fun r hr₀ => hr r (h.records r hr₀), hs, fun id hid => ?_⟩
  have hentry := hgrow.entry (h.heap.ledger.ident_within (hid.mono h.records)).2
  rw [← Heap.value_entry, hentry, Heap.value_entry]
  exact (h.values id hid).mono hr

theorem Good.store (h : w.Good rs₀ ds rs) {p : Place} (hp : p.Writable rs₀ none) {v : Value}
    (hv : v.Sound rs ds) : (w.store p v).Good rs₀ ds rs := by
  cases p with
  | slot k => exact h
  | global id =>
      have hid := HasIdent.mono h.records hp.2
      refine ⟨h.records, h.heap.setIdentValue hid v, fun id' hid' => ?_⟩
      show ((w.heap.setIdentValue id v).identValue id').Sound rs ds
      rw [h.heap.ledger.identValue_setIdentValue hid (hid'.mono h.records) v]
      split
      · exact hv
      · exact h.values id' hid'

theorem kept_sound {x : Computation κ} (h : w.SoundAfter rs ds (x w)) :
    w.SoundAfter rs ds (kept cap pending x w) := by
  unfold kept keep
  cases hx : x w with
  | ok v w' =>
      rw [hx] at h
      simp only
      split
      · exact h
      · exact rfl
  | error e w' =>
      rw [hx] at h
      exact h

theorem load_sound (h : w.Good rs₀ ds rs) {p : Place} (hp : p.Fine rs₀ none) :
    w.SoundAfter rs ds (load p w) := by
  cases p with
  | global id => exact lookup_sound h.heap (h.values id hp)
  | slot k => exact rfl

/-- Sound values came out and the heap grew, or a fault of the language. -/
def AllSoundAfter (w : World κ) (rs : List Record) (ds : List (Definition × Nat)) (n : Nat) :
    EStateM.Result Fault (World κ) (List Value) → Prop
  | .ok vs w' => ∃ rs', (∀ r ∈ rs, r ∈ rs') ∧ w.heap.Grows w'.heap ∧ w'.heap.Sound rs' ds ∧
      (∀ v ∈ vs, v.Sound rs' ds) ∧ vs.length = n
  | .error e _ => e.isInternal = false

theorem AllSoundAfter.bind {n : Nat} {x : EStateM Fault (World κ) (List Value)}
    {f : List Value → Computation κ} (h : w.AllSoundAfter rs ds n (x w))
    (hf : ∀ (rs' : List Record) (vs : List Value) (w' : World κ), w'.heap.Sound rs' ds →
      (∀ v ∈ vs, v.Sound rs' ds) → vs.length = n → w'.SoundAfter rs' ds (f vs w')) :
    w.SoundAfter rs ds ((x >>= f) w) := by
  simp only [Bind.bind, EStateM.bind]
  cases hx : x w with
  | error e w' =>
      rw [hx] at h
      exact h
  | ok vs w' =>
      rw [hx] at h
      obtain ⟨rs', hr, hgrow, hs, hvs, hlen⟩ := h
      have hafter := hf rs' vs w' hs hvs hlen
      simp only
      cases hy : f vs w' with
      | error e w'' =>
          rw [hy] at hafter
          exact hafter
      | ok v w'' =>
          rw [hy] at hafter
          obtain ⟨rs'', hr', hgrow', hs', hv⟩ := hafter
          exact ⟨rs'', fun r h => hr' r (hr r h), hgrow.trans hgrow', hs', hv⟩

end World

mutual

theorem Expr.eval_sound : ∀ {e : Expr} {w : World κ} {rs : List Record} {pending : Nat},
    w.Good rs₀ ds rs → e.Fine rs₀ none → w.SoundAfter rs ds (e.eval cap pending w)
  | .literal l, w, rs, pending, hw, hf => by
      rw [Expr.eval]
      exact World.kept_sound (World.ok_sound hw.heap (Literal.Fine.mono hw.records hf).sound)
  | .name p, w, rs, pending, hw, hf => by
      rw [Expr.eval]
      exact World.kept_sound (World.load_sound hw hf)
  | .apply op args, w, rs, pending, hw, hf => by
      rw [Expr.eval]
      refine World.AllSoundAfter.bind (Expr.evalAll_sound hw hf.2) fun rs' vs w' hs hvs hlen => ?_
      exact World.kept_sound (World.operate_sound hs (by rw [hlen]; exact hf.1) hvs)
  | .array elems, w, rs, pending, hw, hf => by
      rw [Expr.eval]
      refine World.AllSoundAfter.bind (Expr.evalAll_sound hw hf.2) fun rs' vs w' hs hvs hlen => ?_
      exact World.kept_sound (World.onHeap_sound (Builtin.makeArray_sound hs hvs))
  | .call id args, w, rs, pending, hw, hf => by
      rw [Expr.eval]
      exact rfl

theorem Expr.evalAll_sound : ∀ {es : List Expr} {w : World κ} {rs : List Record} {pending : Nat},
    w.Good rs₀ ds rs → Expr.FineAll rs₀ none es →
      w.AllSoundAfter rs ds es.length (Expr.evalAll cap pending es w)
  | [], w, rs, pending, hw, _ => by
      rw [Expr.evalAll]
      exact ⟨rs, fun _ h => h, .refl _, hw.heap, by simp, rfl⟩
  | e :: es, w, rs, pending, hw, hf => by
      have he : w.SoundAfter rs ds (e.eval cap pending w) := Expr.eval_sound hw hf.1
      simp only [Expr.evalAll, bind, EStateM.bind]
      cases hx : e.eval cap pending w with
      | error e w' =>
          rw [hx] at he
          exact he
      | ok v w' =>
          rw [hx] at he
          obtain ⟨rs', hr, hgrow, hs, hv⟩ := he
          have hes : w'.AllSoundAfter rs' ds es.length (Expr.evalAll cap (pending + 1) es w') :=
            Expr.evalAll_sound (hw.grow hr hgrow hs) hf.2
          simp only
          cases hy : Expr.evalAll cap (pending + 1) es w' with
          | error e w'' =>
              rw [hy] at hes
              exact hes
          | ok vs w'' =>
              rw [hy] at hes
              obtain ⟨rs'', hr', hgrow', hs', hvs, hlen⟩ := hes
              refine ⟨rs'', fun r h => hr' r (hr r h), hgrow.trans hgrow', hs', ?_, ?_⟩
              · intro u hu
                obtain rfl | hu := List.mem_cons.1 hu
                · exact hv.mono hr'
                · exact hvs u hu
              · rw [List.length_cons, List.length_cons, hlen]

end

theorem Expr.good_of_eval {e : Expr} {v : Value} (hw : w.Good rs₀ ds rs) (hf : e.Fine rs₀ none)
    (he : e.eval cap pending w = .ok v w') : ∃ rs', w'.Good rs₀ ds rs' := by
  have hsound : w.SoundAfter rs ds (e.eval cap pending w) := Expr.eval_sound hw hf
  rw [he] at hsound
  obtain ⟨rs', hr, hgrow, hs, -⟩ := hsound
  exact ⟨rs', hw.grow hr hgrow hs⟩

theorem Expr.length_of_evalAll {es : List Expr} {vs : List Value} (hw : w.Good rs₀ ds rs)
    (hf : Expr.FineAll rs₀ none es) (he : Expr.evalAll cap pending es w = .ok vs w') :
    vs.length = es.length := by
  have hsound : w.AllSoundAfter rs ds es.length (Expr.evalAll cap pending es w) :=
    Expr.evalAll_sound hw hf
  rw [he] at hsound
  obtain ⟨_, -, -, -, -, hlen⟩ := hsound
  exact hlen

/-- The world is as it should be if the program goes on. -/
def Completion.Good (rs₀ : List Record) (ds : List (Definition × Nat)) : Completion κ → Prop
  | .next w | .exit w => ∃ rs, w.Good rs₀ ds rs
  | _ => True

namespace Completion

/-- Running a part of a program keeps the world as it should be. -/
def Keeps (rs₀ : List Record) (ds : List (Definition × Nat)) (f : World κ → Completion κ) : Prop :=
  ∀ {w : World κ}, (∃ rs, w.Good rs₀ ds rs) → (f w).Good rs₀ ds

theorem keeps_next : Keeps rs₀ ds (.next : World κ → Completion κ) := fun hw => hw

theorem keeps_exit : Keeps rs₀ ds (.exit : World κ → Completion κ) := fun hw => hw

theorem andThen_good {r : Completion κ} {f : World κ → Completion κ} (hr : r.Good rs₀ ds)
    (hf : Keeps rs₀ ds f) : (r.andThen f).Good rs₀ ds := by
  cases r with
  | next w => exact hf hr
  | exit w => exact hr
  | _ => trivial

theorem after_good {r : EStateM.Result Fault (World κ) Value} {f : Value → World κ → Completion κ}
    (hw : w.Good rs₀ ds rs) (hr : w.SoundAfter rs ds r)
    (hf : ∀ {v : Value} {w : World κ} {rs : List Record}, w.Good rs₀ ds rs → v.Sound rs ds →
      (f v w).Good rs₀ ds) : (after r f).Good rs₀ ds := by
  cases r with
  | error e w' => trivial
  | ok v w' =>
      obtain ⟨rs', hrs, hgrow, hs, hv⟩ := hr
      exact hf (hw.grow hrs hgrow hs) hv

theorem choose_good {yes no : World κ → Completion κ} (hyes : Keeps rs₀ ds yes)
    (hno : Keeps rs₀ ds no) (v : Value) : Keeps rs₀ ds (choose yes no v) := by
  intro w hw
  unfold choose
  split
  · exact hyes hw
  · exact hno hw
  · trivial

theorem iterate_good {turn : World κ → Completion κ} (hturn : Keeps rs₀ ds turn) (turns : Nat) :
    Keeps rs₀ ds (iterate turn turns) := by
  induction turns with
  | zero => exact fun _ => trivial
  | succ turns ih =>
      intro w hw
      have hone := hturn hw
      rw [iterate]
      cases hr : turn w with
      | next w' =>
          rw [hr] at hone
          exact ih hone
      | exit w' =>
          rw [hr] at hone
          exact hone
      | _ => trivial

end Completion

open Completion

theorem Expr.test_good {c : Expr} (hc : c.Fine rs₀ none) {yes no : World κ → Completion κ}
    (hyes : Keeps rs₀ ds yes) (hno : Keeps rs₀ ds no) : Keeps rs₀ ds (c.test cap yes no) := by
  rintro w ⟨rs, hw⟩
  exact after_good hw (Expr.eval_sound hw hc) fun hw' _ => choose_good hyes hno _ ⟨_, hw'⟩

variable [Console κ]

theorem Place.input_good {ps : List Place} (hps : ∀ p ∈ ps, p.Writable rs₀ none) :
    Keeps rs₀ ds (Place.input cap ps : World κ → Completion κ) := by
  induction ps with
  | nil => exact fun hw => hw
  | cons p ps ih =>
      rintro w ⟨rs, hw⟩
      refine after_good hw (World.kept_sound (World.readLine_sound hw.heap)) fun hw' hv => ?_
      exact ih (fun q hq => hps q (List.mem_cons_of_mem _ hq))
        ⟨_, hw'.store (hps p (List.mem_cons_self ..)) hv⟩

/-- A statement keeps the world as it should be. -/
theorem Stmt.exec_good {turns : Nat} {s : Stmt} (hf : s.Fine rs₀ none) :
    Keeps rs₀ ds (s.exec cap turns : World κ → Completion κ) := by
  induction s with
  | skip | exitLoop => exact fun hw => hw
  | halt | perform id args | returnValue e | returnBare | define d s ih => exact fun _ => trivial
  | seq s t ihs iht => exact fun hw => andThen_good (ihs hf.1 hw) (iht hf.2)
  | assign p e =>
      rintro w ⟨rs, hw⟩
      exact after_good hw (Expr.eval_sound hw hf.1) fun hw' hv => ⟨_, hw'.store hf.2 hv⟩
  | print es =>
      rintro w ⟨rs, hw⟩
      have hes : w.AllSoundAfter rs ds es.length (Expr.evalAll cap 0 es w) :=
        Expr.evalAll_sound hw hf.2
      rw [exec]
      cases hr : Expr.evalAll cap 0 es w with
      | error e w' => trivial
      | ok vs w' =>
          rw [hr] at hes
          obtain ⟨rs', hrs, hgrow, hs, -, -⟩ := hes
          have hw' := hw.grow hrs hgrow hs
          exact ⟨rs', hw'.records, hw'.heap, hw'.values⟩
  | input ps => exact Place.input_good hf
  | ifThen c s ih => exact Expr.test_good hf.1 (ih hf.2) keeps_next
  | ifElse c s t ihs iht => exact Expr.test_good hf.1 (ihs hf.2.1) (iht hf.2.2)
  | whileDo c s ih => exact iterate_good (Expr.test_good hf.1 (ih hf.2) keeps_exit) turns
  | repeatUntil s c ih =>
      refine iterate_good (fun hw => andThen_good (ih hf.2 hw) ?_) turns
      exact Expr.test_good hf.1 keeps_exit keeps_next

end

end CellScript
