import CellScript.Proofs.Meaning

/-!
The machine runs programs as their trees say.

`Evaluates` and `Completes` relate a piece of code to what the tree makes of it: the
machine comes to the end of the piece with the value on its stack, or to the end
of the loop that is left, or it halts or faults, always in the world that the tree
says. Nothing is assumed of the rest of the code, so that pieces can be put
together as the statements are.

A loop that the tree does not finish in a number of turns keeps the machine busy
for as many steps at least, since every turn takes a step. So a program that goes
on forever in one way goes on forever in the other.
-/

namespace CellScript

namespace Machine

variable {κ : Type} [Console κ]

/-- After `n` steps the machine is at an address, with `l` on its stack. -/
def Arrives (code : Array UInt8) (m : Machine κ) (n cap pc : Nat) (l : List UInt8) (w : World κ) :
    Prop :=
  ∃ m', run code n m = .running m' ∧ m'.pc = pc ∧ m'.stack.Holds cap l ∧ m'.world = w

def Halts (code : Array UInt8) (m : Machine κ) (w : World κ) : Prop :=
  ∃ n m', run code n m = .halted m' ∧ m'.world = w

def Faults (code : Array UInt8) (m : Machine κ) (e : Fault) (w : World κ) : Prop :=
  ∃ n pc m', run code n m = .trapped ⟨pc, e⟩ m' ∧ m'.world = w

/-- The machine still runs after `n` steps. -/
def Lasts (code : Array UInt8) (m : Machine κ) (n : Nat) : Prop :=
  ∃ m', run code n m = .running m'

/-- The outcome of a run. -/
def Ends (code : Array UInt8) (m : Machine κ) : Outcome κ → Prop
  | .forever => ∀ n, Lasts code m n
  | .halts w => Halts code m w
  | .faults e w => Faults code m e w

/-- A value is computed: the machine comes to `pc` with it on the stack, or it faults. -/
def Evaluates {α : Type} (stored : α → List UInt8) (code : Array UInt8) (m : Machine κ) (cap : Nat)
    (l : List UInt8) (pc : Nat) : EStateM.Result Fault (World κ) α → Prop
  | .ok a w => ∃ n, Arrives code m n cap pc (l ++ stored a) w
  | .error e w => Faults code m e w

/-- A statement is run: the machine comes to its end at `pc`, in `least` steps or more, or to the
end of the loop around, or it ends. -/
def Completes (code : Array UInt8) (m : Machine κ) (cap turns least pc : Nat) (exit : Option Nat) :
    Completion κ → Prop
  | .next w => ∃ n, least ≤ n ∧ Arrives code m n cap pc [] w
  | .exit w => ∃ n target, exit = some target ∧ Arrives code m n cap target [] w
  | .halt w => Halts code m w
  | .fault e w => Faults code m e w
  | .unfinished => Lasts code m turns

variable {code : Array UInt8} {m m' : Machine κ} {cap turns least pc n : Nat} {exit : Option Nat}
  {l : List UInt8} {w : World κ}

/-! ### Running on -/

theorem Arrives.after (hr : run code n m = .running m') {k : Nat}
    (h : Arrives code m' k cap pc l w) : Arrives code m (n + k) cap pc l w := by
  obtain ⟨m'', hr', h'⟩ := h
  refine ⟨m'', ?_, h'⟩
  rw [run_add, hr]
  exact hr'

theorem Halts.after (hr : run code n m = .running m') (h : Halts code m' w) : Halts code m w := by
  obtain ⟨k, m'', hr', hw⟩ := h
  refine ⟨n + k, m'', ?_, hw⟩
  rw [run_add, hr]
  exact hr'

theorem Faults.after (hr : run code n m = .running m') {e : Fault} (h : Faults code m' e w) :
    Faults code m e w := by
  obtain ⟨k, pc, m'', hr', hw⟩ := h
  refine ⟨n + k, pc, m'', ?_, hw⟩
  rw [run_add, hr]
  exact hr'

theorem Lasts.mono {k : Nat} (hk : k ≤ n) (h : Lasts code m n) : Lasts code m k := by
  obtain ⟨m', hr⟩ := h
  obtain ⟨j, rfl⟩ := Nat.exists_eq_add_of_le hk
  rw [run_add] at hr
  cases hr' : run code k m with
  | running m'' => exact ⟨m'', hr'⟩
  | halted m'' =>
      rw [hr'] at hr
      cases hr
  | trapped t m'' =>
      rw [hr'] at hr
      cases hr

theorem Lasts.after (hr : run code n m = .running m') {k : Nat} (h : Lasts code m' k) :
    Lasts code m (n + k) := by
  obtain ⟨m'', hr'⟩ := h
  refine ⟨m'', ?_⟩
  rw [run_add, hr]
  exact hr'

theorem Evaluates.after {α : Type} {stored : α → List UInt8} (hr : run code n m = .running m')
    {r : EStateM.Result Fault (World κ) α} (h : Evaluates stored code m' cap l pc r) :
    Evaluates stored code m cap l pc r := by
  cases r with
  | ok a w =>
      obtain ⟨k, h⟩ := h
      exact ⟨n + k, h.after hr⟩
  | error e w => exact Faults.after hr h

theorem Completes.after (hr : run code n m = .running m') {r : Completion κ} {turns' least' : Nat}
    (ht : turns' ≤ n + turns) (hl : least' ≤ n + least)
    (h : Completes code m' cap turns least pc exit r) :
    Completes code m cap turns' least' pc exit r := by
  cases r with
  | next w =>
      obtain ⟨k, hk, h⟩ := h
      exact ⟨n + k, by omega, h.after hr⟩
  | exit w =>
      obtain ⟨k, target, he, h⟩ := h
      exact ⟨n + k, target, he, h.after hr⟩
  | halt w => exact Halts.after hr h
  | fault e w => exact Faults.after hr h
  | unfinished => exact Lasts.mono (by omega) (Lasts.after hr h)

theorem Completes.weaken {r : Completion κ} {least' : Nat} (hl : least' ≤ least)
    (h : Completes code m cap turns least pc exit r) :
    Completes code m cap turns least' pc exit r :=
  Completes.after (n := 0) rfl (by omega) (by omega) h

/-- A single step. -/
theorem run_one (hs : step code m = .ok .next m') : run code 1 m = .running m' := by
  simp only [run, hs]

theorem faults_one {e : Fault} (hs : step code m = .error e m') (hw : m'.world = w) :
    Faults code m e w :=
  ⟨1, m.pc, m', by simp only [run, hs], hw⟩

/-! ### Putting pieces together -/

theorem Evaluates.bind {α β : Type} {stored : α → List UInt8} {stored' : β → List UInt8}
    {x : EStateM Fault (World κ) α} {f : α → EStateM Fault (World κ) β}
    {l' : List UInt8} {pc' : Nat} (h : Evaluates stored code m cap l pc (x m.world))
    (hf : ∀ a m', m'.pc = pc → m'.stack.Holds cap (l ++ stored a) → x m.world = .ok a m'.world →
      Evaluates stored' code m' cap l' pc' (f a m'.world)) :
    Evaluates stored' code m cap l' pc' ((x >>= f) m.world) := by
  simp only [Bind.bind, EStateM.bind]
  cases hx : x m.world with
  | ok a w =>
      rw [hx] at h
      obtain ⟨n, m', hr, hpc, hs, rfl⟩ := h
      exact (hf a m' hpc hs hx).after hr
  | error e w =>
      rw [hx] at h
      exact h

theorem Evaluates.completes {α : Type} {stored : α → List UInt8}
    {r : EStateM.Result Fault (World κ) α} {f : α → World κ → Completion κ} {pc' : Nat}
    (h : Evaluates stored code m cap l pc r)
    (hf : ∀ a m', m'.pc = pc → m'.stack.Holds cap (l ++ stored a) → r = .ok a m'.world →
      Completes code m' cap turns least pc' exit (f a m'.world)) :
    Completes code m cap turns least pc' exit (.after r f) := by
  cases r with
  | ok a w =>
      obtain ⟨n, m', hr, hpc, hs, rfl⟩ := h
      exact (hf a m' hpc hs rfl).after hr (by omega) (by omega)
  | error e w => exact h

theorem Completes.andThen {r : Completion κ} {f : World κ → Completion κ} {least' pc' : Nat}
    (h : Completes code m cap turns least pc exit r)
    (hf : ∀ m', m'.pc = pc → m'.stack.Holds cap [] → r = .next m'.world →
      Completes code m' cap turns least' pc' exit (f m'.world)) :
    Completes code m cap turns least' pc' exit (r.andThen f) := by
  cases r with
  | next w =>
      obtain ⟨n, -, m', hr, hpc, hs, rfl⟩ := h
      exact (hf m' hpc hs rfl).after hr (by omega) (by omega)
  | exit w => exact h
  | halt w => exact h
  | fault e w => exact h
  | unfinished => exact h

/-- The turns of a loop that begins at `head` and ends at `stop`. -/
theorem completes_iterate {rs₀ : List Record} {ds : List (Definition × Nat)}
    {turn : World κ → Completion κ} {head stop : Nat}
    (hturn : ∀ m : Machine κ, m.pc = head → m.stack.Holds cap [] → (∃ rs, m.world.Good rs₀ ds rs) →
      Completes code m cap turns 1 head (some stop) (turn m.world))
    (hkeeps : Completion.Keeps rs₀ ds turn) {k : Nat} (hk : k ≤ turns) :
    ∀ m : Machine κ, m.pc = head → m.stack.Holds cap [] → (∃ rs, m.world.Good rs₀ ds rs) →
      Completes code m cap k 0 stop exit (.iterate turn k m.world) := by
  induction k with
  | zero => exact fun m _ _ _ => ⟨m, rfl⟩
  | succ k ih =>
      intro m hpc hs hw
      have hone := hturn m hpc hs hw
      rw [Completion.iterate]
      cases hr : turn m.world with
      | next w =>
          rw [hr] at hone
          obtain ⟨n, hn, m', hrun, hpc', hs', rfl⟩ := hone
          have hw' := hkeeps hw
          rw [hr] at hw'
          -- The turn took a step, so the machine lasts for one step more.
          exact (ih (by omega) m' hpc' hs' hw').after hrun (by omega) (by omega)
      | exit w =>
          rw [hr] at hone
          obtain ⟨n, target, he, h⟩ := hone
          cases he
          exact ⟨n, Nat.zero_le _, h⟩
      | halt w =>
          rw [hr] at hone
          exact hone
      | fault e w =>
          rw [hr] at hone
          exact hone
      | unfinished =>
          rw [hr] at hone
          exact Lasts.mono hk hone

/-! ### Expressions -/

/-- An instruction that produces a value. -/
theorem evaluates_of_produces {i : Instr} {k : Nat}
    (hd : Instruction.decode? code m.pc = some (i.place m.pc)) (he : i.op.isExecutable = true)
    (hop : i.op ≠ .stop) (hl : l.length = 3 * k) {r : EStateM.Result Fault (World κ) Value}
    (hp : Produces (execute (i.place m.pc) { m with pc := m.pc + i.size })
      { m with pc := m.pc + i.size } cap l r) :
    Evaluates Value.encode code m cap l (m.pc + i.size) (World.keep cap k r) := by
  have hstep := step_eq hd he hop
  cases r with
  | error e w =>
      obtain ⟨m', hx, hw⟩ := hp
      rw [hx] at hstep
      exact faults_one hstep hw
  | ok v w =>
      rw [World.keep]
      split
      · obtain ⟨s, hs, hx⟩ := hp.1 (by omega)
        rw [hx] at hstep
        exact ⟨1, _, run_one hstep, rfl, hs, rfl⟩
      · obtain ⟨m', hx, hw⟩ := hp.2 (by omega)
        rw [hx] at hstep
        exact faults_one hstep hw

/-! ### Jumps -/

/-- A jump leads to its target. -/
theorem step_jump {target : Nat}
    (hd : Instruction.decode? code m.pc = some ((Instr.jump .jump m.pc (some target)).place m.pc))
    (hreach : Instr.InReach (m.pc + 3) target) (hpc : m.pc + 3 ≤ 65535) (htarget : target ≤ 65535) :
    step code m = .ok .next { m with pc := target } := by
  have hcounter :=
    Instr.jumpCounter_place (show Opcode.jump.shape = .word from rfl) hreach hpc htarget
  rw [step_eq hd rfl (by simp), Instr.jump, execute_jump]
  rw [Instr.jump] at hcounter
  rw [hcounter]

/-- A branch asks for a truth value. -/
theorem step_branch {target : Nat} {v : Value}
    (hd : Instruction.decode? code m.pc = some ((Instr.jump .jfalse m.pc (some target)).place m.pc))
    (hreach : Instr.InReach (m.pc + 3) target) (hpc : m.pc + 3 ≤ 65535) (htarget : target ≤ 65535)
    (hs : m.stack.Holds cap (l ++ v.encode)) :
    ∃ s : OperandStack, s.Holds cap l ∧ step code m =
      stepResult (branched (withStack { m with pc := m.pc + 3 } s) target v) := by
  have hcounter :=
    Instr.jumpCounter_place (show Opcode.jfalse.shape = .word from rfl) hreach hpc htarget
  obtain ⟨s, hs', hx⟩ := execute_branch (m := { m with pc := m.pc + 3 }) m.pc
    (Instr.distanceWord (m.pc + 3) target) hs
  refine ⟨s, hs', ?_⟩
  rw [Instr.jump] at hcounter
  rw [hcounter] at hx
  rw [step_eq hd rfl (by simp), Instr.jump,
    show (Instr.withWord .jfalse (Instr.distanceWord (m.pc + 3) target)).size = 3 from rfl, hx]
  rfl

end Machine

/-! ### Programs without procedures and functions -/

mutual

/-- No function is called. -/
def Expr.Plain : Expr → Prop
  | .literal _ | .name _ => True
  | .apply _ args => Expr.PlainAll args
  | .array elems => Expr.PlainAll elems
  | .call _ _ => False

def Expr.PlainAll : List Expr → Prop
  | [] => True
  | e :: es => Expr.Plain e ∧ Expr.PlainAll es

end

/-- Nothing is defined and nothing is called. -/
def Stmt.Plain : Stmt → Prop
  | skip | input _ | exitLoop | halt => True
  | seq s t => s.Plain ∧ t.Plain
  | assign _ e => e.Plain
  | print es => Expr.PlainAll es
  | ifThen c s | whileDo c s | repeatUntil s c => c.Plain ∧ s.Plain
  | ifElse c s t => c.Plain ∧ s.Plain ∧ t.Plain
  | perform _ _ | returnValue _ | returnBare | define _ _ => False

section

open Machine

variable {κ : Type} [Console κ] {code : Array UInt8} {rs₀ : List Record}
  {ds : List (Definition × Nat)} {cap : Nat}

theorem Literal.isExecutable_instr (l : Literal) :
    l.instr.op.isExecutable = true ∧ l.instr.op ≠ .stop := by
  cases l with
  | truth b => cases b <;> simp [instr, Instr.plain, Opcode.isExecutable]
  | _ => simp [instr, Instr.plain, Instr.withByte, Instr.withWord, Opcode.isExecutable]

theorem Opcode.isExecutable_of_arity {op : Opcode} {n : Nat} (h : op.arity? = some n) :
    op.isExecutable = true ∧ op ≠ .stop := by
  cases op <;> first | (cases h; done) | exact ⟨rfl, by simp⟩

mutual

/-- The code of an expression computes its value. -/
theorem Expr.evaluates : ∀ {e : Expr} {m : Machine κ} {rs : List Record} {l : List UInt8} {n : Nat},
    Code.Placed code m.pc e.code → e.Fine rs₀ none → e.Plain → m.world.Good rs₀ ds rs →
    m.stack.Holds cap l → l.length = 3 * n →
    Evaluates Value.encode code m cap l (m.pc + e.code.size) (e.eval cap n m.world)
  | .literal lit, m, rs, l, n, hc, hf, hp, hw, hs, hl => by
      have hop := lit.isExecutable_instr
      rw [Expr.eval, Expr.code, Code.size_cons, Code.size_nil]
      refine evaluates_of_produces hc.1 hop.1 hop.2 hl
        (execute_literal (m := { m with pc := m.pc + lit.instr.size }) hs m.pc ?_)
      rintro o rfl
      exact hw.heap.ledger.strAt (Literal.Fine.mono (l := .long o) hw.records hf)
  | .name (.slot k), m, rs, l, n, hc, hf, hp, hw, hs, hl => by
      obtain ⟨_, _, hscope, -⟩ := hf
      cases hscope
  | .name (.global id), m, rs, l, n, hc, hf, hp, hw, hs, hl => by
      rw [Expr.eval, Expr.code, Code.size_cons, Code.size_nil]
      exact evaluates_of_produces hc.1 rfl (by simp [Place.load, Instr.withWord]) hl
        (execute_global (m := { m with pc := m.pc + 3 }) hs m.pc (hw.identAt hf))
  | .apply op args, m, rs, l, n, hc, hf, hp, hw, hs, hl => by
      rw [Expr.code, Code.placed_append] at hc
      rw [Expr.eval, Expr.code, Code.size_append, ← Nat.add_assoc]
      refine (Expr.evaluatesAll hc.1 hf.2 hp hw hs hl).bind fun vs m' hpc hs' hx => ?_
      have hop := Opcode.isExecutable_of_arity hf.1
      have hlen := Expr.length_of_evalAll hw hf.2 hx
      rw [← hpc] at hc ⊢
      exact evaluates_of_produces hc.2.1 hop.1 hop.2 hl
        (execute_apply (m := { m' with pc := m'.pc + (Instr.plain op).size }) m'.pc
          (by rw [hlen]; exact hf.1) hs')
  | .array elems, m, rs, l, n, hc, hf, hp, hw, hs, hl => by
      rw [Expr.code, Code.placed_append] at hc
      rw [Expr.eval, Expr.code, Code.size_append, ← Nat.add_assoc]
      refine (Expr.evaluatesAll hc.1 hf.2 hp hw hs hl).bind fun vs m' hpc hs' hx => ?_
      have hlen := Expr.length_of_evalAll hw hf.2 hx
      rw [← hpc, ← hlen] at hc ⊢
      exact evaluates_of_produces hc.2.1 rfl (by simp [Instr.withByte]) hl
        (execute_array (m := { m' with pc := m'.pc + 2 }) m'.pc (by rw [hlen]; exact hf.1) hs')
  | .call id args, m, rs, l, n, hc, hf, hp, hw, hs, hl => hp.elim

/-- The code of several expressions leaves their values on the stack in order. -/
theorem Expr.evaluatesAll : ∀ {es : List Expr} {m : Machine κ} {rs : List Record} {l : List UInt8}
    {n : Nat}, Code.Placed code m.pc (Expr.codeAll es) → Expr.FineAll rs₀ none es →
    Expr.PlainAll es → m.world.Good rs₀ ds rs → m.stack.Holds cap l → l.length = 3 * n →
    Evaluates Value.encodeAll code m cap l (m.pc + (Expr.codeAll es).size)
      (Expr.evalAll cap n es m.world)
  | [], m, rs, l, n, hc, hf, hp, hw, hs, hl => by
      rw [Expr.evalAll]
      refine ⟨0, m, rfl, rfl, ?_, rfl⟩
      rw [Value.encodeAll_nil, List.append_nil]
      exact hs
  | e :: es, m, rs, l, n, hc, hf, hp, hw, hs, hl => by
      rw [Expr.codeAll, Code.placed_append] at hc
      rw [Expr.evalAll, Expr.codeAll, Code.size_append, ← Nat.add_assoc]
      refine (Expr.evaluates hc.1 hf.1 hp.1 hw hs hl).bind fun v m' hpc hs' hx => ?_
      obtain ⟨rs', hw'⟩ := Expr.good_of_eval hw hf.1 hx
      have hl' : (l ++ v.encode).length = 3 * (n + 1) := by
        rw [List.length_append, Value.length_encode, Value.size]
        omega
      rw [← hpc] at hc ⊢
      refine (Expr.evaluatesAll hc.2 hf.2 hp.2 hw' hs' hl').bind fun vs m'' hpc' hs'' _ => ?_
      refine ⟨0, m'', rfl, hpc', ?_, rfl⟩
      rw [Value.encodeAll_cons, ← List.append_assoc]
      exact hs''

end

/-! ### Statements -/

variable {turns : Nat}

/-- A condition and the branch behind it. -/
theorem Expr.completes_test {c : Expr} {m : Machine κ} {a target pc : Nat} {exit : Option Nat}
    {yes no : World κ → Completion κ} (hpc : m.pc = a) (hc : Code.Placed code a c.code)
    (hd : Instruction.decode? code (a + c.code.size) = some
      ((Instr.jump .jfalse (a + c.code.size) (some target)).place (a + c.code.size)))
    (hreach : Instr.InReach (a + c.code.size + 3) target) (ha : a + c.code.size + 3 ≤ 65535)
    (htarget : target ≤ 65535) (hf : c.Fine rs₀ none) (hp : c.Plain)
    (hw : ∃ rs, m.world.Good rs₀ ds rs) (hs : m.stack.Holds cap [])
    (hyes : ∀ m' : Machine κ, m'.pc = a + c.code.size + 3 → m'.stack.Holds cap [] →
      (∃ rs, m'.world.Good rs₀ ds rs) → Completes code m' cap turns 0 pc exit (yes m'.world))
    (hno : ∀ m' : Machine κ, m'.pc = target → m'.stack.Holds cap [] →
      (∃ rs, m'.world.Good rs₀ ds rs) → Completes code m' cap turns 0 pc exit (no m'.world)) :
    Completes code m cap turns 1 pc exit (c.test cap yes no m.world) := by
  subst hpc
  obtain ⟨rs, hw⟩ := hw
  refine (Expr.evaluates hc hf hp hw hs (n := 0) rfl).completes fun v m' hpc hs' hx => ?_
  have hw' := Expr.good_of_eval hw hf hx
  rw [← hpc] at hd hreach ha hyes
  obtain ⟨s, hs'', hstep⟩ := step_branch hd hreach ha htarget hs'
  cases v with
  | bool b =>
      cases b with
      | true =>
          exact (hyes (withStack { m' with pc := m'.pc + 3 } s) rfl hs'' hw').after (run_one hstep)
            (by omega) (by omega)
      | false =>
          exact (hno { withStack { m' with pc := m'.pc + 3 } s with pc := target }
            rfl hs'' hw').after (run_one hstep) (by omega) (by omega)
  | _ => exact faults_one hstep rfl

/-- A value is taken from the stack and kept at a place. -/
theorem Place.completes_store {p : Place} (hp : p.Writable rs₀ none) {m : Machine κ} {v : Value}
    {exit : Option Nat} (hd : Instruction.decode? code m.pc = some (p.store.place m.pc))
    (hw : ∃ rs, m.world.Good rs₀ ds rs) (hs : m.stack.Holds cap ([] ++ v.encode)) :
    Completes code m cap turns 0 (m.pc + p.store.size) exit (.next (m.world.store p v)) := by
  cases p with
  | slot k =>
      obtain ⟨_, _, hscope, -⟩ := hp
      cases hscope
  | global id =>
      obtain ⟨rs, hw⟩ := hw
      obtain ⟨s, hs', hx⟩ := execute_setGlobal (m := { m with pc := m.pc + 3 }) m.pc
        (hw.identAt hp.2) hs
      have hstep := step_eq hd rfl (by simp [Place.store, Instr.withWord])
      rw [show (Place.global id).store.size = 3 from rfl, hx] at hstep
      exact ⟨1, Nat.zero_le _, _, run_one hstep, rfl, hs', rfl⟩

theorem Place.completes_input {ps : List Place} (hps : ∀ p ∈ ps, p.Writable rs₀ none)
    {m : Machine κ} {a : Nat} {exit : Option Nat} (hpc : m.pc = a)
    (hc : Code.Placed code a (ps.flatMap fun p => [.plain .input, p.store]))
    (hw : ∃ rs, m.world.Good rs₀ ds rs) (hs : m.stack.Holds cap []) :
    Completes code m cap turns 0 (a + (ps.map fun p => 1 + p.store.size).sum) exit
      (Place.input cap ps m.world) := by
  induction ps generalizing m a with
  | nil => exact ⟨0, Nat.le_refl _, m, rfl, hpc, hs, rfl⟩
  | cons p ps ih =>
      subst hpc
      obtain ⟨rs, hw⟩ := hw
      obtain ⟨hread, hstore, hrest⟩ := hc
      have hp := hps p (List.mem_cons_self ..)
      rw [Place.input, List.map_cons, List.sum_cons, ← Nat.add_assoc, ← Nat.add_assoc]
      refine (evaluates_of_produces hread rfl (by simp [Instr.plain]) (k := 0) rfl
        (execute_input (m := { m with pc := m.pc + 1 }) hs m.pc)).completes
        fun v m' hpc' hs' hx => ?_
      have hsound : m.world.SoundAfter rs ds (World.kept cap 0 World.readLine m.world) :=
        World.kept_sound (World.readLine_sound hw.heap)
      rw [show World.kept cap 0 World.readLine m.world = .ok v m'.world from hx] at hsound
      obtain ⟨rs', hr, hgrow, hheap, hv⟩ := hsound
      have hw' := hw.grow hr hgrow hheap
      rw [← hpc'] at hstore hrest
      rw [show m.pc + 1 = m'.pc from hpc'.symm]
      exact (Place.completes_store hp hstore ⟨rs', hw'⟩ hs').andThen (f := Place.input cap ps)
        fun m'' hpc'' hs'' hx' => ih (fun q hq => hps q (List.mem_cons_of_mem _ hq)) hpc''
          hrest ⟨rs', Completion.next.inj hx' ▸ hw'.store hp hv⟩ hs''

/-- The address behind a condition, a branch and a block. -/
theorem Stmt.size_block (a : Nat) (c : Code) (j : Nat) (target : Option Nat) (s : Stmt)
    (exit : Option Nat) (b : Nat) :
    a + Code.size (c ++ .jump .jfalse j target :: s.code exit b) = a + c.size + 3 + s.size := by
  rw [Code.size_append, Code.size_cons, Instr.size_jump, size_code,
    show 1 + Opcode.jfalse.shape.size = 3 from rfl]
  omega

theorem completes_jump {m : Machine κ} {a target : Nat} {exit : Option Nat} (hpc : m.pc = a)
    (hd : Instruction.decode? code a = some ((Instr.jump .jump a (some target)).place a))
    (hreach : Instr.InReach (a + 3) target) (ha : a + 3 ≤ 65535) (htarget : target ≤ 65535)
    (hs : m.stack.Holds cap []) :
    Completes code m cap turns 0 target exit (.next m.world) := by
  subst hpc
  exact ⟨1, Nat.zero_le _, _, run_one (step_jump hd hreach ha htarget), rfl, hs, rfl⟩

/-- The code of a statement does what the statement says. -/
theorem Stmt.completes {s : Stmt} {m : Machine κ} {a : Nat} {exit : Option Nat} (hpc : m.pc = a)
    (hc : Code.Placed code a (s.code exit a)) (hfit : s.Fits exit a) (hsize : a + s.size ≤ 65535)
    (hexit : ∀ target, exit = some target → target ≤ 65535)
    (hclosed : exit = none → s.breaks a = []) (hf : s.Fine rs₀ none) (hp : s.Plain)
    (hw : ∃ rs, m.world.Good rs₀ ds rs) (hs : m.stack.Holds cap []) :
    Completes code m cap turns 0 (a + s.size) exit (s.exec cap turns m.world) := by
  induction s generalizing m a exit with
  | skip => exact ⟨0, Nat.le_refl _, m, rfl, hpc, hs, rfl⟩
  | seq s t ihs iht =>
      obtain ⟨hc₁, hc₂⟩ := Code.placed_append.1 hc
      rw [size_code] at hc₂
      simp only [breaks, List.append_eq_nil_iff] at hclosed
      rw [size, ← Nat.add_assoc] at hsize ⊢
      refine (ihs hpc hc₁ hfit.1 (by omega) hexit (fun h => (hclosed h).1) hf.1 hp.1 hw hs).andThen
        fun m' hpc' hs' hr => ?_
      -- The second part starts in the world that the first one leaves.
      have hw' : Completion.Good rs₀ ds (s.exec cap turns m.world) := Stmt.exec_good hf.1 hw
      rw [hr] at hw'
      exact iht hpc' hc₂ hfit.2 hsize hexit (fun h => (hclosed h).2) hf.2 hp.2 hw' hs'
  | assign p e =>
      subst hpc
      obtain ⟨hc₁, hc₂⟩ := Code.placed_append.1 hc
      obtain ⟨rs, hw⟩ := hw
      rw [size, ← Nat.add_assoc]
      refine (Expr.evaluates hc₁ hf.1 hp hw hs (n := 0) rfl).completes fun v m' hpc' hs' hx => ?_
      rw [← hpc'] at hc₂ ⊢
      exact Place.completes_store hf.2 hc₂.1 (Expr.good_of_eval hw hf.1 hx) hs'
  | print es =>
      subst hpc
      obtain ⟨hc₁, hc₂⟩ := Code.placed_append.1 hc
      obtain ⟨rs, hw⟩ := hw
      rw [size, ← Nat.add_assoc]
      refine (Expr.evaluatesAll hc₁ hf.2 hp hw hs (n := 0) rfl).completes
        fun vs m' hpc' hs' hx => ?_
      have hlen := Expr.length_of_evalAll hw hf.2 hx
      rw [← hpc', ← hlen] at hc₂
      rw [← hpc']
      obtain ⟨s, hs'', hx'⟩ := execute_print (m := { m' with pc := m'.pc + 2 }) m'.pc
        (by rw [hlen]; exact hf.1) hs'
      have hstep := step_eq hc₂.1 rfl (by simp [Instr.withByte])
      rw [show (Instr.withByte .print (UInt8.ofNat vs.length)).size = 2 from rfl, hx'] at hstep
      exact ⟨1, Nat.zero_le _, _, run_one hstep, rfl, hs'', rfl⟩
  | input ps => exact Place.completes_input hf hpc hc hw hs
  | perform id args => exact hp.elim
  | ifThen c s ih =>
      obtain ⟨hc₁, hc₂, hc₃⟩ := Code.placed_append.1 hc
      simp only [size, ← Nat.add_assoc] at hsize ⊢
      refine (Expr.completes_test hpc hc₁ hc₂ hfit.1 (by omega) hsize hf.1 hp.1 hw hs ?_ ?_).weaken
        (Nat.zero_le _)
      · intro m' hpc' hs' hw'
        exact ih hpc' hc₃ hfit.2 hsize hexit hclosed hf.2 hp.2 hw' hs'
      · intro m' hpc' hs' _
        exact ⟨0, Nat.le_refl _, m', rfl, hpc', hs', rfl⟩
  | ifElse c s t ihs iht =>
      obtain ⟨hc₁, hjump, hc₄⟩ := Code.placed_append.1 hc
      rw [size_block] at hjump hc₄
      obtain ⟨hc₁, hc₂, hc₃⟩ := Code.placed_append.1 hc₁
      obtain ⟨hfit₁, hfit₂, hfit₃, hfit₄⟩ := hfit
      simp only [breaks, List.append_eq_nil_iff] at hclosed
      simp only [size, ← Nat.add_assoc] at hsize ⊢
      refine (Expr.completes_test hpc hc₁ hc₂ hfit₁ (by omega) (by omega) hf.1 hp.1 hw hs ?_
        ?_).weaken (Nat.zero_le _)
      · intro m' hpc' hs' hw'
        rw [← (s.exec cap turns m'.world).andThen_next]
        refine (ihs hpc' hc₃ hfit₂ (by omega) hexit (fun h => (hclosed h).1) hf.2.1 hp.2.1 hw'
          hs').andThen fun m'' hpc'' hs'' _ => ?_
        exact completes_jump hpc'' hjump hfit₃ (by omega) hsize hs''
      · intro m' hpc' hs' hw'
        exact iht hpc' hc₄ hfit₄ hsize hexit (fun h => (hclosed h).2) hf.2.2 hp.2.2 hw' hs'
  | whileDo c s ih =>
      obtain ⟨hc₁, hjump, -⟩ := Code.placed_append.1 hc
      rw [size_block] at hjump
      obtain ⟨hc₁, hc₂, hc₃⟩ := Code.placed_append.1 hc₁
      obtain ⟨hfit₁, hfit₂, hfit₃⟩ := hfit
      simp only [size, ← Nat.add_assoc] at hsize ⊢
      -- One turn is the test, the block and the jump back; the exit lies behind that jump.
      refine completes_iterate ?_ (Expr.test_good hf.1 (Stmt.exec_good hf.2) Completion.keeps_exit)
        (Nat.le_refl _) m hpc hs hw
      · intro m hpc hs hw
        refine Expr.completes_test hpc hc₁ hc₂ hfit₁ (by omega) hsize hf.1 hp.1 hw hs ?_ ?_
        · intro m' hpc' hs' hw'
          rw [← (s.exec cap turns m'.world).andThen_next]
          refine (ih hpc' hc₃ hfit₂ (by omega) ?_ (by simp) hf.2 hp.2 hw' hs').andThen
            fun m'' hpc'' hs'' _ => ?_
          · rintro _ ⟨⟩
            exact hsize
          · exact completes_jump hpc'' hjump hfit₃ (by omega) (by omega) hs''
        · intro m' hpc' hs' _
          exact ⟨0, _, rfl, m', rfl, hpc', hs', rfl⟩
  | repeatUntil s c ih =>
      obtain ⟨hc₁, hc₃, -⟩ := Code.placed_append.1 hc
      obtain ⟨hc₁, hc₂⟩ := Code.placed_append.1 hc₁
      rw [Code.size_append, size_code, ← Nat.add_assoc] at hc₃
      rw [size_code] at hc₂
      obtain ⟨hfit₁, hfit₂⟩ := hfit
      simp only [size, ← Nat.add_assoc] at hsize ⊢
      -- Here the block comes first, and it is the test that turns back.
      refine completes_iterate ?_
        (fun hw => Completion.andThen_good (Stmt.exec_good hf.2 hw)
          (Expr.test_good hf.1 Completion.keeps_exit Completion.keeps_next))
        (Nat.le_refl _) m hpc hs hw
      · intro m hpc hs hw
        refine (ih hpc hc₁ hfit₁ (by omega) ?_ (by simp) hf.2 hp.2 hw hs).andThen
          fun m' hpc' hs' hr => ?_
        · rintro _ ⟨⟩
          exact hsize
        · have hw' : Completion.Good rs₀ ds (s.exec cap turns m.world) := Stmt.exec_good hf.2 hw
          rw [hr] at hw'
          refine Expr.completes_test hpc' hc₂ hc₃ hfit₂ hsize (by omega) hf.1 hp.1 hw' hs' ?_ ?_
          · intro m'' hpc'' hs'' _
            exact ⟨0, _, rfl, m'', rfl, hpc'', hs'', rfl⟩
          · intro m'' hpc'' hs'' _
            exact ⟨0, Nat.le_refl _, m'', rfl, hpc'', hs'', rfl⟩
  | exitLoop =>
      subst hpc
      cases exit with
      | none => simp [breaks] at hclosed
      | some target =>
          have hstep := step_jump hc.1 (hfit target rfl) hsize (hexit target rfl)
          exact ⟨1, target, rfl, _, run_one hstep, rfl, hs, rfl⟩
  | halt =>
      subst hpc
      exact ⟨1, { m with pc := m.pc + 1 }, by simp only [run, step_stop hc.1], rfl⟩
  | returnValue e => exact hp.elim
  | returnBare => exact hp.elim
  | define d s ih => exact hp.elim

end

end CellScript
