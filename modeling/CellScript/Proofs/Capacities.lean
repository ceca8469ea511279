import CellScript.Proofs.ProgramCode
import CellScript.Proofs.RoomierCompiler
import CellScript.Proofs.RoomierMachine
import CellScript.Report

/-!
Capacities decide only when a run fails.

A text is compiled and run under two sets of limits, the second of which allows at
least as much everywhere. If the report under the first one says anything but that
some capacity was exceeded, then the report under the second one is the same: the
same lines, the same error at the same place, and the same digest.
-/

namespace CellScript

/-- The second limits allow at least as much, and agree on what is no capacity. -/
structure Limits.Roomier (l l' : Limits) : Prop where
  heapSize : l.heapSize ≤ l'.heapSize
  codeSize : l.codeSize ≤ l'.codeSize
  stackSize : l.stackSize ≤ l'.stackSize
  identBuckets : l'.identBuckets = l.identBuckets
  pendingOps : l.pendingOps ≤ l'.pendingOps
  controlDepth : l.controlDepth ≤ l'.controlDepth
  loopDepth : l.loopDepth ≤ l'.loopDepth
  loopExits : l.loopExits ≤ l'.loopExits
  forwardJumps : l.forwardJumps ≤ l'.forwardJumps
  maxSlots : l.maxSlots ≤ l'.maxSlots
  seed : l'.seed = l.seed

/-! ### Compiling -/

theorem Heap.roomier_ofSize {n n' : Nat} (h : n ≤ n') : Roomier (.ofSize n) (.ofSize n') := by
  refine ⟨rfl, fun i => ?_, ?_, ?_⟩
  · simp only [ofSize, byte, Array.getD_eq_getD_getElem?, Array.getElem?_replicate]
    split <;> split <;> rfl
  · simp only [ofSize, Array.size_replicate]
    omega
  · simp only [ofSize, Array.size_replicate]
    omega

theorem Compiler.roomier_start {l l' : Limits} (hl : l.Roomier l') (hv : l.validate = .ok ())
    (source : Source) : Roomier [] (start source l) (start source l') where
  source := rfl
  cursor := rfl
  code := ⟨rfl, rfl, hl.codeSize⟩
  store := ⟨Heap.roomier_ofSize hl.heapSize, by simp only [start, Store.ofSize, hl.identBuckets]⟩
  sourceMap := rfl
  maxSlots := hl.maxSlots
  pending := ⟨rfl, hl.pendingOps⟩
  blocks := ⟨rfl, hl.controlDepth⟩
  loopStarts := ⟨rfl, hl.loopDepth⟩
  savedExits := ⟨rfl, hl.loopDepth⟩
  loopExits := ⟨rfl, hl.loopExits⟩
  exitCount := rfl
  forward := ⟨rfl, hl.forwardJumps⟩
  body := rfl
  known := ⟨[], Store.ok_ofSize _ (Limits.buckets_pos hv), nofun, nofun⟩

namespace Program

/-- The second program has the same code, and the same content in a roomier arena. -/
structure Roomier (p p' : Program) : Prop where
  code : p'.code = p.code
  store : p.store.Roomier p'.store
  sourceMap : p'.sourceMap = p.sourceMap

variable {source : Source} {l l' : Limits} {p p' : Program}

theorem compile_roomier (hl : l.Roomier l') (hv : l.validate = .ok ()) (hv' : l'.validate = .ok ())
    (hc : compile source l = .ok p) : ∃ p', compile source l' = .ok p' ∧ p.Roomier p' := by
  unfold compile compileWith at hc ⊢
  simp only [hv, hv'] at hc ⊢
  cases hs : Compiler.program (Compiler.start source l) with
  | error e s => simp [hs] at hc
  | ok u s =>
      obtain ⟨t, ht, hr⟩ := Compiler.scales_program.ok (Compiler.roomier_start hl hv source) hs
      rw [hs] at hc
      rw [ht]
      have hfinish : t.code.finish = s.code.finish := by
        rw [CodeBuffer.finish, CodeBuffer.finish, hr.code.openFixups, hr.code.code]
      simp only [hfinish] at hc ⊢
      split at hc
      · cases hc
      · cases hc
        exact ⟨_, rfl, rfl, hr.store, hr.sourceMap⟩

theorem compile_error_roomier (hl : l.Roomier l') (hv : l.validate = .ok ())
    (hv' : l'.validate = .ok ()) {e : CompileError} (hc : compile source l = .error e)
    (hno : ¬ Compiler.GaveUp e) : compile source l' = .error e := by
  unfold compile compileWith at hc ⊢
  simp only [hv, hv'] at hc ⊢
  cases hs : Compiler.program (Compiler.start source l) with
  | error e' s =>
      rw [hs] at hc
      cases hc
      obtain ⟨t, ht, -⟩ :=
        Compiler.scales_program.error (Compiler.roomier_start hl hv source) hs hno
      rw [ht]
  | ok u s =>
      -- Open jumps at the end of the text are an error of the code, hence of this family.
      rw [hs] at hc
      simp only at hc
      split at hc
      · cases hc
        exact absurd (show 400 ≤ 403 by decide) hno
      · cases hc

/-- The digest does not show the size of the arena. -/
theorem Roomier.digest (h : p.Roomier p') : p'.digest = p.digest := by
  rw [Program.digest, Program.digest, image, image, h.code, heap, heap, h.store.heap.usedBytes]

end Program

theorem Machine.roomier_start {p p' : Program} {l l' : Limits} (hp : p.Roomier p')
    (hl : l.Roomier l') {κ : Type} (console : κ) :
    Roomier (start p l console) (start p' l' console) where
  heap := hp.store.heap
  stack := by
    refine ⟨rfl, fun i hi => ?_, Nat.zero_le _, ?_⟩
    · simp only [start, OperandStack.ofSize, OperandStack.byte, Array.getD_eq_getD_getElem?,
        Array.getElem?_replicate]
      split <;> split <;> rfl
    · simpa only [start, OperandStack.ofSize, Array.size_replicate] using hl.stackSize
  random := by simp only [start, hl.seed]
  pc := rfl
  fp := rfl
  depth := rfl
  console := rfl

/-! ### Reports -/

/-- An error that says that a capacity was exceeded: a compile error of the resource family, or a
run-time error with the message of such a fault. -/
def ReportedError.IsCapacity (e : ReportedError) : Prop :=
  match e.stage with
  | .config => False
  | .compile => ∃ n, e.number = some n ∧ 400 ≤ n
  | .runtime => ∃ f : Fault, f.IsCapacity ∧ f.message = e.message

/-- The first letter of the message of a fault. -/
def Fault.initial : Fault → Char
  | typeMismatch .. => 't'
  | unknownOpcode _ | undefinedVariable _ => 'u'
  | codeOverrun _ => 'p'
  | undefinedCallTarget _ | badCallTarget .. => '\''
  | argumentCount .. => 'w'
  | indexOutOfRange .. | invalidNumber _ | heap (.invalidHandle _) => 'i'
  | negativeArgument .. | numberOutOfRange _ => 'n'
  | divisionByZero => 'd'
  | missingReturn => 'f'
  | stackOverflow _ | stackUnderflow => 'o'
  | corruptValue _ => 'c'
  | heap (.exhausted ..) => 'h'
  | heap (.recordTooLarge ..) => 'r'
  | endOfInput => 'e'

theorem head?_append_of_head? {a b : String} {c : Char} (h : a.toList.head? = some c) :
    (a ++ b).toList.head? = some c := by
  rw [String.toList_append, List.head?_append, h, Option.some_or]

theorem Fault.head?_message (f : Fault) : f.message.toList.head? = some f.initial := by
  cases f with
  | heap e =>
      cases e
      all_goals
        unfold message Heap.Error.message
        repeat' with_reducible apply head?_append_of_head?
        rfl
  | _ =>
      unfold message
      repeat' with_reducible apply head?_append_of_head?
      rfl

theorem Fault.isCapacity_iff (f : Fault) : f.IsCapacity ↔ f.initial = 'o' ∨ f.initial = 'h' := by
  cases f with
  | heap e => cases e <;> simp [IsCapacity, Heap.Error.IsExhausted, initial]
  | _ => simp [IsCapacity, initial]

theorem Fault.IsCapacity.of_message {f g : Fault} (hf : f.IsCapacity) (h : f.message = g.message) :
    g.IsCapacity := by
  have hinitial : f.initial = g.initial := by
    rw [← Option.some_inj, ← f.head?_message, ← g.head?_message, h]
  rw [isCapacity_iff] at hf ⊢
  rwa [← hinitial]

/-- The message tells whether a fault is one of these. -/
theorem ReportedError.isCapacity_runtime_iff (sm : SourceMap) (t : Trap) :
    (ofFailure sm (.runtime t)).IsCapacity ↔ t.fault.IsCapacity := by
  constructor
  · rintro ⟨f, hf, hmessage⟩
    exact hf.of_message hmessage
  · exact fun h => ⟨t.fault, h, rfl⟩

theorem ReportedError.isCapacity_compile_iff (sm : SourceMap) (source : Source) (e : CompileError) :
    (ofFailure sm (.compile (.ofError source e))).IsCapacity ↔ Compiler.GaveUp e := by
  constructor
  · rintro ⟨n, hn, h⟩
    cases hn
    exact h
  · exact fun h => ⟨_, rfl, h⟩

namespace Report

variable {fuel : Nat} {name text : String} {l l' : Limits} {input : List (List UInt8)} {r : Report}

/-- A report of anything but an exceeded capacity is the same under roomier limits. -/
theorem same_of_roomier (hl : l.Roomier l') (hv : l.validate = .ok ()) (hv' : l'.validate = .ok ())
    (hr : ofText? fuel name text l input = some r) (he : ∀ e ∈ r.error, ¬ e.IsCapacity) :
    ofText? fuel name text l' input = some r := by
  unfold ofText? Program.build Program.ofSource at hr ⊢
  simp only [hv, hv'] at hr ⊢
  cases hc : Program.compile (.ofText name text) l with
  | error e =>
      rw [hc] at hr
      cases hr
      have hno : ¬ Compiler.GaveUp e :=
        mt (ReportedError.isCapacity_compile_iff _ _ e).2 (he _ rfl)
      rw [Program.compile_error_roomier hl hv hv' hc hno]
  | ok p =>
      obtain ⟨p', hc', hp⟩ := Program.compile_roomier hl hv hv' hc
      rw [hc] at hr
      rw [hc']
      simp only [hp.code] at hr ⊢
      have hrun := (Machine.roomier_start hp hl (QueuedConsole.ofInput input)).run p.code fuel
      cases hprogress : Machine.run p.code fuel (.start p l (QueuedConsole.ofInput input)) with
      | running m =>
          rw [hprogress] at hr
          cases hr
      | halted m =>
          rw [hprogress] at hr hrun
          cases hr
          obtain ⟨m', hm', hroomier⟩ := hrun
          rw [hm', ofProgress?, hroomier.console, hp.digest]
      | trapped t m =>
          rw [hprogress] at hr hrun
          cases hr
          obtain hcapacity | ⟨m', hm', hroomier⟩ := hrun
          · exact absurd ((ReportedError.isCapacity_runtime_iff p.sourceMap t).2 hcapacity)
              (he _ rfl)
          · rw [hm', ofProgress?, hroomier.console, hp.digest, hp.sourceMap]

/-- Under limits that this text just fits, and under the default ones, a run that divides by zero
prints the same line before and fails at the same place. -/
theorem same_of_roomier_of_tight : ∃ r,
    ofText? 99 "m" "s = [1, 0]; print s; print s[0] / s[1];"
        { (default : Limits) with
          heapSize := 20, codeSize := 34, stackSize := 9, pendingOps := 3 } [] =
      some r ∧
    ofText? 99 "m" "s = [1, 0]; print s; print s[0] / s[1];" default [] = some r ∧
    r.output = ["[1,0]"] ∧
    r.error = some ⟨.runtime, "division by zero", none, some ⟨1, 22, 1, 27⟩, some 30⟩ := by
  have hr : (ofText? 99 "m" "s = [1, 0]; print s; print s[0] / s[1];"
        { (default : Limits) with
          heapSize := 20, codeSize := 34, stackSize := 9, pendingOps := 3 } []).map
      (fun r => (r.output, r.error)) = some (["[1,0]"],
        some ⟨.runtime, "division by zero", none, some ⟨1, 22, 1, 27⟩, some 30⟩) := by
    decide +kernel
  obtain ⟨r, hr, hparts⟩ := Option.map_eq_some_iff.1 hr
  obtain ⟨houtput, herror⟩ := Prod.mk.inj hparts
  refine ⟨r, hr, ?_, houtput, herror⟩
  refine same_of_roomier ?_ rfl rfl hr fun e he => ?_
  · constructor <;> decide
  · rw [herror] at he
    cases he
    exact mt (ReportedError.isCapacity_runtime_iff .empty ⟨30, .divisionByZero⟩).1 id

end Report

end CellScript
