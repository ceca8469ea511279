import CellScript.Machine.Step
import CellScript.Proofs.Parallel
import CellScript.Proofs.ProgramCode

/-!
Consoles that a program cannot tell apart.

A machine touches its console in two places: it prints a line, and it reads one. If
a relation between two consoles is kept by both (`Console.Alike`), a machine beside
another one that differs from it in nothing but the console stays beside it, step
for step, up to the same end.

The queue and the byte stream are such consoles. What they are related by is the
text that was typed in: `Typed` says how a list of lines can stand in a stream, with
either line break behind each line and none behind the last one, unless that line is
empty and would leave no trace.
-/

namespace CellScript

/-- A relation between two consoles that printing and reading keep. -/
structure Console.Alike {κ κ' : Type} [Console κ] [Console κ'] (R : κ → κ' → Prop) : Prop where
  write : ∀ {c d}, R c d → ∀ line, R (writeLine line c) (writeLine line d)
  ended : ∀ {c d}, R c d → readLine? c = none → readLine? d = none
  read : ∀ {c d}, R c d → ∀ {line c'}, readLine? c = some (line, c') →
    ∃ d', readLine? d = some (line, d') ∧ R c' d'

/-! ### Steps beside each other -/

namespace Machine

/-- Machines that differ in their consoles only, and these are related. -/
inductive Beside {κ κ' : Type} (R : κ → κ' → Prop) : Machine κ → Machine κ' → Prop
  | mk {heap : Heap} {stack : OperandStack} {random : Random} {pc fp depth : Nat} {c : κ} {d : κ'} :
      R c d → Beside R ⟨heap, stack, random, pc, fp, depth, c⟩
        ⟨heap, stack, random, pc, fp, depth, d⟩

variable {κ κ' α : Type} {R : κ → κ' → Prop}

/-- Steps that do the same beside each other, whether they fail or not. -/
abbrev Agrees (R : κ → κ' → Prop) (x : Step κ α) (y : Step κ' α) : Prop :=
  Parallel (Beside R) (fun _ => False) x y

/-- Results of steps beside each other. -/
inductive EndsBeside (R : κ → κ' → Prop) :
    EStateM.Result Fault (Machine κ) α → EStateM.Result Fault (Machine κ') α → Prop
  | ok {a : α} {m : Machine κ} {m' : Machine κ'} : Beside R m m' → EndsBeside R (.ok a m) (.ok a m')
  | error {e : Fault} {m : Machine κ} {m' : Machine κ'} :
      Beside R m m' → EndsBeside R (.error e m) (.error e m')

theorem Agrees.of_ends {x : Step κ α} {y : Step κ' α}
    (h : ∀ {m m'}, Beside R m m' → EndsBeside R (x m) (y m')) : Agrees R x y where
  ok hr hx := by
    have hends := h hr
    rw [hx] at hends
    generalize hy : y _ = result at hends
    cases hends with
    | ok hr' => exact ⟨_, rfl, hr'⟩
  error hr hx _ := by
    have hends := h hr
    rw [hx] at hends
    generalize hy : y _ = result at hends
    cases hends with
    | error hr' => exact ⟨_, rfl, hr'⟩

theorem Agrees.ends {x : Step κ α} {y : Step κ' α} (h : Agrees R x y) {m : Machine κ}
    {m' : Machine κ'} (hr : Beside R m m') : EndsBeside R (x m) (y m') := by
  cases hx : x m with
  | ok a m₁ =>
      obtain ⟨m₁', hy, hr'⟩ := h.ok hr hx
      rw [hy]
      exact .ok hr'
  | error e m₁ =>
      obtain ⟨m₁', hy, hr'⟩ := h.error hr hx not_false
      rw [hy]
      exact .error hr'

theorem agrees_onStack (act : OperandStack.Action α) : Agrees R (onStack act) (onStack act) := by
  refine .of_ends fun hr => ?_
  cases hr with
  | @mk heap stack _ _ _ _ _ _ hr =>
      simp only [onStack]
      cases act stack with
      | ok => exact .ok (.mk hr)
      | error => exact .error (.mk hr)

theorem agrees_onHeap (act : Operation α) : Agrees R (onHeap act) (onHeap act) := by
  refine .of_ends fun hr => ?_
  cases hr with
  | @mk heap _ _ _ _ _ _ _ hr =>
      simp only [onHeap]
      cases act heap with
      | ok => exact .ok (.mk hr)
      | error => exact .error (.mk hr)

theorem agrees_askHeap (f : Heap → Except Heap.Error α) : Agrees R (askHeap f) (askHeap f) := by
  refine .of_ends fun hr => ?_
  cases hr with
  | @mk heap _ _ _ _ _ _ _ hr =>
      simp only [askHeap]
      cases f heap with
      | ok => exact .ok (.mk hr)
      | error => exact .error (.mk hr)

theorem agrees_draw : Agrees R draw draw :=
  .of_ends fun hr => by
    cases hr with
    | mk hr => exact .ok (.mk hr)

theorem agrees_jumpTo (pc : Nat) : Agrees R (jumpTo pc) (jumpTo pc) :=
  .modify fun _ _ hr => by
    cases hr with
    | mk hr => exact .mk hr

theorem agrees_push (v : Value) : Agrees R (push v) (push v) := agrees_onStack _

theorem agrees_pop : Agrees R pop pop := agrees_onStack _

theorem agrees_popMany (n : Nat) : Agrees R (popMany n) (popMany n) := agrees_onStack _

/-- The computed value is pushed. -/
theorem agrees_produce (act : Operation Value) :
    Agrees R (do push (← onHeap act)) (do push (← onHeap act)) :=
  .bind (agrees_onHeap act) agrees_push

theorem agrees_getGlobal (offset : UInt16) : Agrees R (getGlobal offset) (getGlobal offset) := by
  refine .bind (agrees_askHeap _) fun id => .get_bind fun m m' hr => ?_
  cases hr with
  | mk hr =>
      dsimp only
      split
      · exact .throw _
      · exact agrees_push _

theorem agrees_setGlobal (offset : UInt16) : Agrees R (setGlobal offset) (setGlobal offset) := by
  refine .bind (agrees_askHeap _) fun id => .bind agrees_pop fun v => .modify fun m m' hr => ?_
  cases hr with
  | mk hr => exact .mk hr

theorem agrees_getSlot (slot : UInt8) : Agrees R (getSlot slot) (getSlot slot) := by
  refine .get_bind fun m m' hr => ?_
  cases hr with
  | mk hr =>
      dsimp only [slotOffset]
      split
      · exact .throw _
      · exact .throw _
      · exact agrees_push _

theorem agrees_setSlot (slot : UInt8) : Agrees R (setSlot slot) (setSlot slot) := by
  refine .bind agrees_pop fun v => .get_bind fun m m' hr => ?_
  cases hr with
  | mk hr => exact agrees_onStack _

theorem agrees_call (isProc : Bool) (n : UInt8) (offset : UInt16) :
    Agrees R (call isProc n offset) (call isProc n offset) := by
  refine .bind (agrees_askHeap _) fun id => .get_bind fun m m' hr => ?_
  cases hr with
  | mk hr =>
      dsimp only
      split
      · exact .throw _
      · refine .when (.throw _) fun _ => .get_bind fun m m' hr => ?_
        cases hr with
        | mk hr =>
            refine .when (.throw _) fun _ => .bind (agrees_onStack _) fun _ =>
              .get_bind fun m m' hr => ?_
            cases hr with
            | mk hr =>
                refine .bind (agrees_onStack _) fun _ => .bind (agrees_onStack _) fun _ =>
                  .bind (agrees_onStack _) fun _ => .modify fun m m' hr => ?_
                cases hr with
                | mk hr => exact .mk hr

theorem agrees_leave : Agrees R leave leave := by
  refine .bind (agrees_onStack _) fun pc => .bind (agrees_onStack _) fun sp =>
    .bind (agrees_onStack _) fun fp => .bind (agrees_onStack _) fun _ => .modify fun m m' hr => ?_
  cases hr with
  | mk hr => exact .mk hr

theorem agrees_unary (op : Opcode) : Agrees R (unary op) (unary op) :=
  .bind agrees_pop fun _ => agrees_produce _

theorem agrees_binary (op : Opcode) : Agrees R (binary op) (binary op) :=
  .bind agrees_pop fun _ => .bind agrees_pop fun _ => agrees_produce _

theorem agrees_branch (target : Nat) : Agrees R (branch target) (branch target) := by
  refine .bind agrees_pop fun v => ?_
  split
  · exact .pure _
  · exact agrees_jumpTo _
  · exact .throw _

section

variable [Console κ] [Console κ'] (hR : Console.Alike R)

include hR

theorem agrees_writeLine (line : List UInt8) : Agrees R (writeLine line) (writeLine line) :=
  .modify fun _ _ hr => by
    cases hr with
    | mk hr => exact .mk (hR.write hr line)

theorem agrees_readLine : Agrees R readLine readLine := by
  refine .of_ends fun hr => ?_
  cases hr with
  | @mk _ _ _ _ _ _ c d hr =>
      simp only [readLine]
      cases hc : Console.readLine? c with
      | none =>
          rw [hR.ended hr hc]
          exact .error (.mk hr)
      | some read =>
          obtain ⟨d', hd, hr'⟩ := hR.read hr hc
          rw [hd]
          exact .ok (.mk hr')

theorem agrees_execute (i : Instruction) : Agrees R (execute i) (execute i) := by
  unfold execute
  split
  all_goals first
    | with_reducible exact agrees_push _
    | with_reducible exact .throw _
    | with_reducible exact agrees_getGlobal _
    | with_reducible exact agrees_setGlobal _
    | with_reducible exact agrees_getSlot _
    | with_reducible exact agrees_setSlot _
    | with_reducible exact agrees_jumpTo _
    | with_reducible exact agrees_branch _
    | with_reducible exact agrees_call _ _ _
    | with_reducible exact agrees_leave
    | with_reducible exact agrees_unary _
    | with_reducible exact agrees_binary _
    | skip
  · exact .bind (agrees_askHeap _) fun _ => agrees_push _
  · exact .bind agrees_draw fun _ => agrees_push _
  · exact .bind (agrees_popMany _) fun _ => agrees_produce _
  · exact .bind agrees_pop fun _ => .bind agrees_pop fun _ => agrees_produce _
  · exact .bind agrees_pop fun _ => .bind agrees_pop fun _ => agrees_produce _
  · exact .bind agrees_pop fun _ => .bind agrees_pop fun _ => .bind agrees_pop fun _ =>
      agrees_produce _
  · refine .bind agrees_pop fun k => .bind agrees_pop fun c => .get_bind fun m m' hr => ?_
    cases hr with
    | mk hr =>
        dsimp only
        split
        · exact agrees_push _
        · exact .throw _
  · exact .bind agrees_pop fun _ => .bind agrees_pop fun _ => .bind agrees_pop fun _ =>
      agrees_produce _
  · refine .bind (agrees_popMany _) fun vs => .get_bind fun m m' hr => ?_
    cases hr with
    | mk hr => exact agrees_writeLine hR _
  · exact .bind (agrees_readLine hR) fun _ => agrees_produce _
  · exact .bind agrees_pop fun v => .bind agrees_leave fun _ => agrees_push v

/-- One step beside another. -/
theorem agrees_step (code : Array UInt8) : Agrees R (step code) (step code) := by
  refine .get_bind fun m m' hr => ?_
  cases hr with
  | mk hr =>
      dsimp only
      split
      · exact .throw _
      · refine .bind (agrees_jumpTo _) fun _ => ?_
        exact .ite (fun _ => .pure _) fun _ => .bind (agrees_execute hR _) fun _ => .pure _

end

end Machine

/-! ### Runs beside each other -/

/-- Both runs go on, both have halted or both have ended with the same trap, on machines that
differ in their consoles only. -/
inductive Progress.Beside {κ κ' : Type} (R : κ → κ' → Prop) : Progress κ → Progress κ' → Prop
  | running {m : Machine κ} {m' : Machine κ'} : m.Beside R m' → Beside R (.running m) (.running m')
  | halted {m : Machine κ} {m' : Machine κ'} : m.Beside R m' → Beside R (.halted m) (.halted m')
  | trapped {t : Trap} {m : Machine κ} {m' : Machine κ'} :
      m.Beside R m' → Beside R (.trapped t m) (.trapped t m')

/-- Runs that begin beside each other stay there. -/
theorem Machine.Beside.run {κ κ' : Type} [Console κ] [Console κ'] {R : κ → κ' → Prop}
    (hR : Console.Alike R) {m : Machine κ} {m' : Machine κ'} (hr : m.Beside R m')
    (code : Array UInt8) (fuel : Nat) : (run code fuel m).Beside R (run code fuel m') := by
  induction fuel generalizing m m' with
  | zero => exact .running hr
  | succ fuel ih =>
      have hpc : m.pc = m'.pc := by
        cases hr
        rfl
      have hends := (agrees_step hR code).ends hr
      simp only [Machine.run]
      generalize step code m = x at hends
      generalize step code m' = y at hends
      cases hends with
      | @ok flow m₁ m₁' hr' =>
          cases flow with
          | next => exact ih hr'
          | halt => exact .halted hr'
      | error hr' =>
          rw [hpc]
          exact .trapped hr'

/-! ### The queue and the stream -/

/-- A line that a stream can carry: it holds no line feed and does not end in a carriage return. -/
def Console.PlainLine (line : List UInt8) : Prop := 10 ∉ line ∧ line.getLast? ≠ some 13

instance (line : List UInt8) : Decidable (Console.PlainLine line) :=
  inferInstanceAs (Decidable (_ ∧ _))

open Console

/-- How lines can stand in a stream. -/
inductive Console.Typed : List (List UInt8) → List UInt8 → Prop
  | nil : Typed [] []
  /-- The last line break may be missing, but not behind an empty line. -/
  | last {line : List UInt8} : line ≠ [] → PlainLine line → Typed [line] line
  | feed {line bytes : List UInt8} {lines : List (List UInt8)} :
      PlainLine line → Typed lines bytes → Typed (line :: lines) (line ++ 10 :: bytes)
  | returnFeed {line bytes : List UInt8} {lines : List (List UInt8)} :
      PlainLine line → Typed lines bytes → Typed (line :: lines) (line ++ 13 :: 10 :: bytes)

namespace StreamConsole

theorem splitLine_append {line : List UInt8} (h : 10 ∉ line) (bytes : List UInt8) :
    splitLine (line ++ 10 :: bytes) = (line, some bytes) := by
  induction line with
  | nil => rfl
  | cons b line ih =>
      obtain ⟨hb, hline⟩ := not_or.1 (mt List.mem_cons.2 h)
      rw [List.cons_append, splitLine, if_neg (Ne.symm hb), ih hline]

theorem splitLine_eq_self {line : List UInt8} (h : 10 ∉ line) : splitLine line = (line, none) := by
  induction line with
  | nil => rfl
  | cons b line ih =>
      obtain ⟨hb, hline⟩ := not_or.1 (mt List.mem_cons.2 h)
      rw [splitLine, if_neg (Ne.symm hb), ih hline]

/-- The stream carries what is queued, and it has received what was printed. -/
structure Carries (c : QueuedConsole) (d : StreamConsole) : Prop where
  input : Typed c.input d.input
  output : d.output.toList = c.output.toList.flatMap (· ++ [10])

theorem dropReturn_eq_self {line : List UInt8} (h : line.getLast? ≠ some 13) :
    dropReturn line = line :=
  if_neg h

theorem dropReturn_append (line : List UInt8) : dropReturn (line ++ [13]) = line := by
  rw [dropReturn, if_pos List.getLast?_concat, List.dropLast_concat]

/-- A line with its line break is taken off the stream. -/
theorem readLine?_append {line : List UInt8} (h : 10 ∉ line) (bytes : List UInt8)
    (output : Array UInt8) :
    readLine? (⟨line ++ 10 :: bytes, output⟩ : StreamConsole) =
      some (dropReturn line, ⟨bytes, output⟩) := by
  show (if (line ++ 10 :: bytes).isEmpty then none else _) = _
  rw [if_neg (by simp), splitLine_append h]

/-- Reading from the stream gives the line that was typed first. -/
theorem readLine?_of_typed {line bytes : List UInt8} {lines : List (List UInt8)}
    (h : Typed (line :: lines) bytes) (output : Array UInt8) :
    ∃ rest, readLine? (⟨bytes, output⟩ : StreamConsole) = some (line, ⟨rest, output⟩) ∧
      Typed lines rest := by
  cases h with
  | last hne hplain =>
      refine ⟨[], ?_, .nil⟩
      show (if line.isEmpty then none else _) = _
      rw [if_neg (by rwa [List.isEmpty_iff]), splitLine_eq_self hplain.1]
  | @feed _ rest _ hplain htyped =>
      refine ⟨rest, ?_, htyped⟩
      rw [readLine?_append hplain.1, dropReturn_eq_self hplain.2]
  | @returnFeed _ rest _ hplain htyped =>
      have hno : 10 ∉ line ++ [13] := by
        rw [List.mem_append]
        rintro (hline | hreturn)
        · exact hplain.1 hline
        · exact absurd hreturn (by decide)
      refine ⟨rest, ?_, htyped⟩
      rw [show line ++ 13 :: 10 :: rest = (line ++ [13]) ++ 10 :: rest by simp,
        readLine?_append hno, dropReturn_append]

theorem alike_carries : Console.Alike Carries where
  write {c d} hr line := by
    refine ⟨hr.input, ?_⟩
    show ((d.output ++ line).push 10).toList = (c.output.push line).toList.flatMap (· ++ [10])
    rw [Array.toList_push, Array.toList_push, Array.toList_appendList, hr.output,
      List.flatMap_append, List.append_assoc, List.flatMap_singleton]
  ended {c d} hr hc := by
    obtain ⟨output, input⟩ := c
    obtain ⟨bytes, written⟩ := d
    cases input with
    | nil =>
        obtain ⟨hinput, -⟩ := hr
        cases hinput
        rfl
    | cons line lines => cases hc
  read {c d} hr line c' hc := by
    obtain ⟨output, input⟩ := c
    obtain ⟨bytes, written⟩ := d
    cases input with
    | nil => cases hc
    | cons first lines =>
        cases hc
        obtain ⟨rest, hread, htyped⟩ := readLine?_of_typed hr.input written
        exact ⟨_, hread, htyped, hr.output⟩

end StreamConsole

open StreamConsole in
/-- A program cannot tell queued lines from the same lines typed in at a terminal: after any number
of steps both runs go on, have halted or have ended with the same trap, on machines that are the
same but for the consoles, and the stream has received the printed lines, each ended by a line
feed. -/
theorem Program.stream_beside_queue (p : Program) (limits : Limits) {lines : List (List UInt8)}
    {bytes : List UInt8} (h : Typed lines bytes) (fuel : Nat) :
    (Machine.run p.code fuel (.start p limits (QueuedConsole.ofInput lines))).Beside Carries
      (Machine.run p.code fuel (.start p limits (StreamConsole.ofInput bytes))) :=
  Machine.Beside.run alike_carries (.mk ⟨h, rfl⟩) p.code fuel

/-- Three lines, the second one empty and the last one without a line break, and a program that
asks for a fourth. -/
theorem Program.stream_beside_queue_of_three : ∃ p : Program,
    compile (.ofText "m" "input a, b, c; print a + b + c; input d;") default = .ok p ∧
    Typed [[97, 98], [], [99]] [97, 98, 13, 10, 10, 99] ∧
    ∀ (limits : Limits) (fuel : Nat),
      (Machine.run p.code fuel (.start p limits
        (QueuedConsole.ofInput [[97, 98], [], [99]]))).Beside StreamConsole.Carries
      (Machine.run p.code fuel (.start p limits
        (StreamConsole.ofInput [97, 98, 13, 10, 10, 99]))) := by
  have htyped : Typed [[97, 98], [], [99]] [97, 98, 13, 10, 10, 99] :=
    @Typed.returnFeed [97, 98] _ _ (by decide) (@Typed.feed [] _ _ (by decide)
      (.last (by decide) (by decide)))
  obtain ⟨p, hp, -⟩ := exists_of_compile (.ofText "m" "input a, b, c; print a + b + c; input d;")
    default (fun _ => true) (by decide +kernel)
  exact ⟨p, hp, htyped, fun limits => stream_beside_queue p limits htyped⟩

end CellScript
