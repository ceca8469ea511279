import CellScript.Proofs.Rounds
import CellScript.Proofs.Upkeep

/-!
How deep expressions nest.

An expression inside of another one is compiled while the outer one is not done yet. Each
leaves a mark on the stack of waiting operators until it is done, so there cannot be more
of them at a time than that stack holds, and the recursion is no deeper than the limits
say.

To say so, a watch is added to the functions for expressions: it is run whenever an
expression has pushed its mark, with the number of those that have pushed theirs and are
not done. Nothing else is changed. Whatever the watch does beyond the limit, the compiler
with it does the same as without.
-/

namespace CellScript

namespace Compiler

/-! ### Expressions that are watched -/

mutual

/-- `expr`, with `d` expressions around it that are not done. -/
def watchedExpr (watch : Nat → Compile Unit) : (fuel d : Nat) → Compile Unit
  | 0, _ => failHere .outOfFuel
  | fuel + 1, d => do
    pushPending .mark
    watch (d + 1)
    watchedOperands watch fuel (d + 1)

def watchedOperands (watch : Nat → Compile Unit) : (fuel d : Nat) → Compile Unit
  | 0, _ => failHere .outOfFuel
  | fuel + 1, d => do
    unaryOperators fuel
    watchedOperand watch fuel d
    match ← read Cursor.binaryOperator with
    | none => flush none ((← get).pending.size + 1)
    | some t =>
      flush (some t.operator.prec) ((← get).pending.size + 1)
      pushPending (.operator t.operator.op t.operator.prec)
      watchedOperands watch fuel d

def watchedOperand (watch : Nat → Compile Unit) : (fuel d : Nat) → Compile Unit
  | 0, _ => failHere .outOfFuel
  | fuel + 1, d => do
    if ← symbol Symbol.openParen then
      watchedExpr watch fuel d
      expect Symbol.closeParen
    else if ← symbol Symbol.openBracket then
      let start := (← get).cursor.pos - 1
      let n ← watchedList watch fuel d Symbol.closeBracket
      arrayLiteral start n
    else
      match ← tryRead Cursor.number with
      | some t => numberLiteral t.value
      | none =>
        match ← tryRead Cursor.string with
        | some t => stringLiteral t
        | none =>
          match ← read Cursor.word with
          | some w => watchedWord watch fuel d w
          | none =>
            if ← read Cursor.atEnd then failHere (.endOfInput .expression)
            else failHere .expectedExpression

def watchedWord (watch : Nat → Compile Unit) : (fuel d : Nat) → WordToken → Compile Unit
  | 0, _, _ => failHere .outOfFuel
  | fuel + 1, d, w => do
    match Keyword.lookup? w.bytes with
    | some ⟨op, .constant⟩ => emitOp op
    | some ⟨op, .function arity⟩ =>
      expect Symbol.openParen
      let n ← watchedList watch fuel d Symbol.closeParen
      if n ≠ arity then failAt w (.builtinArguments w.text arity n)
      emitOp op
    | some _ => failAt w (.keywordInExpression w.text)
    | none =>
      let id ← intern w.bytes
      if ← symbol Symbol.openParen then
        let n ← watchedList watch fuel d Symbol.closeParen
        emitCall .callFunc (← argumentCount n w) id
      else
        match ← slotOf id with
        | some slot => emitOpByte .slotGet slot
        | none => emitOpWord .identGet id.offset
        watchedIndices watch fuel d

def watchedList (watch : Nat → Compile Unit) : (fuel d : Nat) → (close : UInt8) → Compile Nat
  | 0, _, _ => failHere .outOfFuel
  | fuel + 1, d, close => do
    if ← symbol close then return 0
    watchedListFrom watch fuel d close 0

def watchedListFrom (watch : Nat → Compile Unit) :
    (fuel d : Nat) → (close : UInt8) → (n : Nat) → Compile Nat
  | 0, _, _, _ => failHere .outOfFuel
  | fuel + 1, d, close, n => do
    watchedExpr watch fuel d
    if ← symbol Symbol.comma then watchedListFrom watch fuel d close (n + 1)
    else
      expect close
      return n + 1

def watchedIndices (watch : Nat → Compile Unit) : (fuel d : Nat) → Compile Unit
  | 0, _ => failHere .outOfFuel
  | fuel + 1, d => do
    if ← symbol Symbol.openBracket then
      watchedExpr watch fuel d
      if ← symbol Symbol.colon then
        watchedExpr watch fuel d
        expect Symbol.closeBracket
        emitOp .slice
      else
        expect Symbol.closeBracket
        emitOp .index
      watchedIndices watch fuel d

end

/-- `expression`, which no other expression is around. -/
def watchedExpression (watch : Nat → Compile Unit) : Compile Unit := do
  watchedExpr watch (8 * ((← get).cursor.rest.length + 1)) 0

/-- A watch that does nothing up to the limit, and anything beyond. -/
def watchBeyond (limit : Nat) (other : Nat → Compile Unit) (d : Nat) : Compile Unit :=
  if d ≤ limit then pure () else other d

/-! ### Statements with other expressions

The statements that contain expressions, with another way to compile these. -/

def argumentsFromWith (e : Compile Unit) : (fuel n : Nat) → Compile Nat
  | 0, _ => failHere .outOfFuel
  | fuel + 1, n => do
    e
    if ← symbol Symbol.comma then argumentsFromWith e fuel (n + 1) else return n + 1

def argumentsWith (e : Compile Unit) : Compile Nat := do
  if ← read Cursor.atStatementEnd then return 0
  argumentsFromWith e ((← get).cursor.rest.length + 1) 0

def printStatementWith (e : Compile Unit) (w : WordToken) : Compile Unit := do
  let n ← argumentsWith e
  emitOpByte .print (← argumentCount n w)

def ifStatementWith (e : Compile Unit) (w : WordToken) : Compile Unit := do
  pushBlock .ifBlock w
  e
  pushForward (← onCode (CodeBuffer.emitForward .jfalse))

def whileStatementWith (e : Compile Unit) (w : WordToken) : Compile Unit := do
  pushBlock .whileLoop w
  beginLoop
  e
  pushLoopExit (← onCode (CodeBuffer.emitForward .jfalse))

def untilStatementWith (e : Compile Unit) (w : WordToken) : Compile Unit := do
  popBlock w .repeatLoop []
  e
  endLoop .jfalse

def returnStatementWith (e : Compile Unit) (w : WordToken) : Compile Unit := do
  match (← get).body with
  | none => failAt w .returnOutsideBody
  | some body =>
    let bare ← read Cursor.atStatementEnd
    if body.isFunc then
      if bare then failAt w .returnWithoutValue
      e
      emitOp .returnFunc
    else
      unless bare do failHere .returnWithValue
      emitOp .returnProc

def controlStatementWith (e : Compile Unit) (op : Opcode) (w : WordToken) : Compile Unit :=
  match op with
  | .wordIf => ifStatementWith e w
  | .wordWhile => whileStatementWith e w
  | .wordUntil => untilStatementWith e w
  | .wordReturn => returnStatementWith e w
  | op => controlStatement op w

def statementAtWith (e : Compile Unit) (w : WordToken) : Compile Unit := do
  modify fun s =>
    { s with sourceMap := s.sourceMap.push s.code.pos (s.source.span w.start w.stop) }
  match Keyword.lookup? w.bytes with
  | some ⟨op, .command⟩ => emitOp op
  | some ⟨_, .listCommand⟩ => printStatementWith e w
  | some ⟨_, .input⟩ => inputStatement ((← get).cursor.rest.length + 1)
  | some ⟨op, .control⟩ => controlStatementWith e op w
  | some _ => failAt w (.keywordStartsStatement w.text)
  | none =>
    let id ← intern w.bytes
    if ← symbol Symbol.equals then
      e
      assign id w
    else
      let n ← argumentsWith e
      emitCall .callProc (← argumentCount n w) id

def statementWith (e : Compile Unit) : Compile Unit := do
  match ← read Cursor.word with
  | none => failHere .expectedStatement
  | some w => statementAtWith e w

def statementsWith (e : Compile Unit) : (fuel : Nat) → Compile Unit
  | 0 => failHere .outOfFuel
  | fuel + 1 => do
    unless ← read Cursor.atEnd do
      statementWith e
      if ← symbol Symbol.semicolon then statementsWith e fuel
      else if ← read Cursor.atEnd then failHere (.endOfInput (.symbol Symbol.semicolon))
      else failHere .trailingInput

def programWith (e : Compile Unit) : Compile Unit := do
  statementsWith e ((← get).cursor.rest.length + 1)
  match (← get).blocks.top? with
  | some block => throw ⟨.unterminated block.construct.word, block.start, block.stop⟩
  | none => emitOp .stop

/-! ### Marks -/

/-- The stack of waiting operators has its size, and `d` marks at least lie on it. -/
structure Deep (limit d : Nat) (s : Compiler) : Prop where
  capacity : s.pending.capacity = limit
  size : s.pending.size ≤ limit
  marks : d ≤ s.pending.items.count .mark

section

variable {limit d d' d'' : Nat} {s t : Compiler}

/-- Marks take up room. -/
theorem Deep.le (h : Deep limit d s) : d ≤ limit :=
  Nat.le_trans h.marks (Nat.le_trans List.count_le_length h.size)

theorem Deep.of_pending (h : Deep limit d s) (ht : t.pending = s.pending) : Deep limit d t :=
  ⟨by rw [ht, h.capacity], by rw [ht]; exact h.size, by rw [ht]; exact h.marks⟩

theorem Deep.mono (h : Deep limit d s) (hd : d' ≤ d) : Deep limit d' s :=
  ⟨h.capacity, h.size, Nat.le_trans hd h.marks⟩

theorem pushPending_room {p : Pending} {u : Unit} (h : pushPending p s = .ok u t) :
    s.pending.size < s.pending.capacity := by
  simp only [pushPending, BoundedStack.push?] at h
  split at h
  · rename_i hpush
    split at hpush
    · cases hpush
    · omega
  · cases h

theorem Deep.push {p : Pending} {u : Unit} (h : Deep limit d s) (hp : pushPending p s = .ok u t) :
    Deep limit (d + if p = .mark then 1 else 0) t := by
  have hroom := pushPending_room hp
  rw [h.capacity] at hroom
  rw [pushPending_ok hp]
  refine ⟨h.capacity, hroom, ?_⟩
  simp only [withPending, List.count_cons, beq_iff_eq]
  exact Nat.add_le_add_right h.marks _

theorem Deep.pop {p : Pending} {ps : List Pending} (h : Deep limit d s)
    (hs : s.pending.items = p :: ps) :
    Deep limit (d - if p = .mark then 1 else 0) { s with pending := s.pending.pop } := by
  have hsize := h.size
  have hmarks := h.marks
  rw [hs, List.count_cons] at hmarks
  simp only [beq_iff_eq] at hmarks
  refine ⟨h.capacity, ?_, ?_⟩
  · simp only [BoundedStack.size, BoundedStack.pop, List.length_tail] at hsize ⊢
    omega
  · simp only [BoundedStack.pop, hs, List.tail_cons]
    omega

/-- The end of an expression takes its mark away and no other one. Operators are popped above
it. -/
theorem Deep.flush {incoming : Option Nat} {n : Nat} {u : Unit} (h : Deep limit d s)
    (hf : flush incoming n s = .ok u t) :
    Deep limit (d - if incoming.isNone then 1 else 0) t := by
  induction n generalizing s with
  | zero =>
      obtain ⟨-, rfl⟩ := Action.pure_eq_ok.1 hf
      exact h.mono (Nat.sub_le _ _)
  | succ n ih =>
      rw [Compiler.flush, Action.get_bind_apply] at hf
      cases hitems : s.pending.items with
      | nil =>
          simp only [BoundedStack.top?, hitems, List.head?_nil, Action.pure_eq_ok] at hf
          obtain ⟨-, rfl⟩ := hf
          exact h.mono (Nat.sub_le _ _)
      | cons p ps =>
          simp only [BoundedStack.top?, hitems, List.head?_cons] at hf
          cases p with
          | mark =>
              -- Only the end of an expression takes the mark, and it stops there.
              obtain ⟨hnone, hf⟩ | ⟨-, hf⟩ := Action.ite_eq_ok.1 hf
              · obtain rfl := Action.modify_eq_ok.1 hf
                simpa [hnone] using h.pop hitems
              · obtain ⟨-, rfl⟩ := Action.pure_eq_ok.1 hf
                exact h.mono (Nat.sub_le _ _)
          | operator op prec =>
              obtain ⟨-, hf⟩ | ⟨-, hf⟩ := Action.ite_eq_ok.1 hf
              · obtain ⟨-, rfl⟩ := Action.pure_eq_ok.1 hf
                exact h.mono (Nat.sub_le _ _)
              · simp only [Action.bind_eq_ok, Action.modify_eq_ok] at hf
                obtain ⟨_, _, rfl, _, s₁, hemit, hf⟩ := hf
                have hpop : Deep limit d { s with pending := s.pending.pop } := by
                  simpa using h.pop hitems
                exact ih (hpop.of_pending ((neutral_emit _).keeps hemit).pending) hf

theorem Deep.unaryOperators {n : Nat} {u : Unit} (h : Deep limit d s)
    (hu : unaryOperators n s = .ok u t) : Deep limit d t := by
  induction n generalizing s with
  | zero => exact (failHere_eq_ok.1 hu).elim
  | succ n ih =>
      obtain ⟨o, s₁, hread, hu⟩ := Action.bind_eq_ok.1 hu
      have h₁ := h.of_pending ((Neutral.read _).keeps hread).pending
      cases o with
      | none =>
          obtain ⟨-, rfl⟩ := Action.pure_eq_ok.1 hu
          exact h₁
      | some o =>
          obtain ⟨_, s₂, hpush, hu⟩ := Action.bind_eq_ok.1 hu
          exact ih (by simpa using h₁.push hpush) hu

end

/-! ### Literals leave the stacks alone -/

theorem neutral_tryRead {α : Type} {act : Cursor.Action α} (h : Harmless (tryRead act)) :
    Neutral (tryRead act) := by
  intro s
  have hs := h s
  simp only [tryRead] at hs ⊢
  cases hact : act s.cursor with
  | ok a c => exact ⟨rfl, rfl, rfl, rfl, rfl⟩
  | error e c =>
      rw [hact] at hs
      exact hs

theorem neutral_numberLiteral (n : Number) : Neutral (numberLiteral n) := by
  cases n <;> exact neutral_emitOpWord _ _

theorem neutral_stringLiteral (t : StringToken) : Neutral (stringLiteral t) := by
  cases t with
  | empty => exact neutral_emit _
  | char c => exact neutral_emitOpByte _ _
  | long start raw length => exact (Neutral.onStore _).bind fun _ => neutral_emitOpWord _ _

theorem neutral_arrayLiteral (start n : Nat) : Neutral (arrayLiteral start n) :=
  .ite (.get_bind fun _ => (Neutral.throw id).bind fun _ => neutral_emitOpByte _ _)
    (neutral_emitOpByte _ _)

/-! ### The watch makes no difference -/

/-- With `d` marks on the stack the second step does what the first one does, and leaves `d'` marks
there. -/
structure Matches {α : Type} (limit d d' : Nat) (x y : Compile α) : Prop where
  same : ∀ {s}, Deep limit d s → y s = x s
  deep : ∀ {s a t}, Deep limit d s → x s = .ok a t → Deep limit d' t

namespace Matches

variable {α β : Type} {limit d d' d'' : Nat} {x y x' y' : Compile α} {f g : α → Compile β}

theorem bind (h : Matches limit d d' x y) (hf : ∀ a, Matches limit d' d'' (f a) (g a)) :
    Matches limit d d'' (x >>= f) (y >>= g) := by
  constructor
  · intro s hs
    exact bind_congr_at (h.same hs) fun a t ht => (hf a).same (h.deep hs ht)
  · intro s b u hs hu
    obtain ⟨a, t, ht, hu⟩ := Action.bind_eq_ok.1 hu
    exact (hf a).deep (h.deep hs ht) hu

theorem ite {c : Prop} [Decidable c] (h : Matches limit d d' x y) (h' : Matches limit d d' x' y') :
    Matches limit d d' (if c then x else x') (if c then y else y') := by
  split
  · exact h
  · exact h'

theorem get_bind {f g : Compiler → Compile α} (h : ∀ s, Matches limit d d' (f s) (g s)) :
    Matches limit d d' (get >>= f) (get >>= g) :=
  ⟨fun {s} hs => (h s).same hs, fun {s _ _} hs ht => (h s).deep hs ht⟩

theorem of_neutral (hx : Neutral x) : Matches limit d d x x :=
  ⟨fun _ => rfl, fun hs ht => hs.of_pending (hx.keeps ht).pending⟩

theorem failHere (cause : Cause) :
    Matches limit d d' (failHere cause : Compile α) (failHere cause) :=
  ⟨fun _ => rfl, fun _ ht => (failHere_eq_ok.1 ht).elim⟩

/-- There is room for the marks that lie there. -/
theorem of_le (h : d ≤ limit → Matches limit d d' x y) : Matches limit d d' x y :=
  ⟨fun hs => (h hs.le).same hs, fun hs => (h hs.le).deep hs⟩

end Matches

/-- The functions for expressions with this much fuel do the same with the watch as without. -/
structure MatchesAt (watch : Nat → Compile Unit) (limit n : Nat) : Prop where
  expr : ∀ d, Matches limit d d (expr n) (watchedExpr watch n d)
  operands : ∀ d, Matches limit (d + 1) d (operands n) (watchedOperands watch n (d + 1))
  operand : ∀ d, Matches limit d d (operand n) (watchedOperand watch n d)
  word : ∀ d w, Matches limit d d (wordOperand n w) (watchedWord watch n d w)
  list : ∀ d close, Matches limit d d (exprList n close) (watchedList watch n d close)
  listFrom : ∀ d close k,
    Matches limit d d (exprListFrom n close k) (watchedListFrom watch n d close k)
  indices : ∀ d, Matches limit d d (indices n) (watchedIndices watch n d)

section

variable {watch : Nat → Compile Unit} {limit n : Nat}

theorem matches_push {d : Nat} (p : Pending) :
    Matches limit d (d + if p = .mark then 1 else 0) (pushPending p) (pushPending p) :=
  ⟨fun _ => rfl, fun hs ht => hs.push ht⟩

theorem matches_flush {d : Nat} (incoming : Option Nat) (fuel : Nat) :
    Matches limit d (d - if incoming.isNone then 1 else 0) (flush incoming fuel)
      (flush incoming fuel) :=
  ⟨fun _ => rfl, fun hs ht => hs.flush ht⟩

theorem matches_unaryOperators {d : Nat} (fuel : Nat) :
    Matches limit d d (unaryOperators fuel) (unaryOperators fuel) :=
  ⟨fun _ => rfl, fun hs ht => hs.unaryOperators ht⟩

namespace MatchesAt

variable (ih : MatchesAt watch limit n)

include ih

theorem expr_succ (hwatch : ∀ d ≤ limit, watch d = pure ()) (d : Nat) :
    Matches limit d d (Compiler.expr (n + 1)) (watchedExpr watch (n + 1) d) := by
  rw [Compiler.expr, watchedExpr]
  refine .bind (matches_push .mark) fun _ => ?_
  -- The mark that has just been pushed lies there too.
  refine .of_le fun hle => ?_
  rw [hwatch (d + 1) hle, pure_bind]
  exact ih.operands d

theorem operands_succ (d : Nat) :
    Matches limit (d + 1) d (Compiler.operands (n + 1))
      (watchedOperands watch (n + 1) (d + 1)) := by
  rw [Compiler.operands, watchedOperands]
  refine .bind (matches_unaryOperators n) fun _ => ?_
  refine .bind (ih.operand (d + 1)) fun _ => .bind (.of_neutral (.read _)) fun t => ?_
  cases t with
  | none => exact .get_bind fun _ => matches_flush none _
  | some t =>
      refine .get_bind fun _ => .bind (matches_flush (some _) _) fun _ => ?_
      exact .bind (matches_push _) fun _ => ih.operands d

theorem operand_succ (d : Nat) :
    Matches limit d d (Compiler.operand (n + 1)) (watchedOperand watch (n + 1) d) := by
  rw [Compiler.operand, watchedOperand]
  refine .bind (.of_neutral (.read _)) fun _ => .ite ?_ ?_
  · exact .bind (ih.expr d) fun _ => .of_neutral (neutral_expect _)
  refine .bind (.of_neutral (.read _)) fun _ => .ite ?_ ?_
  · exact .get_bind fun _ => .bind (ih.list d _) fun _ => .of_neutral (neutral_arrayLiteral _ _)
  refine .bind (.of_neutral (neutral_tryRead harmless_number)) fun t => ?_
  cases t with
  | some t => exact .of_neutral (neutral_numberLiteral _)
  | none =>
      refine .bind (.of_neutral (neutral_tryRead harmless_string)) fun t => ?_
      cases t with
      | some t => exact .of_neutral (neutral_stringLiteral _)
      | none =>
          refine .bind (.of_neutral (.read _)) fun w => ?_
          cases w with
          | some w => exact ih.word d w
          | none =>
              exact .bind (.of_neutral (.read _)) fun _ => .ite (.failHere _) (.failHere _)

theorem word_succ (d : Nat) (w : WordToken) :
    Matches limit d d (wordOperand (n + 1) w) (watchedWord watch (n + 1) d w) := by
  rw [wordOperand, watchedWord]
  cases hkeyword : Keyword.lookup? w.bytes with
  | some k =>
      obtain ⟨op, cls⟩ := k
      cases cls with
      | constant => exact .of_neutral (neutral_emit _)
      | function arity =>
          refine .bind (.of_neutral (neutral_expect _)) fun _ => .bind (ih.list d _) fun _ => ?_
          exact .of_neutral (.guarded (.throw id) (neutral_emit _))
      | command | listCommand | input | control => exact .of_neutral (.throw id)
  | none =>
      refine .bind (.of_neutral (neutral_intern _)) fun _ => .bind (.of_neutral (.read _)) fun _ =>
        .ite ?_ ?_
      · exact .bind (ih.list d _) fun _ => .of_neutral <|
          (neutral_argumentCount _ _).bind fun _ => neutral_emitCall _ _ _
      · refine .bind (.of_neutral (neutral_slotOf _)) fun slot => ?_
        cases slot with
        | some k => exact .bind (.of_neutral (neutral_emitOpByte _ _)) fun _ => ih.indices d
        | none => exact .bind (.of_neutral (neutral_emitOpWord _ _)) fun _ => ih.indices d

theorem listFrom_succ (d : Nat) (close : UInt8) (k : Nat) :
    Matches limit d d (exprListFrom (n + 1) close k) (watchedListFrom watch (n + 1) d close k) := by
  rw [exprListFrom, watchedListFrom]
  refine .bind (ih.expr d) fun _ => .bind (.of_neutral (.read _)) fun _ =>
    .ite (ih.listFrom d close _) ?_
  exact .of_neutral ((neutral_expect _).bind fun _ => .pure _)

theorem indices_succ (d : Nat) :
    Matches limit d d (Compiler.indices (n + 1)) (watchedIndices watch (n + 1) d) := by
  rw [Compiler.indices, watchedIndices]
  refine .bind (.of_neutral (.read _)) fun _ => .ite ?_ (.of_neutral (.pure _))
  refine .bind (ih.expr d) fun _ => .bind (.of_neutral (.read _)) fun _ => .ite ?_ ?_
  · exact .bind (ih.expr d) fun _ => .bind (.of_neutral (neutral_expect _)) fun _ =>
      .bind (.of_neutral (neutral_emit _)) fun _ => ih.indices d
  · exact .bind (.of_neutral (neutral_expect _)) fun _ =>
      .bind (.of_neutral (neutral_emit _)) fun _ => ih.indices d

end MatchesAt

theorem matchesAt (hwatch : ∀ d ≤ limit, watch d = pure ()) (n : Nat) :
    MatchesAt watch limit n := by
  induction n with
  | zero =>
      constructor
      all_goals
        intros
        simp only [expr, operands, operand, wordOperand, exprList, exprListFrom, indices,
          watchedExpr, watchedOperands, watchedOperand, watchedWord, watchedList, watchedListFrom,
          watchedIndices]
        exact .failHere .outOfFuel
  | succ n ih =>
      refine ⟨ih.expr_succ hwatch, ih.operands_succ, ih.operand_succ, ih.word_succ,
        fun d close => ?_, ih.listFrom_succ, ih.indices_succ⟩
      rw [exprList, watchedList]
      exact .bind (.of_neutral (.read _)) fun _ => .ite (.of_neutral (.pure _)) (ih.listFrom d _ _)

theorem matches_expression (hwatch : ∀ d ≤ limit, watch d = pure ()) :
    Matches limit 0 0 expression (watchedExpression watch) :=
  .get_bind fun _ => (matchesAt hwatch _).expr 0

end

/-! ### From statement to statement -/

section

variable {source : Source} {limits : Limits} {limit : Nat} {e : Compile Unit} {s : Compiler}

theorem Between.pending (h : Between source limits s) :
    s.pending = .ofCapacity limits.pendingOps := by
  induction h with
  | start => rfl
  | next h ht ih => exact (ht.pending h.placed).trans ih

/-- No expression is being compiled between two statements. -/
theorem Between.deep (h : Between source limits s) : Deep limits.pendingOps 0 s := by
  refine ⟨?_, ?_, Nat.zero_le _⟩
  · rw [h.pending]
    rfl
  · rw [h.pending]
    exact Nat.zero_le _

section

variable (he : Matches limit 0 0 expression e)

include he

theorem argumentsFromWith_eq (n k : Nat) (hs : Deep limit 0 s) :
    argumentsFromWith e n k s = argumentsFrom n k s := by
  induction n generalizing k s with
  | zero => rfl
  | succ n ih =>
      refine bind_congr_at (he.same hs) fun _ t ht => bind_congr_at rfl fun more u hu => ?_
      have hdeep := (he.deep hs ht).of_pending ((Neutral.read _).keeps hu).pending
      cases more with
      | true => exact ih _ hdeep
      | false => rfl

theorem argumentsWith_eq (hs : Deep limit 0 s) : argumentsWith e s = arguments s := by
  refine bind_congr_at rfl fun bare t ht => ?_
  cases bare with
  | true => rfl
  | false =>
      exact argumentsFromWith_eq he _ _ (hs.of_pending ((Neutral.read _).keeps ht).pending)

theorem ifStatementWith_eq (w : WordToken) (hs : Deep limit 0 s) :
    ifStatementWith e w s = ifStatement w s :=
  bind_congr_at rfl fun _ _ ht =>
    bind_congr_at (he.same (hs.of_pending ((neutral_pushBlock _ _).keeps ht).pending))
      fun _ _ _ => rfl

theorem whileStatementWith_eq (w : WordToken) (hs : Deep limit 0 s) :
    whileStatementWith e w s = whileStatement w s := by
  refine bind_congr_at rfl fun _ t ht => bind_congr_at rfl fun _ u hu => ?_
  have hsane := saneFrom_beginLoop t
  rw [hu] at hsane
  have hdeep := (hs.of_pending ((neutral_pushBlock _ _).keeps ht).pending).of_pending hsane
  exact bind_congr_at (he.same hdeep) fun _ _ _ => rfl

theorem untilStatementWith_eq (w : WordToken) (hs : Deep limit 0 s) :
    untilStatementWith e w s = untilStatement w s :=
  bind_congr_at rfl fun _ _ ht =>
    bind_congr_at (he.same (hs.of_pending ((neutral_popBlock _ _ _).keeps ht).pending))
      fun _ _ _ => rfl

theorem returnStatementWith_eq (w : WordToken) (hs : Deep limit 0 s) :
    returnStatementWith e w s = returnStatement w s := by
  rw [returnStatementWith, returnStatement, Action.get_bind_apply, Action.get_bind_apply]
  cases s.body with
  | none => rfl
  | some body =>
      refine bind_congr_at rfl fun bare t ht => ?_
      have hdeep := hs.of_pending ((Neutral.read _).keeps ht).pending
      split
      · cases bare with
        | true => rfl
        | false => exact bind_congr_at (he.same hdeep) fun _ _ _ => rfl
      · rfl

theorem controlStatementWith_eq (op : Opcode) (w : WordToken) (hs : Deep limit 0 s) :
    controlStatementWith e op w s = controlStatement op w s := by
  unfold controlStatementWith
  split
  · exact ifStatementWith_eq he w hs
  · exact whileStatementWith_eq he w hs
  · exact untilStatementWith_eq he w hs
  · exact returnStatementWith_eq he w hs
  · rfl

theorem statementAtWith_eq (w : WordToken) (hs : Deep limit 0 s) :
    statementAtWith e w s = statementAt w s := by
  refine bind_congr_at rfl fun _ t ht => ?_
  obtain rfl := Action.modify_eq_ok.1 ht
  replace hs := hs.of_pending (t := { s with
    sourceMap := s.sourceMap.push s.code.pos (s.source.span w.start w.stop) }) rfl
  cases hkeyword : Keyword.lookup? w.bytes with
  | some k =>
      obtain ⟨op, cls⟩ := k
      cases cls with
      | command | input | constant | function => rfl
      | listCommand => exact bind_congr_at (argumentsWith_eq he hs) fun _ _ _ => rfl
      | control => exact controlStatementWith_eq he op w hs
  | none =>
      refine bind_congr_at rfl fun id t ht => bind_congr_at rfl fun equals u hu => ?_
      have hdeep := (hs.of_pending ((neutral_intern _).keeps ht).pending).of_pending
        ((Neutral.read _).keeps hu).pending
      cases equals with
      | true => exact bind_congr_at (he.same hdeep) fun _ _ _ => rfl
      | false => exact bind_congr_at (argumentsWith_eq he hdeep) fun _ _ _ => rfl

theorem statementWith_eq (hs : Deep limit 0 s) : statementWith e s = statement s := by
  refine bind_congr_at rfl fun word t ht => ?_
  cases word with
  | none => rfl
  | some w => exact statementAtWith_eq he w (hs.of_pending ((Neutral.read _).keeps ht).pending)

end

theorem statementsWith_eq (he : Matches limits.pendingOps 0 0 expression e) (fuel : Nat)
    (h : Between source limits s) : statementsWith e fuel s = statements fuel s := by
  induction fuel generalizing s with
  | zero => rfl
  | succ fuel ih =>
      refine bind_congr_at rfl fun atEnd t hend => ?_
      obtain ⟨-, rfl⟩ := read_eq_ok.1 hend
      split
      case isTrue => rfl
      have hdeep := h.deep.of_pending (t := { s with cursor := s.cursor.atEnd.2 }) rfl
      refine bind_congr_at (statementWith_eq he hdeep) fun _ s₁ hst => ?_
      have hsane := sane_statement h
      rw [hst] at hsane
      obtain ⟨w, hw, hok⟩ := hsane
      refine bind_congr_at rfl fun semicolon s₂ hsemi => ?_
      split
      · rename_i hfound
        subst hfound
        exact ih (h.next ⟨hw, hok, hsemi⟩)
      · rfl

/-- The whole text. -/
theorem programWith_eq (he : Matches limits.pendingOps 0 0 expression e) :
    programWith e (start source limits) = program (start source limits) := by
  rw [programWith, program, Action.get_bind_apply, Action.get_bind_apply]
  exact bind_congr_at (statementsWith_eq he _ .start) fun _ _ _ => rfl

end

-- Where the number stands, three expressions have pushed their marks.
example :
    let run (limit : Nat) := watchedExpression (watchBeyond limit fun _ => failHere .trailingInput)
      (start (.ofText "m" "((1))") default)
    ((run 2 matches .error ..) && (run 3 matches .ok ..)) = true := by
  decide +kernel

end Compiler

namespace Program

variable {source : Source} {limits : Limits}

/-- The call breaks off exactly if the check lets a table through that is too large. -/
theorem compileCall_eq_panicked_iff {message : String} :
    compileCall source limits = .panicked message ↔
      message = "capacity overflow" ∧ limits.validate = .ok () ∧
        4611686018427387904 ≤ limits.identBuckets := by
  have htable : maxAllocation < 2 * limits.identBuckets ↔
      4611686018427387904 ≤ limits.identBuckets := by
    rw [maxAllocation]
    omega
  unfold compileCall
  cases limits.validate with
  | error e => simp
  | ok _ =>
      by_cases hlarge : maxAllocation < 2 * limits.identBuckets
      · simp [Store.allocate, hlarge, htable.1 hlarge, eq_comm]
      · simp [Store.allocate, hlarge, mt htable.2 hlarge]

/-- A call that does not break off comes to what compiling does. -/
theorem eq_compile_of_returned {result : Except CompileError Program}
    (h : compileCall source limits = .returned result) : result = compile source limits := by
  unfold compileCall at h
  unfold compile
  split at h
  · cases h
    rfl
  · unfold Store.allocate at h
    split at h
    · rename_i hallocate
      split at hallocate <;> cases h
    · rename_i hallocate
      split at hallocate
      · cases hallocate
      · cases hallocate
        cases h
        rfl

/-- Compiling ends on every text, with a program or with an error that is not for want of fuel,
unless the limits pass the check with a table too large to allocate: exactly then the call breaks
off. No recognizer goes back: what it finds it consumes, and where it finds nothing or fails it has
skipped blanks only. The loops over a text consist of rounds, each round takes a byte, and so there
are no more rounds than bytes. Popping operators comes to its end by itself. And whatever is done
where more expressions have pushed their marks than operators may wait, it makes no difference. -/
theorem compilation_ends (source : Source) (limits : Limits) :
    ((∃ message, compileCall source limits = .panicked message) ↔
      limits.validate = .ok () ∧ 4611686018427387904 ≤ limits.identBuckets) ∧
    (∀ result, compileCall source limits = .returned result → result = compile source limits) ∧
    ((∃ p, compile source limits = .ok p) ∨
      ∃ e, compile source limits = .error e ∧ e.cause ≠ .outOfFuel) ∧
    (∀ c found d, Cursor.Scans c found d →
      c.Onward d ∧ (found = true → c.Beyond d) ∧ (found = false → c.OverBlanks d)) ∧
    Compiler.ByRounds ∧
    (∀ loop fuel s again t, Compiler.Loop.round loop fuel s = .ok again t → loop.Made again →
      s.cursor.Beyond t.cursor) ∧
    (∀ loop fuel s n t,
      Compiler.rounds (Compiler.Loop.round loop) loop.made fuel 0 s = .ok n t →
        n + t.cursor.rest.length ≤ s.cursor.rest.length) ∧
    (∀ incoming fuel (s : Compiler), s.pending.size < fuel →
      Compiler.flush incoming fuel s = Compiler.flush incoming (s.pending.size + 1) s) ∧
    ∀ other,
      Compiler.programWith
          (Compiler.watchedExpression (Compiler.watchBeyond limits.pendingOps other))
          (Compiler.start source limits) =
        Compiler.program (Compiler.start source limits) := by
  refine ⟨?_, fun result h => eq_compile_of_returned h, ?_,
    fun c found d h => ⟨h.onward, h.beyond, fun hfound => ?_⟩, Compiler.byRounds,
    fun loop fuel s again t h hmade => (loop.consumes_round fuel).beyond h hmade,
    fun loop fuel s n t h => ?_,
    fun incoming fuel s h => Compiler.flush_of_lt h (Nat.lt_succ_self _), fun other => ?_⟩
  · constructor
    · rintro ⟨message, h⟩
      exact (compileCall_eq_panicked_iff.1 h).2
    · exact fun h => ⟨_, compileCall_eq_panicked_iff.2 ⟨rfl, h⟩⟩
  · cases hp : compile source limits with
    | ok p => exact .inl ⟨p, rfl⟩
    | error e => exact .inr ⟨e, rfl, ne_outOfFuel_of_error hp⟩
  · rw [h.eq_skipBlank hfound]
    exact Cursor.overBlanks_skipBlank c
  · obtain ⟨m, rfl, hm⟩ := Compiler.rounds_made h
    simpa using hm
  · exact Compiler.programWith_eq (Compiler.matches_expression fun d hd => if_pos hd)

/-- A number of buckets that passes the check, on a text of one statement. -/
theorem table_breaks_off :
    let limits : Limits := { (default : Limits) with identBuckets := 4611686018427387904 }
    limits.validate = .ok () ∧
      compileCall (.ofText "m" "stop;") limits = .panicked "capacity overflow" := by
  intro limits
  have hvalid : limits.validate = .ok () := by
    have hpower : Limits.isPowerOfTwo 4611686018427387904 = true := by decide +kernel
    simp [limits, Limits.validate, Limits.checkRange, Limits.checkPositive, hpower, default, bind,
      Except.bind]
  exact ⟨hvalid, compileCall_eq_panicked_iff.2 ⟨rfl, hvalid, Nat.le_refl _⟩⟩

end Program

end CellScript
