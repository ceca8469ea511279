import CellScript.Proofs.Turns

/-!
Every round takes a byte.

A recognizer that finds nothing leaves the cursor behind the blanks, and one that finds
something consumes it. The loops of the compiler go on only where something has been
found, so every round of theirs takes a byte of the text at least, whatever else it
does. Some of these loops are written here as they recur: one round, and again as long
as it says so. What the rounds of a loop take together is then shown once for all
of them.
-/

namespace CellScript

namespace Cursor

/-- The second place comes after the first one. -/
def Beyond (c d : Cursor) : Prop := c.Onward d ∧ c.pos < d.pos

/-- Between the two places there is nothing but blanks. -/
def OverBlanks (c d : Cursor) : Prop :=
  ∃ blanks, blanks.all Ascii.isBlank = true ∧ c.rest = blanks ++ d.rest ∧
    d.pos = c.pos + blanks.length

/-- The runs of the recognizers at a place: whether something has been consumed, and where the
cursor is left. Two of them only look. -/
inductive Scans (c : Cursor) : Bool → Cursor → Prop
  | atEnd : Scans c false c.atEnd.2
  | atStatementEnd : Scans c false c.atStatementEnd.2
  | symbol (b : UInt8) : Scans c (c.symbol b).1 (c.symbol b).2
  | word : Scans c c.word.1.isSome c.word.2
  | unaryOperator : Scans c c.unaryOperator.1.isSome c.unaryOperator.2
  | binaryOperator : Scans c c.binaryOperator.1.isSome c.binaryOperator.2
  | number {t : Option NumberToken} {d : Cursor} : number c = .ok t d → Scans c t.isSome d
  | numberFails {e : CompileError} {d : Cursor} : number c = .error e d → Scans c false d
  | string {t : Option StringToken} {d : Cursor} : string c = .ok t d → Scans c t.isSome d
  | stringFails {e : CompileError} {d : Cursor} : string c = .error e d → Scans c false d

section

variable {c d d' : Cursor} {found : Bool}

theorem Onward.pos_le (h : c.Onward d) : c.pos ≤ d.pos := by
  obtain ⟨n, -, rfl⟩ := h
  exact Nat.le_add_right _ _

theorem Beyond.trans_onward (h : c.Beyond d) (h' : d.Onward d') : c.Beyond d' :=
  ⟨h.1.trans h', Nat.lt_of_lt_of_le h.2 h'.pos_le⟩

theorem Onward.trans_beyond (h : c.Onward d) (h' : d.Beyond d') : c.Beyond d' :=
  ⟨h.trans h'.1, Nat.lt_of_le_of_lt h.pos_le h'.2⟩

theorem Beyond.length_lt (h : c.Beyond d) : d.rest.length < c.rest.length := by
  have hstop := h.1.stop
  have hpos := h.2
  omega

theorem overBlanks_skipBlank (c : Cursor) : c.OverBlanks c.skipBlank := by
  obtain ⟨blanks, hblanks, hrest, hpos, -⟩ := c.skipBlank_split
  exact ⟨blanks, hblanks, hrest, hpos⟩

theorem number_error {e : CompileError} (h : number c = .error e d) : d = c.skipBlank := by
  simp only [number] at h
  split at h
  · cases h
  · cases h
    rfl
  · cases h
  · split at h
    · cases h
    · cases h
      rfl

theorem string_error {e : CompileError} (h : string c = .error e d) : d = c.skipBlank := by
  simp only [string] at h
  split at h
  · split at h
    · cases h
    all_goals
      cases h
      rfl
  · cases h

end

end Cursor

/-- Behind a token that is not empty the text goes on at another place. -/
theorem Token.Stands.beyond {t : Token} {c d : Cursor} (h : t.Stands c d) (hne : t.bytes ≠ []) :
    c.Beyond d := by
  have hlength : 0 < t.bytes.length := List.length_pos_iff.2 hne
  have htext := congrArg List.length h.text
  rw [List.length_append] at htext
  obtain rfl := h.eq_advance
  refine (Cursor.onward_skipBlank c).trans_beyond ⟨⟨_, by omega, rfl⟩, ?_⟩
  exact Nat.lt_add_of_pos_right hlength

theorem Phrase.Sign.text_ne_nil {table : List Operator.Row} (hr : Operator.Readable table)
    (o : Sign table) : o.text ≠ [] := by
  obtain ⟨r, hmem, hspells⟩ := o.spells
  exact hr.ne_nil hmem hspells

namespace Cursor

variable {c d : Cursor} {found : Bool}

theorem beyond_symbol {b : UInt8} (h : (c.symbol b).1 = true) : c.Beyond (c.symbol b).2 :=
  (symbol_iff.1 (Prod.ext h rfl)).beyond (List.cons_ne_nil _ _)

theorem beyond_word (h : c.word.1.isSome = true) : c.Beyond c.word.2 := by
  obtain ⟨w, hw⟩ := Option.isSome_iff_exists.1 h
  obtain ⟨hstands, hword, -⟩ := word_iff.1 (Prod.ext hw rfl)
  refine hstands.beyond fun hnil => ?_
  obtain ⟨b, hb, -⟩ := Ascii.isWord_head? hword
  rw [show w.bytes = [] from hnil] at hb
  cases hb

theorem beyond_unaryOperator (h : c.unaryOperator.1.isSome = true) :
    c.Beyond c.unaryOperator.2 := by
  obtain ⟨t, ht⟩ := Option.isSome_iff_exists.1 h
  obtain ⟨o, hstands, -⟩ := unaryOperator_iff.1 (Prod.ext ht rfl)
  exact hstands.beyond (o.text_ne_nil Operator.readable_unary)

theorem beyond_binaryOperator (h : c.binaryOperator.1.isSome = true) :
    c.Beyond c.binaryOperator.2 := by
  obtain ⟨t, ht⟩ := Option.isSome_iff_exists.1 h
  obtain ⟨o, hstands, -⟩ := binaryOperator_iff.1 (Prod.ext ht rfl)
  exact hstands.beyond (o.text_ne_nil Operator.readable_binary)

theorem beyond_number {t : NumberToken} (h : number c = .ok (some t) d) : c.Beyond d := by
  obtain ⟨n, hstands, -⟩ := number_iff.1 h
  refine hstands.beyond fun hnil => ?_
  obtain ⟨sign, b, body, htext, -⟩ := n.head?
  rw [show n.text = [] from hnil] at htext
  simp at htext

theorem beyond_string {t : StringToken} (h : string c = .ok (some t) d) : c.Beyond d := by
  obtain ⟨q, hstands, -⟩ := string_iff.1 h
  exact hstands.beyond (List.cons_ne_nil _ _)

/-- What is found is consumed. -/
theorem Scans.beyond (h : Scans c found d) (hfound : found = true) : c.Beyond d := by
  cases h with
  | atEnd | atStatementEnd | numberFails | stringFails => cases hfound
  | symbol b => exact beyond_symbol hfound
  | word => exact beyond_word hfound
  | unaryOperator => exact beyond_unaryOperator hfound
  | binaryOperator => exact beyond_binaryOperator hfound
  | number h =>
      obtain ⟨t, rfl⟩ := Option.isSome_iff_exists.1 hfound
      exact beyond_number h
  | string h =>
      obtain ⟨t, rfl⟩ := Option.isSome_iff_exists.1 hfound
      exact beyond_string h

/-- Where nothing is found the cursor is left behind the blanks. -/
theorem Scans.eq_skipBlank (h : Scans c found d) (hfound : found = false) : d = c.skipBlank := by
  have hnone {α : Type} {o : Option α} (ho : o.isSome = false) : o = none := by simpa using ho
  cases h with
  | atEnd | atStatementEnd => rfl
  | symbol b => exact symbol_false hfound
  | word => exact word_none (hnone hfound)
  | unaryOperator => exact unaryOperator_none (hnone hfound)
  | binaryOperator => exact operator_none (hnone hfound)
  | number h =>
      rw [hnone hfound] at h
      exact number_none h
  | numberFails h => exact number_error h
  | string h =>
      rw [hnone hfound] at h
      exact string_none h
  | stringFails h => exact string_error h

/-- No recognizer goes back. -/
theorem Scans.onward (h : Scans c found d) : c.Onward d := by
  cases hfound : found with
  | true => exact (h.beyond hfound).1
  | false =>
      rw [h.eq_skipBlank hfound]
      exact onward_skipBlank c

end Cursor

namespace Compiler

/-! ### Steps that take a byte -/

/-- A step that never goes back, and that takes a byte of the text if its result is one of those
described. -/
structure Consumes {α : Type} (p : α → Prop) (x : Compile α) : Prop where
  onward : Onward x
  beyond : ∀ {s a t}, x s = .ok a t → p a → s.cursor.Beyond t.cursor

/-- A step that always takes a byte. -/
abbrev Advances {α : Type} (x : Compile α) : Prop := Consumes (fun _ => True) x

namespace Consumes

variable {α β : Type} {p : α → Prop} {q : β → Prop} {x : Compile α} {f : α → Compile β}
  {y z : Compile β}

/-- A byte is taken by the first step, or else by the second one. -/
theorem bind (hx : Consumes p x) (hyes : ∀ a, p a → Onward (f a))
    (hno : ∀ a, ¬ p a → Consumes q (f a)) : Consumes q (x >>= f) := by
  constructor
  · refine hx.onward.bind fun a => ?_
    by_cases ha : p a
    · exact hyes a ha
    · exact (hno a ha).onward
  · intro s b u h hb
    obtain ⟨a, t, ht, hu⟩ := Action.bind_eq_ok.1 h
    by_cases ha : p a
    · exact (hx.beyond ht ha).trans_onward (hyes a ha _ _ _ hu)
    · exact (hx.onward _ _ _ ht).trans_beyond ((hno a ha).beyond hu hb)

theorem first (hx : Advances x) (hf : ∀ a, Onward (f a)) : Consumes q (x >>= f) :=
  hx.bind (fun a _ => hf a) fun _ h => absurd trivial h

theorem later (hx : Onward x) (hf : ∀ a, Consumes q (f a)) : Consumes q (x >>= f) :=
  bind (p := fun _ => False) ⟨hx, fun _ h => h.elim⟩ (fun _ h => h.elim) fun a _ => hf a

theorem ite {c : Prop} [Decidable c] (hy : Consumes q y) (hz : Consumes q z) :
    Consumes q (if c then y else z) := by
  split
  · exact hy
  · exact hz

theorem get_bind {f : Compiler → Compile β} (hf : ∀ s, Consumes q (f s)) :
    Consumes q (get >>= f) :=
  ⟨.get_bind fun s => (hf s).onward, fun {s _ _} h => (hf s).beyond h⟩

theorem failHere (cause : Cause) : Consumes q (failHere cause) :=
  ⟨onward_failHere cause, fun h => (failHere_eq_ok.1 h).elim⟩

/-- Nothing is said about this result. -/
theorem pure {b : β} (h : ¬ q b) : Consumes q (pure b) :=
  ⟨.pure b, fun hok hb => absurd ((Action.pure_eq_ok.1 hok).1 ▸ hb) h⟩

theorem symbol_ite {b : UInt8} (hy : Onward y) (hz : Consumes q z) :
    Consumes q (do if ← symbol b then y else z) := by
  have hx : Consumes (fun found => found = true) (symbol b) := by
    refine ⟨onward_symbol b, fun h hfound => ?_⟩
    obtain ⟨rfl, rfl⟩ := symbol_eq_ok.1 h
    exact Cursor.beyond_symbol hfound
  refine hx.bind (fun found h => ?_) fun found h => ?_
  · rw [if_pos h]
    exact hy
  · rw [if_neg h]
    exact hz

/-- A recognizer that finds nothing, or what is found is dealt with. -/
theorem found {x : Compile (Option α)} {f : Option α → Compile β}
    (hx : Consumes (fun o => o.isSome = true) x) (hsome : ∀ a, Onward (f (some a)))
    (hnone : Consumes q (f none)) : Consumes q (x >>= f) := by
  refine hx.bind (fun o h => ?_) fun o h => ?_
  · obtain ⟨a, rfl⟩ := Option.isSome_iff_exists.1 h
    exact hsome a
  · obtain rfl : o = none := by simpa using h
    exact hnone

end Consumes

theorem consumes_read {α : Type} {f : Cursor → Option α × Cursor}
    (ho : ∀ c : Cursor, c.Onward (f c).2)
    (hf : ∀ c : Cursor, (f c).1.isSome = true → c.Beyond (f c).2) :
    Consumes (fun o => o.isSome = true) (read f) := by
  refine ⟨onward_read ho, fun h hfound => ?_⟩
  obtain ⟨rfl, rfl⟩ := read_eq_ok.1 h
  exact hf _ hfound

theorem consumes_tryRead {α : Type} {act : Cursor.Action (Option α)}
    (ho : ∀ {c o c'}, act c = .ok o c' → Cursor.Onward c c')
    (hact : ∀ {c a c'}, act c = .ok (some a) c' → Cursor.Beyond c c') :
    Consumes (fun o => o.isSome = true) (tryRead act) := by
  refine ⟨onward_tryRead ho, fun h hfound => ?_⟩
  obtain ⟨c, hc, rfl⟩ := tryRead_eq_ok.1 h
  obtain ⟨a, rfl⟩ := Option.isSome_iff_exists.1 hfound
  exact hact hc

theorem consumes_word : Consumes (fun o => o.isSome = true) (read Cursor.word) :=
  consumes_read Cursor.onward_word fun _ => Cursor.beyond_word

theorem consumes_unaryOperator : Consumes (fun o => o.isSome = true) (read Cursor.unaryOperator) :=
  consumes_read Cursor.onward_unaryOperator fun _ => Cursor.beyond_unaryOperator

theorem advances_name (wanted : Wanted) : Advances (name wanted) :=
  consumes_word.found (fun _ => .guarded (.throw _) (.pure _))
    ⟨onward_failWanting wanted, fun h => (failWanting_eq_ok.1 h).elim⟩

/-! ### Expressions and statements -/

theorem advances_operand (n : Nat) : Advances (operand n) := by
  cases n with
  | zero => exact .failHere _
  | succ n =>
      have hexprs := onwardAt n
      refine .symbol_ite (hexprs.expr.bind fun _ => onward_expect _) ?_
      refine .symbol_ite ?_ ?_
      · exact .get_bind fun _ => (hexprs.exprList _).bind fun _ =>
          pervades_onward.arrayLiteral _ _
      refine (consumes_tryRead Cursor.onward_number Cursor.beyond_number).found
        (fun t => pervades_onward.numberLiteral t.value) ?_
      refine (consumes_tryRead Cursor.onward_string Cursor.beyond_string).found
        (fun t => pervades_onward.stringLiteral t) ?_
      refine consumes_word.found hexprs.wordOperand ?_
      exact .later onward_atEnd fun _ => .ite (.failHere _) (.failHere _)

theorem advances_operands (n : Nat) : Advances (operands n) := by
  cases n with
  | zero => exact .failHere _
  | succ n =>
      refine .later (onward_unaryOperators n) fun _ => .first (advances_operand n) fun _ => ?_
      refine .bind pervades_onward.binaryOperator fun t => ?_
      cases t with
      | none => exact .get_bind fun _ => onward_flush _ _
      | some t =>
          exact .get_bind fun _ => (onward_flush _ _).bind fun _ =>
            (onward_pushPending _).bind fun _ => (onwardAt n).operands

theorem advances_expr (n : Nat) : Advances (expr n) := by
  cases n with
  | zero => exact .failHere _
  | succ n => exact .later (onward_pushPending _) fun _ => advances_operands n

theorem advances_expression : Advances expression := .get_bind fun _ => advances_expr _

theorem onward_statementAt (w : WordToken) : Onward (statementAt w) := fun s =>
  (Twins.alike_statementAt (τ := .self s.source) (k := 0) (l := 0) rfl).onward s

theorem advances_statement : Advances statement :=
  consumes_word.found onward_statementAt (.failHere _)

/-! ### Loops -/

/-- The loops of the compiler that go over the text. -/
inductive Loop where
  | statements
  | arguments
  | operands
  /-- The expressions up to a closing byte. -/
  | list (close : UInt8)
  | unaryOperators
  | indices
  | input
  | parameters
  deriving Repr, DecidableEq

namespace Loop

/-- Whether the loop begins with the test that can end it. The others end behind a round. -/
def testsFirst : Loop → Bool
  | statements | unaryOperators | indices => true
  | _ => false

/-- One round, with this much fuel for what it calls, and whether another one follows. -/
def round : Loop → (fuel : Nat) → Compile Bool
  | statements, _ => do
    if ← read Cursor.atEnd then return false
    statement
    if ← symbol Symbol.semicolon then return true
    else if ← read Cursor.atEnd then failHere (.endOfInput (.symbol Symbol.semicolon))
    else failHere .trailingInput
  | arguments, _ => do
    expression
    symbol Symbol.comma
  | operands, fuel => do
    Compiler.unaryOperators fuel
    operand fuel
    match ← read Cursor.binaryOperator with
    | none =>
      flush none ((← get).pending.size + 1)
      return false
    | some t =>
      flush (some t.operator.prec) ((← get).pending.size + 1)
      pushPending (.operator t.operator.op t.operator.prec)
      return true
  | list close, fuel => do
    expr fuel
    if ← symbol Symbol.comma then return true
    else
      expect close
      return false
  | unaryOperators, _ => do
    match ← read Cursor.unaryOperator with
    | none => return false
    | some t =>
      pushPending (.operator t.operator.op t.operator.prec)
      return true
  | indices, fuel => do
    if ← symbol Symbol.openBracket then
      expr fuel
      if ← symbol Symbol.colon then
        expr fuel
        expect Symbol.closeBracket
        emitOp .slice
      else
        expect Symbol.closeBracket
        emitOp .index
      return true
    else return false
  | input, _ => do
    let w ← name .inputVariable
    let id ← intern w.bytes
    emitOp .input
    assign id w
    symbol Symbol.comma
  | parameters, _ => do
    let w ← name .parameter
    let id ← intern w.bytes
    if (← slotOf id).isSome then failAt w (.duplicateParameter w.text)
    let _ ← declareLocal id w
    symbol Symbol.comma

/-- Whether a round with this result was a round: where the test at the beginning has ended the
loop there was none. -/
def Made (loop : Loop) (again : Bool) : Prop := again = true ∨ loop.testsFirst = false

/-- The number of rounds, if `k` times another one followed. -/
def made (loop : Loop) (k : Nat) : Nat := if loop.testsFirst then k else k + 1

end Loop

/-- Rounds as long as another one follows; `k` were made before. -/
def rounds {α : Type} (round : Nat → Compile Bool) (done : Nat → α) : (fuel k : Nat) → Compile α
  | 0, _ => failHere .outOfFuel
  | fuel + 1, k => do
    if ← round fuel then rounds round done fuel (k + 1) else return done k

/-- The loops of the compiler consist of the rounds described. Two of them count. -/
structure ByRounds : Prop where
  statements : ∀ n, statements n = rounds Loop.statements.round (fun _ => ()) n 0
  arguments : ∀ n k, argumentsFrom n k = rounds Loop.arguments.round Loop.arguments.made n k
  operands : ∀ n, operands n = rounds Loop.operands.round (fun _ => ()) n 0
  list : ∀ close n k, exprListFrom n close k =
    rounds (Loop.list close).round (Loop.list close).made n k
  unaryOperators : ∀ n, unaryOperators n = rounds Loop.unaryOperators.round (fun _ => ()) n 0
  indices : ∀ n, indices n = rounds Loop.indices.round (fun _ => ()) n 0
  input : ∀ n, inputStatement n = rounds Loop.input.round (fun _ => ()) n 0
  parameters : ∀ n, parameters n = rounds Loop.parameters.round (fun _ => ()) n 0

/-! ### Every round takes a byte -/

theorem Loop.consumes_round (loop : Loop) (fuel : Nat) :
    Consumes (fun again => loop.Made again) (loop.round fuel) := by
  cases loop with
  | statements =>
      refine .later onward_atEnd fun atEnd => .ite (.pure (by simp [Made, testsFirst])) ?_
      refine .first advances_statement fun _ => (onward_symbol _).bind fun _ => .ite (.pure _) ?_
      exact onward_atEnd.bind fun _ => .ite (onward_failHere _) (onward_failHere _)
  | arguments => exact .first advances_expression fun _ => onward_symbol _
  | operands =>
      refine .later (onward_unaryOperators fuel) fun _ => .first (advances_operand fuel) fun _ => ?_
      refine .bind pervades_onward.binaryOperator fun t => ?_
      cases t with
      | none => exact .get_bind fun _ => (onward_flush _ _).bind fun _ => .pure _
      | some t =>
          exact .get_bind fun _ => (onward_flush _ _).bind fun _ =>
            (onward_pushPending _).bind fun _ => .pure _
  | list close =>
      exact .first (advances_expr fuel) fun _ => (onward_symbol _).bind fun _ =>
        .ite (.pure _) ((onward_expect _).bind fun _ => .pure _)
  | unaryOperators =>
      exact consumes_unaryOperator.found
        (fun _ => (onward_pushPending _).bind fun _ => .pure _) (.pure (by simp [Made, testsFirst]))
  | indices =>
      have hexpr := (onwardAt fuel).expr
      refine .symbol_ite ?_ (.pure (by simp [Made, testsFirst]))
      refine hexpr.bind fun _ => (onward_symbol _).bind fun _ => ?_
      refine .ite ?_ ?_
      · exact hexpr.bind fun _ => (onward_expect _).bind fun _ => (onward_emitOp _).bind fun _ =>
          .pure _
      · exact (onward_expect _).bind fun _ => (onward_emitOp _).bind fun _ => .pure _
  | input =>
      exact .first (advances_name _) fun _ => (onward_intern _).bind fun _ =>
        (onward_emitOp _).bind fun _ => (onward_assign _ _).bind fun _ => onward_symbol _
  | parameters =>
      exact .first (advances_name _) fun _ => (onward_intern _).bind fun _ =>
        (onward_slotOf _).bind fun _ => .guarded (.throw _)
          ((onward_declareLocal _ _).bind fun _ => onward_symbol _)

/-- However many rounds a loop makes, it takes as many bytes at least. -/
theorem rounds_made {α : Type} {loop : Loop} {done : Nat → α} {n k : Nat} {s t : Compiler} {a : α}
    (h : rounds loop.round done n k s = .ok a t) :
    ∃ m, a = done (k + m) ∧ loop.made m + t.cursor.rest.length ≤ s.cursor.rest.length := by
  induction n generalizing k s with
  | zero => exact (failHere_eq_ok.1 h).elim
  | succ n ih =>
      rw [rounds] at h
      obtain ⟨again, s₁, hround, h⟩ := Action.bind_eq_ok.1 h
      have hmade := loop.consumes_round n
      cases again with
      | true =>
          obtain ⟨m, rfl, hm⟩ := ih h
          have hlt := (hmade.beyond hround (.inl rfl)).length_lt
          refine ⟨m + 1, by rw [Nat.add_right_comm, Nat.add_assoc], ?_⟩
          simp only [Loop.made] at hm ⊢
          split at hm <;> simp_all <;> omega
      | false =>
          -- The last round counts where the loop ends behind a round.
          obtain ⟨rfl, rfl⟩ := Action.pure_eq_ok.1 h
          refine ⟨0, rfl, ?_⟩
          simp only [Loop.made]
          split
          · have hle := (hmade.onward _ _ _ hround).suffix.length_le
            omega
          · rename_i htests
            have hlt := (hmade.beyond hround (.inr (by simpa using htests))).length_lt
            omega

/-! ### The loops consist of their rounds -/

section

variable {α β : Type}

theorem ite_bind {c : Prop} [Decidable c] (x y : Compile α) (f : α → Compile β) :
    (if c then x else y) >>= f = if c then x >>= f else y >>= f := by
  split <;> rfl

theorem failHere_bind (cause : Cause) (f : α → Compile β) :
    (failHere cause : Compile α) >>= f = failHere cause := rfl

/-- What begins with a round and goes on in the same way consists of such rounds. -/
theorem eq_rounds {round : Nat → Compile Bool} {done : Nat → α} {f : Nat → Nat → Compile α}
    (hzero : ∀ k, f 0 k = failHere .outOfFuel)
    (hsucc : ∀ n k, f (n + 1) k = do
      if ← round n then f n (k + 1) else return done k) (n k : Nat) :
    f n k = rounds round done n k := by
  induction n generalizing k with
  | zero => exact hzero k
  | succ n ih => simp only [hsucc, rounds, ih]

end

theorem byRounds : ByRounds where
  statements n := by
    refine eq_rounds (f := fun n _ => statements n) (fun _ => rfl) (fun n k => ?_) n 0
    simp only [statements, Loop.round, bind_assoc, pure_bind, ite_bind, failHere_bind, if_true,
      Bool.false_eq_true, if_false]
  arguments := by
    refine eq_rounds (fun _ => rfl) fun n k => ?_
    simp only [argumentsFrom, Loop.round, bind_assoc]
    rfl
  operands n := by
    refine eq_rounds (f := fun n _ => operands n) (fun _ => rfl) (fun n k => ?_) n 0
    simp only [operands, Loop.round, bind_assoc]
    -- Whether another operand follows depends on the operator behind this one.
    refine bind_congr fun _ => bind_congr fun _ => bind_congr fun t => ?_
    cases t with
    | none => simp
    | some t => simp
  list close n k := by
    refine eq_rounds (f := fun n k => exprListFrom n close k) (fun _ => rfl) (fun n k => ?_) n k
    simp only [exprListFrom, Loop.round, bind_assoc, pure_bind, ite_bind, if_true,
      Bool.false_eq_true, if_false]
    rfl
  unaryOperators n := by
    refine eq_rounds (f := fun n _ => unaryOperators n) (fun _ => rfl) (fun n k => ?_) n 0
    simp only [unaryOperators, Loop.round, bind_assoc]
    refine bind_congr fun t => ?_
    cases t with
    | none => simp
    | some t => simp
  indices n := by
    refine eq_rounds (f := fun n _ => indices n) (fun _ => rfl) (fun n k => ?_) n 0
    simp only [indices, Loop.round, bind_assoc, pure_bind, ite_bind, if_true, Bool.false_eq_true,
      if_false]
  input n := by
    refine eq_rounds (f := fun n _ => inputStatement n) (fun _ => rfl) (fun n k => ?_) n 0
    simp only [inputStatement, Loop.round, bind_assoc]
  parameters n := by
    refine eq_rounds (f := fun n _ => parameters n) (fun _ => rfl) (fun n k => ?_) n 0
    simp only [parameters, Loop.round, bind_assoc, ite_bind]

/-! ### Fuel -/

/-- Each operator that is popped makes the stack smaller, so this much fuel empties it. -/
theorem flush_of_lt {incoming : Option Nat} {n m : Nat} {s : Compiler} (hn : s.pending.size < n)
    (hm : s.pending.size < m) : flush incoming n s = flush incoming m s := by
  induction n generalizing m s with
  | zero => omega
  | succ n ih =>
      obtain ⟨m, rfl⟩ : ∃ m', m = m' + 1 := ⟨m - 1, by omega⟩
      rw [flush, flush, Action.get_bind_apply, Action.get_bind_apply]
      cases hitems : s.pending.items with
      | nil => simp only [BoundedStack.top?, hitems, List.head?_nil]
      | cons p ps =>
          simp only [BoundedStack.top?, hitems, List.head?_cons]
          cases p with
          | mark => rfl
          | operator op prec =>
              -- Where the operator is popped, both go on with a stack that is smaller by one.
              dsimp only
              split
              · rfl
              · simp only [BoundedStack.size, hitems, List.length_cons] at hn hm
                simp only [Bind.bind, EStateM.bind, Action.modify_apply]
                cases hemit : emitOp op { s with pending := s.pending.pop } with
                | error e t => rfl
                | ok u t =>
                    obtain ⟨b, -, rfl⟩ := onCode_eq_ok.1 hemit
                    refine ih ?_ ?_
                    all_goals
                      simp only [BoundedStack.size, BoundedStack.pop, hitems, List.tail_cons]
                      omega

/-- The fuel for a whole text is not used up. -/
theorem program_ne_outOfFuel {source : Source} {limits : Limits} {e : CompileError} {t : Compiler}
    (h : program (start source limits) = .error e t) : e.cause ≠ .outOfFuel := by
  have hlike := Twins.Like.of_same (τ := Twins.self source) (s := start source limits)
    (t := start source limits) rfl rfl rfl rfl rfl
  have hend := Twins.alike_program.outcome hlike
  rw [h] at hend
  cases hend with
  | error _ hfuel => exact hfuel
  | excused hlost => exact hlost.elim

end Compiler

/-- The compiler never gives up for want of fuel. -/
theorem Program.ne_outOfFuel_of_error {source : Source} {limits : Limits} {e : CompileError}
    (h : compile source limits = .error e) : e.cause ≠ .outOfFuel := by
  unfold compile compileWith at h
  split at h
  · cases h
    simp
  · split at h
    · rename_i hrun
      cases h
      exact Compiler.program_ne_outOfFuel hrun
    · split at h
      · cases h
        simp
      · cases h

end CellScript
