import CellScript.Proofs.Names
import CellScript.Proofs.Readings

/-!
Every phrase is accepted.

In front of the text of a phrase, the compiler fails for want of room only, and
otherwise ends where the text does. For this the code and the operators that wait
need not be followed, only the cursor: emitting and flushing do not move it, and
each recognizer takes the token that stands there. That the result is the right
one then follows from the other direction, since what was read is some phrase, and
the text renders no other.

The fuel of each function is bounded by the number of tokens that it has to read.
-/

namespace CellScript

/-- A name that gets no record leaves the store as it was. -/
theorem Store.eq_of_intern_error {bs : List UInt8} {st st' : Store} {err : Heap.Error}
    (h : Store.intern bs st = .error err st') : st' = st := by
  cases Store.interned_of_eq h <;> rfl

namespace Compiler

/-! ### Failing for want of room -/

/-- A reason to fail that is none of the text: the pending stack or the code buffer is full, the
heap has no room for a name or a text, or an array has more elements than its operand can count. -/
inductive Exhausted (s : Compiler) : Cause → Prop
  | pending : s.pending.capacity ≤ s.pending.size → Exhausted s (.tooComplex .pending)
  | code : s.code.capacity < s.code.pos + 2 → Exhausted s (.code (.overflow s.code.capacity))
  | name {bs : List UInt8} {err : Heap.Error} :
      Store.intern bs s.store = .error err s.store → Exhausted s (.heap err)
  | text {bs : List UInt8} {err : Heap.Error} :
      Heap.allocStr bs s.store.heap = .error err s.store.heap → Exhausted s (.heap err)
  | array {n : Nat} : 255 < n → Exhausted s (.arrayTooLong n)

/-- A run ends as described, or for want of room. -/
def Reaches {α : Type} (P : α → Compiler → Prop) : EStateM.Result CompileError Compiler α → Prop
  | .ok a s => P a s
  | .error e s => s.Exhausted e.cause

section

variable {α β : Type} {s : Compiler} {P : α → Compiler → Prop} {Q : β → Compiler → Prop}

theorem Reaches.bind {x : Compile α} {f : α → Compile β} (hx : Reaches P (x s))
    (hf : ∀ a t, P a t → Reaches Q (f a t)) : Reaches Q ((x >>= f) s) := by
  simp only [Bind.bind, EStateM.bind]
  cases h : x s with
  | ok a t =>
      rw [h] at hx
      exact hf a t hx
  | error e t =>
      rw [h] at hx
      exact hx

theorem Reaches.mono {P' : α → Compiler → Prop} {r : EStateM.Result CompileError Compiler α}
    (h : Reaches P r) (hP : ∀ a t, P a t → P' a t) : Reaches P' r := by
  cases r with
  | ok a t => exact hP a t h
  | error e t => exact h

/-- A step that succeeds goes on from where it ends. -/
theorem Reaches.of_ok {x : Compile α} {f : α → Compile β} {a : α} {t : Compiler}
    (hx : x s = .ok a t) (hf : Reaches Q (f a t)) : Reaches Q ((x >>= f) s) := by
  simpa only [Bind.bind, EStateM.bind, hx] using hf

end

section

variable {s : Compiler}

/-- The text has not been read on. -/
abbrev Stays {α : Type} (s : Compiler) : α → Compiler → Prop := fun _ t => t.cursor = s.cursor

theorem reaches_emit {bs : List UInt8} (h : bs.length ≤ 2) :
    Reaches (Stays s) (onCode (CodeBuffer.emit bs) s) := by
  simp only [onCode, CodeBuffer.emit]
  split
  · rename_i hok
    split at hok
    · cases hok
    · cases hok
      rfl
  · rename_i herr
    split at herr
    · rename_i hfull
      cases herr
      refine .code ?_
      simp only [CodeBuffer.pos]
      omega
    · cases herr

theorem reaches_emitOp (op : Opcode) : Reaches (Stays s) (emitOp op s) :=
  reaches_emit (by simp)

theorem reaches_emitByte (b : UInt8) : Reaches (Stays s) (emitByte b s) :=
  reaches_emit (by simp)

theorem reaches_emitWord (w : UInt16) : Reaches (Stays s) (emitWord w s) :=
  reaches_emit (by simp [Word.bytes])

theorem reaches_emitOpByte (op : Opcode) (b : UInt8) : Reaches (Stays s) (emitOpByte op b s) :=
  (reaches_emitOp op).bind fun _ _ ht => (reaches_emitByte b).mono fun _ _ hu => hu.trans ht

theorem reaches_emitOpWord (op : Opcode) (w : UInt16) : Reaches (Stays s) (emitOpWord op w s) :=
  (reaches_emitOp op).bind fun _ _ ht => (reaches_emitWord w).mono fun _ _ hu => hu.trans ht

theorem reaches_emitCall (op : Opcode) (n : UInt8) (id : Ident) :
    Reaches (Stays s) (emitCall op n id s) :=
  (reaches_emitOp op).bind fun _ _ ht => (reaches_emitByte n).bind fun _ _ hu =>
    (reaches_emitWord id.offset).mono fun _ _ hv => hv.trans (hu.trans ht)

theorem reaches_pushPending (p : Pending) : Reaches (Stays s) (pushPending p s) := by
  simp only [pushPending, BoundedStack.push?]
  by_cases h : s.pending.size ≥ s.pending.capacity
  · rw [if_pos h]
    exact .pending h
  · rw [if_neg h]
    exact rfl

theorem reaches_intern (bs : List UInt8) : Reaches (Stays s) (intern bs s) := by
  refine Reaches.bind (P := Stays s) ?_ fun a t ht => ht
  simp only [onStore]
  cases h : Store.intern bs s.store with
  | ok a st => exact rfl
  | error err st =>
      obtain rfl := Store.eq_of_intern_error h
      exact .name h

theorem reaches_numberLiteral (n : Number) : Reaches (Stays s) (numberLiteral n s) := by
  cases n with
  | int n => exact reaches_emitOpWord _ _
  | float x => exact reaches_emitOpWord _ _

theorem reaches_stringLiteral (t : StringToken) : Reaches (Stays s) (stringLiteral t s) := by
  cases t with
  | empty => exact reaches_emitOp _
  | char c => exact reaches_emitOpByte _ _
  | long start raw length =>
      refine Reaches.bind (P := Stays s) ?_ fun offset t ht =>
        (reaches_emitOpWord .litStr offset).mono fun _ _ hu => hu.trans ht
      simp only [onStore, Store.onHeap]
      cases h : Heap.allocStr (StringLiteral.unescape raw) s.store.heap with
      | ok a heap => exact rfl
      | error err heap =>
          obtain rfl := (Heap.allocStr_error h).1
          exact .text h

theorem reaches_arrayLiteral (start n : Nat) : Reaches (Stays s) (arrayLiteral start n s) := by
  simp only [arrayLiteral]
  by_cases h : n > 255
  · simp only [if_pos h]
    exact .array h
  · simp only [if_neg h]
    exact reaches_emitOpByte _ _

theorem reaches_flush (incoming : Option Nat) (n : Nat) :
    Reaches (Stays s) (flush incoming n s) := by
  induction n generalizing s with
  | zero => exact rfl
  | succ n ih =>
      rw [flush]
      refine Reaches.of_ok (a := s) (t := s) rfl ?_
      cases s.pending.top? with
      | none => exact rfl
      | some p =>
          cases p with
          | mark => cases incoming <;> exact rfl
          | operator op prec =>
              by_cases h : incoming.any (prec < ·) = true
              · simp only [if_pos h]
                exact rfl
              · simp only [if_neg h]
                refine Reaches.of_ok rfl ((reaches_emitOp _).bind fun _ t ht => ?_)
                exact ih.mono fun _ u hu => hu.trans ht

end

/-! ### Reading -/

section

variable {α : Type} {s : Compiler} {a : α} {c : Cursor}

theorem read_of {r : Cursor → α × Cursor} (h : r s.cursor = (a, c)) :
    read r s = .ok a { s with cursor := c } := by
  simp [read, h]

theorem tryRead_of {r : Cursor.Action α} (h : r s.cursor = .ok a c) :
    tryRead r s = .ok a { s with cursor := c } := by
  simp [tryRead, h]

theorem expect_of {b : UInt8} (h : (Token.symbol b).Stands s.cursor c) :
    expect b s = .ok () { s with cursor := c } := by
  have := Cursor.symbol_iff.2 h
  exact expect_eq_ok.2 ⟨by rw [this], by rw [this]⟩

theorem symbol_of {b : UInt8} (h : (Token.symbol b).Stands s.cursor c) :
    symbol b s = .ok true { s with cursor := c } :=
  read_of (Cursor.symbol_iff.2 h)

theorem symbol_of_head? {b : UInt8} (h : s.cursor.skipBlank.rest.head? ≠ some b) :
    symbol b s = .ok false { s with cursor := s.cursor.skipBlank } :=
  read_of (Cursor.symbol_none h)

end

/-- The text has been read up to `d`, blanks apart. -/
abbrev EndsAt {α : Type} (d : Cursor) : α → Compiler → Prop :=
  fun _ t => t.cursor.skipBlank = d.skipBlank

theorem Stays.endsAt {α : Type} {s t : Compiler} {d : Cursor} {a : α} (h : Stays s a t)
    (hs : s.cursor.skipBlank = d.skipBlank) : EndsAt d a t := by
  rw [EndsAt, h, hs]

end Compiler

namespace Cursor

/-- No bracket opens here that could belong to an operand. -/
def Apart (d : Cursor) : Prop :=
  d.skipBlank.rest.head? ≠ some Symbol.openParen ∧ d.skipBlank.rest.head? ≠ some Symbol.openBracket

/-- An expression can end here. -/
def Closed (d : Cursor) : Prop := ∃ b ∈ closers, d.skipBlank.rest.head? = some b

variable {d d' : Cursor}

theorem Apart.of_skipBlank_eq (h : d.Apart) (hd : d'.skipBlank = d.skipBlank) : d'.Apart := by
  rwa [Apart, hd]

theorem Closed.of_skipBlank_eq (h : d.Closed) (hd : d'.skipBlank = d.skipBlank) : d'.Closed := by
  rwa [Closed, hd]

theorem Closed.apart (h : d.Closed) : d.Apart := by
  obtain ⟨b, hb, hd⟩ := h
  rw [Apart, hd]
  simp only [closers, List.mem_cons, List.not_mem_nil, or_false] at hb
  obtain rfl | rfl | rfl | rfl | rfl := hb <;> decide

theorem Closed.binaryOperator (h : d.Closed) : d.binaryOperator = (none, d.skipBlank) := by
  obtain ⟨b, hb, hd⟩ := h
  have hclass := List.all_eq_true.1 (show closers.all (fun b => !Ascii.isLetter b &&
    Operator.binary.all (fun r => (Ascii.bytes r.spelling).head? != some b)) = true by
      decide) b hb
  rw [Bool.and_eq_true, Bool.not_eq_true'] at hclass
  exact binaryOperator_none_of_head? hd hclass.1 hclass.2

theorem closed_of_symbol {b : UInt8} (h : (Token.symbol b).Stands d d') (hb : b ∈ closers) :
    d.Closed :=
  ⟨b, hb, h.head? rfl⟩

/-- Behind an operand in front of an operator, no bracket opens. -/
theorem apart_of_binary {o : Phrase.Sign Operator.binary} (h : (Token.binary o.text).Stands d d') :
    d.Apart := by
  have hfound := binaryOperator_iff.2 ⟨o, h, rfl⟩
  constructor
  all_goals
    intro hhead
    have := binaryOperator_none_of_head? hhead (by decide) (by decide)
    rw [hfound] at this
    cases this

end Cursor

theorem Token.Stands.of_skipBlank_eq {t : Token} {c c' d : Cursor} (h : t.Stands c c')
    (hd : d.skipBlank = c.skipBlank) : t.Stands d c' := by
  rwa [← stands_skipBlank, hd, stands_skipBlank]

/-- A token that opens an operand is no other bracket. -/
theorem Token.Opens.symbol_ne {t : Token} {c c' : Cursor} {b : UInt8} (ht : t.Opens)
    (h : t.Stands c c') (hb : b ∈ [40, 41, 91, 93]) (hne : t ≠ .symbol b) :
    c.skipBlank.rest.head? ≠ some b := by
  obtain ⟨b', hb', ⟨rfl, -⟩ | hstarts⟩ := ht.head?
  · rw [h.head? hb']
    rintro ⟨⟩
    exact hne rfl
  · rw [h.head? hb']
    rintro ⟨⟩
    simp only [List.mem_cons, List.not_mem_nil, or_false] at hb
    obtain rfl | rfl | rfl | rfl := hb <;> exact absurd hstarts (by decide)

/-- What follows a variable is no list of arguments. -/
theorem Suffixes.ne_openParen {x : Suffixes} {c d : Cursor} (h : Spans x.tokens c d)
    (hd : d.Apart) : c.skipBlank.rest.head? ≠ some Symbol.openParen := by
  cases x with
  | none =>
      have hend : d.skipBlank = c.skipBlank := h
      rw [← hend]
      exact hd.1
  | index i more =>
      obtain ⟨c₁, hopen, -⟩ := h
      rw [hopen.head? rfl]
      decide
  | range i j more =>
      obtain ⟨c₁, hopen, -⟩ := h
      rw [hopen.head? rfl]
      decide

theorem Phrase.level_unary_ne (o : Sign Operator.unary) (e : Phrase) :
    (unary o e).level ≠ 12 := by
  rw [level, o.prec_of_unary.2]
  decide

theorem Phrase.level_binary_ne (o : Sign Operator.binary) (a b : Phrase) :
    (binary o a b).level ≠ 12 := by
  have : o.binding ≤ 10 := o.prec_of_binary.2
  rw [level]
  omega

theorem Phrase.first_ne_unary {e : Phrase} {t : Token} {ts : List Token} (hlevel : e.level = 12)
    (htokens : e.tokens = t :: ts) (text : List UInt8) : t ≠ .unary text := by
  rintro rfl
  cases e with
  | unary o e => exact level_unary_ne o e hlevel
  | binary o a b => exact level_binary_ne o a b hlevel
  | _ => cases htokens

namespace Compiler

/-! ### Operators -/

/-- The operators in front of an operand are read, and it is left. -/
theorem reaches_unaryOperators {fuel : Nat} {s : Compiler} {e : Phrase} {d : Cursor}
    (he : ¬ e.IsBinary) (hs : e.Stratified) (hspans : Spans e.tokens s.cursor d)
    (hfuel : e.tokens.length < fuel) :
    Reaches (fun _ t => ∃ e' : Phrase, e'.Stratified ∧ e'.level = 12 ∧
      e'.tokens.length ≤ e.tokens.length ∧ Spans e'.tokens t.cursor d)
      (unaryOperators fuel s) := by
  induction fuel generalizing e s with
  | zero => omega
  | succ fuel ih =>
      rw [unaryOperators]
      by_cases hlevel : e.level = 12
      · obtain ⟨t, ts, htokens, hopens, -⟩ := e.tokens_eq_cons
        rw [htokens] at hspans
        obtain ⟨c, hstands, hrest⟩ := hspans
        have hnone := hopens.unaryOperator (e.first_ne_unary hlevel htokens) hstands
        refine Reaches.of_ok (read_of hnone) ⟨e, hs, hlevel, Nat.le_refl _, ?_⟩
        rw [htokens, Spans.skipBlank_left]
        exact ⟨c, hstands, hrest⟩
      · cases e with
        | unary o e =>
            obtain ⟨c, hstands, hrest⟩ := hspans
            have hfound := Cursor.unaryOperator_iff.2 ⟨o, hstands, rfl⟩
            refine Reaches.of_ok (read_of hfound) ((reaches_pushPending _).bind fun _ t ht => ?_)
            have hinner := Phrase.not_binary_of_eleven_le (o.prec_of_unary.2 ▸ hs.1)
            rw [Phrase.tokens, List.length_cons] at hfuel ⊢
            refine (ih hinner hs.2 (ht ▸ hrest) (by omega)).mono ?_
            rintro _ u ⟨e', hs', hl', hlen, hspans'⟩
            exact ⟨e', hs', hl', by omega, hspans'⟩
        | binary o a b => exact absurd trivial he
        | _ => exact absurd rfl hlevel

/-! ### Expressions -/

theorem reaches_slotOf {s : Compiler} (id : Ident) : Reaches (fun _ t => t = s) (slotOf id s) := by
  refine Reaches.of_ok (a := s) (t := s) rfl ?_
  cases s.body <;> exact rfl

/-- What `operand` does where no bracket opens. -/
def atom (fuel : Nat) : Compile Unit := do
  match ← tryRead Cursor.number with
  | some t => numberLiteral t.value
  | none =>
    match ← tryRead Cursor.string with
    | some t => stringLiteral t
    | none =>
      match ← read Cursor.word with
      | some w => wordOperand fuel w
      | none =>
        if ← read Cursor.atEnd then failHere (.endOfInput .expression)
        else failHere .expectedExpression

theorem reaches_of_atom {fuel : Nat} {s : Compiler} {t : Token} {c : Cursor}
    {P : Unit → Compiler → Prop} (ht : t.Opens) (h : t.Stands s.cursor c)
    (hparen : t ≠ .openParen) (hbracket : t ≠ .openBracket)
    (hatom : Reaches P (atom fuel { s with cursor := s.cursor.skipBlank })) :
    Reaches P (operand (fuel + 1) s) := by
  have h' : t.Stands s.cursor.skipBlank c := Token.stands_skipBlank.2 h
  rw [operand]
  refine Reaches.of_ok (symbol_of_head? (ht.symbol_ne h (by decide) hparen)) ?_
  refine Reaches.of_ok (symbol_of_head? (ht.symbol_ne h' (by decide) hbracket)) ?_
  simp only [Cursor.skipBlank_idem]
  exact hatom

/-- What each function of the expression compiler accepts with so much fuel. -/
structure Accepts (fuel : Nat) : Prop where
  expr : ∀ {s : Compiler} {e : Phrase} {d : Cursor}, e.Stratified → Spans e.tokens s.cursor d →
    d.Closed → 8 * e.tokens.length + 3 ≤ fuel → Reaches (EndsAt d) (expr fuel s)
  /-- A chain is read operand by operand, whatever its tree is. -/
  operands : ∀ {s : Compiler} {f : Phrase} {l : List (Phrase.Sign Operator.binary × Phrase)}
    {d : Cursor}, ¬ f.IsBinary ∧ f.Stratified → (∀ p ∈ l, ¬ p.2.IsBinary ∧ p.2.Stratified) →
    Spans (f.tokens ++ Phrase.othersTokens l) s.cursor d → d.Closed →
    8 * (f.tokens ++ Phrase.othersTokens l).length + 2 ≤ fuel →
    Reaches (EndsAt d) (operands fuel s)
  operand : ∀ {s : Compiler} {e : Phrase} {d : Cursor}, e.Stratified → e.level = 12 →
    Spans e.tokens s.cursor d → d.Apart → 8 * e.tokens.length + 1 ≤ fuel →
    Reaches (EndsAt d) (operand fuel s)
  /-- The word has been read already. -/
  wordOperand : ∀ {s : Compiler} {e : Phrase} {d : Cursor} {w : WordToken} {ts : List Token},
    e.Stratified → e.level = 12 → e.tokens = .word w.bytes :: ts → Spans ts s.cursor d →
    d.Apart → 8 * e.tokens.length ≤ fuel → Reaches (EndsAt d) (wordOperand fuel w s)
  exprList : ∀ {s : Compiler} {es : List Phrase} {d : Cursor} {close : UInt8},
    close ∈ [Symbol.closeParen, Symbol.closeBracket] → Phrase.AllStratified es →
    Spans (Phrase.listTokens es ++ [.symbol close]) s.cursor d →
    8 * (Phrase.listTokens es).length + 5 ≤ fuel →
    Reaches (fun n t => n = es.length ∧ t.cursor.skipBlank = d.skipBlank) (exprList fuel close s)
  exprListFrom : ∀ (n₀ : Nat) {s : Compiler} {e : Phrase} {es : List Phrase} {d : Cursor}
    {close : UInt8}, close ∈ [Symbol.closeParen, Symbol.closeBracket] → e.Stratified →
    Phrase.AllStratified es →
    Spans (e.tokens ++ Phrase.moreTokens es ++ [.symbol close]) s.cursor d →
    8 * (e.tokens ++ Phrase.moreTokens es).length + 4 ≤ fuel →
    Reaches (fun n t => n = n₀ + (es.length + 1) ∧ t.cursor.skipBlank = d.skipBlank)
      (exprListFrom fuel close n₀ s)
  indices : ∀ {s : Compiler} {x : Suffixes} {d : Cursor}, x.Stratified →
    Spans x.tokens s.cursor d → d.Apart → 8 * x.tokens.length + 1 ≤ fuel →
    Reaches (EndsAt d) (indices fuel s)

section

variable {fuel : Nat} (ih : Accepts fuel) {s : Compiler} {d : Cursor}

include ih

theorem accepts_expr {e : Phrase} (hs : e.Stratified) (hspans : Spans e.tokens s.cursor d)
    (hd : d.Closed) (hfuel : 8 * e.tokens.length + 3 ≤ fuel + 1) :
    Reaches (EndsAt d) (expr (fuel + 1) s) := by
  rw [expr]
  refine (reaches_pushPending .mark).bind fun _ t ht => ?_
  obtain ⟨hf, hl⟩ := Phrase.operands_of_stratified hs
  rw [e.tokens_chain] at hspans hfuel
  exact ih.operands hf hl (ht ▸ hspans) hd (by omega)

theorem accepts_operands {f : Phrase} {l : List (Phrase.Sign Operator.binary × Phrase)}
    (hf : ¬ f.IsBinary ∧ f.Stratified) (hl : ∀ p ∈ l, ¬ p.2.IsBinary ∧ p.2.Stratified)
    (hspans : Spans (f.tokens ++ Phrase.othersTokens l) s.cursor d) (hd : d.Closed)
    (hfuel : 8 * (f.tokens ++ Phrase.othersTokens l).length + 2 ≤ fuel + 1) :
    Reaches (EndsAt d) (operands (fuel + 1) s) := by
  obtain ⟨m, hspansf, hspansl⟩ := Spans.append.1 hspans
  rw [List.length_append] at hfuel
  have hm : m.Apart := by
    cases l with
    | nil => exact hd.apart.of_skipBlank_eq (Eq.symm hspansl)
    | cons p l =>
        obtain ⟨c, hstands, -⟩ := hspansl
        exact Cursor.apart_of_binary hstands
  rw [operands]
  refine (reaches_unaryOperators hf.1 hf.2 hspansf (by omega)).bind ?_
  rintro _ t ⟨e, hs, hlevel, hlen, hspanse⟩
  refine (ih.operand hs hlevel hspanse hm (by omega)).bind fun _ u hu => ?_
  cases l with
  | nil =>
      have hend : u.cursor.skipBlank = d.skipBlank := hu.trans (Eq.symm hspansl)
      have hnone := (hd.of_skipBlank_eq hend).binaryOperator
      refine Reaches.of_ok (read_of hnone) (Reaches.of_ok rfl ?_)
      exact (reaches_flush _ _).mono fun _ v hv => Stays.endsAt hv (by simpa using hend)
  | cons p l =>
      obtain ⟨o, g⟩ := p
      obtain ⟨c, hstands, hrest⟩ := hspansl
      have hfound := Cursor.binaryOperator_iff.2 ⟨o, hstands.of_skipBlank_eq hu, rfl⟩
      refine Reaches.of_ok (read_of hfound) ?_
      refine Reaches.of_ok rfl ?_
      refine (reaches_flush _ _).bind fun _ v hv => ?_
      refine (reaches_pushPending _).bind fun _ w hw => ?_
      have hw' : w.cursor = c := hw.trans hv
      have hlength : (Phrase.othersTokens ((o, g) :: l)).length =
          1 + (g.tokens ++ Phrase.othersTokens l).length := by
        simp [Phrase.othersTokens]
        omega
      exact ih.operands (f := g) (hl _ List.mem_cons_self)
        (fun p hp => hl p (List.mem_cons_of_mem _ hp)) (hw' ▸ hrest) hd (by omega)

/-- An operand that begins with a word. -/
theorem accepts_word {e : Phrase} {bs : List UInt8} {ts : List Token} (hs : e.Stratified)
    (hlevel : e.level = 12) (htokens : e.tokens = .word bs :: ts)
    (hspans : Spans e.tokens s.cursor d) (hd : d.Apart) (hfuel : 8 * e.tokens.length ≤ fuel) :
    Reaches (EndsAt d) (operand (fuel + 1) s) := by
  obtain ⟨t, ts', htokens', hopens, -⟩ := e.tokens_eq_cons
  obtain ⟨rfl, rfl⟩ := List.cons.inj (htokens'.symm.trans htokens)
  rw [htokens] at hspans
  obtain ⟨c, hstands, hrest⟩ := hspans
  refine reaches_of_atom hopens hstands nofun nofun ?_
  rw [← Token.stands_skipBlank] at hstands
  cases hopens with
  | word hword hnot =>
      refine Reaches.of_ok (tryRead_of (hstands.number_of_word hword)) ?_
      rw [← Token.stands_skipBlank] at hstands
      refine Reaches.of_ok (tryRead_of (hstands.string_of_word hword)) ?_
      rw [← Token.stands_skipBlank] at hstands
      have hfound := Cursor.word_iff (w := ⟨bs, _⟩).2 ⟨hstands, hword, rfl⟩
      refine Reaches.of_ok (read_of hfound) ?_
      exact ih.wordOperand hs hlevel htokens hrest hd hfuel

theorem accepts_operand {e : Phrase} (hs : e.Stratified) (hlevel : e.level = 12)
    (hspans : Spans e.tokens s.cursor d) (hd : d.Apart)
    (hfuel : 8 * e.tokens.length + 1 ≤ fuel + 1) : Reaches (EndsAt d) (operand (fuel + 1) s) := by
  cases e with
  | group e =>
      rw [Phrase.tokens, List.cons_append, List.length_cons, List.length_append] at *
      obtain ⟨c₁, hopen, hspans⟩ := hspans
      obtain ⟨m, hspanse, c₂, hclose, hend⟩ := Spans.append.1 hspans
      rw [operand]
      refine Reaches.of_ok (symbol_of hopen) ?_
      refine (ih.expr (e := e) hs hspanse (Cursor.closed_of_symbol hclose (by decide))
        (by omega)).bind ?_
      intro _ t ht
      rw [expect_of (hclose.of_skipBlank_eq ht)]
      exact hend.symm
  | array elems =>
      rw [Phrase.tokens, List.cons_append, List.length_cons, List.length_append] at *
      obtain ⟨c₁, hopen, hspans⟩ := hspans
      rw [operand]
      refine Reaches.of_ok (symbol_of_head? ?_) ?_
      · rw [hopen.head? rfl]
        decide
      refine Reaches.of_ok (symbol_of (Token.stands_skipBlank.2 hopen)) (Reaches.of_ok rfl ?_)
      have hlist := ih.exprList (s := { s with cursor := c₁ }) (by decide) hs hspans (by omega)
      refine hlist.bind ?_
      rintro n t ⟨-, ht⟩
      exact (reaches_arrayLiteral _ _).mono fun _ u hu => Stays.endsAt hu ht
  | unary o e => exact absurd hlevel (Phrase.level_unary_ne o e)
  | binary o a b => exact absurd hlevel (Phrase.level_binary_ne o a b)
  | numeral n =>
      obtain ⟨c, hstands, hend⟩ := hspans
      refine reaches_of_atom (.numeral n) hstands nofun nofun ?_
      have hfound := Cursor.number_iff.2 ⟨n, Token.stands_skipBlank.2 hstands, rfl⟩
      refine Reaches.of_ok (tryRead_of hfound) ?_
      exact (reaches_numberLiteral _).mono fun _ u hu => Stays.endsAt hu (Eq.symm hend)
  | quoted q =>
      obtain ⟨c, hstands, hend⟩ := hspans
      refine reaches_of_atom (.quoted q) hstands nofun nofun ?_
      rw [← Token.stands_skipBlank] at hstands
      refine Reaches.of_ok (tryRead_of hstands.number_of_quoted) ?_
      have hfound := Cursor.string_iff.2 ⟨q, Token.stands_skipBlank.2 hstands, rfl⟩
      refine Reaches.of_ok (tryRead_of hfound) ?_
      exact (reaches_stringLiteral _).mono fun _ u hu => Stays.endsAt hu (Eq.symm hend)
  | _ => exact accepts_word ih hs hlevel rfl hspans hd (by omega)

theorem accepts_wordOperand {e : Phrase} {w : WordToken} {ts : List Token} (hs : e.Stratified)
    (hlevel : e.level = 12) (htokens : e.tokens = .word w.bytes :: ts)
    (hspans : Spans ts s.cursor d) (hd : d.Apart) (hfuel : 8 * e.tokens.length ≤ fuel + 1) :
    Reaches (EndsAt d) (wordOperand (fuel + 1) w s) := by
  rw [wordOperand]
  -- What the word is reserved as tells a constant and a function from a name.
  cases e with
  | constant v =>
      obtain ⟨hbytes, rfl⟩ := List.cons.inj htokens
      have hk := v.reserved
      rw [Token.word.inj hbytes] at hk
      rw [hk]
      exact (reaches_emitOp _).mono fun _ t ht => Stays.endsAt ht (Eq.symm hspans)
  | builtin f args =>
      obtain ⟨hbytes, rfl⟩ := List.cons.inj htokens
      have hk := f.reserved
      rw [Token.word.inj hbytes] at hk
      rw [hk]
      simp only [Phrase.tokens, List.cons_append, List.length_cons, List.length_append] at hfuel
      obtain ⟨c, hopen, hargs⟩ := hspans
      refine Reaches.of_ok (expect_of hopen) ?_
      have hlist := ih.exprList (s := { s with cursor := c }) (by decide) hs.2 hargs (by omega)
      refine hlist.bind ?_
      rintro n t ⟨rfl, ht⟩
      rw [if_neg (by simp [hs.1])]
      exact (reaches_emitOp _).mono fun _ u hu => Stays.endsAt hu ht
  | call x args =>
      obtain ⟨hbytes, rfl⟩ := List.cons.inj htokens
      have hk := x.free
      rw [Token.word.inj hbytes] at hk
      rw [hk]
      simp only [Phrase.tokens, List.cons_append, List.length_cons, List.length_append] at hfuel
      obtain ⟨c, hopen, hargs⟩ := hspans
      refine (reaches_intern w.bytes).bind fun id t ht => ?_
      refine Reaches.of_ok (symbol_of (ht ▸ hopen)) ?_
      have hlist := ih.exprList (s := { t with cursor := c }) (by decide) hs.2 hargs (by omega)
      refine hlist.bind ?_
      rintro n u ⟨rfl, hu⟩
      rw [argumentCount, if_pos hs.1]
      refine Reaches.of_ok rfl ?_
      exact (reaches_emitCall _ _ _).mono fun _ v hv => Stays.endsAt hv hu
  | «variable» x suffixes =>
      obtain ⟨hbytes, rfl⟩ := List.cons.inj htokens
      have hk := x.free
      rw [Token.word.inj hbytes] at hk
      rw [hk]
      simp only [Phrase.tokens, List.length_cons] at hfuel
      refine (reaches_intern w.bytes).bind fun id t ht => ?_
      refine Reaches.of_ok (symbol_of_head? (Suffixes.ne_openParen (ht ▸ hspans) hd)) ?_
      refine (reaches_slotOf id).bind ?_
      rintro slot _ rfl
      have hspans' : Spans suffixes.tokens t.cursor.skipBlank d :=
        Spans.skipBlank_left.2 (ht ▸ hspans)
      cases slot with
      | some k =>
          refine (reaches_emitOpByte _ _).bind fun _ u hu => ?_
          exact ih.indices hs (hu ▸ hspans') hd (by omega)
      | none =>
          refine (reaches_emitOpWord _ _).bind fun _ u hu => ?_
          exact ih.indices hs (hu ▸ hspans') hd (by omega)
  | unary o e => exact absurd hlevel (Phrase.level_unary_ne o e)
  | binary o a b => exact absurd hlevel (Phrase.level_binary_ne o a b)
  | _ => cases (List.cons.inj htokens).1

theorem accepts_exprList {es : List Phrase} {close : UInt8}
    (hclose : close ∈ [Symbol.closeParen, Symbol.closeBracket]) (hs : Phrase.AllStratified es)
    (hspans : Spans (Phrase.listTokens es ++ [.symbol close]) s.cursor d)
    (hfuel : 8 * (Phrase.listTokens es).length + 5 ≤ fuel + 1) :
    Reaches (fun n t => n = es.length ∧ t.cursor.skipBlank = d.skipBlank)
      (exprList (fuel + 1) close s) := by
  rw [exprList]
  cases es with
  | nil =>
      obtain ⟨c, hstands, hend⟩ := hspans
      exact Reaches.of_ok (symbol_of hstands) ⟨rfl, Eq.symm hend⟩
  | cons e es =>
      obtain ⟨t, ts, htokens, hopens, hparen, hbracket⟩ := e.tokens_eq_cons
      have hne : t ≠ .symbol close := by
        simp only [List.mem_cons, List.not_mem_nil, or_false] at hclose
        obtain rfl | rfl := hclose
        · exact hparen
        · exact hbracket
      have hmem : close ∈ [40, 41, 91, 93] := by
        simp only [List.mem_cons, List.not_mem_nil, or_false] at hclose
        obtain rfl | rfl := hclose <;> decide
      rw [Phrase.listTokens] at hspans hfuel
      obtain ⟨c, hstands, -⟩ : ∃ c, t.Stands s.cursor c ∧ _ := by
        rw [htokens] at hspans
        exact hspans
      refine Reaches.of_ok (symbol_of_head? (hopens.symbol_ne hstands hmem hne)) ?_
      have hlist := ih.exprListFrom 0 (s := { s with cursor := s.cursor.skipBlank }) hclose hs.1
        hs.2 (Spans.skipBlank_left.2 hspans) (by omega)
      exact hlist.mono fun n u hu => ⟨by rw [hu.1, List.length_cons, Nat.zero_add], hu.2⟩

theorem accepts_exprListFrom (n₀ : Nat) {e : Phrase} {es : List Phrase} {close : UInt8}
    (hclose : close ∈ [Symbol.closeParen, Symbol.closeBracket]) (hs : e.Stratified)
    (hss : Phrase.AllStratified es)
    (hspans : Spans (e.tokens ++ Phrase.moreTokens es ++ [.symbol close]) s.cursor d)
    (hfuel : 8 * (e.tokens ++ Phrase.moreTokens es).length + 4 ≤ fuel + 1) :
    Reaches (fun n t => n = n₀ + (es.length + 1) ∧ t.cursor.skipBlank = d.skipBlank)
      (exprListFrom (fuel + 1) close n₀ s) := by
  rw [List.append_assoc] at hspans
  obtain ⟨m, hspanse, hmore⟩ := Spans.append.1 hspans
  clear hspans
  rw [List.length_append] at hfuel
  rw [exprListFrom]
  cases es with
  | nil =>
      obtain ⟨c, hstands, hend⟩ := hmore
      have hmem : close ∈ closers ∧ close ≠ Symbol.comma := by
        simp only [List.mem_cons, List.not_mem_nil, or_false] at hclose
        obtain rfl | rfl := hclose <;> decide
      refine (ih.expr hs hspanse (Cursor.closed_of_symbol hstands hmem.1) (by omega)).bind ?_
      intro _ t ht
      have hstands' := hstands.of_skipBlank_eq ht
      refine Reaches.of_ok (symbol_of_head? (by rw [hstands'.head? rfl]; simpa using hmem.2)) ?_
      exact Reaches.of_ok (expect_of (Token.stands_skipBlank.2 hstands')) ⟨rfl, Eq.symm hend⟩
  | cons e' es =>
      obtain ⟨c, hstands, hmore⟩ := hmore
      refine (ih.expr hs hspanse (Cursor.closed_of_symbol hstands (by decide)) (by omega)).bind ?_
      intro _ t ht
      refine Reaches.of_ok (symbol_of (hstands.of_skipBlank_eq ht)) ?_
      have hlength : (Phrase.moreTokens (e' :: es)).length =
          1 + (e'.tokens ++ Phrase.moreTokens es).length := by
        simp [Phrase.moreTokens]
        omega
      have hlist := ih.exprListFrom (n₀ + 1) (s := { t with cursor := c }) (e := e') hclose hss.1
        hss.2 hmore (by omega)
      exact hlist.mono fun n u hu => ⟨by rw [hu.1, List.length_cons]; omega, hu.2⟩

theorem accepts_indices {x : Suffixes} (hs : x.Stratified) (hspans : Spans x.tokens s.cursor d)
    (hd : d.Apart) (hfuel : 8 * x.tokens.length + 1 ≤ fuel + 1) :
    Reaches (EndsAt d) (indices (fuel + 1) s) := by
  rw [indices]
  cases x with
  | none =>
      have hend : d.skipBlank = s.cursor.skipBlank := hspans
      refine Reaches.of_ok (symbol_of_head? (hend ▸ hd.2)) ?_
      exact (Cursor.skipBlank_idem _).trans hend.symm
  | index i more =>
      simp only [Suffixes.tokens, List.cons_append, List.length_cons,
        List.length_append] at hspans hfuel
      obtain ⟨c₁, hopen, hspans⟩ := hspans
      obtain ⟨m, hspansi, c₂, hclose, hspans⟩ := Spans.append.1 hspans
      refine Reaches.of_ok (symbol_of hopen) ?_
      refine (ih.expr hs.1 hspansi (Cursor.closed_of_symbol hclose (by decide)) (by omega)).bind ?_
      intro _ t ht
      have hclose' := hclose.of_skipBlank_eq ht
      refine Reaches.of_ok (symbol_of_head? (by rw [hclose'.head? rfl]; decide)) ?_
      refine Reaches.of_ok (expect_of (Token.stands_skipBlank.2 hclose')) ?_
      refine (reaches_emitOp _).bind fun _ u hu => ?_
      exact ih.indices hs.2 (hu ▸ hspans) hd (by omega)
  | range i j more =>
      simp only [Suffixes.tokens, List.cons_append, List.append_assoc, List.length_cons,
        List.length_append] at hspans hfuel
      obtain ⟨c₁, hopen, hspans⟩ := hspans
      obtain ⟨m, hspansi, c₂, hcolon, hspans⟩ := Spans.append.1 hspans
      obtain ⟨m', hspansj, c₃, hclose, hspans⟩ := Spans.append.1 hspans
      refine Reaches.of_ok (symbol_of hopen) ?_
      refine (ih.expr hs.1 hspansi (Cursor.closed_of_symbol hcolon (by decide)) (by omega)).bind ?_
      intro _ t ht
      refine Reaches.of_ok (symbol_of (hcolon.of_skipBlank_eq ht)) ?_
      refine (ih.expr hs.2.1 hspansj (Cursor.closed_of_symbol hclose (by decide))
        (by omega)).bind ?_
      intro _ u hu
      refine Reaches.of_ok (expect_of (hclose.of_skipBlank_eq hu)) ?_
      refine (reaches_emitOp _).bind fun _ v hv => ?_
      exact ih.indices hs.2.2 (hv ▸ hspans) hd (by omega)

end

theorem accepts (fuel : Nat) : Accepts fuel := by
  induction fuel with
  | zero =>
      constructor
      · intros; omega
      · intros; omega
      · intros; omega
      · intro s e d w ts _ _ htokens _ _ hfuel
        rw [htokens, List.length_cons] at hfuel
        omega
      · intros; omega
      · intros; omega
      · intros; omega
  | succ fuel ih =>
      exact ⟨accepts_expr ih, accepts_operands ih, accepts_operand ih, accepts_wordOperand ih,
        accepts_exprList ih, fun n₀ => accepts_exprListFrom ih n₀, accepts_indices ih⟩

/-- The fuel that an expression gets suffices for every phrase in its text. -/
theorem reaches_expression {s : Compiler} {e : Phrase} {d : Cursor} (hs : e.Stratified)
    (hspans : Spans e.tokens s.cursor d) (hd : d.Closed)
    (hlength : e.tokens.length ≤ s.cursor.rest.length) :
    Reaches (EndsAt d) (expression s) := by
  refine Reaches.of_ok (a := s) (t := s) rfl ?_
  exact (accepts _).expr hs hspans hd (by omega)

end Compiler

end CellScript
