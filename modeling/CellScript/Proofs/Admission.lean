import CellScript.Proofs.Acceptance
import CellScript.Proofs.Clauses
import CellScript.Proofs.Naming
import CellScript.Proofs.Turns

/-!
Well-formed statements are admitted where they fit.

What a statement says by itself cannot make the compiler fail when the statement is
well formed, room apart: its expressions are phrases, it gives no body a value, and
it defines nothing twice. What is left is the nesting of blocks. If the statement
may stand in the blocks that are open, the compiler reads it up to its semicolon,
and then the blocks are open that should be. Otherwise it fails at once, with an
error about nesting.

Runs are followed in a judgement of their own (`Settles`) with a rule for each kind
of step, because the facts about steps that succeed say nothing about whether they
do.
-/

namespace CellScript

/-! ### Bounds -/

/-- The heap has no room, or a record would be too long for its length field. -/
def Heap.Error.IsCapacity : Heap.Error → Prop
  | exhausted .. | recordTooLarge .. => True
  | invalidHandle _ => False

/-- The code buffer has no room, or a jump leads too far for its operand. -/
def CodeBuffer.Error.IsCapacity : CodeBuffer.Error → Prop
  | overflow _ | jumpOutOfRange .. => True
  | unresolved _ => False

/-- A text needs more than the limits or the formats of code and records allow, or the limits are
refused. -/
def Cause.IsCapacity : Cause → Prop
  | tooComplex _ | arrayTooLong _ | tooManyLocals _ | entryOutOfRange | limits _ => True
  | heap e => e.IsCapacity
  | code e => e.IsCapacity
  | _ => False

theorem Heap.isCapacity_of_allocStr_error {bs : List UInt8} {h h' : Heap} {e : Heap.Error}
    (ha : Heap.allocStr bs h = .error e h') : e.IsCapacity := by
  obtain ⟨-, ⟨-, rfl⟩ | ⟨-, available, rfl⟩⟩ := Heap.allocStr_refused ha <;> trivial

theorem Store.isCapacity_of_intern_error {bs : List UInt8} {s s' : Store} {e : Heap.Error}
    (h : Store.intern bs s = .error e s') : e.IsCapacity := by
  cases Store.interned_of_eq h <;> trivial

namespace CodeBuffer

/-- An operation on the code that fails for want of room only. -/
def Settles {α : Type} (act : Action α) : Prop :=
  ∀ b e b', act b = .error e b' → e.IsCapacity

theorem Settles.bind {α β : Type} {x : Action α} {f : α → Action β} (hx : Settles x)
    (hf : ∀ a, Settles (f a)) : Settles (x >>= f) := by
  intro b e b' h
  simp only [Bind.bind, EStateM.bind] at h
  cases hxb : x b with
  | ok a c =>
      rw [hxb] at h
      exact hf a c e b' h
  | error e' c =>
      rw [hxb] at h
      cases h
      exact hx b e b' hxb

theorem settles_emit (bytes : List UInt8) : Settles (emit bytes) := by
  intro b e b' h
  simp only [emit] at h
  split at h
  · cases h
    trivial
  · cases h

theorem isCapacity_of_distance_error {start target : Nat} {e : Error}
    (h : distance start target = .error e) : e.IsCapacity := by
  simp only [distance] at h
  split at h
  · cases h
  · cases h
    trivial

/-- What is done with a distance that fits. -/
theorem settles_distance {start target : Nat} {f : UInt16 → Action Unit}
    (hf : ∀ d, Settles (f d)) :
    Settles (match distance start target with
      | .ok d => f d
      | .error e => throw e) := by
  cases hd : distance start target with
  | ok d => exact hf d
  | error e =>
      rintro b _ b' ⟨⟩
      exact isCapacity_of_distance_error hd

theorem settles_emitForward (op : Opcode) : Settles (emitForward op) :=
  (settles_emit _).bind fun _ b e b' h => by
    refine (settles_emit _).bind (fun _ => ?_) b e b' h
    rintro _ _ _ ⟨⟩

theorem settles_emitBackward (op : Opcode) (target : Nat) : Settles (emitBackward op target) := by
  refine (settles_emit _).bind fun _ b e b' h => ?_
  exact settles_distance (fun _ => settles_emit _) b e b' h

theorem settles_patchTo (x : Fixup) (target : Nat) : Settles (patchTo x target) := by
  refine settles_distance fun d => ?_
  rintro b e b' ⟨⟩

theorem settles_patch (x : Fixup) : Settles (patch x) :=
  fun b => settles_patchTo x b.pos b

end CodeBuffer

namespace Compiler

/-! ### Giving up -/

theorem Exhausted.isCapacity {s : Compiler} {cause : Cause} (h : s.Exhausted cause) :
    cause.IsCapacity := by
  cases h with
  | pending | code | array => trivial
  | name h => exact Store.isCapacity_of_intern_error h
  | text h => exact Heap.isCapacity_of_allocStr_error h

/-- A run ends as described, or gives up for want of room. -/
def Settles {α : Type} (P : α → Compiler → Prop) :
    EStateM.Result CompileError Compiler α → Prop
  | .ok a s => P a s
  | .error e _ => e.cause.IsCapacity

section

variable {α β : Type} {s : Compiler} {P P' : α → Compiler → Prop} {Q : β → Compiler → Prop}
  {x : Compile α} {f : α → Compile β}

theorem Settles.bind (hx : Settles P (x s))
    (hf : ∀ a t, x s = .ok a t → P a t → Settles Q (f a t)) : Settles Q ((x >>= f) s) := by
  simp only [Bind.bind, EStateM.bind]
  cases h : x s with
  | ok a t =>
      rw [h] at hx
      exact hf a t h hx
  | error e t =>
      rw [h] at hx
      exact hx

theorem Settles.mono (hx : Settles P (x s)) (hP : ∀ a t, x s = .ok a t → P a t → P' a t) :
    Settles P' (x s) := by
  cases h : x s with
  | ok a t =>
      rw [h] at hx
      exact hP a t h hx
  | error e t =>
      rw [h] at hx
      exact hx

/-- A step that succeeds goes on from where it ends. -/
theorem Settles.of_ok {a : α} {t : Compiler} (hx : x s = .ok a t) (hf : Settles Q (f a t)) :
    Settles Q ((x >>= f) s) := by
  simpa only [Bind.bind, EStateM.bind, hx] using hf

/-- What changes the state does not fail. -/
theorem Settles.of_modify {g : Compiler → Compiler} {f : PUnit → Compile β}
    (hf : ∀ t, t = g s → Settles Q (f ⟨⟩ t)) : Settles Q ((modify g >>= f) s) :=
  hf _ rfl

theorem Reaches.settles {r : EStateM.Result CompileError Compiler α} (h : Reaches P r) :
    Settles P r := by
  cases r with
  | ok a t => exact h
  | error e t => exact Exhausted.isCapacity h

end

end Compiler

/-! ### Where a statement goes on -/

theorem Cursor.atStatementEnd_eq {c : Cursor} {b : UInt8} (h : c.skipBlank.rest.head? = some b) :
    c.atStatementEnd = (b == Symbol.semicolon, c.skipBlank) := by
  simp [atStatementEnd, h, Symbol.semicolon]

/-- A phrase does not begin like what stands in the place of one. -/
theorem Phrase.head?_of_spans {e : Phrase} {c d : Cursor} (h : Spans e.tokens c d) :
    ∃ b, c.skipBlank.rest.head? = some b ∧ b ≠ Symbol.semicolon ∧ b ≠ Symbol.equals := by
  obtain ⟨t, us, htokens, hopens, -⟩ := e.tokens_eq_cons
  rw [htokens] at h
  obtain ⟨c₁, ht, -⟩ := h
  obtain ⟨b, hb, hstarts⟩ := hopens.head?
  refine ⟨b, ht.head? hb, ?_, ?_⟩
  all_goals
    rintro rfl
    obtain ⟨-, hmem⟩ | hstarts := hstarts
    · exact absurd hmem (by decide)
    · exact absurd hstarts (by decide)

/-- Arguments do not begin like an assignment. -/
theorem Phrase.head?_ne_equals {es : List Phrase} {c d d' : Cursor}
    (h : Spans (listTokens es) c d) (hd : (Token.symbol Symbol.semicolon).Stands d d') :
    c.skipBlank.rest.head? ≠ some Symbol.equals := by
  cases es with
  | nil =>
      rw [← show d.skipBlank = c.skipBlank from h, hd.head? rfl]
      decide
  | cons e es =>
      obtain ⟨_, h, -⟩ := Spans.append.1 h
      obtain ⟨b, hb, -, hne⟩ := head?_of_spans h
      rw [hb]
      exact fun heq => hne (Option.some.inj heq)

theorem Token.Stands.word_head?_ne {bs : List UInt8} {b : UInt8} {c d : Cursor}
    (h : (Token.word bs).Stands c d) (hbs : Ascii.isWord bs = true)
    (hb : Ascii.isWordStart b = false) : c.skipBlank.rest.head? ≠ some b := by
  obtain ⟨b', hb', hstart⟩ := Ascii.isWord_head? hbs
  rw [h.head? hb']
  rintro ⟨⟩
  rw [hb] at hstart
  cases hstart

theorem Clause.nameTokens_eq_cons (x : Name) (xs : List Name) :
    ∃ ts, nameTokens x xs = .word x.bytes :: ts := by
  cases xs <;> exact ⟨_, rfl⟩

theorem Clause.length_nameTokens (x : Name) (xs : List Name) :
    (nameTokens x xs).length = 2 * xs.length + 1 := by
  induction xs generalizing x with
  | nil => rfl
  | cons y ys ih =>
      rw [nameTokens, List.length_cons, List.length_cons, ih, List.length_cons]
      omega

/-- There are as many commas as phrases. -/
theorem Phrase.length_le_moreTokens (es : List Phrase) : es.length ≤ (moreTokens es).length := by
  induction es with
  | nil => exact Nat.le_refl 0
  | cons e es ih =>
      simp only [moreTokens, List.length_cons, List.length_append, List.cons_append]
      omega

namespace Compiler

/-! ### Parts of statements -/

section

variable {names : List (List UInt8)} {rs rs' rs'' : List Record} {s t u : Compiler} {c d : Cursor}
  {id : Ident} {w : WordToken}

/-- A part of a statement has been read up to `d` and code has been emitted. No other name has
got a value. -/
structure Comes (s : Compiler) (rs : List Record) (names : List (List UInt8)) (d : Cursor)
    (t : Compiler) (rs' : List Record) : Prop where
  cursor : t.cursor.skipBlank = d.skipBlank
  advanced : ∃ code, t = s.advance t.front code
  kept : Front.Kept s.front rs t.front rs'
  named : t.front.Named rs' names

theorem Comes.trans (h : Comes s rs names c t rs') (h' : Comes t rs' names d u rs'') :
    Comes s rs names d u rs'' where
  cursor := h'.cursor
  advanced := by
    obtain ⟨code, ht⟩ := h.advanced
    obtain ⟨code', hu⟩ := h'.advanced
    exact ⟨code ++ code', by rw [hu, ht, advance_advance, front_advance]⟩
  kept := h.kept.trans h'.kept
  named := h'.named

theorem Comes.reach (h : Comes s rs names c t rs') (hd : c.skipBlank = d.skipBlank) :
    Comes s rs names d t rs' :=
  { h with cursor := h.cursor.trans hd }

/-- Nothing but code is emitted. -/
theorem Comes.emitted (hn : s.front.Named rs names) (hc : s.cursor.skipBlank = d.skipBlank)
    {code : Code} (ht : t = s.advance s.front code) : Comes s rs names d t rs := by
  subst ht
  exact ⟨hc, ⟨code, rfl⟩, hn.sound.kept rfl rfl, hn⟩

/-- The cursor is moved. -/
theorem Comes.goto (hn : s.front.Named rs names) (hc : c.skipBlank = d.skipBlank) :
    Comes s rs names d { s with cursor := c } rs :=
  have hkept : Front.Kept s.front rs (s.front.goto c) rs := hn.sound.kept rfl rfl
  ⟨hc, ⟨[], cursor_eq_advance s c⟩, hkept, hn.kept hkept fun _ hid => .inl ⟨hid, rfl⟩⟩

/-- A byte of punctuation is read. -/
theorem Comes.mark {b : UInt8} (h : Comes s rs names c t rs') (hb : (Token.symbol b).Stands c d) :
    symbol b t = .ok true { t with cursor := d } ∧
      Comes s rs names d { t with cursor := d } rs' :=
  ⟨symbol_of (hb.of_skipBlank_eq h.cursor), h.trans (.goto h.named rfl)⟩

/-- It is looked for, but something else is there. -/
theorem Comes.noMark {b b' : UInt8} (h : Comes s rs names c t rs')
    (hb : (Token.symbol b').Stands c d) (hne : b' ≠ b) :
    symbol b t = .ok false { t with cursor := t.cursor.skipBlank } ∧
      Comes s rs names c { t with cursor := t.cursor.skipBlank } rs' := by
  refine ⟨symbol_of_head? ?_, h.trans (.goto h.named ((Cursor.skipBlank_idem _).trans h.cursor))⟩
  rw [h.cursor, hb.head? rfl]
  rintro ⟨⟩
  exact hne rfl

theorem settles_expression {e : Phrase} (hn : s.front.Named rs names) (hs : e.Stratified)
    (hspans : Spans e.tokens s.cursor d) (hd : d.Closed) :
    Settles (fun _ t => ∃ rs', Comes s rs names d t rs') (expression s) := by
  have hreach := reaches_expression hs hspans hd (hspans.length_le e.visible_tokens)
  refine hreach.settles.mono fun _ t hok hend => ?_
  obtain ⟨e', g, he, rfl⟩ := expression_ok hok
  obtain ⟨rs', hkept, hnamed⟩ := (Front.steady_keeps names).expression he rs hn
  exact ⟨rs', hend, ⟨_, rfl⟩, hkept, hnamed⟩

/-! Arguments -/

theorem settles_argumentsFrom {e : Phrase} {es : List Phrase} {fuel n : Nat}
    (hn : s.front.Named rs names) (hs : Phrase.AllStratified (e :: es))
    (hspans : Spans (Phrase.listTokens (e :: es)) s.cursor c)
    (hc : (Token.symbol Symbol.semicolon).Stands c d) (hfuel : es.length < fuel) :
    Settles (fun m t => m = n + 1 + es.length ∧ ∃ rs', Comes s rs names c t rs')
      (argumentsFrom fuel n s) := by
  induction es generalizing e fuel n s rs with
  | nil =>
      obtain ⟨fuel, rfl⟩ : ∃ k, fuel = k + 1 := ⟨fuel - 1, by omega⟩
      rw [Phrase.listTokens, Phrase.moreTokens, List.append_nil] at hspans
      rw [argumentsFrom]
      refine (settles_expression hn hs.1 hspans (Cursor.closed_of_symbol hc (by decide))).bind ?_
      rintro _ t - ⟨rs₁, hcomes⟩
      obtain ⟨hcomma, hcomes⟩ := hcomes.noMark hc (show _ ≠ Symbol.comma by decide)
      exact .of_ok hcomma ⟨rfl, rs₁, hcomes⟩
  | cons e' es ih =>
      obtain ⟨fuel, rfl⟩ : ∃ k, fuel = k + 1 := ⟨fuel - 1, by omega⟩
      rw [Phrase.listTokens, Phrase.moreTokens, List.cons_append] at hspans
      obtain ⟨c₁, hspans, c₂, hcomma, hrest⟩ := Spans.append.1 hspans
      rw [argumentsFrom]
      have hclosed := Cursor.closed_of_symbol hcomma (by decide)
      refine (settles_expression hn hs.1 hspans hclosed).bind ?_
      rintro _ t - ⟨rs₁, hcomes⟩
      obtain ⟨hcomma, hcomes⟩ := hcomes.mark hcomma
      refine .of_ok hcomma ((ih hcomes.named hs.2 hrest (by simpa using hfuel)).mono ?_)
      rintro m u - ⟨rfl, rs₂, hrest⟩
      refine ⟨?_, rs₂, hcomes.trans hrest⟩
      rw [List.length_cons]
      omega

theorem settles_arguments {es : List Phrase} (hn : s.front.Named rs names)
    (hs : Phrase.AllStratified es) (hspans : Spans (Phrase.listTokens es) s.cursor c)
    (hc : (Token.symbol Symbol.semicolon).Stands c d) :
    Settles (fun n t => n = es.length ∧ ∃ rs', Comes s rs names c t rs') (arguments s) := by
  cases es with
  | nil =>
      have hskip : c.skipBlank = s.cursor.skipBlank := hspans
      refine .of_ok (read_of (Cursor.atStatementEnd_eq (hskip ▸ hc.head? rfl))) ?_
      exact ⟨rfl, rs, .goto hn ((Cursor.skipBlank_idem _).trans hskip.symm)⟩
  | cons e es =>
      obtain ⟨_, hfirst, -⟩ := Spans.append.1 hspans
      obtain ⟨b, hb, hsemi, -⟩ := Phrase.head?_of_spans hfirst
      refine .of_ok (read_of (Cursor.atStatementEnd_eq hb)) ?_
      simp only [beq_eq_false_iff_ne.2 hsemi, Bool.false_eq_true, if_false]
      have hgoto : Comes s rs names s.cursor { s with cursor := s.cursor.skipBlank } rs :=
        .goto hn (Cursor.skipBlank_idem _)
      refine .of_ok (Action.get_apply _) ?_
      have hspans' := Spans.skipBlank_left.2 hspans
      have hlength := hspans'.length_le (Phrase.visible_listTokens (e :: es))
      have hcommas := Phrase.length_le_moreTokens es
      rw [Phrase.listTokens, List.length_append] at hlength
      have hfuel : es.length < s.cursor.skipBlank.rest.length + 1 := by omega
      refine (settles_argumentsFrom hgoto.named hs hspans' hc hfuel).mono ?_
      · rintro n t - ⟨rfl, rs₁, hcomes⟩
        exact ⟨by rw [List.length_cons]; omega, rs₁, hgoto.trans hcomes⟩

/-! Names -/

theorem name_of {x : Clause.Name} (wanted : Wanted) (h : (Token.word x.bytes).Stands s.cursor c) :
    name wanted s = .ok ⟨x.bytes, s.cursor.skipBlank.pos⟩ { s with cursor := c } := by
  have hword : s.cursor.word = (some ⟨x.bytes, s.cursor.skipBlank.pos⟩, c) :=
    Cursor.word_iff.2 ⟨h, x.isWord, rfl⟩
  simp only [name, bind, EStateM.bind, read_of hword, x.free, Option.isSome_none,
    Bool.false_eq_true, if_false]
  rfl

theorem settles_intern (hn : s.front.Named rs names) (name : List UInt8) :
    Settles (fun id t => t.cursor = s.cursor ∧ t.store.heap.identName id = name ∧
      ∃ rs', Comes s rs names s.cursor t rs' ∧ HasIdent rs' id) (intern name s) := by
  refine (reaches_intern name).settles.mono fun id t hok hstays => ?_
  obtain ⟨new, st, hst, rfl⟩ := intern_ok hok
  obtain ⟨rs', hkept, hnamed, hid, hname⟩ := Front.keeps_intern hn hst
  exact ⟨rfl, hname, rs', ⟨rfl, ⟨[], rfl⟩, hkept, hnamed⟩, hid⟩

theorem slotOf_of {body : Body} (hb : s.body = some body) :
    slotOf id s = .ok (if body.locals.contains id then some (s.store.heap.identSlot id) else none)
      s := by
  simp only [slotOf, bind, EStateM.bind, Action.get_apply, hb]
  rfl

theorem settles_declareLocal {body : Body} (hn : s.front.Named rs names) (hb : s.body = some body)
    (hid : HasIdent rs id) (hfree : s.store.heap.identName id ∉ names) :
    Settles (fun _ t => t.cursor = s.cursor ∧
      t.body = some { body with locals := body.locals ++ [id] } ∧
      Comes s rs names s.cursor t rs) (declareLocal id w s) := by
  have hunset : s.store.heap.identValue id = .unset := hn.unset hid hfree
  refine Settles.mono (P := fun _ _ => True) ?_ fun _ t hok _ => ?_
  · refine .of_ok (valueOf_eq_ok.2 ⟨hunset, rfl⟩) (.of_ok (Action.get_apply s) ?_)
    simp only [hb]
    by_cases hfull : body.locals.length ≥ s.maxSlots
    · rw [if_pos hfull]
      trivial
    · rw [if_neg hfull]
      trivial
  · obtain ⟨body', f, hb', -, ⟨hb'', -, -⟩, rfl⟩ := declareLocal_ok hok
    obtain rfl := Option.some.inj (hb.symm.trans hb'')
    obtain ⟨hkept, hnamed⟩ := hn.addLocal hb'' hid
    exact ⟨rfl, rfl, rfl, ⟨[], rfl⟩, hkept, hnamed⟩

/-- A name without a value can be stored to. -/
theorem settles_assign (hn : s.front.Named rs names) (hid : HasIdent rs id)
    (hfree : s.store.heap.identName id ∉ names) :
    Settles (fun _ t => Comes s rs names s.cursor t rs) (assign id w s) := by
  have hunset : s.store.heap.identValue id = .unset := hn.unset hid hfree
  refine Settles.mono (P := fun _ _ => True) ?_ fun _ t hok _ => ?_
  · refine .of_ok (Action.get_apply s) ?_
    cases hb : s.body with
    | none =>
        refine .of_ok (valueOf_eq_ok.2 ⟨hunset, rfl⟩) ?_
        exact (reaches_emitOpWord _ _).settles.mono fun _ _ _ _ => trivial
    | some body =>
        refine .of_ok (slotOf_of hb) ?_
        split
        · exact (reaches_emitOpByte _ _).settles.mono fun _ _ _ _ => trivial
        · refine (settles_declareLocal hn hb hid hfree).bind fun slot t _ _ => ?_
          exact (reaches_emitOpByte _ _).settles.mono fun _ _ _ _ => trivial
  · obtain ⟨p, f, htarget, rfl⟩ := assign_ok hok
    cases htarget with
    | «global» | old => exact .emitted hn rfl rfl
    | new hb _ hdecl =>
        obtain ⟨hb', -, -⟩ := hdecl
        obtain ⟨hkept, hnamed⟩ := hn.addLocal hb' hid
        exact ⟨rfl, ⟨_, rfl⟩, hkept, hnamed⟩

/-- A name is read and stored to, and the text goes on behind it. -/
theorem settles_inputOne {x : Clause.Name} {fuel : Nat} {Q : Unit → Compiler → Prop}
    (hn : s.front.Named rs names) (hx : (Token.word x.bytes).Stands s.cursor c)
    (hfree : x.bytes ∉ names)
    (hnext : ∀ t rs', Comes s rs names c t rs' → Settles Q
      ((do if ← symbol Symbol.comma then inputStatement fuel : Compile Unit) t)) :
    Settles Q (inputStatement (fuel + 1) s) := by
  have hgoto : Comes s rs names c { s with cursor := c } rs := .goto hn rfl
  rw [inputStatement]
  refine .of_ok (name_of .inputVariable hx) ((settles_intern hgoto.named x.bytes).bind ?_)
  rintro id t₁ - ⟨hcursor, hname, rs₁, hcomes₁, hid⟩
  refine ((reaches_emitOp .input).settles).bind fun _ t₂ hemit _ => ?_
  obtain rfl := emitOp_ok rfl hemit
  have hcomes₂ : Comes t₁ rs₁ names c (t₁.advance t₁.front [.plain .input]) rs₁ :=
    .emitted hcomes₁.named (by rw [hcursor]) rfl
  refine (settles_assign hcomes₂.named hid (hname ▸ hfree)).bind fun _ t₃ _ hcomes₃ => ?_
  exact hnext t₃ rs₁ (hgoto.trans (hcomes₁.trans (hcomes₂.trans (hcomes₃.reach hcomes₂.cursor))))

/-- No name of the list is that of a body. -/
theorem settles_inputs {x : Clause.Name} {xs : List Clause.Name} {fuel : Nat}
    (hn : s.front.Named rs names) (hspans : Spans (Clause.nameTokens x xs) s.cursor c)
    (hc : (Token.symbol Symbol.semicolon).Stands c d) (hfree : ∀ y ∈ x :: xs, y.bytes ∉ names)
    (hfuel : xs.length < fuel) :
    Settles (fun _ t => ∃ rs', Comes s rs names c t rs') (inputStatement fuel s) := by
  induction xs generalizing x fuel s rs with
  | nil =>
      obtain ⟨fuel, rfl⟩ : ∃ k, fuel = k + 1 := ⟨fuel - 1, by omega⟩
      obtain ⟨c₁, hx, hskip⟩ := hspans
      refine settles_inputOne hn hx (hfree x List.mem_cons_self) fun t rs₁ hcomes => ?_
      obtain ⟨hcomma, hcomes⟩ :=
        (hcomes.reach (Eq.symm hskip)).noMark hc (show _ ≠ Symbol.comma by decide)
      exact .of_ok hcomma ⟨rs₁, hcomes⟩
  | cons y ys ih =>
      obtain ⟨fuel, rfl⟩ : ∃ k, fuel = k + 1 := ⟨fuel - 1, by omega⟩
      obtain ⟨c₁, hx, c₂, hcomma, hspans⟩ := hspans
      refine settles_inputOne hn hx (hfree x List.mem_cons_self) fun t rs₁ hcomes => ?_
      obtain ⟨hcomma, hcomes⟩ := hcomes.mark hcomma
      have hlength : ys.length < fuel := by simpa using hfuel
      refine .of_ok hcomma ((ih hcomes.named hspans
        (fun y hy => hfree y (List.mem_cons_of_mem _ hy)) hlength).mono ?_)
      rintro _ u - ⟨rs₂, hrest⟩
      exact ⟨rs₂, hcomes.trans hrest⟩

/-- A parameter that the body does not have yet is read. -/
theorem settles_parameterOne {x : Clause.Name} {body : Body} {fuel : Nat}
    {Q : Unit → Compiler → Prop} (hn : s.front.Named rs names) (hb : s.body = some body)
    (hx : (Token.word x.bytes).Stands s.cursor c) (hfree : x.bytes ∉ names)
    (hnew : ∀ id ∈ body.locals, s.store.heap.identName id ≠ x.bytes)
    (hnext : ∀ t rs' body', Comes s rs names c t rs' → t.body = some body' →
      (∀ id ∈ body'.locals, t.store.heap.identName id = x.bytes ∨
        ∃ id' ∈ body.locals, t.store.heap.identName id = s.store.heap.identName id') →
      Settles Q ((do if ← symbol Symbol.comma then parameters fuel : Compile Unit) t)) :
    Settles Q (parameters (fuel + 1) s) := by
  have hgoto : Comes s rs names c { s with cursor := c } rs := .goto hn rfl
  rw [parameters]
  refine .of_ok (name_of .parameter hx) ((settles_intern hgoto.named x.bytes).bind ?_)
  rintro id t₁ hok ⟨hcursor, hname, rs₁, hcomes₁, hid⟩
  have hbody : t₁.body = some body := by
    obtain ⟨new, st, -, rfl⟩ := intern_ok hok
    exact hb
  have hsame : ∀ id' ∈ body.locals, t₁.store.heap.identName id' = s.store.heap.identName id' :=
    fun id' hid' => hcomes₁.kept.identName hgoto.named.sound
      (hn.sound.body body hb id' (List.mem_cons_of_mem _ hid'))
  have hout : body.locals.contains id = false := by
    refine Bool.eq_false_iff.2 fun hin => ?_
    have hin : id ∈ body.locals := by simpa using hin
    exact hnew id hin ((hsame id hin).symm.trans hname)
  refine .of_ok (slotOf_of hbody) ?_
  simp only [hout, Bool.false_eq_true, if_false, Option.isSome_none]
  refine (settles_declareLocal hcomes₁.named hbody hid (hname ▸ hfree)).bind ?_
  rintro slot t₂ - ⟨-, hbody₂, hcomes₂⟩
  have hkept {id' : Ident} (hid' : HasIdent rs₁ id') :
      t₂.store.heap.identName id' = t₁.store.heap.identName id' :=
    hcomes₂.kept.identName hcomes₁.named.sound hid'
  refine hnext t₂ rs₁ _ (hgoto.trans (hcomes₁.trans (hcomes₂.reach (by rw [hcursor])))) hbody₂ ?_
  intro id' hid'
  obtain hid' | hid' := List.mem_append.1 hid'
  · refine .inr ⟨id', hid', (hkept ?_).trans (hsame id' hid')⟩
    exact hcomes₁.named.sound.body body hbody id' (List.mem_cons_of_mem _ hid')
  · obtain rfl := List.mem_singleton.1 hid'
    exact .inl ((hkept hid).trans hname)

theorem settles_parameters {x : Clause.Name} {xs : List Clause.Name} {body : Body} {fuel : Nat}
    (hn : s.front.Named rs names) (hb : s.body = some body)
    (hspans : Spans (Clause.nameTokens x xs) s.cursor c)
    (hc : (Token.symbol Symbol.closeParen).Stands c d) (hfree : ∀ y ∈ x :: xs, y.bytes ∉ names)
    (hdistinct : ((x :: xs).map Clause.Name.bytes).Nodup)
    (hnew : ∀ y ∈ x :: xs, ∀ id ∈ body.locals, s.store.heap.identName id ≠ y.bytes)
    (hfuel : xs.length < fuel) :
    Settles (fun _ t => ∃ rs', Comes s rs names c t rs') (parameters fuel s) := by
  induction xs generalizing x body fuel s rs with
  | nil =>
      obtain ⟨fuel, rfl⟩ : ∃ k, fuel = k + 1 := ⟨fuel - 1, by omega⟩
      obtain ⟨c₁, hx, hskip⟩ := hspans
      refine settles_parameterOne hn hb hx (hfree x List.mem_cons_self)
        (hnew x List.mem_cons_self) fun t rs₁ body' hcomes _ _ => ?_
      obtain ⟨hcomma, hcomes⟩ :=
        (hcomes.reach (Eq.symm hskip)).noMark hc (show _ ≠ Symbol.comma by decide)
      exact .of_ok hcomma ⟨rs₁, hcomes⟩
  | cons y ys ih =>
      obtain ⟨fuel, rfl⟩ : ∃ k, fuel = k + 1 := ⟨fuel - 1, by omega⟩
      obtain ⟨c₁, hx, c₂, hcomma, hspans⟩ := hspans
      refine settles_parameterOne hn hb hx (hfree x List.mem_cons_self)
        (hnew x List.mem_cons_self) fun t rs₁ body' hcomes hbody hlocals => ?_
      obtain ⟨hcomma, hcomes⟩ := hcomes.mark hcomma
      rw [List.map_cons, List.nodup_cons] at hdistinct
      have hnew' : ∀ z ∈ y :: ys, ∀ id ∈ body'.locals, t.store.heap.identName id ≠ z.bytes := by
        intro z hz id hid
        obtain hname | ⟨id', hid', hname⟩ := hlocals id hid
        · rw [hname]
          exact fun heq => hdistinct.1 (heq ▸ List.mem_map_of_mem hz)
        · rw [hname]
          exact hnew z (List.mem_cons_of_mem _ hz) id' hid'
      have hlength : ys.length < fuel := by simpa using hfuel
      refine .of_ok hcomma ((ih hcomes.named hbody hspans
        (fun y hy => hfree y (List.mem_cons_of_mem _ hy)) hdistinct.2 hnew' hlength).mono ?_)
      rintro _ u - ⟨rs₂, hrest⟩
      exact ⟨rs₂, hcomes.trans hrest⟩

/-- Parameters that differ from each other and from all bodies, in their parentheses. -/
theorem settles_parameterList {params : List Clause.Name} {id : Ident} {isFunc : Bool}
    (hn : s.front.Named rs names) (hb : s.body = some ⟨id, isFunc, []⟩)
    (hspans : Spans (.openParen :: Clause.parameterTokens params) s.cursor c)
    (hfree : ∀ y ∈ params, y.bytes ∉ names) (hdistinct : (params.map Clause.Name.bytes).Nodup) :
    Settles (fun _ t => ∃ rs', Comes s rs names c t rs') (parameterList s) := by
  obtain ⟨c₁, hopen, hspans⟩ := hspans
  have hgoto : Comes s rs names c₁ { s with cursor := c₁ } rs := .goto hn rfl
  rw [parameterList]
  refine .of_ok (expect_of hopen) ?_
  cases params with
  | nil =>
      obtain ⟨c₂, hclose, hskip⟩ := hspans
      obtain ⟨hmark, hcomes⟩ := hgoto.mark hclose
      exact .of_ok hmark ⟨rs, hcomes.reach (Eq.symm hskip)⟩
  | cons x xs =>
      obtain ⟨c₂, hnames, c₃, hclose, hskip⟩ := Spans.append.1 hspans
      have hword : c₁.skipBlank.rest.head? ≠ some Symbol.closeParen := by
        obtain ⟨us, hus⟩ := Clause.nameTokens_eq_cons x xs
        rw [hus] at hnames
        obtain ⟨m, hx, -⟩ := hnames
        exact hx.word_head?_ne x.isWord (by decide)
      refine .of_ok (symbol_of_head? hword) (.of_ok (Action.get_apply _) ?_)
      have hskipped : Comes s rs names c₁ { s with cursor := c₁.skipBlank } rs :=
        .goto hn (Cursor.skipBlank_idem _)
      have hnames := Spans.skipBlank_left.2 hnames
      have hfuel : xs.length < c₁.skipBlank.rest.length + 1 := by
        have hlength := hnames.length_le (Clause.visible_nameTokens x xs)
        rw [Clause.length_nameTokens] at hlength
        omega
      refine (settles_parameters hskipped.named hb hnames hclose hfree hdistinct (by simp)
        hfuel).bind ?_
      rintro _ t - ⟨rs₁, hcomes⟩
      have hmark := expect_of (hclose.of_skipBlank_eq hcomes.cursor)
      have hcomes' := (hcomes.mark hclose).2
      rw [hmark]
      exact ⟨rs₁, hskipped.trans (hcomes'.reach (Eq.symm hskip))⟩

end

end Compiler

end CellScript
