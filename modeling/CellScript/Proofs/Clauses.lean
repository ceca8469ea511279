import CellScript.Proofs.Nesting
import CellScript.Proofs.Unambiguity

/-!
Statements as they are written.

A clause is one statement up to its semicolon. The words that open, divide and close
blocks are clauses of their own, so that a list of clauses is a text without any
regard to how its blocks are nested. Each clause is well formed by itself: its
expressions are phrases, its operators are given what they take, and its names are
free for what it does with them.
-/

namespace CellScript

/-- A word that is not reserved, where a statement names something. -/
structure Clause.Name where
  bytes : List UInt8
  isWord : Ascii.isWord bytes = true
  free : Keyword.lookup? bytes = none

inductive Clause where
  | assign (x : Clause.Name) (e : Phrase)
  | perform (x : Clause.Name) (args : List Phrase)
  | print (args : List Phrase)
  | input (x : Clause.Name) (xs : List Clause.Name)
  | halt
  | openIf (e : Phrase)
  | openElse
  | closeIf
  | openWhile (e : Phrase)
  | closeWhile
  | openRepeat
  | closeRepeat (e : Phrase)
  | openBody (isFunc : Bool) (x : Clause.Name) (params : List Clause.Name)
  | closeBody
  | exitLoop
  | giveBack (e : Option Phrase)

namespace Clause

/-! ### Text -/

def nameTokens : Name → List Name → List Token
  | x, [] => [.word x.bytes]
  | x, y :: ys => .word x.bytes :: .comma :: nameTokens y ys

def parameterTokens : List Name → List Token
  | [] => [.closeParen]
  | x :: xs => nameTokens x xs ++ [.closeParen]

def bodyWord (isFunc : Bool) : String := if isFunc then "func" else "proc"

def word : Clause → List UInt8
  | assign x _ | perform x _ => x.bytes
  | print _ => Ascii.bytes "print"
  | input _ _ => Ascii.bytes "input"
  | halt => Ascii.bytes "stop"
  | openIf _ => Ascii.bytes "if"
  | openElse => Ascii.bytes "else"
  | closeIf => Ascii.bytes "endif"
  | openWhile _ => Ascii.bytes "while"
  | closeWhile => Ascii.bytes "wend"
  | openRepeat => Ascii.bytes "repeat"
  | closeRepeat _ => Ascii.bytes "until"
  | openBody isFunc _ _ => Ascii.bytes (bodyWord isFunc)
  | closeBody => Ascii.bytes "end"
  | exitLoop => Ascii.bytes "break"
  | giveBack _ => Ascii.bytes "return"

def rest : Clause → List Token
  | assign _ e => .symbol Symbol.equals :: e.tokens
  | perform _ args | print args => Phrase.listTokens args
  | input x xs => nameTokens x xs
  | openIf e | openWhile e | closeRepeat e | giveBack (some e) => e.tokens
  | openBody _ x params => .word x.bytes :: .openParen :: parameterTokens params
  | _ => []

/-- The tokens of statements, each with its semicolon. -/
def script : List Clause → List Token
  | [] => []
  | c :: cs => .word c.word :: c.rest ++ .symbol Symbol.semicolon :: script cs

theorem length_le_script (cs : List Clause) : cs.length ≤ (script cs).length := by
  induction cs with
  | nil => exact Nat.le_refl 0
  | cons c cs ih =>
      simp only [script, List.length_cons, List.length_append, List.cons_append]
      omega

/-! ### Meaning -/

/-- What the statement does to the nesting of blocks. -/
def control : Clause → Control
  | openIf _ => .openIf
  | openElse => .openElse
  | closeIf => .closeIf
  | openWhile _ => .openWhile
  | closeWhile => .closeWhile
  | openRepeat => .openRepeat
  | closeRepeat _ => .closeRepeat
  | openBody isFunc _ _ => .openBody isFunc
  | closeBody => .closeBody
  | exitLoop => .exitLoop
  | giveBack e => .giveBack e.isSome
  | _ => .plain

def phrases : Clause → List Phrase
  | perform _ args | print args => args
  | assign _ e | openIf e | openWhile e | closeRepeat e | giveBack (some e) => [e]
  | _ => []

def parameters : Clause → List (List UInt8)
  | openBody _ _ params => params.map Name.bytes
  | _ => []

/-- The names that a statement gives a value, which is not to be a body. -/
def stores : Clause → List (List UInt8)
  | assign x _ => [x.bytes]
  | input x xs => (x :: xs).map Name.bytes
  | openBody _ _ params => params.map Name.bytes
  | _ => []

/-- The name of the body that a statement opens. -/
def defines : Clause → List (List UInt8)
  | openBody _ x _ => [x.bytes]
  | _ => []

/-- A statement without errors of its own, when some names are those of bodies already. -/
structure WellFormed (defined : List (List UInt8)) (c : Clause) : Prop where
  /-- Operators bind as their precedence says, and built-in functions have their arguments. -/
  stratified : Phrase.AllStratified c.phrases
  counted : c.phrases.length ≤ 255
  new : ∀ x ∈ c.defines, x ∉ defined
  /-- The name of a body is given no value. -/
  unused : ∀ x ∈ c.stores, x ∉ c.defines ++ defined
  distinct : c.parameters.Nodup

/-- What the word is reserved for, if it is. -/
def keyword? : Clause → Option Keyword
  | assign _ _ | perform _ _ => none
  | print _ => some ⟨.print, .listCommand⟩
  | input _ _ => some ⟨.input, .input⟩
  | halt => some ⟨.stop, .command⟩
  | openIf _ => some ⟨.wordIf, .control⟩
  | openElse => some ⟨.wordElse, .control⟩
  | closeIf => some ⟨.wordEndif, .control⟩
  | openWhile _ => some ⟨.wordWhile, .control⟩
  | closeWhile => some ⟨.wordWend, .control⟩
  | openRepeat => some ⟨.wordRepeat, .control⟩
  | closeRepeat _ => some ⟨.wordUntil, .control⟩
  | openBody isFunc _ _ => some ⟨if isFunc then .wordFunc else .wordProc, .control⟩
  | closeBody => some ⟨.wordEnd, .control⟩
  | exitLoop => some ⟨.wordBreak, .control⟩
  | giveBack _ => some ⟨.wordReturn, .control⟩

theorem lookup?_word (c : Clause) : Keyword.lookup? c.word = c.keyword? := by
  cases c with
  | assign x | perform x => exact x.free
  | openBody isFunc =>
      simp only [word, keyword?]
      revert isFunc
      decide
  | _ =>
      simp only [word, keyword?]
      decide

theorem isWord_word (c : Clause) : Ascii.isWord c.word = true := by
  cases hk : c.keyword? with
  | some k =>
      cases Keyword.opens_of_lookup? (c.lookup?_word.trans hk) with
      | word hword _ => exact hword
  | none =>
      cases c with
      | assign x | perform x => exact x.isWord
      | _ => cases hk

end Clause

/-! ### Tokens -/

namespace Token

theorem visible_word {bs : List UInt8} (h : Ascii.isWord bs = true) : (word bs).IsVisible := by
  obtain ⟨b, hb, hstart⟩ := Ascii.isWord_head? h
  have := forall_byte (p := fun b => !Ascii.isWordStart b || !Ascii.isBlank b) (by decide) b
  exact ⟨b, hb, by simpa [hstart] using this⟩

theorem visible_symbol {b : UInt8} (h : Ascii.isBlank b = false) : (symbol b).IsVisible :=
  ⟨b, rfl, h⟩

end Token

theorem Phrase.visible_tokens (e : Phrase) : ∀ t ∈ e.tokens, t.IsVisible :=
  e.alternate_tokens.visible

theorem Phrase.visible_listTokens (es : List Phrase) : ∀ t ∈ Phrase.listTokens es, t.IsVisible := by
  have h : Alternate true (Phrase.listTokens es ++ []) := Phrase.list_alternate es trivial trivial
  rw [List.append_nil] at h
  exact h.visible

namespace Clause

theorem visible_nameTokens (x : Name) (xs : List Name) : ∀ t ∈ nameTokens x xs, t.IsVisible := by
  induction xs generalizing x with
  | nil => simpa [nameTokens] using Token.visible_word x.isWord
  | cons y ys ih =>
      simp only [nameTokens, List.forall_mem_cons]
      exact ⟨Token.visible_word x.isWord, Token.visible_symbol (by decide), ih y⟩

theorem visible_rest (c : Clause) : ∀ t ∈ c.rest, t.IsVisible := by
  cases c with
  | assign x e =>
      simp only [rest, List.forall_mem_cons]
      exact ⟨Token.visible_symbol (by decide), e.visible_tokens⟩
  | perform x args | print args => exact Phrase.visible_listTokens args
  | input x xs => exact visible_nameTokens x xs
  | openIf e | openWhile e | closeRepeat e => exact e.visible_tokens
  | giveBack e =>
      cases e with
      | none => simp [rest]
      | some e => exact e.visible_tokens
  | openBody isFunc x params =>
      have hclose : Token.closeParen.IsVisible := Token.visible_symbol (by decide)
      simp only [rest, List.forall_mem_cons]
      refine ⟨Token.visible_word x.isWord, Token.visible_symbol (by decide), ?_⟩
      cases params with
      | nil => simpa [parameterTokens] using hclose
      | cons y ys =>
          rw [parameterTokens, List.forall_mem_append]
          exact ⟨visible_nameTokens y ys, by simpa using hclose⟩
  | _ => simp [rest]

theorem visible_script (cs : List Clause) : ∀ t ∈ script cs, t.IsVisible := by
  induction cs with
  | nil => simp [script]
  | cons c cs ih =>
      simp only [script, List.cons_append, List.forall_mem_cons, List.forall_mem_append]
      exact ⟨Token.visible_word c.isWord_word, c.visible_rest, Token.visible_symbol (by decide), ih⟩

end Clause

/-! ### Whole texts -/

/-- Tokens that are written follow each other up to the end of the text. -/
theorem Renders.spans_all {ts : List Token} {bs : List UInt8} (h : Renders ts bs)
    (hv : ∀ t ∈ ts, t.IsVisible) (pos : Nat) :
    ∃ c, Spans ts ⟨pos, bs⟩ c ∧ c.skipBlank.rest = [] := by
  induction h generalizing pos with
  | @done blanks hblanks =>
      refine ⟨⟨pos, blanks⟩, rfl, ?_⟩
      have hskip : Cursor.skipBlankFrom pos (blanks ++ []) = ⟨pos + blanks.length, []⟩ :=
        Cursor.skipBlankFrom_append hblanks rfl pos
      rw [List.append_nil] at hskip
      exact congrArg Cursor.rest hskip
  | @token t ts blanks text hblanks hends hts ih =>
      obtain ⟨c, hspans, hc⟩ := ih (fun t ht => hv t (List.mem_cons_of_mem _ ht))
        (pos + blanks.length + t.bytes.length)
      exact ⟨c, ⟨_, (hv t List.mem_cons_self).stands hblanks hends pos, hspans⟩, hc⟩

namespace Spans

variable {ts : List Token} {c c' : Cursor}

theorem length_le (h : Spans ts c c') (hv : ∀ t ∈ ts, t.IsVisible) :
    ts.length ≤ c.rest.length := by
  obtain ⟨bs, hrest, -, hrenders⟩ := h.renders
  have := hrenders.length_le_of_visible hv
  rw [hrest, List.length_append]
  omega

theorem pos_le (h : Spans ts c c') (hv : ∀ t ∈ ts, t.IsVisible) :
    c.skipBlank.pos + ts.length ≤ c'.skipBlank.pos := by
  obtain ⟨bs, -, hpos, hrenders⟩ := (skipBlank_left.2 h).renders
  have := hrenders.length_le_of_visible hv
  omega

end Spans

namespace Clause

/-- What the statements from a place on do to the nesting of blocks, and where they stand. -/
inductive Heads : Cursor → List Clause → List Nesting.Head → Cursor → Prop
  | nil {c c' : Cursor} : c'.skipBlank = c.skipBlank → Heads c [] [] c'
  | cons {c c₁ c₂ c₃ c' : Cursor} {x : Clause} {xs : List Clause} {hs : List Nesting.Head} :
      (Token.word x.word).Stands c c₁ → Spans x.rest c₁ c₂ →
      (Token.symbol Symbol.semicolon).Stands c₂ c₃ → Heads c₃ xs hs c' →
      Heads c (x :: xs) (⟨x.control, c.skipBlank.pos, c₁.pos, c₂.skipBlank.pos⟩ :: hs) c'

theorem exists_heads {xs : List Clause} {c c' : Cursor} (h : Spans (script xs) c c') :
    ∃ hs, Heads c xs hs c' := by
  induction xs generalizing c with
  | nil => exact ⟨[], .nil h⟩
  | cons x xs ih =>
      rw [script, List.cons_append] at h
      obtain ⟨c₁, hword, h⟩ := h
      obtain ⟨c₂, hrest, c₃, hsemi, h⟩ := Spans.append.1 h
      obtain ⟨hs, hheads⟩ := ih h
      exact ⟨_, .cons hword hrest hsemi hheads⟩

theorem Heads.spans {xs : List Clause} {hs : List Nesting.Head} {c c' : Cursor}
    (h : Heads c xs hs c') : Spans (script xs) c c' := by
  induction h with
  | nil h => exact h
  | cons hword hrest hsemi _ ih =>
      rw [script, List.cons_append]
      exact ⟨_, hword, Spans.append.2 ⟨_, hrest, _, hsemi, ih⟩⟩

theorem Heads.controls {xs : List Clause} {hs : List Nesting.Head} {c c' : Cursor}
    (h : Heads c xs hs c') : Nesting.controls hs = xs.map control := by
  induction h with
  | nil => rfl
  | cons _ _ _ _ ih => rw [Nesting.controls_cons, List.map_cons, ih]

/-- The statement stands in a text between others: its first word from `start` to `stop`, and its
semicolon at `finish`. -/
structure Stands (x : Clause) (text : List UInt8) (before after : List Clause)
    (start stop finish : Nat) : Prop where
  split : ∃ bs us more, text = bs ++ x.word ++ us ++ Symbol.semicolon :: more ∧
    Renders (script before) bs ∧ Renders x.rest us ∧ Renders (script after) more ∧
    start = bs.length ∧ stop = start + x.word.length ∧ finish = stop + us.length

theorem Heads.split {xs : List Clause} {hs hs' : List Nesting.Head} {h : Nesting.Head}
    {c c' : Cursor} (hheads : Heads c xs (hs ++ h :: hs') c') :
    ∃ before x after m c₁ c₂ c₃, xs = before ++ x :: after ∧
      before.map control = Nesting.controls hs ∧ Spans (script before) c m ∧
      (Token.word x.word).Stands m c₁ ∧ Spans x.rest c₁ c₂ ∧
      (Token.symbol Symbol.semicolon).Stands c₂ c₃ ∧ Heads c₃ after hs' c' ∧
      h = ⟨x.control, m.skipBlank.pos, c₁.pos, c₂.skipBlank.pos⟩ := by
  induction hs generalizing c xs with
  | nil =>
      cases hheads with
      | cons hword hrest hsemi htail =>
          exact ⟨[], _, _, c, _, _, _, rfl, rfl, rfl, hword, hrest, hsemi, htail, rfl⟩
  | cons o hs ih =>
      cases hheads with
      | @cons _ d₁ d₂ d₃ _ y ys _ hword hrest hsemi htail =>
          obtain ⟨before, x, after, m, c₁, c₂, c₃, rfl, hbefore, hspans, hx⟩ := ih htail
          refine ⟨y :: before, x, after, m, c₁, c₂, c₃, rfl, ?_, ?_, hx⟩
          · rw [List.map_cons, hbefore, Nesting.controls_cons]
          · rw [script, List.cons_append]
            exact ⟨d₁, hword, Spans.append.2 ⟨d₂, hrest, d₃, hsemi, hspans⟩⟩

theorem Heads.stands {text : List UInt8} {xs : List Clause} {hs hs' : List Nesting.Head}
    {h : Nesting.Head} {c' : Cursor} (hheads : Heads ⟨0, text⟩ xs (hs ++ h :: hs') c')
    (hend : c'.skipBlank.rest = []) :
    ∃ before x after, xs = before ++ x :: after ∧ before.map control = Nesting.controls hs ∧
      x.control = h.control ∧ after.map control = Nesting.controls hs' ∧
      x.Stands text before after h.start h.stop h.finish := by
  obtain ⟨before, x, after, m, c₁, c₂, c₃, rfl, hbefore, hspans, hword, hrest, hsemi, htail, rfl⟩ :=
    hheads.split
  obtain ⟨bs, htext, hpos, hbs⟩ := hspans.renders
  obtain ⟨us, hus, hpos', hrenders⟩ := hrest.renders
  obtain ⟨more, hmore, -, hafter⟩ := htail.spans.renders
  refine ⟨before, x, after, rfl, hbefore, rfl, htail.controls.symm, bs, us, more, ?_, hbs, hrenders,
    hafter, ?_, hword.pos, hpos'⟩
  · calc text = bs ++ m.skipBlank.rest := htext
      _ = bs ++ (x.word ++ (us ++ (Symbol.semicolon :: more))) := by
        rw [hword.text, hus, hsemi.text, hmore, hend, List.append_nil]
        rfl
      _ = bs ++ x.word ++ us ++ Symbol.semicolon :: more := by simp only [List.append_assoc]
  · simpa using hpos

end Clause

end CellScript
