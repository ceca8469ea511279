import CellScript.Proofs.Lexemes

/-!
A text is read in one way only.

Two phrases whose operators are ordered by precedence and that can be rendered by
the same text are the same phrase. Lexing settles the tokens, since at every place
at most one token can stand. For the tokens of a phrase, the argument follows the
brackets first: up to them the phrase is a chain of operands with binary operators
between, and the operands come out one after the other. Of a chain, the last
operator of the lowest precedence is the root of its tree, so the chain has one
tree.
-/

namespace CellScript

/-! ### Words and literals are known by their text -/

namespace Keyword

/-- Reserved words are words, and `not` is none of them. -/
theorem opens_of_lookup? {word : List UInt8} {k : Keyword} (h : lookup? word = some k) :
    (Token.word word).Opens := by
  obtain ⟨r, hr, rfl, -⟩ := lookup?_eq_some_iff.1 h
  have hrows : ∀ r ∈ rows, Ascii.isWord (Ascii.bytes r.spelling) = true ∧
      (Ascii.bytes r.spelling).map Ascii.toLower ≠ Ascii.bytes "not" := by decide
  exact .word (hrows r hr).1 (hrows r hr).2

end Keyword

namespace Phrase

theorem Name.ext_bytes {x y : Name} (h : x.bytes = y.bytes) : x = y := by
  cases x
  cases y
  cases h
  rfl

theorem Function.ext_bytes {f g : Function} (h : f.bytes = g.bytes) : f = g := by
  obtain ⟨bytes, op, arity, hf⟩ := f
  obtain ⟨bytes', op', arity', hg⟩ := g
  obtain rfl : bytes = bytes' := h
  rw [hf] at hg
  cases hg
  rfl

theorem Constant.ext_bytes {v w : Constant} (h : v.bytes = w.bytes) : v = w := by
  obtain ⟨bytes, value, hv⟩ := v
  obtain ⟨bytes', value', hw⟩ := w
  obtain rfl : bytes = bytes' := h
  rw [hv] at hw
  cases value <;> cases value' <;> first | rfl | cases hw

theorem Numeral.ext_text {m n : Numeral} (h : m.text = n.text) : m = n := by
  obtain ⟨text, value, hm⟩ := m
  obtain ⟨text', value', hn⟩ := n
  obtain rfl : text = text' := h
  rw [hm] at hn
  cases hn
  rfl

theorem Quoted.ext_raw {p q : Quoted} (h : p.raw = q.raw) : p = q := by
  obtain ⟨raw, length, last, hp⟩ := p
  obtain ⟨raw', length', last', hq⟩ := q
  obtain rfl : raw = raw' := h
  rw [hp] at hq
  cases hq
  rfl

theorem Sign.ext_text {table : List Operator.Row} {o p : Sign table} (h : o.text = p.text) :
    o = p := by
  obtain ⟨text, operator, ho⟩ := o
  obtain ⟨text', operator', hp⟩ := p
  obtain rfl : text = text' := h
  rw [ho] at hp
  cases hp
  rfl

/-! The words that operands begin with are of three kinds. -/

theorem Name.bytes_ne_constant (x : Name) (w : Constant) : x.bytes ≠ w.bytes := by
  intro h
  have hx := x.free
  rw [h, w.reserved] at hx
  cases hx

theorem Name.bytes_ne_function (x : Name) (f : Function) : x.bytes ≠ f.bytes := by
  intro h
  have hx := x.free
  rw [h, f.reserved] at hx
  cases hx

theorem Constant.bytes_ne_function (w : Constant) (f : Function) : w.bytes ≠ f.bytes := by
  intro h
  have hw := w.reserved
  rw [h, f.reserved] at hw
  simp at hw

end Phrase

/-! ### The tokens of a phrase suit their places -/

mutual

theorem Phrase.alternate : ∀ (e : Phrase) {rest : List Token}, Alternate false rest →
    Alternate true (e.tokens ++ rest)
  | .numeral n, _, hr => ⟨.numeral n, hr⟩
  | .quoted q, _, hr => ⟨.quoted q, hr⟩
  | .constant w, _, hr => ⟨Keyword.opens_of_lookup? w.reserved, hr⟩
  | .variable x suffixes, _, hr => ⟨.word x.isWord x.isOperand, suffixes.alternate hr⟩
  | .call x args, rest, hr => by
      simp only [Phrase.tokens, List.cons_append, List.append_assoc, List.nil_append]
      exact ⟨.word x.isWord x.isOperand, .symbol (by decide),
        Phrase.list_alternate args ⟨.symbol (by decide), hr⟩ ⟨.symbol (by decide), hr⟩⟩
  | .builtin f args, rest, hr => by
      simp only [Phrase.tokens, List.cons_append, List.append_assoc, List.nil_append]
      exact ⟨Keyword.opens_of_lookup? f.reserved, .symbol (by decide),
        Phrase.list_alternate args ⟨.symbol (by decide), hr⟩ ⟨.symbol (by decide), hr⟩⟩
  | .group e, rest, hr => by
      simp only [Phrase.tokens, List.cons_append, List.append_assoc, List.nil_append]
      exact ⟨.symbol (by decide), e.alternate ⟨.symbol (by decide), hr⟩⟩
  | .array elems, rest, hr => by
      simp only [Phrase.tokens, List.cons_append, List.append_assoc, List.nil_append]
      exact ⟨.symbol (by decide),
        Phrase.list_alternate elems ⟨.symbol (by decide), hr⟩ ⟨.symbol (by decide), hr⟩⟩
  | .unary o e, _, hr => ⟨.unary o, e.alternate hr⟩
  | .binary o a b, rest, hr => by
      simp only [Phrase.tokens, List.cons_append, List.append_assoc]
      exact a.alternate ⟨.binary o, b.alternate hr⟩

theorem Suffixes.alternate : ∀ (s : Suffixes) {rest : List Token}, Alternate false rest →
    Alternate false (s.tokens ++ rest)
  | .none, _, hr => hr
  | .index i more, rest, hr => by
      simp only [Suffixes.tokens, List.cons_append, List.append_assoc]
      exact ⟨.symbol (by decide), i.alternate ⟨.symbol (by decide), more.alternate hr⟩⟩
  | .range i j more, rest, hr => by
      simp only [Suffixes.tokens, List.cons_append, List.append_assoc]
      exact ⟨.symbol (by decide), i.alternate ⟨.symbol (by decide),
        j.alternate ⟨.symbol (by decide), more.alternate hr⟩⟩⟩

theorem Phrase.list_alternate : ∀ (es : List Phrase) {rest : List Token}, Alternate false rest →
    Alternate true rest → Alternate true (Phrase.listTokens es ++ rest)
  | [], _, _, hr' => hr'
  | e :: es, rest, hr, _ => by
      simp only [Phrase.listTokens, List.append_assoc]
      exact e.alternate (Phrase.more_alternate es hr)

theorem Phrase.more_alternate : ∀ (es : List Phrase) {rest : List Token}, Alternate false rest →
    Alternate false (Phrase.moreTokens es ++ rest)
  | [], _, hr => hr
  | e :: es, rest, hr => by
      simp only [Phrase.moreTokens, List.cons_append, List.append_assoc]
      exact ⟨.symbol (by decide), e.alternate (Phrase.more_alternate es hr)⟩

end

theorem Phrase.alternate_tokens (e : Phrase) : Alternate true e.tokens := by
  have := e.alternate (show Alternate false [] from trivial)
  rwa [List.append_nil] at this

/-! ### A chain has one tree -/

namespace Phrase

def IsBinary : Phrase → Prop
  | .binary _ _ _ => True
  | _ => False

/-- The operand with which a phrase begins, outside of brackets. -/
def first : Phrase → Phrase
  | .binary _ a _ => a.first
  | e => e

/-- The operators between the operands of a phrase, each with the operand behind it. -/
def others : Phrase → List (Sign Operator.binary × Phrase)
  | .binary o a b => a.others ++ (o, b.first) :: b.others
  | _ => []

/-- The tokens of operators and operands. -/
def othersTokens (l : List (Sign Operator.binary × Phrase)) : List Token :=
  l.flatMap fun p => .binary p.1.text :: p.2.tokens

/-- Induction along a chain: brackets are not entered. -/
@[elab_as_elim]
theorem chain_induction {P : Phrase → Prop} (operand : ∀ e, ¬ e.IsBinary → P e)
    (binary : ∀ o a b, P a → P b → P (.binary o a b)) : ∀ e, P e
  | .binary o a b => binary o a b (chain_induction operand binary a)
      (chain_induction operand binary b)
  | .numeral _ | .quoted _ | .constant _ | .variable _ _ | .call _ _ | .builtin _ _ | .group _
  | .array _ | .unary _ _ => operand _ nofun

theorem first_of_not_binary {e : Phrase} (h : ¬ e.IsBinary) : e.first = e := by
  cases e with
  | binary o a b => exact absurd trivial h
  | _ => rfl

theorem others_of_not_binary {e : Phrase} (h : ¬ e.IsBinary) : e.others = [] := by
  cases e with
  | binary o a b => exact absurd trivial h
  | _ => rfl

theorem not_binary_of_eleven_le {e : Phrase} (h : 11 ≤ e.level) : ¬ e.IsBinary := by
  cases e with
  | binary o a b =>
      have : o.binding ≤ 10 := o.prec_of_binary.2
      simp only [level] at h
      omega
  | _ => nofun

theorem tokens_chain (e : Phrase) : e.tokens = e.first.tokens ++ othersTokens e.others := by
  induction e using chain_induction with
  | operand e he => simp [first_of_not_binary he, others_of_not_binary he, othersTokens]
  | binary o a b iha ihb =>
      rw [tokens, iha, ihb, first, others]
      simp [othersTokens]

/-- No operator of a chain binds looser than the phrase does. -/
theorem level_le_of_mem {e : Phrase} (h : e.Stratified) :
    ∀ p ∈ e.others, e.level ≤ p.1.binding := by
  induction e using chain_induction with
  | operand e he =>
      rw [others_of_not_binary he]
      nofun
  | binary o a b iha ihb =>
      obtain ⟨ha, hb, hsa, hsb⟩ := h
      intro p hp
      rw [others, List.mem_append, List.mem_cons] at hp
      obtain hp | rfl | hp := hp
      · exact Nat.le_trans ha (iha hsa p hp)
      · exact Nat.le_refl _
      · exact Nat.le_trans (Nat.le_of_lt hb) (ihb hsb p hp)

/-- The operands of a chain are no chains. -/
theorem operands_of_stratified {e : Phrase} (h : e.Stratified) :
    (¬ e.first.IsBinary ∧ e.first.Stratified) ∧
      ∀ p ∈ e.others, ¬ p.2.IsBinary ∧ p.2.Stratified := by
  induction e using chain_induction with
  | operand e he =>
      rw [first_of_not_binary he, others_of_not_binary he]
      exact ⟨⟨he, h⟩, nofun⟩
  | binary o a b iha ihb =>
      obtain ⟨-, -, hsa, hsb⟩ := h
      refine ⟨(iha hsa).1, fun p hp => ?_⟩
      rw [others, List.mem_append, List.mem_cons] at hp
      obtain hp | rfl | hp := hp
      · exact (iha hsa).2 p hp
      · exact (ihb hsb).1
      · exact (ihb hsb).2 p hp

section

variable {a b a' b' : Phrase} {o o' : Sign Operator.binary}
  (h : (binary o a b).Stratified) (h' : (binary o' a' b').Stratified)

include h h'

/-- The root of one tree does not stand before that of another in the same chain. -/
theorem not_root_before {m : List (Sign Operator.binary × Phrase)} {f : Phrase}
    (ha' : a'.others = a.others ++ (o, f) :: m)
    (hb : b.others = m ++ (o', b'.first) :: b'.others) : False := by
  have h₁ : o'.binding ≤ o.binding :=
    Nat.le_trans h'.1 (level_le_of_mem h'.2.2.1 (o, f) (by simp [ha']))
  have h₂ : b.level ≤ o'.binding := level_le_of_mem h.2.2.2 (o', b'.first) (by simp [hb])
  have h₃ : o.binding < b.level := h.2.1
  omega

/-- A chain is divided in one way: at the last operator of the lowest precedence. -/
theorem root_unique (hothers : (binary o a b).others = (binary o' a' b').others) :
    a.others = a'.others ∧ o = o' ∧ b.first = b'.first ∧ b.others = b'.others := by
  rw [others, others] at hothers
  obtain ⟨m, ha', hb⟩ | ⟨m, ha, hb'⟩ := List.append_eq_append_iff.1 hothers
  · cases m with
    | nil =>
        obtain ⟨hroot, hmore⟩ := List.cons.inj hb
        obtain ⟨ho, hfirst⟩ := Prod.mk.inj hroot
        exact ⟨by simpa using ha'.symm, ho, hfirst, hmore⟩
    | cons p m =>
        obtain ⟨rfl, hmore⟩ := List.cons.inj hb
        exact (not_root_before h h' ha' hmore).elim
  · cases m with
    | nil =>
        obtain ⟨hroot, hmore⟩ := List.cons.inj hb'
        obtain ⟨ho, hfirst⟩ := Prod.mk.inj hroot
        exact ⟨by simpa using ha, ho.symm, hfirst.symm, hmore.symm⟩
    | cons p m =>
        obtain ⟨rfl, hmore⟩ := List.cons.inj hb'
        exact (not_root_before h' h ha hmore).elim

end

/-- A chain has one tree. -/
theorem eq_of_chain {e e' : Phrase} (h : e.Stratified) (h' : e'.Stratified)
    (hfirst : e.first = e'.first) (hothers : e.others = e'.others) : e = e' := by
  induction e using chain_induction generalizing e' with
  | operand e he =>
      have he' : ¬ e'.IsBinary := by
        intro hbin
        rw [others_of_not_binary he] at hothers
        cases e' with
        | binary o a b => simp [others] at hothers
        | _ => cases hbin
      rwa [first_of_not_binary he, first_of_not_binary he'] at hfirst
  | binary o a b iha ihb =>
      by_cases hbin : e'.IsBinary
      · cases e' with
        | binary o' a' b' =>
            obtain ⟨ha, rfl, hbfirst, hb⟩ := root_unique h h' hothers
            rw [iha h.2.2.1 h'.2.2.1 hfirst ha, ihb h.2.2.2 h'.2.2.2 hbfirst hb]
        | _ => cases hbin
      · rw [others_of_not_binary hbin, others] at hothers
        simp at hothers

/-! ### Tokens determine a phrase -/

/-- Nothing goes on that could belong to an expression. -/
def Ended (rest : List Token) : Prop :=
  ∀ t ∈ rest.head?, t ∈ [Token.closeParen, .closeBracket, .comma, .colon]

/-- No bracket opens that could belong to an operand. -/
def Apart (rest : List Token) : Prop :=
  ∀ t ∈ rest.head?, t ≠ Token.openParen ∧ t ≠ Token.openBracket

theorem Ended.apart {rest : List Token} (h : Ended rest) : Apart rest := by
  intro t ht
  have := h t ht
  revert this
  simp only [List.mem_cons, List.not_mem_nil, or_false]
  rintro (rfl | rfl | rfl | rfl) <;> exact ⟨by decide, by decide⟩

/-- A phrase begins with a token that opens an operand and closes nothing. -/
theorem tokens_eq_cons (e : Phrase) : ∃ t ts, e.tokens = t :: ts ∧ t.Opens ∧
    t ≠ Token.closeParen ∧ t ≠ Token.closeBracket := by
  induction e using chain_induction with
  | operand e he =>
      cases e with
      | numeral n => exact ⟨_, _, rfl, .numeral n, nofun, nofun⟩
      | quoted q => exact ⟨_, _, rfl, .quoted q, nofun, nofun⟩
      | constant w => exact ⟨_, _, rfl, Keyword.opens_of_lookup? w.reserved, nofun, nofun⟩
      | «variable» x s => exact ⟨_, _, rfl, .word x.isWord x.isOperand, nofun, nofun⟩
      | call x args => exact ⟨_, _, rfl, .word x.isWord x.isOperand, nofun, nofun⟩
      | builtin f args => exact ⟨_, _, rfl, Keyword.opens_of_lookup? f.reserved, nofun, nofun⟩
      | group e => exact ⟨_, _, rfl, .symbol (by decide), by decide, by decide⟩
      | array elems => exact ⟨_, _, rfl, .symbol (by decide), by decide, by decide⟩
      | unary o e => exact ⟨_, _, rfl, .unary o, nofun, nofun⟩
      | binary o a b => exact absurd trivial he
  | binary o a b iha ihb =>
      obtain ⟨t, ts, htokens, ht⟩ := iha
      exact ⟨t, ts ++ Token.binary o.text :: b.tokens, by rw [tokens, htokens]; rfl, ht⟩

/-- In front of whatever cannot belong to it, an operand is the only one with its tokens. -/
def DeterminedOperand (e : Phrase) : Prop :=
  ∀ {e' : Phrase} {rest rest' : List Token}, ¬ e.IsBinary → ¬ e'.IsBinary → e.Stratified →
    e'.Stratified → Apart rest → Apart rest' → e.tokens ++ rest = e'.tokens ++ rest' →
    e = e' ∧ rest = rest'

/-- In front of whatever cannot belong to it, a phrase is the only one with its tokens. -/
structure Determined (e : Phrase) : Prop where
  whole : ∀ {e' : Phrase} {rest rest' : List Token}, e.Stratified → e'.Stratified → Ended rest →
    Ended rest' → e.tokens ++ rest = e'.tokens ++ rest' → e = e' ∧ rest = rest'
  operand : e.DeterminedOperand

theorem ended_cons {t : Token} (h : t ∈ [Token.closeParen, .closeBracket, .comma, .colon])
    (rest : List Token) : Ended (t :: rest) := by
  rintro _ ⟨⟩
  exact h

theorem ended_more {close : Token} (hclose : close = .closeParen ∨ close = .closeBracket)
    (es : List Phrase) (rest : List Token) : Ended (moreTokens es ++ close :: rest) := by
  cases es with
  | nil => exact ended_cons (by obtain rfl | rfl := hclose <;> decide) rest
  | cons e es => exact ended_cons (by decide) _

/-- What follows a variable is not what follows the name of a function. -/
theorem suffixes_ne_call {s : Suffixes} {rest us : List Token} (hr : Apart rest) :
    s.tokens ++ rest ≠ .openParen :: us := by
  intro h
  cases s with
  | none => exact (hr .openParen (by rw [show rest = _ from h]; rfl)).1 rfl
  | index i more => exact absurd (List.cons.inj h).1 (by decide)
  | range i j more => exact absurd (List.cons.inj h).1 (by decide)

section

variable {n : Nat} (ih : ∀ u : Phrase, u.tokens.length < n → u.Determined)

include ih

theorem moreTokens_unique {es es' : List Phrase} {close : Token} {rest rest' : List Token}
    (hclose : close = .closeParen ∨ close = .closeBracket) (hn : (moreTokens es).length < n)
    (hs : AllStratified es) (hs' : AllStratified es')
    (h : moreTokens es ++ close :: rest = moreTokens es' ++ close :: rest') :
    es = es' ∧ rest = rest' := by
  have hcomma : close ≠ .comma := by obtain rfl | rfl := hclose <;> decide
  induction es generalizing es' with
  | nil =>
      cases es' with
      | nil => simpa [moreTokens] using h
      | cons e' es' => exact absurd (List.cons.inj h).1 hcomma
  | cons e es ihes =>
      cases es' with
      | nil => exact absurd (List.cons.inj h).1.symm hcomma
      | cons e' es' =>
          simp only [moreTokens, List.cons_append, List.append_assoc, List.length_cons,
            List.length_append, List.cons.injEq, true_and] at h hn
          obtain ⟨rfl, hmore⟩ := (ih e (by omega)).whole hs.1 hs'.1 (ended_more hclose es rest)
            (ended_more hclose es' rest') h
          obtain ⟨rfl, hrest⟩ := ihes (by omega) hs.2 hs'.2 hmore
          exact ⟨rfl, hrest⟩

theorem listTokens_unique {es es' : List Phrase} {close : Token} {rest rest' : List Token}
    (hclose : close = .closeParen ∨ close = .closeBracket) (hn : (listTokens es).length < n)
    (hs : AllStratified es) (hs' : AllStratified es')
    (h : listTokens es ++ close :: rest = listTokens es' ++ close :: rest') :
    es = es' ∧ rest = rest' := by
  have hopens : ∀ (e : Phrase) (ts us : List Token), close :: us ≠ e.tokens ++ ts := by
    intro e ts us heq
    obtain ⟨t, ts', htokens, -, hparen, hbracket⟩ := e.tokens_eq_cons
    rw [htokens, List.cons_append] at heq
    obtain rfl | rfl := hclose
    · exact hparen (List.cons.inj heq).1.symm
    · exact hbracket (List.cons.inj heq).1.symm
  cases es with
  | nil =>
      cases es' with
      | nil => simpa [listTokens] using h
      | cons e' es' =>
          rw [listTokens, listTokens, List.nil_append, List.append_assoc] at h
          exact absurd h (hopens e' _ _)
  | cons e es =>
      rw [listTokens, List.length_append] at hn
      cases es' with
      | nil =>
          rw [listTokens, listTokens, List.nil_append, List.append_assoc] at h
          exact absurd h.symm (hopens e _ _)
      | cons e' es' =>
          rw [listTokens, listTokens, List.append_assoc, List.append_assoc] at h
          obtain ⟨rfl, hmore⟩ := (ih e (by omega)).whole hs.1 hs'.1 (ended_more hclose es rest)
            (ended_more hclose es' rest') h
          obtain ⟨rfl, hrest⟩ := moreTokens_unique ih hclose (by omega) hs.2 hs'.2 hmore
          exact ⟨rfl, hrest⟩

theorem suffixes_unique {rest rest' : List Token} (hr : Apart rest) (hr' : Apart rest') :
    ∀ {s s' : Suffixes}, s.tokens.length < n → s.Stratified → s'.Stratified →
      s.tokens ++ rest = s'.tokens ++ rest' → s = s' ∧ rest = rest'
  | .none, .none, _, _, _, h => ⟨rfl, h⟩
  | .none, .index _ _, _, _, _, h | .none, .range _ _ _, _, _, _, h =>
      absurd rfl (hr _ (by rw [show rest = _ from h]; rfl)).2
  | .index _ _, .none, _, _, _, h | .range _ _ _, .none, _, _, _, h =>
      absurd rfl (hr' _ (by rw [show rest' = _ from h.symm]; rfl)).2
  | .index i more, .index i' more', hn, hs, hs', h => by
      simp only [Suffixes.tokens, List.cons_append, List.append_assoc, List.length_cons,
        List.length_append, List.cons.injEq, true_and] at h hn
      obtain ⟨rfl, hmore⟩ := (ih i (by omega)).whole hs.1 hs'.1 (ended_cons (by decide) _)
        (ended_cons (by decide) _) h
      obtain ⟨rfl, hrest⟩ := suffixes_unique hr hr' (by omega) hs.2 hs'.2 (List.cons.inj hmore).2
      exact ⟨rfl, hrest⟩
  | .index i more, .range i' j' more', hn, hs, hs', h => by
      simp only [Suffixes.tokens, List.cons_append, List.append_assoc, List.length_cons,
        List.length_append, List.cons.injEq, true_and] at h hn
      obtain ⟨-, hmore⟩ := (ih i (by omega)).whole hs.1 hs'.1 (ended_cons (by decide) _)
        (ended_cons (by decide) _) h
      cases (List.cons.inj hmore).1
  | .range i j more, .index i' more', hn, hs, hs', h => by
      simp only [Suffixes.tokens, List.cons_append, List.append_assoc, List.length_cons,
        List.length_append, List.cons.injEq, true_and] at h hn
      obtain ⟨-, hmore⟩ := (ih i (by omega)).whole hs.1 hs'.1 (ended_cons (by decide) _)
        (ended_cons (by decide) _) h
      cases (List.cons.inj hmore).1
  | .range i j more, .range i' j' more', hn, hs, hs', h => by
      simp only [Suffixes.tokens, List.cons_append, List.append_assoc, List.length_cons,
        List.length_append, List.cons.injEq, true_and] at h hn
      obtain ⟨rfl, hj⟩ := (ih i (by omega)).whole hs.1 hs'.1 (ended_cons (by decide) _)
        (ended_cons (by decide) _) h
      obtain ⟨rfl, hmore⟩ := (ih j (by omega)).whole hs.2.1 hs'.2.1 (ended_cons (by decide) _)
        (ended_cons (by decide) _) (List.cons.inj hj).2
      obtain ⟨rfl, hrest⟩ :=
        suffixes_unique hr hr' (by omega) hs.2.2 hs'.2.2 (List.cons.inj hmore).2
      exact ⟨rfl, hrest⟩

theorem operand_unique {e : Phrase} (hn : e.tokens.length ≤ n) : e.DeterminedOperand := by
  -- The first token says of which kind the operand is, except that a word may be of four kinds
  -- and that a name is a call when a parenthesis follows it.
  intro e' rest rest' he he' hs hs' hr hr' h
  cases e with
  | numeral m =>
      cases e' with
      | numeral m' =>
          obtain ⟨htext, hrest⟩ := List.cons.inj h
          exact ⟨by rw [Numeral.ext_text (Token.numeral.inj htext)], hrest⟩
      | binary _ _ _ => exact absurd trivial he'
      | _ => cases (List.cons.inj h).1
  | quoted q =>
      cases e' with
      | quoted q' =>
          obtain ⟨hraw, hrest⟩ := List.cons.inj h
          exact ⟨by rw [Quoted.ext_raw (Token.quoted.inj hraw)], hrest⟩
      | binary _ _ _ => exact absurd trivial he'
      | _ => cases (List.cons.inj h).1
  | constant w =>
      cases e' with
      | constant w' =>
          obtain ⟨hbytes, hrest⟩ := List.cons.inj h
          exact ⟨by rw [Constant.ext_bytes (Token.word.inj hbytes)], hrest⟩
      | «variable» x s | call x args =>
          exact absurd (Token.word.inj (List.cons.inj h).1.symm) (x.bytes_ne_constant w)
      | builtin f args =>
          exact absurd (Token.word.inj (List.cons.inj h).1) (w.bytes_ne_function f)
      | binary _ _ _ => exact absurd trivial he'
      | _ => cases (List.cons.inj h).1
  | «variable» x s =>
      cases e' with
      | «variable» x' s' =>
          obtain ⟨hbytes, hsuffixes⟩ := List.cons.inj h
          obtain ⟨rfl, hrest⟩ := suffixes_unique ih hr hr' hn hs hs' hsuffixes
          exact ⟨by rw [Name.ext_bytes (Token.word.inj hbytes)], hrest⟩
      | call x' args => exact absurd (List.cons.inj h).2 (suffixes_ne_call hr)
      | constant w =>
          exact absurd (Token.word.inj (List.cons.inj h).1) (x.bytes_ne_constant w)
      | builtin f args =>
          exact absurd (Token.word.inj (List.cons.inj h).1) (x.bytes_ne_function f)
      | binary _ _ _ => exact absurd trivial he'
      | _ => cases (List.cons.inj h).1
  | call x args =>
      cases e' with
      | call x' args' =>
          simp only [tokens, List.cons_append, List.append_assoc, List.length_cons,
            List.length_append, List.cons.injEq, true_and, List.nil_append] at h hn
          obtain ⟨hbytes, hargs⟩ := h
          obtain ⟨rfl, hrest⟩ :=
            listTokens_unique ih (.inl rfl) (by omega) hs.2 hs'.2 hargs
          exact ⟨by rw [Name.ext_bytes (Token.word.inj hbytes)], hrest⟩
      | «variable» x' s' => exact absurd (List.cons.inj h).2.symm (suffixes_ne_call hr')
      | constant w =>
          exact absurd (Token.word.inj (List.cons.inj h).1) (x.bytes_ne_constant w)
      | builtin f args =>
          exact absurd (Token.word.inj (List.cons.inj h).1) (x.bytes_ne_function f)
      | binary _ _ _ => exact absurd trivial he'
      | _ => cases (List.cons.inj h).1
  | builtin f args =>
      cases e' with
      | builtin f' args' =>
          simp only [tokens, List.cons_append, List.append_assoc, List.length_cons,
            List.length_append, List.cons.injEq, true_and, List.nil_append] at h hn
          obtain ⟨hbytes, hargs⟩ := h
          obtain ⟨rfl, hrest⟩ :=
            listTokens_unique ih (.inl rfl) (by omega) hs.2 hs'.2 hargs
          exact ⟨by rw [Function.ext_bytes (Token.word.inj hbytes)], hrest⟩
      | «variable» x s | call x args =>
          exact absurd (Token.word.inj (List.cons.inj h).1.symm) (x.bytes_ne_function f)
      | constant w =>
          exact absurd (Token.word.inj (List.cons.inj h).1.symm) (w.bytes_ne_function f)
      | binary _ _ _ => exact absurd trivial he'
      | _ => cases (List.cons.inj h).1
  | group e =>
      cases e' with
      | group e' =>
          simp only [tokens, List.cons_append, List.append_assoc, List.length_cons,
            List.length_append, List.cons.injEq, true_and, List.nil_append] at h hn
          have hinner : e'.Stratified := hs'
          obtain ⟨rfl, hrest⟩ := (ih e (by omega)).whole hs hinner (ended_cons (by decide) _)
            (ended_cons (by decide) _) h
          exact ⟨rfl, (List.cons.inj hrest).2⟩
      | array elems => exact absurd (List.cons.inj h).1 (by decide)
      | binary _ _ _ => exact absurd trivial he'
      | _ => cases (List.cons.inj h).1
  | array elems =>
      cases e' with
      | array elems' =>
          simp only [tokens, List.cons_append, List.append_assoc, List.length_cons,
            List.length_append, List.cons.injEq, true_and, List.nil_append] at h hn
          obtain ⟨rfl, hrest⟩ := listTokens_unique ih (.inr rfl) (by omega) hs hs' h
          exact ⟨rfl, hrest⟩
      | group e' => exact absurd (List.cons.inj h).1 (by decide)
      | binary _ _ _ => exact absurd trivial he'
      | _ => cases (List.cons.inj h).1
  | unary o e =>
      cases e' with
      | unary o' e' =>
          obtain ⟨htext, hmore⟩ := List.cons.inj h
          obtain rfl := Sign.ext_text (Token.unary.inj htext)
          have hlevel : 11 ≤ e.level ∧ 11 ≤ e'.level := by
            rw [← o.prec_of_unary.2]
            exact ⟨hs.1, hs'.1⟩
          obtain ⟨rfl, hrest⟩ := (ih e hn).operand (not_binary_of_eleven_le hlevel.1)
            (not_binary_of_eleven_le hlevel.2) hs.2 hs'.2 hr hr' hmore
          exact ⟨rfl, hrest⟩
      | binary _ _ _ => exact absurd trivial he'
      | _ => cases (List.cons.inj h).1
  | binary _ _ _ => exact absurd trivial he

end

/-- The operands of a chain come out one after the other. -/
theorem chain_unique {f f' : Phrase} {l l' : List (Sign Operator.binary × Phrase)}
    {rest rest' : List Token} (hr : Ended rest) (hr' : Ended rest')
    (hf : ¬ f.IsBinary ∧ f.Stratified) (hf' : ¬ f'.IsBinary ∧ f'.Stratified)
    (hl : ∀ p ∈ l, ¬ p.2.IsBinary ∧ p.2.Stratified)
    (hl' : ∀ p ∈ l', ¬ p.2.IsBinary ∧ p.2.Stratified)
    (hd : f.DeterminedOperand) (hds : ∀ p ∈ l, p.2.DeterminedOperand)
    (h : f.tokens ++ (othersTokens l ++ rest) = f'.tokens ++ (othersTokens l' ++ rest')) :
    f = f' ∧ l = l' ∧ rest = rest' := by
  have happart : ∀ {l : List (Sign Operator.binary × Phrase)} {rest : List Token}, Ended rest →
      Apart (othersTokens l ++ rest) := by
    intro l rest hr
    cases l with
    | nil => exact hr.apart
    | cons p l =>
        rintro _ ⟨⟩
        exact ⟨nofun, nofun⟩
  induction l generalizing f f' l' with
  | nil =>
      obtain ⟨rfl, hmore⟩ := hd hf.1 hf'.1 hf.2 hf'.2 (happart hr) (happart hr') h
      cases l' with
      | nil => exact ⟨rfl, rfl, hmore⟩
      | cons p' l' =>
          have := hr (.binary p'.1.text) (by rw [show rest = _ from hmore]; rfl)
          simp [Token.closeParen, Token.closeBracket, Token.comma, Token.colon] at this
  | cons p l ihl =>
      obtain ⟨rfl, hmore⟩ := hd hf.1 hf'.1 hf.2 hf'.2 (happart hr) (happart hr') h
      cases l' with
      | nil =>
          have := hr' (.binary p.1.text) (by rw [show rest' = _ from hmore.symm]; rfl)
          simp [Token.closeParen, Token.closeBracket, Token.comma, Token.colon] at this
      | cons p' l' =>
          obtain ⟨o, g⟩ := p
          obtain ⟨o', g'⟩ := p'
          simp only [othersTokens, List.flatMap_cons, List.cons_append, List.append_assoc,
            List.cons.injEq, Token.binary.injEq] at hmore
          obtain ⟨htext, hmore⟩ := hmore
          obtain rfl := Sign.ext_text htext
          obtain ⟨rfl, rfl, hrest⟩ := ihl (hl _ List.mem_cons_self) (hl' _ List.mem_cons_self)
            (fun p hp => hl p (List.mem_cons_of_mem _ hp))
            (fun p hp => hl' p (List.mem_cons_of_mem _ hp)) (hds _ List.mem_cons_self)
            (fun p hp => hds p (List.mem_cons_of_mem _ hp)) hmore
          exact ⟨rfl, rfl, hrest⟩

/-- An operand of a chain is no longer than the chain, and shorter if there are others. -/
theorem length_others (l : List (Sign Operator.binary × Phrase)) :
    ∀ p ∈ l, p.2.tokens.length < (othersTokens l).length := by
  induction l with
  | nil => nofun
  | cons p l ih =>
      intro q hq
      simp only [othersTokens, List.flatMap_cons, List.length_append, List.length_cons]
      obtain rfl | hq := List.mem_cons.1 hq
      · omega
      · have := ih q hq
        simp only [othersTokens] at this
        omega

theorem determined (e : Phrase) : e.Determined := by
  induction hn : e.tokens.length using Nat.strongRecOn generalizing e with
  | ind n ih =>
      have ih' : ∀ u : Phrase, u.tokens.length < n → u.Determined := fun u hu => ih _ hu u rfl
      refine ⟨?_, operand_unique ih' (Nat.le_of_eq hn)⟩
      intro e' rest rest' hs hs' hr hr' h
      have hlength := congrArg List.length e.tokens_chain
      rw [List.length_append, hn] at hlength
      rw [e.tokens_chain, e'.tokens_chain, List.append_assoc, List.append_assoc] at h
      obtain ⟨hf, hl⟩ := operands_of_stratified hs
      obtain ⟨hf', hl'⟩ := operands_of_stratified hs'
      obtain ⟨hfirst, hothers, hrest⟩ := chain_unique hr hr' hf hf' hl hl'
        (operand_unique ih' (by omega))
        (fun p hp => operand_unique ih' (by have := length_others e.others p hp; omega)) h
      exact ⟨eq_of_chain hs hs' hfirst hothers, hrest⟩

/-- A text renders at most one phrase. -/
theorem eq_of_renders {e e' : Phrase} {bs : List UInt8} (hs : e.Stratified) (hs' : e'.Stratified)
    (h : Renders e.tokens bs) (h' : Renders e'.tokens bs) : e = e' := by
  have htokens : e.tokens = e'.tokens := h.unique h' e.alternate_tokens e'.alternate_tokens
  have hended : Ended [] := nofun
  exact (e.determined.whole hs hs' hended hended (by rw [htokens])).1

end Phrase

end CellScript
