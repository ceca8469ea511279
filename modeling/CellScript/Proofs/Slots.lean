import CellScript.Proofs.Resolution
import CellScript.Proofs.Scripts

/-!
The code of a text, clause by clause.

A clause has its own code, and the code of a text is that of its clauses one after the
other. What a name in it stands for is a matter of names alone: in a body, of the
parameters and of the names that statements of the body give values. The slots go to
them in the order in which they are written first, and a statement counts as local what
the statements before it have given values. No other body plays a part, although they
all keep their slots in the same records.
-/

namespace CellScript

/-! ### Specification -/

/-- The code of a clause, in which distances of jumps are left open. What is given a value is a
local whenever it has a slot. -/
inductive Clause.Compiles (st : Store) (slots met : List (List UInt8)) : Clause → Code → Prop
  | assign {x : Clause.Name} {e : Phrase} {p : Place} {code : Code} :
      e.Compiles st slots met code → p.IsFor st slots slots x.bytes →
      Clause.Compiles st slots met (.assign x e) (code ++ [p.store])
  | perform {x : Clause.Name} {args : List Phrase} {id : Ident} {code : Code} :
      st.find? x.bytes = some id → Phrase.AllCompile st slots met args code →
      Clause.Compiles st slots met (.perform x args)
        (code ++ [⟨.callProc, UInt8.ofNat args.length, id.offset⟩])
  | print {args : List Phrase} {code : Code} : Phrase.AllCompile st slots met args code →
      Clause.Compiles st slots met (.print args)
        (code ++ [.withByte .print (UInt8.ofNat args.length)])
  | input {x : Clause.Name} {xs : List Clause.Name} {ps : List Place} :
      List.Forall₂ (fun y p => Place.IsFor st slots slots y.bytes p) (x :: xs) ps →
      Clause.Compiles st slots met (.input x xs) (ps.flatMap fun p => [.plain .input, p.store])
  | halt : Clause.Compiles st slots met .halt [.plain .stop]
  | openIf {e : Phrase} {code : Code} {w : UInt16} : e.Compiles st slots met code →
      Clause.Compiles st slots met (.openIf e) (code ++ [.withWord .jfalse w])
  | openElse {w : UInt16} : Clause.Compiles st slots met .openElse [.withWord .jump w]
  | closeIf : Clause.Compiles st slots met .closeIf []
  | openWhile {e : Phrase} {code : Code} {w : UInt16} : e.Compiles st slots met code →
      Clause.Compiles st slots met (.openWhile e) (code ++ [.withWord .jfalse w])
  | closeWhile {w : UInt16} : Clause.Compiles st slots met .closeWhile [.withWord .jump w]
  | openRepeat : Clause.Compiles st slots met .openRepeat []
  | closeRepeat {e : Phrase} {code : Code} {w : UInt16} : e.Compiles st slots met code →
      Clause.Compiles st slots met (.closeRepeat e) (code ++ [.withWord .jfalse w])
  | exitLoop {w : UInt16} : Clause.Compiles st slots met .exitLoop [.withWord .jump w]
  | giveBack {e : Phrase} {code : Code} : e.Compiles st slots met code →
      Clause.Compiles st slots met (.giveBack (some e)) (code ++ [.plain .returnFunc])
  | giveBackNothing : Clause.Compiles st slots met (.giveBack none) [.plain .returnProc]

/-- Clauses one after the other. Behind each, the names that it gives values have been met. -/
inductive Clause.Sequence (st : Store) (slots : List (List UInt8)) :
    List (List UInt8) → List Clause → Code → Prop
  | nil {met : List (List UInt8)} : Clause.Sequence st slots met [] []
  | cons {met : List (List UInt8)} {c : Clause} {cs : List Clause} {code code' : Code} :
      c.Compiles st slots met code → Clause.Sequence st slots (met ++ c.stores) cs code' →
      Clause.Sequence st slots met (c :: cs) (code ++ code')

/-- The names that the slots of a body are for: its parameters, then the names that its
statements give values, each where it is written first. -/
def Clause.slotNames (params : List Clause.Name) (inner : List Clause) : List (List UInt8) :=
  (params.map Name.bytes ++ inner.flatMap stores).eraseDups

/-- The code of a program. Outside of bodies there are no slots. The record of a body says how
many it has, and the code of a body stands behind a jump. -/
inductive Clause.Program (st : Store) : List Clause → Code → Prop
  | nil : Clause.Program st [] []
  | statements {cs rest : List Clause} {code code' : Code} :
      Clause.Sequence st [] [] cs code → Clause.Program st rest code' →
      Clause.Program st (cs ++ rest) (code ++ code')
  | body {isFunc : Bool} {x : Clause.Name} {params : List Clause.Name} {inner rest : List Clause}
      {id : Ident} {w : UInt16} {code code' : Code} :
      st.find? x.bytes = some id →
      (st.heap.identSlot id).toNat = (slotNames params inner).length →
      Clause.Sequence st (slotNames params inner) (params.map Name.bytes) inner code →
      Clause.Program st rest code' →
      Clause.Program st (.openBody isFunc x params :: inner ++ .closeBody :: rest)
        (.withWord .jump w :: code ++ Stmt.bodyEnd isFunc :: code')

namespace Clause

variable {st : Store} {slots met : List (List UInt8)} {cs ds : List Clause} {code code' : Code}

theorem Sequence.single {c : Clause} (h : c.Compiles st slots met code) :
    Sequence st slots met [c] code := by
  simpa using Sequence.cons h .nil

theorem Sequence.append (h : Sequence st slots met cs code)
    (h' : Sequence st slots (met ++ cs.flatMap stores) ds code') :
    Sequence st slots met (cs ++ ds) (code ++ code') := by
  induction h with
  | nil => simpa using h'
  | cons hc _ ih =>
      rw [List.cons_append, List.append_assoc]
      refine .cons hc (ih ?_)
      simpa using h'

theorem Program.append (h : Program st cs code) (h' : Program st ds code') :
    Program st (cs ++ ds) (code ++ code') := by
  induction h with
  | nil => exact h'
  | statements hs _ ih =>
      rw [List.append_assoc, List.append_assoc]
      exact .statements hs ih
  | body hfind hcount hs _ ih =>
      simp only [List.cons_append, List.append_assoc] at ih ⊢
      exact .body hfind hcount hs ih

theorem script_append (cs ds : List Clause) : script (cs ++ ds) = script cs ++ script ds := by
  induction cs with
  | nil => rfl
  | cons c cs ih => simp [script, ih]

end Clause

theorem Instr.exists_jump (op : Opcode) (a : Nat) (target : Option Nat) :
    ∃ w, jump op a target = withWord op w := by
  cases target <;> exact ⟨_, rfl⟩

/-! ### Words -/

namespace Keyword

/-- There is one word for each meaning. -/
theorem eq_of_lookup? {word word' : List UInt8} {k : Keyword} (h : lookup? word = some k)
    (h' : lookup? word' = some k) : word = word' := by
  obtain ⟨r, hr, rfl, hk⟩ := lookup?_eq_some_iff.1 h
  obtain ⟨r', hr', rfl, rfl⟩ := lookup?_eq_some_iff.1 h'
  have hrows : ∀ r ∈ rows, ∀ r' ∈ rows, r.keyword = r'.keyword →
      Ascii.bytes r.spelling = Ascii.bytes r'.spelling := by decide
  exact hrows r hr r' hr' hk

end Keyword

/-! ### What is known, when records are written -/

theorem Store.Table.setIdentSlot {s : Store} {es : List Binding} {e : Binding} (ht : s.Table es)
    (he : e ∈ es) (b : UInt8) :
    ({ s with heap := s.heap.setIdentSlot e.id b } : Store).Table es :=
  ht.field he (Heap.sameOutside_setIdentSlot _ _ b) (Nat.add_le_add_left (by decide) _)
    (Nat.add_le_add_left (by decide) _)

namespace Front

variable {f f' : Front} {rs : List Record} {ds : List (Definition × Nat)} {a n : Nat}
  {es : List Binding} {b : Bool} {met : List (List UInt8)} {x : List UInt8} {id : Ident}
  {body : Body}

/-- A name becomes the next local. -/
theorem Knows.addLocal (k : f.Knows rs ds a n es b met) (he : ⟨x, id⟩ ∈ es)
    (hd : Grammar.Declared f id f') (hb : f.body = some body)
    (hnew : body.locals.contains id = false) : f'.Knows rs ds a n es b (met ++ [x]) ∧
      (met ++ [x]).eraseDups[body.locals.length]? = some x := by
  -- It has not been met, so it takes the place behind the others.
  have hx : x ∉ met := fun hx => by
    rw [List.contains_eq_mem, decide_eq_false_iff_not] at hnew
    exact hnew ((k.mem_locals he hb).2 hx)
  obtain ⟨-, hok, hbody⟩ := hd.ok hb hnew k.ok (k.records _ he)
  obtain ⟨hb', -, -⟩ := hd
  obtain rfl := Option.some.inj (hb'.symm.trans hb)
  obtain ⟨y, hy⟩ := k.opened _ hb
  obtain ⟨ls, hls, hids, hnames⟩ := k.locals _ hb
  refine ⟨⟨hok, (k.table.setIdentSlot he _).setIdentSlot hy _, k.records, ?_, ?_, ?_⟩, ?_⟩
  · rw [hbody, ← k.isSome, hb]
    rfl
  · intro body' hbody'
    cases hbody.symm.trans hbody'
    exact ⟨y, hy⟩
  · intro body' hbody'
    cases hbody.symm.trans hbody'
    refine ⟨ls ++ [⟨x, id⟩], ?_, ?_, ?_⟩
    · intro e hmem
      obtain hmem | hmem := List.mem_append.1 hmem
      · exact hls e hmem
      · rw [List.mem_singleton.1 hmem]
        exact he
    · simp [hids]
    · rw [List.eraseDups_snoc, if_neg hx, List.map_append, hnames]
      rfl
  · rw [List.eraseDups_snoc, if_neg hx, ← hnames, ← hids]
    simp

/-- A name is given a value, or a line that is read. -/
theorem Knows.target (k : f.Knows rs ds a n es b met) (he : ⟨x, id⟩ ∈ es) {p : Place}
    (h : Grammar.Target f id p f') : f'.Knows rs ds a n es b (met ++ [x]) ∧
      ∀ st slots, Store.Finds st es → Fits b (met ++ [x]) slots → p.IsFor st slots slots x := by
  cases h with
  | global hb _ =>
      have hnone : b = false := by rw [← k.isSome, hb]; rfl
      refine ⟨⟨k.ok, k.table, k.records, k.isSome, k.opened, fun body hb' => ?_⟩,
        fun st slots hst hfits => ?_⟩
      · cases hb.symm.trans hb'
      · obtain rfl : slots = [] := by simpa [Fits, hnone] using hfits
        exact .global (by simp) (hst.find? he)
  | @old body _ hb hm =>
      have hx : x ∈ met := (k.mem_locals he hb).1 (by simpa using hm)
      refine ⟨⟨k.ok, k.table, k.records, k.isSome, k.opened, fun body hb' => ?_⟩,
        fun st slots hst hfits => ?_⟩
      · rw [List.eraseDups_snoc, if_pos hx]
        exact k.locals body hb'
      · have hfor := k.isFor he hst hfits.of_append
        simp only [Place.ofName, hb, hm, if_true] at hfor
        cases hfor with
        | slot _ hget => exact .slot (List.mem_of_getElem? hget) hget
  | @new _ body _ hb hnew hd =>
      obtain ⟨hk, hget⟩ := k.addLocal he hd hb hnew
      refine ⟨hk, fun st slots hst hfits => ?_⟩
      have htrue : b = true := by rw [← k.isSome, hb]; rfl
      obtain ⟨more, rfl⟩ : (met ++ [x]).eraseDups <+: slots := by simpa [Fits, htrue] using hfits
      have hslot : (UInt8.ofNat body.locals.length).toNat = body.locals.length := by
        obtain ⟨hb', -, hlen⟩ := hd
        obtain rfl := Option.some.inj (hb'.symm.trans hb)
        have := k.ok.maxSlots
        rw [UInt8.toNat_ofNat']
        omega
      have hfound : ((met ++ [x]).eraseDups ++ more)[body.locals.length]? = some x := by
        rw [List.getElem?_append_left (List.getElem?_eq_some_iff.1 hget).1, hget]
      exact .slot (List.mem_of_getElem? hfound) (by rwa [hslot])

end Front

/-! ### Words, expressions and lists -/

namespace Grammar

variable {f f' : Front} {e : Expr}

theorem Mark.stands {b : UInt8} (h : Mark b f f') : (Token.symbol b).Stands f.cursor f'.cursor := by
  obtain ⟨hc⟩ := h
  exact Cursor.symbol_iff.1 hc

theorem Mark.tells {b : UInt8} (h : Mark b f f') : f.Tells f' [] fun _ _ _ => True := by
  obtain ⟨hc⟩ := h
  exact Front.tells_quiet rfl rfl rfl

theorem NoMark.tells {b : UInt8} (h : NoMark b f f') : f.Tells f' [] fun _ _ _ => True := by
  obtain ⟨hc⟩ := h
  exact Front.tells_quiet rfl rfl rfl

theorem Reserved.tells {k : Keyword} (h : Reserved k f f') : f.Tells f' [] fun _ _ _ => True := by
  obtain ⟨hw, -⟩ := h
  exact Front.tells_quiet rfl rfl rfl

/-- A reserved word is the one with which a clause of its kind begins. -/
theorem Reserved.stands {k : Keyword} (h : Reserved k f f') {c : Clause}
    (hc : c.keyword? = some k) : (Token.word c.word).Stands f.cursor f'.cursor := by
  obtain ⟨hw, hk⟩ := h
  rw [Keyword.eq_of_lookup? (c.lookup?_word.trans hc) hk]
  exact (Cursor.word_iff.1 hw).1

/-- A name is a word that has a record then. -/
theorem Name.knows {id : Ident} (h : Name f id f') :
    ∃ x : Clause.Name, (Token.word x.bytes).Stands f.cursor f'.cursor ∧
      ∀ ⦃rs ds a n es b met⦄, f.Knows rs ds a n es b met → ∃ rs' es',
        f'.Knows rs' ds a n es' b met ∧ (∀ e ∈ es, e ∈ es') ∧ ⟨x.bytes, id⟩ ∈ es' := by
  obtain ⟨hw, hk, hi⟩ := h
  obtain ⟨hstands, hword, -⟩ := Cursor.word_iff.1 hw
  refine ⟨⟨_, hword, hk⟩, hstands, fun rs ds a n es b met k => ?_⟩
  obtain ⟨rs', es', k', hes, he⟩ := k.intern hi
  exact ⟨rs', es', k'.congr rfl rfl rfl, hes, he⟩

/-- The name of a body that is called. -/
theorem Name.tells {id : Ident} (h : Name f id f') :
    ∃ x : Clause.Name, (Token.word x.bytes).Stands f.cursor f'.cursor ∧
      f.Tells f' [] fun st _ _ => st.find? x.bytes = some id := by
  obtain ⟨x, hstands, hknows⟩ := h.knows
  refine ⟨x, hstands, fun rs ds a n es b met k => ?_⟩
  obtain ⟨rs', es', k', hes, he⟩ := hknows k
  rw [List.append_nil]
  exact ⟨rs', es', k', hes, fun st slots hst _ => hst.find? he⟩

theorem Target.cursor_eq {id : Ident} {p : Place} (h : Target f id p f') :
    f'.cursor = f.cursor := by
  rcases h with _ | _ | ⟨_, _, ⟨_, _, _⟩⟩ <;> rfl

/-- A name, and the place where its value goes behind what comes between. -/
theorem Name.target {id : Ident} {p : Place} {g g' : Front} (h : Name f id g)
    {C : Store → List (List UInt8) → List (List UInt8) → Prop} (hbetween : g.Tells g' [] C)
    (ht : Target g' id p f') :
    ∃ x : Clause.Name, (Token.word x.bytes).Stands f.cursor g.cursor ∧
      f.Tells f' [x.bytes] fun st slots met =>
        C st slots met ∧ p.IsFor st slots slots x.bytes := by
  obtain ⟨x, hstands, hknows⟩ := h.knows
  refine ⟨x, hstands, fun rs ds a n es b met k => ?_⟩
  obtain ⟨rs₁, es₁, k₁, hes₁, he⟩ := hknows k
  obtain ⟨rs₂, es₂, k₂, hes₂, hc⟩ := hbetween k₁
  rw [List.append_nil] at k₂ hc
  obtain ⟨k₃, hfor⟩ := k₂.target (hes₂ _ he) ht
  exact ⟨rs₂, es₂, k₃, fun e he => hes₂ e (hes₁ e he), fun st slots hst hfits =>
    ⟨hc st slots hst hfits.of_append, hfor st slots hst hfits⟩⟩

theorem Expression.tells (h : Expression f e f') :
    ∃ t : Phrase, t.Stratified ∧ Spans t.tokens f.cursor f'.cursor ∧
      f.Tells f' [] fun st slots met => t.Compiles st slots met e.code := by
  obtain ⟨t, hs, hp, hr, -⟩ := h.phrase
  have hquiet : (f.withStore f'.store).Tells f' [] fun _ _ _ => True :=
    Front.tells_quiet rfl hp.body hp.maxSlots
  exact ⟨t, hs, hp.spans, ((Phrase.tells hr).andThen hquiet).imp fun _ _ _ hc => hc.1⟩

theorem Arguments.tells {es : List Expr} (h : Arguments f e es f') :
    ∃ (t : Phrase) (ts : List Phrase), Phrase.AllStratified (t :: ts) ∧ ts.length = es.length ∧
      Spans (Phrase.listTokens (t :: ts)) f.cursor f'.cursor ∧
      f.Tells f' [] fun st slots met =>
        Phrase.AllCompile st slots met (t :: ts) (Expr.codeAll (e :: es)) := by
  induction h with
  | last h₁ h₂ =>
      obtain ⟨t, hs, hspans, htells⟩ := h₁.tells
      refine ⟨t, [], ⟨hs, trivial⟩, rfl, ?_, (htells.andThen h₂.tells).imp fun _ _ _ hc =>
        .cons hc.1 .nil⟩
      exact Spans.append.2 ⟨_, hspans, h₂.passes.1.spans⟩
  | more h₁ h₂ _ ih =>
      obtain ⟨t, hs, hspans, htells⟩ := h₁.tells
      obtain ⟨u, us, hsu, hlen, hspans', htells'⟩ := ih
      refine ⟨t, u :: us, ⟨hs, hsu⟩, by simp [hlen], ?_,
        (htells.andThen (h₂.tells.andThen htells')).imp fun _ _ _ hc => .cons hc.1 hc.2.2⟩
      exact Spans.append.2 ⟨_, hspans, _, h₂.stands, hspans'⟩

theorem Operands.tells {es : List Expr} (h : Operands f es f') :
    ∃ ts : List Phrase, Phrase.AllStratified ts ∧ ts.length = es.length ∧
      Spans (Phrase.listTokens ts) f.cursor f'.cursor ∧
      f.Tells f' [] fun st slots met => Phrase.AllCompile st slots met ts (Expr.codeAll es) := by
  cases h with
  | @none c hc =>
      have hskip : c = f.cursor.skipBlank := (congrArg Prod.snd hc).symm
      have hquiet : f.Tells (f.goto c) [] fun _ _ _ => True := Front.tells_quiet rfl rfl rfl
      refine ⟨[], trivial, rfl, ?_, hquiet.imp fun _ _ _ _ => .nil⟩
      rw [Front.cursor_goto, hskip]
      exact Cursor.skipBlank_idem _
  | @some _ c e es hc h =>
      obtain ⟨t, ts, hs, hlen, hspans, htells⟩ := h.tells
      have hskip : c = f.cursor.skipBlank := (congrArg Prod.snd hc).symm
      have hquiet : f.Tells (f.goto c) [] fun _ _ _ => True := Front.tells_quiet rfl rfl rfl
      refine ⟨t :: ts, hs, by simp [hlen], ?_, (hquiet.andThen htells).imp fun _ _ _ hc => hc.2⟩
      rwa [Front.cursor_goto, hskip, Spans.skipBlank_left] at hspans

/-- A list of names that are given values. -/
theorem Inputs.tells {ps : List Place} (h : Inputs f ps f') :
    ∃ (x : Clause.Name) (xs : List Clause.Name),
      Spans (Clause.nameTokens x xs) f.cursor f'.cursor ∧
      f.Tells f' ((x :: xs).map Clause.Name.bytes) fun st slots _ =>
        List.Forall₂ (fun y p => Place.IsFor st slots slots y.bytes p) (x :: xs) ps := by
  induction h with
  | @last f f₁ f₂ f₃ id p h₁ h₂ h₃ =>
      have hquiet : f₁.Tells f₁ [] fun _ _ _ => True := Front.tells_quiet rfl rfl rfl
      obtain ⟨x, hstands, htells⟩ := h₁.target hquiet h₂
      refine ⟨x, [], ⟨_, hstands, ?_⟩, (htells.trans h₃.tells).imp fun _ _ _ hc =>
        .cons hc.1.2 .nil⟩
      rw [← h₂.cursor_eq]
      exact h₃.passes.1.spans
  | @more f f₁ f₂ f₃ f₄ id p ps h₁ h₂ h₃ _ ih =>
      have hquiet : f₁.Tells f₁ [] fun _ _ _ => True := Front.tells_quiet rfl rfl rfl
      obtain ⟨x, hstands, htells⟩ := h₁.target hquiet h₂
      obtain ⟨y, ys, hspans, htells'⟩ := ih
      refine ⟨x, y :: ys, ⟨_, hstands, _, ?_, hspans⟩,
        (htells.trans (h₃.tells.andThen htells')).imp fun _ _ _ hc => .cons hc.1.2 hc.2.2⟩
      rw [← h₂.cursor_eq]
      exact h₃.stands

end Grammar

/-! ### Statements -/

/-- Clauses stand between two places, and have code of this kind. -/
structure Clause.Reads (f f' : Front) (cs : List Clause) (K : Code → Prop) : Prop where
  spans : Spans (script cs) f.cursor f'.cursor
  stratified : ∀ c ∈ cs, Phrase.AllStratified c.phrases
  tells : f.Tells f' (cs.flatMap stores) fun st slots met =>
    ∀ code, K code → Sequence st slots met cs code

namespace Clause

variable {f f' g : Front} {cs ds : List Clause} {K L M : Code → Prop} {c : Clause} {code : Code}

theorem Reads.append (h : Reads f g cs K) (h' : Reads g f' ds L)
    (hM : ∀ code, M code → ∃ code₁ code₂, code = code₁ ++ code₂ ∧ K code₁ ∧ L code₂) :
    Reads f f' (cs ++ ds) M where
  spans := by
    rw [script_append]
    exact Spans.append.2 ⟨_, h.spans, h'.spans⟩
  stratified := List.forall_mem_append.2 ⟨h.stratified, h'.stratified⟩
  tells := by
    rw [List.flatMap_append]
    refine (h.tells.trans h'.tells).imp fun st slots met hc code hcode => ?_
    obtain ⟨code₁, code₂, rfl, h₁, h₂⟩ := hM code hcode
    exact (hc.1 _ h₁).append (hc.2 _ h₂)

/-- One clause and its semicolon. -/
theorem Reads.single (hspans : Spans (.word c.word :: c.rest) f.cursor g.cursor)
    (hs : Phrase.AllStratified c.phrases)
    (htells : f.Tells g c.stores fun st slots met => ∀ code, K code → c.Compiles st slots met code)
    (hm : Grammar.Mark Symbol.semicolon g f') : Reads f f' [c] K where
  spans := Spans.append.2 ⟨_, hspans, _, hm.stands, rfl⟩
  stratified := by simpa using hs
  tells := by
    refine (htells.trans hm.tells).imp fun st slots met hc code hcode => ?_
    exact .single (hc.1 code hcode)

/-- A clause that is one reserved word. -/
theorem Reads.word {k : Keyword} (h : Grammar.Reserved k f g) (hk : c.keyword? = some k)
    (hrest : c.rest = []) (hstores : c.stores = []) (hphrases : c.phrases = [])
    (hc : ∀ st slots met code, K code → c.Compiles st slots met code)
    (hm : Grammar.Mark Symbol.semicolon g f') : Reads f f' [c] K := by
  refine .single ⟨_, h.stands hk, ?_⟩ (hphrases ▸ trivial) ?_ hm
  · rw [hrest]
    exact rfl
  · rw [hstores]
    exact h.tells.imp fun st slots met _ code hcode => hc st slots met code hcode

/-- A reserved word with an expression behind it. -/
theorem Reads.phrase {e : Expr} {g' : Front} (mk : Phrase → Clause)
    (hword : ∀ t, Spans [.word (mk t).word] f.cursor g.cursor)
    (hquiet : f.Tells g [] fun _ _ _ => True) (he : Grammar.Expression g e g')
    (hmk : ∀ t, (mk t).rest = t.tokens ∧ (mk t).stores = [] ∧ (mk t).phrases = [t])
    (hc : ∀ st slots met t code, t.Compiles st slots met e.code → K code →
      (mk t).Compiles st slots met code)
    (hm : Grammar.Mark Symbol.semicolon g' f') : ∃ t, Reads f f' [mk t] K := by
  obtain ⟨t, hs, hspans, htells⟩ := he.tells
  obtain ⟨hrest, hstores, hphrases⟩ := hmk t
  rw [← hrest] at hspans
  refine ⟨t, .single (Spans.append.2 ⟨_, hword t, hspans⟩) ?_ ?_ hm⟩
  · rw [hphrases]
    exact ⟨hs, trivial⟩
  · rw [hstores]
    exact (hquiet.andThen htells).imp fun st slots met ht code hcode =>
      hc st slots met t code ht.2 hcode

/-- Code of the tree at some address. -/
def CodeOf (s : Stmt) (code : Code) : Prop := ∃ exit a, code = s.code exit a

/-- A jump, wherever it leads. -/
def JumpCode (op : Opcode) (code : Code) : Prop := ∃ w, code = [.withWord op w]

/-- A jump behind the code of its condition. -/
def BranchCode (e : Expr) (code : Code) : Prop := ∃ w, code = e.code ++ [.withWord .jfalse w]

end Clause

namespace Grammar

/-- A condition that opens or closes a block. -/
theorem Expression.branch {f g g' f' : Front} {k : Keyword} {e : Expr} (he : Expression g e g')
    (mk : Phrase → Clause) (h : Reserved k f g)
    (hk : ∀ t, (mk t).keyword? = some k)
    (hmk : ∀ t, (mk t).rest = t.tokens ∧ (mk t).stores = [] ∧ (mk t).phrases = [t])
    (hc : ∀ {st slots met t code w}, t.Compiles st slots met code →
      (mk t).Compiles st slots met (code ++ [.withWord .jfalse w]))
    (hm : Mark Symbol.semicolon g' f') : ∃ t, Clause.Reads f f' [mk t] (Clause.BranchCode e) := by
  refine Clause.Reads.phrase mk (fun t => ⟨_, h.stands (hk t), rfl⟩) h.tells he hmk ?_ hm
  rintro st slots met t _ ht ⟨w, rfl⟩
  exact hc ht

/-- The end of a condition has no code. -/
theorem Reserved.closeIf {f f' g : Front} (h : Reserved ⟨.wordEndif, .control⟩ f g)
    (hm : Mark Symbol.semicolon g f') : Clause.Reads f f' [.closeIf] (· = []) := by
  refine .word h rfl rfl rfl rfl ?_ hm
  rintro st slots met _ rfl
  exact .closeIf

mutual

/-- A statement is read as clauses, and has their code. -/
theorem Statement.reads {f f' : Front} {s : Stmt} : Statement f s f' →
    ∀ {g : Front}, Mark Symbol.semicolon f' g → ∃ cs, Clause.Reads f g cs (Clause.CodeOf s)
  | .assign (p := p) (e := e) h₁ h₂ h₃ h₄, g, hm => by
      obtain ⟨t, hs, hspans, htells⟩ := h₃.tells
      -- The name counts as met only behind the expression.
      obtain ⟨x, hx, htells'⟩ := h₁.target (h₂.tells.andThen htells) h₄
      refine ⟨[.assign x t], .single ⟨_, hx, _, h₂.stands, ?_⟩ ⟨hs, trivial⟩ ?_ hm⟩
      · rw [h₄.cursor_eq]
        exact hspans
      · refine htells'.imp fun st slots met hc code hcode => ?_
        obtain ⟨exit, a, rfl⟩ := hcode
        exact .assign hc.1.2 hc.2
  | .perform h₁ h₂ h₃ hlen, g, hm => by
      obtain ⟨x, hx, hfind⟩ := h₁.tells
      obtain ⟨ts, hs, hlength, hspans, htells⟩ := h₃.tells
      refine ⟨[.perform x ts], .single ⟨_, hx, ?_⟩ hs ?_ hm⟩
      · exact Spans.of_skipBlank_eq h₂.passes.1.spans hspans
      · refine (hfind.andThen (h₂.tells.andThen htells)).imp fun st slots met hc code hcode => ?_
        obtain ⟨exit, a, rfl⟩ := hcode
        rw [Stmt.code, ← hlength]
        exact .perform hc.1 hc.2.2
  | .print h₁ h₂ hlen, g, hm => by
      obtain ⟨ts, hs, hlength, hspans, htells⟩ := h₂.tells
      refine ⟨[.print ts], .single ⟨_, h₁.stands rfl, hspans⟩ hs ?_ hm⟩
      refine (h₁.tells.andThen htells).imp fun st slots met hc code hcode => ?_
      obtain ⟨exit, a, rfl⟩ := hcode
      rw [Stmt.code, ← hlength]
      exact .print hc.2
  | .input h₁ h₂, g, hm => by
      obtain ⟨x, xs, hspans, htells⟩ := h₂.tells
      refine ⟨[.input x xs], .single ⟨_, h₁.stands rfl, hspans⟩ trivial ?_ hm⟩
      refine (h₁.tells.andThen htells).imp fun st slots met hc code hcode => ?_
      obtain ⟨exit, a, rfl⟩ := hcode
      exact .input hc.2
  | .halt h₁, g, hm => by
      refine ⟨[.halt], .word h₁ rfl rfl rfl rfl ?_ hm⟩
      rintro st slots met _ ⟨exit, a, rfl⟩
      exact .halt
  | .exitLoop h₁, g, hm => by
      refine ⟨[.exitLoop], .word h₁ rfl rfl rfl rfl ?_ hm⟩
      rintro st slots met _ ⟨exit, a, rfl⟩
      obtain ⟨w, hw⟩ := Instr.exists_jump .jump a exit
      rw [Stmt.code, hw]
      exact .exitLoop
  | @Statement.returnValue _ f₁ _ c _ e h₁ _ _ hend h₂, g, hm => by
      have hskip : c = f₁.cursor.skipBlank := (congrArg Prod.snd hend).symm
      have hquiet : f₁.Tells (f₁.goto c) [] fun _ _ _ => True := Front.tells_quiet rfl rfl rfl
      obtain ⟨t, hreads⟩ : ∃ t,
          Clause.Reads f g [.giveBack (some t)] (Clause.CodeOf (.returnValue e)) := by
        refine Clause.Reads.phrase (fun t => .giveBack (some t)) (fun t => ⟨_, h₁.stands rfl, ?_⟩)
          ((h₁.tells.andThen hquiet).imp fun _ _ _ _ => trivial) h₂ (fun t => ⟨rfl, rfl, rfl⟩) ?_ hm
        · rw [Front.cursor_goto, hskip]
          exact Cursor.skipBlank_idem _
        · rintro st slots met t _ ht ⟨exit, a, rfl⟩
          exact .giveBack ht
      exact ⟨_, hreads⟩
  | @Statement.returnBare _ f₁ c _ h₁ _ _ hend, g, hm => by
      have hskip : c = f₁.cursor.skipBlank := (congrArg Prod.snd hend).symm
      have hquiet : f₁.Tells (f₁.goto c) [] fun _ _ _ => True := Front.tells_quiet rfl rfl rfl
      refine ⟨[.giveBack none], .single ⟨_, h₁.stands rfl, ?_⟩ trivial ?_ hm⟩
      · rw [Front.cursor_goto, hskip]
        exact Cursor.skipBlank_idem _
      · refine (h₁.tells.andThen hquiet).imp fun st slots met _ code hcode => ?_
        obtain ⟨exit, a, rfl⟩ := hcode
        exact .giveBackNothing
  | .ifThen (c := c) (a := s) h₁ h₂ h₃ h₄ h₅, g, hm => by
      obtain ⟨t, hopen⟩ := h₂.branch .openIf h₁ (fun _ => rfl) (fun _ => ⟨rfl, rfl, rfl⟩) .openIf h₃
      obtain ⟨cs, hbody⟩ := Block.reads h₄
      have hclose := h₅.closeIf hm
      -- What the jump leads to is known behind the block only, but any distance will do.
      refine ⟨_, hopen.append (hbody.append hclose fun code h => ⟨code, [], by simp, h, rfl⟩) ?_⟩
      rintro _ ⟨exit, a, rfl⟩
      obtain ⟨w, hw⟩ := Instr.exists_jump .jfalse (a + c.code.size)
        (some (a + c.code.size + 3 + s.size))
      exact ⟨c.code ++ [.withWord .jfalse w], s.code exit (a + c.code.size + 3),
        by simp [Stmt.code, hw], ⟨w, rfl⟩, exit, _, rfl⟩
  | .ifElse (c := c) (a := s) (b := s') h₁ h₂ h₃ h₄ h₅ h₆ h₇ h₈, g, hm => by
      obtain ⟨t, hopen⟩ := h₂.branch .openIf h₁ (fun _ => rfl) (fun _ => ⟨rfl, rfl, rfl⟩) .openIf h₃
      obtain ⟨cs, hbody⟩ := Block.reads h₄
      have hdivide : Clause.Reads _ _ [.openElse] (Clause.JumpCode .jump) :=
        .word h₅ rfl rfl rfl rfl (by rintro st slots met _ ⟨w, rfl⟩; exact .openElse) h₆
      obtain ⟨cs', hbody'⟩ := Block.reads h₇
      have hclose := h₈.closeIf hm
      refine ⟨_, hopen.append (hbody.append (hdivide.append (hbody'.append hclose
        fun code h => ⟨code, [], by simp, h, rfl⟩) fun code h => h) fun code h => h) ?_⟩
      rintro _ ⟨exit, a, rfl⟩
      obtain ⟨w, hw⟩ := Instr.exists_jump .jfalse (a + c.code.size)
        (some (a + c.code.size + 3 + s.size + 3))
      obtain ⟨w', hw'⟩ := Instr.exists_jump .jump (a + c.code.size + 3 + s.size)
        (some (a + c.code.size + 3 + s.size + 3 + s'.size))
      exact ⟨c.code ++ [.withWord .jfalse w],
        s.code exit (a + c.code.size + 3) ++ .withWord .jump w' ::
          s'.code exit (a + c.code.size + 3 + s.size + 3),
        by simp [Stmt.code, hw, hw'], ⟨w, rfl⟩, _, _, rfl, ⟨exit, _, rfl⟩, [.withWord .jump w'], _,
        rfl, ⟨w', rfl⟩, exit, _, rfl⟩
  | .whileDo (c := c) (a := s) h₁ h₂ h₃ h₄ h₅, g, hm => by
      obtain ⟨t, hopen⟩ := h₂.branch .openWhile h₁ (fun _ => rfl) (fun _ => ⟨rfl, rfl, rfl⟩)
        .openWhile h₃
      obtain ⟨cs, hbody⟩ := Block.reads h₄
      have hclose : Clause.Reads _ g [.closeWhile] (Clause.JumpCode .jump) :=
        .word h₅ rfl rfl rfl rfl (by rintro st slots met _ ⟨w, rfl⟩; exact .closeWhile) hm
      refine ⟨_, hopen.append (hbody.append hclose fun code h => h) ?_⟩
      rintro _ ⟨exit, a, rfl⟩
      obtain ⟨w, hw⟩ := Instr.exists_jump .jfalse (a + c.code.size)
        (some (a + c.code.size + 3 + s.size + 3))
      obtain ⟨w', hw'⟩ := Instr.exists_jump .jump (a + c.code.size + 3 + s.size) (some a)
      exact ⟨c.code ++ [.withWord .jfalse w],
        s.code (some (a + c.code.size + 3 + s.size + 3)) (a + c.code.size + 3) ++
          [.withWord .jump w'], by simp [Stmt.code, hw, hw'], ⟨w, rfl⟩,
        _, [.withWord .jump w'], rfl, ⟨_, _, rfl⟩, w', rfl⟩
  | .repeatUntil (c := c) (a := s) h₁ h₂ h₃ h₄ h₅, g, hm => by
      have hopen : Clause.Reads _ _ [.openRepeat] (· = []) := .word h₁ rfl rfl rfl rfl
        (by rintro st slots met _ rfl; exact .openRepeat) h₂
      obtain ⟨cs, hbody⟩ := Block.reads h₃
      obtain ⟨t, hclose⟩ := h₅.branch .closeRepeat h₄ (fun _ => rfl) (fun _ => ⟨rfl, rfl, rfl⟩)
        .closeRepeat hm
      refine ⟨_, hopen.append (hbody.append hclose fun code h => h) ?_⟩
      rintro _ ⟨exit, a, rfl⟩
      obtain ⟨w, hw⟩ := Instr.exists_jump .jfalse (a + s.size + c.code.size) (some a)
      exact ⟨[], _, rfl, rfl, s.code (some (a + s.size + c.code.size + 3)) a,
        c.code ++ [.withWord .jfalse w], by simp [hw], ⟨_, _, rfl⟩, w, rfl⟩

theorem Block.reads {f f' : Front} {s : Stmt} : Block f s f' →
    ∃ cs, Clause.Reads f f' cs (Clause.CodeOf s)
  | .nil => by
      refine ⟨[], rfl, nofun, (Front.tells_quiet rfl rfl rfl).imp ?_⟩
      rintro st slots met - _ ⟨exit, a, rfl⟩
      exact .nil
  | .snoc h₁ h₂ h₃ => by
      obtain ⟨cs, hblock⟩ := Block.reads h₁
      obtain ⟨ds, hstmt⟩ := Statement.reads h₂ h₃
      refine ⟨cs ++ ds, hblock.append hstmt ?_⟩
      rintro _ ⟨exit, a, rfl⟩
      exact ⟨_, _, rfl, ⟨exit, a, rfl⟩, exit, _, rfl⟩

end

/-! ### Bodies -/

/-- A parameter is met. -/
theorem Parameter.tells {f f' : Front} (h : Parameter f f') :
    ∃ x : Clause.Name, Spans [.word x.bytes] f.cursor f'.cursor ∧
      f.Tells f' [x.bytes] fun _ _ _ => True := by
  obtain ⟨h₁, hb, hnew, h₂⟩ := h
  obtain ⟨x, hx, hknows⟩ := h₁.knows
  refine ⟨x, ⟨_, hx, ?_⟩, fun rs ds a n es b met k => ?_⟩
  · cases h₂
    exact rfl
  · obtain ⟨rs', es', k', hes, he⟩ := hknows k
    exact ⟨rs', es', (k'.addLocal he h₂ hb hnew).1, hes, fun _ _ _ _ => trivial⟩

theorem Parameters.tells {f f' : Front} (h : Parameters f f') :
    ∃ (x : Clause.Name) (xs : List Clause.Name),
      Spans (Clause.nameTokens x xs) f.cursor f'.cursor ∧
      f.Tells f' ((x :: xs).map Clause.Name.bytes) fun _ _ _ => True := by
  induction h with
  | last h₁ h₂ =>
      obtain ⟨x, hspans, htells⟩ := h₁.tells
      exact ⟨x, [], Spans.append.2 ⟨_, hspans, h₂.passes.1.spans⟩,
        (htells.trans h₂.tells).imp fun _ _ _ _ => trivial⟩
  | more h₁ h₂ _ ih =>
      obtain ⟨x, hspans, htells⟩ := h₁.tells
      obtain ⟨y, ys, hspans', htells'⟩ := ih
      refine ⟨x, y :: ys, ?_,
        (htells.trans (h₂.tells.andThen htells')).imp fun _ _ _ _ => trivial⟩
      obtain ⟨c, hx, hskip⟩ := hspans
      exact ⟨c, hx, Spans.of_skipBlank_eq hskip ⟨_, h₂.stands, hspans'⟩⟩

theorem ParameterList.tells {f f' : Front} (h : ParameterList f f') :
    ∃ params : List Clause.Name,
      Spans (.openParen :: Clause.parameterTokens params) f.cursor f'.cursor ∧
      f.Tells f' (params.map Clause.Name.bytes) fun _ _ _ => True := by
  cases h with
  | none h₁ h₂ =>
      refine ⟨[], ?_, (h₁.tells.andThen h₂.tells).imp fun _ _ _ _ => trivial⟩
      exact ⟨_, h₁.stands, _, h₂.stands, rfl⟩
  | some h₁ h₂ h₃ h₄ =>
      obtain ⟨x, xs, hspans, htells⟩ := h₃.tells
      refine ⟨x :: xs, ⟨_, h₁.stands, ?_⟩, ?_⟩
      · refine Spans.append.2 ⟨_, ?_, _, h₄.stands, rfl⟩
        exact Spans.of_skipBlank_eq h₂.passes.1.spans hspans
      · have h := h₁.tells.andThen (h₂.tells.andThen (htells.trans h₄.tells))
        rw [List.append_nil] at h
        exact h.imp fun _ _ _ _ => trivial

end Grammar

namespace Front

variable {f f' : Front} {rs : List Record} {ds : List (Definition × Nat)} {a n : Nat}
  {es : List Binding} {b : Bool} {met : List (List UInt8)} {x : List UInt8} {id : Ident}
  {body : Body}

theorem cursor_openBody (f : Front) (id : Ident) (isFunc : Bool) (entry : UInt16) :
    (f.openBody id isFunc entry).cursor = f.cursor := by
  simp only [openBody, withHeap]

/-- A body is opened, and no name has been met in it. -/
theorem Knows.openBody (k : f.Knows rs ds a n es b met) (hb : f.body = none) (he : ⟨x, id⟩ ∈ es)
    (hv : f.store.heap.identValue id = .unset) (isFunc : Bool) (entry : Nat) :
    (f.openBody id isFunc (UInt16.ofNat entry)).Knows rs ds entry 0 es true [] where
  ok := k.ok.openBody hb (k.records _ he) hv isFunc entry
  table := (k.table.field he (Heap.sameOutside_setIdentValue _ _ _) (Nat.le_refl _)
    (Nat.add_le_add_left (by decide) _)).setIdentSlot he 0
  records := k.records
  isSome := rfl
  opened := by
    rintro _ ⟨⟩
    exact ⟨x, he⟩
  locals := by
    rintro _ ⟨⟩
    exact ⟨[], nofun, rfl, rfl⟩

theorem Knows.countParameters (k : f.Knows rs ds a n es b met) (hb : f.body = some body) :
    (f.countParameters body).Knows rs ds a body.locals.length es b met := by
  obtain ⟨y, hy⟩ := k.opened body hb
  refine ⟨k.ok.countParameters hb, ?_, k.records, k.isSome, k.opened, k.locals⟩
  exact k.table.field hy (Heap.sameOutside_setIdentArguments _ _ _)
    (Nat.add_le_add_left (by decide) _) (Nat.add_le_add_left (by decide) _)

/-- A body is closed. It has as many slots as names have been met in it. -/
theorem Knows.closeBody (k : f.Knows rs ds a n es b met) (hb : f.body = some body) :
    (f.closeBody body).Knows rs (ds ++ [(⟨body.id, body.isFunc, n, body.locals.length⟩, a)]) 0 0 es
      false [] ∧ body.locals.length = met.eraseDups.length := by
  obtain ⟨ls, hls, hids, hnames⟩ := k.locals body hb
  refine ⟨⟨k.ok.closeBody hb, ?_, k.records, rfl, nofun, nofun⟩, ?_⟩
  · -- The records of the locals lose their slots one after the other.
    show Store.Table { f.store with heap := _ } es
    rw [← hids]
    clear hids hnames
    have ht := k.table
    generalize f.store = s at ht
    induction ls generalizing s with
    | nil => exact ht
    | cons e ls ih =>
        exact ih (fun e he => hls e (List.mem_cons_of_mem _ he)) _
          (ht.setIdentSlot (hls e List.mem_cons_self) Ident.noSlot)
  · rw [← hids, ← hnames, List.length_map, List.length_map]

/-- Outside of bodies it does not matter which names have been met. -/
theorem Knows.outside (k : f.Knows rs ds a n es false met) (met' : List (List UInt8)) :
    f.Knows rs ds a n es false met' := by
  have hb := k.isSome
  refine ⟨k.ok, k.table, k.records, hb, k.opened, fun body hbody => ?_⟩
  rw [hbody] at hb
  cases hb

end Front

namespace Grammar

variable {f f' : Front} {rs : List Record} {ds : List (Definition × Nat)} {a n : Nat}
  {es : List Binding}

/-- Behind the first statement of a definition, the names that have been met are those of the
parameters. -/
theorem Header.reads {isFunc : Bool} {entry : Nat} {head : Body}
    (h : Header isFunc (UInt16.ofNat entry) f head f') (k : f.Knows rs ds a n es false []) :
    ∃ (x : Clause.Name) (params : List Clause.Name),
      Spans (.word (Clause.openBody isFunc x params).word :: (Clause.openBody isFunc x params).rest)
        f.cursor f'.cursor ∧ head.isFunc = isFunc ∧
      ∃ rs' es', f'.Knows rs' ds entry head.locals.length es' true (params.map Clause.Name.bytes) ∧
        (∀ e ∈ es, e ∈ es') ∧ ⟨x.bytes, head.id⟩ ∈ es' := by
  obtain ⟨h₁, h₂, hb, hv, h₃, hbody⟩ := h
  obtain ⟨rs₁, es₁, k₁, hes₁, -⟩ := h₁.tells k
  obtain ⟨x, hx, hknows⟩ := h₂.knows
  obtain ⟨rs₂, es₂, k₂, hes₂, he⟩ := hknows k₁
  obtain ⟨params, hspans, htells⟩ := h₃.tells
  rw [Front.cursor_openBody] at hspans
  obtain ⟨rs₃, es₃, k₃, hes₃, -⟩ := htells (k₂.openBody hb he hv isFunc entry)
  obtain ⟨body, hbody', hid, hkind⟩ := (steady_sameBody.parameterList h₃).some rfl
  obtain rfl := Option.some.inj (hbody'.symm.trans hbody)
  refine ⟨x, params, ⟨_, h₁.stands rfl, _, hx, hspans⟩, hkind, rs₃, es₃, ?_, ?_, ?_⟩
  · exact k₃.countParameters hbody
  · exact fun e he => hes₃ e (hes₂ e (hes₁ e he))
  · rw [hid]
    exact hes₃ _ he

/-- The clauses that a program is read as, and their code. -/
theorem Items.reads {t : Stmt} (h : Items f t f') (k : f.Knows rs [] 0 0 es false []) :
    ∃ cs, Spans (Clause.script cs) f.cursor f'.cursor ∧
      (∀ c ∈ cs, Phrase.AllStratified c.phrases) ∧
      ∃ rs' es', f'.Knows rs' (t.definitions 0) 0 0 es' false [] ∧
        ∀ st, Store.Finds st es' →
          (∀ d ∈ t.definitions 0, (st.heap.identSlot d.1.id).toNat = d.1.slots) →
          Clause.Program st cs (t.code none 0) := by
  induction h with
  | nil => exact ⟨[], rfl, nofun, rs, es, k, fun _ _ _ => .nil⟩
  | @statement f₁ f₂ f₃ t s _ h₂ h₃ ih =>
      obtain ⟨cs, hspans, hs, rs₁, es₁, k₁, hcode⟩ := ih
      obtain ⟨ds, hreads⟩ := h₂.reads h₃
      obtain ⟨rs₂, es₂, k₂, hes₂, hcode₂⟩ := hreads.tells k₁
      refine ⟨cs ++ ds, ?_, List.forall_mem_append.2 ⟨hs, hreads.stratified⟩, rs₂, es₂, ?_, ?_⟩
      · rw [Clause.script_append]
        exact Spans.append.2 ⟨_, hspans, hreads.spans⟩
      · rw [Stmt.definitions, h₂.definitions, List.append_nil]
        exact k₂.outside []
      · intro st hst hcount
        rw [Stmt.definitions, h₂.definitions, List.append_nil] at hcount
        refine (hcode st (hst.mono hes₂) hcount).append ?_
        have hseq := hcode₂ st [] hst rfl _ ⟨none, 0 + t.size, rfl⟩
        simpa using Clause.Program.statements hseq .nil
  | @definition f₁ f₂ f₃ f₄ f₅ f₆ t s isFunc head body _ hsize h₂ h₃ h₄ h₅ hbody h₆ ih =>
      obtain ⟨cs, hspans, hs, rs₁, es₁, k₁, hcode⟩ := ih
      obtain ⟨x, params, hspans₂, hkind, rs₂, es₂, k₂, hes₂, hx⟩ := h₂.reads k₁
      obtain ⟨inner, hreads⟩ := h₄.reads
      obtain ⟨rs₅, es₅, k₅, hes₅, hcode₅⟩ := (h₃.tells.andThen (hreads.tells.trans h₅.tells)) k₂
      rw [List.append_nil] at k₅ hcode₅
      -- The body that is closed is the one that was opened.
      obtain ⟨body', hbody', hid, hkind'⟩ := SameBody.some (steady_sameBody.trans
        (steady_sameBody.mark h₃) (steady_sameBody.trans (steady_sameBody.block h₄)
          (steady_sameBody.reserved h₅))) h₂.body_eq
      obtain rfl := Option.some.inj (hbody'.symm.trans hbody)
      rw [hkind] at hkind'
      obtain ⟨k₆, hlength⟩ := k₅.closeBody hbody
      obtain ⟨rs₆, es₆, k₇, hes₆, -⟩ := h₆.tells k₆
      have hdefs : (Stmt.seq t (.define ⟨body'.id, isFunc, head.locals.length, body'.locals.length⟩
          s)).definitions 0 = t.definitions 0 ++
            [(⟨body'.id, body'.isFunc, head.locals.length, body'.locals.length⟩, t.size + 3)] := by
        rw [hkind']
        simp [Stmt.definitions]
      refine ⟨cs ++ (.openBody isFunc x params :: inner ++ [.closeBody]), ?_, ?_, rs₆, es₆, ?_, ?_⟩
      · have hinner : Spans (Clause.script (inner ++ [.closeBody])) f₃.cursor f₆.cursor := by
          rw [Clause.script_append]
          exact Spans.append.2 ⟨_, hreads.spans, _, h₅.stands rfl, _, h₆.stands, rfl⟩
        rw [Clause.script_append]
        exact Spans.append.2 ⟨_, hspans, Spans.append.2 ⟨_, hspans₂, _, h₃.stands, hinner⟩⟩
      · intro c hc
        simp only [List.mem_append, List.mem_cons, List.not_mem_nil, or_false] at hc
        obtain hc | (rfl | hc) | rfl := hc
        · exact hs c hc
        · trivial
        · exact hreads.stratified c hc
        · trivial
      · rw [hdefs]
        exact k₇
      · intro st hst hcount
        rw [hdefs] at hcount
        have hst₅ := hst.mono hes₆
        have hst₂ := hst₅.mono hes₅
        have hprogram := hcode st (hst₂.mono hes₂) fun d hd => hcount d (List.mem_append_left _ hd)
        -- The record counts the locals, and these are the names that have been met.
        have hslots := hcount _ (List.mem_append_right _ (List.mem_singleton_self _))
        have hfind : st.find? x.bytes = some body'.id := by
          rw [hid]
          exact hst₂.find? hx
        have hseq := (hcode₅ st (Clause.slotNames params inner) hst₅ (List.prefix_refl _)).2.1
          (s.code none (t.size + 3)) ⟨none, _, rfl⟩
        obtain ⟨w, hw⟩ := Instr.exists_jump .jump t.size (some (t.size + 3 + s.size + 1))
        have hbody : Clause.Program st (.openBody isFunc x params :: inner ++ [.closeBody])
            (.withWord .jump w :: s.code none (t.size + 3) ++ [Stmt.bodyEnd isFunc]) :=
          .body hfind (hslots.trans hlength) hseq .nil
        simpa [Stmt.code, hw] using hprogram.append hbody

end Grammar

/-! ### Programs -/

/-- The clauses are well formed as far as precedence goes, and the text is theirs. -/
def Clause.Written (cs : List Clause) (text : List UInt8) : Prop :=
  (∀ c ∈ cs, Phrase.AllStratified c.phrases) ∧ Renders (script cs) text

/-- Nothing is known before anything has been read. -/
theorem Grammar.knows_start (source : Source) {limits : Limits}
    (hv : limits.validate = .ok ()) :
    (Grammar.start source limits).Knows [] [] 0 0 [] false [] where
  ok := by
    refine ⟨Store.ok_ofSize _ (Limits.buckets_pos hv), (Limits.valid_of_validate hv).maxSlots.2,
      nofun, ?_, nofun⟩
    rintro id ⟨n, hn⟩ -
    cases hn
  table := Store.table_ofSize _ (Limits.buckets_pos hv)
  records := nofun
  isSome := rfl
  opened := nofun
  locals := nofun

/-- In a program, every name is kept where it belongs. The text is that of one list of clauses
only, and the code is the one that these clauses have with the records of the store. -/
theorem Program.code_of_clauses {source : Source} {limits : Limits} {p : Program}
    (h : compile source limits = .ok p) :
    ∃ cs code, (∀ ds, Clause.Written ds source.bytes.toList ↔ ds = cs) ∧
      Clause.Program p.store cs code ∧ p.code.toList = Code.bytes (code ++ [.plain .stop]) := by
  obtain ⟨hv, -, t, hreads, hcode⟩ := compile_ok h
  obtain ⟨rs', -, hdeclares, hfine⟩ := hreads.declares (Limits.valid_of_validate hv).maxSlots.2
    (Limits.buckets_pos hv)
  obtain ⟨f, hitems, hend, hstore⟩ := hreads
  obtain ⟨cs, hspans, hs, rs, es, k, hprogram⟩ := hitems.reads (Grammar.knows_start source hv)
  have htable := k.table
  rw [hstore] at htable
  have hrenders : Renders (Clause.script cs) source.bytes.toList := by
    obtain ⟨bs, hrest, -, hrenders⟩ := hspans.renders
    have hempty : f.cursor.skipBlank.rest = [] := by simpa [Cursor.atEnd] using hend
    rw [hempty, List.append_nil] at hrest
    rw [show source.bytes.toList = bs from hrest]
    exact hrenders
  refine ⟨cs, t.code none 0, fun ds => ⟨fun hds => ?_, ?_⟩, ?_, hcode.code⟩
  · exact Clause.eq_of_renders hds.1 hs hds.2 hrenders
  · rintro rfl
    exact ⟨hs, hrenders⟩
  · refine hprogram p.store (fun e he => htable.find?_eq_some.2 he) fun d hd => ?_
    have hslot : p.store.heap.identSlot d.1.id = UInt8.ofNat d.1.slots :=
      congrArg Entry.slot (hdeclares.defined d hd).2
    have hle := (hfine.definitions hd).2
    rw [hslot, UInt8.toNat_ofNat']
    omega

/-- The theorem for a body in which a name is read before it becomes a local: the record of the
name is at offset 24, and its slot is the second one. -/
theorem Program.code_of_clauses_of_late_local : ∃ p : Program,
    compile (.ofText "m" "proc f(x); z = x + z; end; z = 1; f z;") default = .ok p ∧
    p.code.toList = Code.bytes [.withWord .jump 9, .withByte .slotGet 0, .withWord .identGet 24,
      .plain .add, .withByte .slotSet 1, .plain .returnProc, .withWord .litInt 1,
      .withWord .identSet 24, .withWord .identGet 24, ⟨.callProc, 1, 2⟩, .plain .stop] ∧
    ∃ cs code, (∀ ds, Clause.Written ds
        (Source.ofText "m" "proc f(x); z = x + z; end; z = 1; f z;").bytes.toList ↔ ds = cs) ∧
      Clause.Program p.store cs code ∧
      p.code.toList = Code.bytes (code ++ [.plain .stop]) := by
  obtain ⟨p, hp, htest⟩ := exists_of_compile
    (.ofText "m" "proc f(x); z = x + z; end; z = 1; f z;") default
    (fun p => p.code.toList = Code.bytes [.withWord .jump 9, .withByte .slotGet 0,
      .withWord .identGet 24, .plain .add, .withByte .slotSet 1, .plain .returnProc,
      .withWord .litInt 1, .withWord .identSet 24, .withWord .identGet 24, ⟨.callProc, 1, 2⟩,
      .plain .stop]) (by decide +kernel)
  exact ⟨p, hp, of_decide_eq_true htest, code_of_clauses hp⟩

end CellScript
