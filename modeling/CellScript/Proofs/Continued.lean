import CellScript.Proofs.Edits
import CellScript.Proofs.Passages
import CellScript.Proofs.WellFormed
import Mathlib.Data.List.TakeWhile
import Mathlib.Logic.Relation

/-!
Texts that go on.

When a text that compiles by itself has more behind it, its statements are compiled
as before and then the rest. So both programs begin in the same way, although the
compiler is in the middle of its work when it comes to the rest, and what it does
there may well reach back: into code, into the source map and into the records of
names. It does not, because no block is open at that point. Jumps that lack their
targets belong to open blocks, the source map is only touched at its end, and the
entry of a definition is not changed after its `end`.
-/

namespace CellScript

open Ascii

/-! ### Trees that go on -/

/-- A tree, and the same with more statements behind it. -/
inductive Stmt.Extends (a : Stmt) : Stmt → Prop
  | refl : Extends a a
  | seq {b s : Stmt} : Extends a b → Extends a (.seq b s)

theorem Stmt.Extends.code {a b : Stmt} (h : a.Extends b) :
    ∃ c, b.code none 0 = a.code none 0 ++ c := by
  induction h with
  | refl => exact ⟨[], (List.append_nil _).symm⟩
  | @seq b s _ ih =>
      obtain ⟨c, hc⟩ := ih
      exact ⟨c ++ s.code none (0 + b.size), by rw [Stmt.code, hc, List.append_assoc]⟩

theorem Stmt.Extends.definitions {a b : Stmt} (h : a.Extends b) :
    ∀ d ∈ a.definitions 0, d ∈ b.definitions 0 := by
  induction h with
  | refl => exact fun _ hd => hd
  | seq _ ih => exact fun d hd => List.mem_append_left _ (ih d hd)

namespace Outline

/-- What has been read outside of all blocks. -/
def ground : List Frame → Stmt → Stmt
  | [], cur => cur
  | f :: fs, _ => ground fs f.before

theorem extends_seq {a cur s : Stmt} {fs : List Frame} (h : a.Extends (ground fs cur)) :
    a.Extends (ground fs (.seq cur s)) := by
  cases fs with
  | nil => exact .seq h
  | cons f fs => exact h

theorem Step.ground {a cur cur' : Stmt} {fs fs' : List Frame} (h : Step fs cur fs' cur')
    (ha : a.Extends (Outline.ground fs cur)) : a.Extends (Outline.ground fs' cur') := by
  cases h with
  | append _ => exact extends_seq ha
  | begin _ => exact ha
  | divide => exact ha
  | finish _ => exact extends_seq ha

end Outline

/-! ### The text and its continuation -/

namespace Twins

/-- A place of the shorter text, by the text that follows it. -/
structure Ahead (size : Nat) (more : List UInt8) (c d : Cursor) : Prop where
  pos : d.pos = c.pos
  rest : d.rest = c.rest ++ more
  within : c.pos + c.rest.length = size

theorem Ahead.advance {size n : Nat} {more : List UInt8} {c d : Cursor} (h : Ahead size more c d)
    (hn : n ≤ c.rest.length) : Ahead size more (c.advance n) (d.advance n) where
  pos := by simp only [Cursor.advance, h.pos]
  rest := by simp only [Cursor.advance, h.rest, List.drop_append_of_le_length hn]
  within := by
    have hwithin := h.within
    simp only [Cursor.advance, List.length_drop]
    omega

theorem Ahead.skipBlank {size : Nat} {more : List UInt8} {c d : Cursor} (h : Ahead size more c d)
    (hne : c.skipBlank.rest ≠ []) : Ahead size more c.skipBlank d.skipBlank := by
  obtain ⟨blanks, hblanks, hrest, hpos, hhead⟩ := c.skipBlank_split
  have hd : d.skipBlank = ⟨d.pos + blanks.length, c.skipBlank.rest ++ more⟩ := by
    have hdrest : d.rest = blanks ++ (c.skipBlank.rest ++ more) := by
      rw [h.rest, ← List.append_assoc, ← hrest]
    rw [Cursor.skipBlank, hdrest]
    refine Cursor.skipBlankFrom_append hblanks ?_ d.pos
    rwa [List.head?_append, List.head?_eq_some_head hne, Option.some_or,
      ← List.head?_eq_some_head hne]
  have hwithin := h.within
  rw [hrest, List.length_append] at hwithin
  exact ⟨by rw [hd, hpos, h.pos], by rw [hd], by omega⟩

/-- A text and the same text with more behind it. The longer one is followed as long as there is a
semicolon left to read in the shorter one. -/
def continued (name name' : String) (bs more : List UInt8) : Twins where
  left := .ofBytes name bs
  right := .ofBytes name' (bs ++ more)
  cursor := Ahead bs.length more
  lost rest := Symbol.semicolon ∉ rest
  sourceMap m m' := m' = m
  lost_suffix h hsuffix hmem := h (hsuffix.subset hmem)
  skip {c d} h := by
    by_cases hne : c.skipBlank.rest = []
    · exact .inl (by simp [hne])
    · exact .inr (h.skipBlank hne)
  sight {c d} h _ _ := by
    by_cases hmem : Symbol.semicolon ∈ c.rest
    · have hstop : (outlook c.rest).length ≠ c.rest.length := fun hall => by
        have hjoins := List.takeWhile_eq_self_iff.1 ((outlook_isPrefix c.rest).eq_of_length hall)
        exact absurd (hjoins _ hmem) (by decide)
      refine .inr ⟨?_, ?_⟩
      · rw [h.rest]
        exact (List.takeWhile_append ..).trans (if_neg hstop)
      · rw [h.rest, List.head?_append, List.head?_eq_some_head (List.ne_nil_of_mem hmem),
          Option.some_or]
    · exact .inl hmem
  pass h hn := .inr (h.advance (Nat.le_trans hn (outlook_isPrefix _).length_le))
  semicolon {c d} h hc := by
    obtain ⟨bs, hbs⟩ := List.head?_eq_some_iff.1 hc
    exact .inr (h.advance (by simp [hbs]))
  literal {c d rest rest' raw length last} h hc hd hscan := by
    obtain ⟨⟨tail, rfl⟩, hclosed⟩ := StringLiteral.scan_split hscan
    have hrest : rest' = raw ++ 34 :: (tail ++ more) := by
      have := h.rest
      rw [hc, hd] at this
      simpa using this
    exact .inr ⟨by rw [hrest]; exact hclosed _, h.advance (by simp [hc])⟩
  unterminated _ _ _ _ := .inl (by simp)
  invalidEscape _ _ _ _ := .inl (by simp)
  note {c d m m' n} offset h hn hm := by
    have hwithin := h.within
    rw [hm, h.pos, Source.span_append (by omega) (by omega)]

theorem Like.goto {τ : Twins} {k l : Nat} {s t : Compiler} {c d : Cursor} (h : τ.Like k l s t)
    (hcursor : τ.cursor c d) (hc : s.cursor.Onward c) (hd : t.cursor.Onward d) :
    τ.Like k l { s with cursor := c } { t with cursor := d } :=
  { h with
    cursor := hcursor
    leftRest := Nat.lt_of_le_of_lt hc.suffix.length_le h.leftRest
    rightRest := Nat.lt_of_le_of_lt hd.suffix.length_le h.rightRest }

end Twins

namespace Compiler

open Grammar

abbrev Turns : Compiler → Compiler → Prop :=
  Relation.ReflTransGen fun s s' => ∃ w s₁, Turn s w s₁ s'

theorem statements_turns {fuel : Nat} {u : Unit} {s s' : Compiler}
    (h : statements fuel s = .ok u s') :
    ∃ s₁, Turns s s₁ ∧ s' = { s₁ with cursor := s₁.cursor.skipBlank } := by
  induction fuel generalizing s with
  | zero => simp [statements, failHere_eq_ok] at h
  | succ fuel ih =>
      obtain ⟨-, rfl⟩ | ⟨-, w, s₁, s₂, hturn, hrest⟩ := statements_succ_ok h
      · exact ⟨s, .refl, rfl⟩
      · obtain ⟨s₃, hturns, hs'⟩ := ih hrest
        exact ⟨s₃, .head ⟨w, s₁, hturn⟩ hturns, hs'⟩

section

variable {name name' : String} {bs more : List UInt8} {k l fuel : Nat} {u : Unit}
  {s s₁ s₂ t t' : Compiler} {w : WordToken}

theorem Turn.statement_eq (h : Turn s w s₁ s₂) : Compiler.statement s = .ok () s₁ := by
  have hst := h.statement
  simp only [Compiler.statement, bind, EStateM.bind, read, h.word]
  exact hst

theorem Turn.next (h : Turn s w s₁ s₂) :
    s₁.cursor.skipBlank.rest.head? = some Symbol.semicolon ∧
      s₂ = { s₁ with cursor := s₁.cursor.skipBlank.advance 1 } := by
  obtain ⟨hfound, rfl⟩ := symbol_eq_ok.1 h.semicolon
  rw [Cursor.symbol] at hfound ⊢
  split at hfound
  · rename_i hhead
    exact ⟨hhead, by rw [if_pos hhead]⟩
  · cases hfound

/-- A statement of the shorter text is one of the longer text as well. -/
theorem Turn.continued (h : Turn s w s₁ s₂)
    (hlike : (Twins.continued name name' bs more).Like k l s t)
    (ht : statements fuel t = .ok u t') :
    ∃ v t₁ t₂ fuel', Turn t v t₁ t₂ ∧ (Twins.continued name name' bs more).Like k l s₂ t₂ ∧
      statements fuel' t₂ = .ok u t' := by
  -- The semicolon behind the statement is ahead all the time.
  obtain ⟨hhead, hs₂⟩ := h.next
  have hsemi : Symbol.semicolon ∈ s₁.cursor.skipBlank.rest := List.mem_of_head? hhead
  have hahead : Symbol.semicolon ∈ s₁.cursor.rest :=
    (Cursor.onward_skipBlank s₁.cursor).suffix.subset hsemi
  have hword : s.cursor.skipBlank.Onward s.cursor.word.2 := by
    rw [← Cursor.word_skipBlank]
    exact Cursor.onward_word _
  have hst : s.cursor.word.2.Onward s₁.cursor :=
    (Twins.alike_statementAt (τ := Twins.continued name name' bs more) (k := k) (l := l) rfl).onward
      _ _ _ h.statement
  have hbefore : Symbol.semicolon ∈ s.cursor.skipBlank.rest :=
    (hword.trans hst).suffix.subset hahead
  cases fuel with
  | zero => simp [statements, failHere_eq_ok] at ht
  | succ fuel =>
      obtain ⟨hend, -⟩ | ⟨-, v, t₁, t₂, hturn, hrest⟩ := statements_succ_ok ht
      · obtain hlost | ⟨heq, -⟩ := Twins.recognizes_atEnd _ _ hlike.cursor
        · exact absurd hbefore hlost
        · rw [← heq] at hend
          rw [List.isEmpty_iff.1 hend] at hbefore
          cases hbefore
      · have hboth := (Twins.alike_statement).outcome hlike
        rw [h.statement_eq, hturn.statement_eq] at hboth
        cases hboth with
        | lost hlost => exact absurd hahead hlost
        | ok hgives =>
            obtain ⟨-, hlike₁⟩ := hgives
            refine ⟨v, t₁, t₂, fuel, hturn, ?_, hrest⟩
            have hne := List.ne_nil_of_mem hsemi
            have hnext := (hlike₁.cursor.skipBlank hne).advance (List.length_pos_iff.2 hne)
            obtain ⟨hhead', ht₂⟩ := hturn.next
            rw [hs₂, ht₂]
            exact hlike₁.goto hnext (Cursor.onward_advance (List.length_pos_iff.2 hne))
              (Cursor.onward_advance (List.length_pos_of_mem (List.mem_of_head? hhead')))

theorem Turns.continued (h : Turns s s₁)
    (hlike : (Twins.continued name name' bs more).Like k l s t)
    (ht : statements fuel t = .ok u t') :
    ∃ t₁ fuel', Turns t t₁ ∧ (Twins.continued name name' bs more).Like k l s₁ t₁ ∧
      statements fuel' t₁ = .ok u t' := by
  induction h using Relation.ReflTransGen.head_induction_on generalizing t fuel with
  | refl => exact ⟨t, fuel, .refl, hlike, ht⟩
  | head hturn _ ih =>
      obtain ⟨w, s₂, hturn⟩ := hturn
      obtain ⟨v, t₂, t₃, fuel', hturn', hlike', ht'⟩ := hturn.continued hlike ht
      obtain ⟨t₁, fuel'', hturns, hlike₁, ht₁⟩ := ih hlike' ht'
      exact ⟨t₁, fuel'', .head ⟨v, t₂, hturn'⟩ hturns, hlike₁, ht₁⟩

end

theorem Turns.outline {f₀ : Front} {fs : List Frame} {cur : Stmt} {s s' : Compiler}
    (h : Turns s s') (hf : Follows fs cur s) (hr : Reading f₀ fs cur s.front) :
    ∃ fs' cur', Follows fs' cur' s' ∧ Reading f₀ fs' cur' s'.front ∧
      ∀ a : Stmt, a.Extends (Outline.ground fs cur) → a.Extends (Outline.ground fs' cur') := by
  induction h with
  | refl => exact ⟨fs, cur, hf, hr, fun _ ha => ha⟩
  | tail _ hturn ih =>
      obtain ⟨fs₁, cur₁, hf₁, hr₁, hext⟩ := ih
      obtain ⟨w, s₁, hturn⟩ := hturn
      obtain ⟨fs₂, cur₂, hstep, hf₂, hr₂, -⟩ := hturn.continues hf₁ hr₁
      exact ⟨fs₂, cur₂, hf₂, hr₂, fun a ha => hstep.ground (hext a ha)⟩

/-- Where no block is open, all that has been read is a tree. -/
theorem Follows.items {f₀ : Front} {fs : List Frame} {cur : Stmt} {s : Compiler}
    (hf : Follows fs cur s) (hr : Reading f₀ fs cur s.front) (hb : s.blocks.items = []) :
    fs = [] ∧ Items f₀ cur s.front := by
  have hblocks := hf.blocks
  rw [hb] at hblocks
  obtain rfl : fs = [] := List.map_eq_nil_iff.1 hblocks.symm
  cases hr with
  | top hitems => exact ⟨rfl, hitems⟩

end Compiler

namespace Program

open Compiler Grammar

/-- The program that comes out if the text ends at a state between two statements. -/
structure At (p : Program) (f₀ : Front) (s : Compiler) (t : Stmt) : Prop where
  follows : Follows [] t s
  items : Items f₀ t s.front
  code : p.code.toList = s.code.code.toList ++ [Opcode.stop.toByte]
  size : p.code.size ≤ 65535
  store : p.store = s.store
  sourceMap : p.sourceMap = s.sourceMap
  ordered : s.sourceMap.Ordered s.code.pos

/-- Both programs come out at states of one run: that of the longer text. -/
theorem exists_at {name name' : String} {bs more : List UInt8} {limits : Limits} {p p' : Program}
    (h : compile (.ofBytes name bs) limits = .ok p)
    (h' : compile (.ofBytes name' (bs ++ more)) limits = .ok p') :
    ∃ s t s' t' fuel, p.At (Grammar.start (.ofBytes name' (bs ++ more)) limits) s t ∧
      p'.At (Grammar.start (.ofBytes name' (bs ++ more)) limits) s' t' ∧ t.Extends t' ∧
      statements fuel s = .ok () { s' with cursor := s'.cursor.skipBlank } := by
  obtain ⟨s₀, hst, hblocks, hcode, hstore, hmap⟩ := exists_statements h
  obtain ⟨s₀', hst', hblocks', hcode', hstore', hmap'⟩ := exists_statements h'
  obtain ⟨-, -, _, -, hsize⟩ := compile_ok h
  obtain ⟨-, -, _, -, hsize'⟩ := compile_ok h'
  have hordered := (located_statements (follows_start _ _) (.top .nil)
    (SourceMap.ordered_empty _) hst).ordered
  have hordered' := (located_statements (follows_start _ _) (.top .nil)
    (SourceMap.ordered_empty _) hst').ordered
  obtain ⟨s₁, hturns, rfl⟩ := statements_turns hst
  have hlike := Twins.Like.of_same (τ := Twins.continued name name' bs more)
    (s := Compiler.start (.ofBytes name bs) limits)
    (t := Compiler.start (.ofBytes name' (bs ++ more)) limits) rfl rfl
    ⟨rfl, by simp [Compiler.start, Cursor.ofSource, Source.ofBytes],
      by simp [Compiler.start, Cursor.ofSource, Source.ofBytes]⟩ rfl rfl
  obtain ⟨s, fuel, hturns', hlike₁, hrest⟩ := hturns.continued hlike hst'
  obtain ⟨s', hturns'', rfl⟩ := statements_turns hrest
  obtain ⟨fs, t, hf, hr, -⟩ := hturns'.outline (follows_start _ _) (.top .nil)
  obtain ⟨fs', t', hf', hr', hext⟩ := hturns''.outline hf hr
  have hclosed : s.blocks.items = [] := by
    have hmap := hlike₁.blocks
    rw [show s₁.blocks.items = [] from hblocks] at hmap
    exact List.map_eq_nil_iff.1 hmap
  obtain ⟨rfl, hitems⟩ := hf.items hr hclosed
  obtain ⟨rfl, hitems'⟩ := hf'.items hr' hblocks'
  refine ⟨s, t, s', t', fuel, ?_, ?_, hext t .refl, hrest⟩
  · refine ⟨hf, hitems, ?_, hsize.size, hstore.trans hlike₁.store.symm, ?_, ?_⟩
    · rw [hlike₁.code]
      exact hcode
    · exact hmap.trans hlike₁.sourceMap.symm
    · rw [hlike₁.code, show s.sourceMap = s₁.sourceMap from hlike₁.sourceMap]
      exact hordered
  · exact ⟨hf', hitems', hcode', hsize'.size, hstore', hmap', hordered'⟩

section

variable {source : Source} {limits : Limits} {p : Program} {s : Compiler} {t : Stmt}

/-- Code, tree and records of such a program belong together. -/
theorem At.checked (h : p.At (Grammar.start source limits) s t) (hv : limits.validate = .ok ()) :
    ∃ rs, ({ p with sourceMap := .empty } : Program).Checked t rs ∧ s.front.Sound rs := by
  have hvalid := Limits.valid_of_validate hv
  obtain ⟨rs, hok, hbody, hdeclares, hfine⟩ :=
    h.items.declares hvalid.maxSlots.2 (Limits.buckets_pos hv)
  have hcode : p.code.toList = Code.bytes (t.code none 0 ++ [.plain .stop]) := by
    rw [h.code, h.follows.code, Code.bytes_append]
    rfl
  refine ⟨rs, ⟨⟨hcode, h.size, h.follows.fits, h.follows.enclosed.1, h.follows.enclosed.2, ?_⟩,
    hfine, ?_⟩, hok, ?_⟩
  · simp [SourceMap.empty]
  · rw [show ({ p with sourceMap := .empty } : Program).heap = s.front.store.heap from
      congrArg Store.heap h.store]
    exact hdeclares
  · intro body hb
    rw [hbody] at hb
    cases hb

theorem mem_instructions_of_extends {p' : Program} {t' : Stmt} (h : p.IsCodeOf t)
    (h' : p'.IsCodeOf t') (hext : t.Extends t') {i : Instruction} (hi : i ∈ p.instructions)
    (hop : i.op ≠ .stop) : i ∈ p'.instructions := by
  have hlayout {p : Program} {t : Stmt} (h : p.IsCodeOf t) : p.instructions =
      (Code.layout 0 (t.code none 0 ++ [.plain .stop])).map fun x => x.2.place x.1 := by
    rw [instructions, h.items, List.filterMap_map, ← List.filterMap_eq_map]
    rfl
  obtain ⟨c, hc⟩ := hext.code
  rw [hlayout h, Code.layout_append, List.map_append, List.mem_append] at hi
  rw [hlayout h', hc, List.append_assoc, Code.layout_append, List.map_append, List.mem_append]
  refine .inl (hi.resolve_right fun hstop => hop ?_)
  obtain ⟨x, hx, rfl⟩ := List.mem_map.1 hstop
  obtain rfl := List.mem_singleton.1 hx
  rfl

/-- A name that is a procedure or function has been defined. -/
theorem exists_definition {h : Heap} {rs : List Record} {ds : List (Definition × Nat)}
    (hd : h.Declares rs ds) {id : Ident} (hid : HasIdent rs id)
    (hbody : isBody (h.identValue id) = true) : ∃ d ∈ ds, d.1.id = id := by
  by_contra hnone
  have hentry := hd.others id hid fun d hmem heq => hnone ⟨d, hmem, heq⟩
  rw [← Heap.value_entry, hentry] at hbody
  cases hbody

end

/-- One program begins with another one, up to its final `stop`. -/
structure Begins (p p' : Program) : Prop where
  code : ∃ front, p.code.toList = front ++ [Opcode.stop.toByte] ∧ front <+: p'.code.toList
  names : ∀ id ∈ p.names, id ∈ p'.names ∧ p'.heap.identName id = p.heap.identName id ∧
    p'.heap.identHash id = p.heap.identHash id
  texts : ∀ i ∈ p.instructions, i.op = .litStr →
    i ∈ p'.instructions ∧ p'.heap.strBytes i.word = p.heap.strBytes i.word
  bodies : ∀ id ∈ p.names, isBody (p.heap.identValue id) = true →
    p'.heap.identValue id = p.heap.identValue id ∧ p'.heap.identSlot id = p.heap.identSlot id ∧
      p'.heap.identArguments id = p.heap.identArguments id
  places : ∀ pc < p.code.size - 1, p'.sourceMap.lookup? pc = p.sourceMap.lookup? pc

/-- More text leaves what has been compiled as it is. -/
theorem begins_of_append {name name' : String} {bs more : List UInt8} {limits : Limits}
    {p p' : Program} (h : compile (.ofBytes name bs) limits = .ok p)
    (h' : compile (.ofBytes name' (bs ++ more)) limits = .ok p') : p.Begins p' := by
  -- `s` is where the shorter text ends; the longer one is read from there on by `hrest`.
  obtain ⟨s, t, s', t', fuel, hp, hp', hext, hrest⟩ := exists_at h h'
  have hv := (compile_ok h).1
  obtain ⟨rs, hchecked, hsound⟩ := hp.checked hv
  obtain ⟨_, hchecked', -⟩ := hp'.checked hv
  have hspares : Spares [] (statements fuel) := spares_statements fuel
  obtain ⟨rs', hkept⟩ := hspares s () _ rs hrest hsound (by simp)
  have hheap : p.heap = s.front.store.heap := congrArg Store.heap hp.store
  have hheap' : p'.heap = s'.front.store.heap := congrArg Store.heap hp'.store
  have hnamed {id : Ident} (hid : id ∈ p.names) : HasIdent rs id :=
    (Checked.mem_names (by rw [hp.store]; exact hsound.store) id).1 hid
  constructor
  · obtain ⟨c, hc⟩ := hext.code
    refine ⟨_, hp.code, ?_⟩
    rw [hp'.code, hp.follows.code, hp'.follows.code, Outline.code, Outline.code, hc,
      Code.bytes_append, List.append_assoc]
    exact List.prefix_append _ _
  · intro id hid
    refine ⟨?_, ?_, ?_⟩
    · exact (Checked.mem_names (by rw [hp'.store]; exact hkept.sound.store) id).2
        ((hnamed hid).mono hkept.records)
    · rw [hheap, hheap']
      exact hkept.edited.identName hsound.store.ledger hkept.sound.store.ledger hkept.records
        (hnamed hid)
    · rw [hheap, hheap']
      exact hkept.edited.identHash hsound.store.ledger hkept.sound.store.ledger hkept.records
        (hnamed hid)
  · intro i hi hop
    refine ⟨?_, ?_⟩
    · exact mem_instructions_of_extends hchecked.code hchecked'.code hext hi (by simp [hop])
    · obtain ⟨x, hx, rfl⟩ := hchecked.point_of_mem hi
      have htext : HasText rs (x.2.place x.1.addr).word :=
        (hchecked.code.flowAll hchecked.fine x hx).suits.text (by rwa [Instr.op_place] at hop)
      rw [hheap, hheap']
      exact hkept.edited.strBytes hsound.store.ledger hkept.sound.store.ledger hkept.records htext
  · intro id hid hbody
    obtain ⟨d, hd, rfl⟩ := exists_definition hchecked.declares (hnamed hid) hbody
    have hentry : p'.heap.entry d.1.id = p.heap.entry d.1.id :=
      (hchecked'.declares.defined d (hext.definitions d hd)).2.trans
        (hchecked.declares.defined d hd).2.symm
    exact ⟨congrArg Entry.value hentry, congrArg Entry.slot hentry,
      congrArg Entry.arguments hentry⟩
  · intro pc hpc
    have hsize : p.code.size - 1 = s.code.pos := by
      rw [← Array.length_toList, hp.code]
      simp [CodeBuffer.pos]
    rw [hp'.sourceMap, hp.sourceMap]
    exact (located_statements hp.follows (.top hp.items) hp.ordered hrest).keeps pc (hsize ▸ hpc)

/-- The continuation calls the function, takes its parameter's name for a parameter of its own and
adds a name. -/
theorem begins_of_append_of_func : ∃ p p' : Program,
    compile (.ofText "m" "func f(x); return x; end; print \"ab\"; ") default = .ok p ∧
    compile (.ofText "m" ("func f(x); return x; end; print \"ab\"; " ++
      "proc g(x); y = f(x); end; g 1;")) default = .ok p' ∧
    (p.names.length, p'.names.length) = (2, 4) ∧ p.Begins p' := by
  obtain ⟨p, hc, hn⟩ := exists_of_compile
    (.ofText "m" "func f(x); return x; end; print \"ab\"; ") default
    (fun p => p.names.length = 2) (by decide +kernel)
  obtain ⟨p', hc', hn'⟩ := exists_of_compile
    (.ofText "m" ("func f(x); return x; end; print \"ab\"; " ++ "proc g(x); y = f(x); end; g 1;"))
    default (fun p => p.names.length = 4) (by decide +kernel)
  refine ⟨p, p', hc, hc', by rw [of_decide_eq_true hn, of_decide_eq_true hn'], ?_⟩
  have happend : Ascii.bytes ("func f(x); return x; end; print \"ab\"; " ++
        "proc g(x); y = f(x); end; g 1;") =
      Ascii.bytes "func f(x); return x; end; print \"ab\"; " ++
        Ascii.bytes "proc g(x); y = f(x); end; g 1;" := by decide +kernel
  rw [Source.ofText, happend] at hc'
  exact begins_of_append hc hc'

end Program

end CellScript
