import CellScript.Proofs.Onward

/-!
Texts that are read alike.

The compiler learns about its text through a few recognizers, and it remembers
offsets for messages only. So when two texts cannot be told apart by the
recognizers, their compilations run side by side: the same code, the same records,
the same stacks, and if one fails so does the other, for the same reason. `Twins`
lists what this takes. Corresponding places have the same outlook behind blanks,
and passing what lies in it, a semicolon or a literal leads to corresponding
places again.

A place of the first text may be lost: from there on nothing is said about the
other text, as when the first one ends and the other goes on. Nothing is said about
failures either if the end of the first text is such a place.

The texts may differ in length, and with it the fuel that the compiler hands out.
The bounds `k` and `l` on the bytes that are left show that on either side fuel
never runs out.
-/

namespace CellScript

open Ascii

/-- Two texts and what corresponds in them. -/
structure Twins where
  left : Source
  right : Source
  /-- Corresponding places. -/
  cursor : Cursor → Cursor → Prop
  /-- Rests of the first text at which the other one is no longer followed. -/
  lost : List UInt8 → Prop
  /-- Corresponding source maps. -/
  sourceMap : SourceMap → SourceMap → Prop
  lost_suffix : ∀ {bs bs' : List UInt8}, lost bs → bs' <:+ bs → lost bs'
  skip : ∀ {c d : Cursor}, cursor c d → lost c.skipBlank.rest ∨ cursor c.skipBlank d.skipBlank
  sight : ∀ {c d : Cursor}, cursor c d → c.skipBlank = c → d.skipBlank = d →
    lost c.rest ∨ (outlook d.rest = outlook c.rest ∧ d.rest.head? = c.rest.head?)
  pass : ∀ {c d : Cursor} {n : Nat}, cursor c d → n ≤ (outlook c.rest).length →
    lost (c.advance n).rest ∨ cursor (c.advance n) (d.advance n)
  semicolon : ∀ {c d : Cursor}, cursor c d → c.rest.head? = some Symbol.semicolon →
    lost (c.advance 1).rest ∨ cursor (c.advance 1) (d.advance 1)
  literal : ∀ {c d : Cursor} {bs bs' raw : List UInt8} {length : Nat} {last : UInt8},
    cursor c d → c.rest = 34 :: bs → d.rest = 34 :: bs' →
    StringLiteral.scan 0 0 bs = .closed raw length last →
    lost (c.advance (raw.length + 2)).rest ∨
      (StringLiteral.scan 0 0 bs' = .closed raw length last ∧
        cursor (c.advance (raw.length + 2)) (d.advance (raw.length + 2)))
  unterminated : ∀ {c d : Cursor} {bs bs' : List UInt8} {n : Nat},
    cursor c d → c.rest = 34 :: bs → d.rest = 34 :: bs' →
    StringLiteral.scan 0 0 bs = .unterminated n →
    lost [] ∨ ∃ n', StringLiteral.scan 0 0 bs' = .unterminated n'
  invalidEscape : ∀ {c d : Cursor} {bs bs' : List UInt8} {n : Nat} {e : UInt8},
    cursor c d → c.rest = 34 :: bs → d.rest = 34 :: bs' →
    StringLiteral.scan 0 0 bs = .invalidEscape n e →
    lost [] ∨ ∃ n', StringLiteral.scan 0 0 bs' = .invalidEscape n' e
  note : ∀ {c d : Cursor} {m m' : SourceMap} {n : Nat} (offset : Nat),
    cursor c d → n ≤ c.rest.length → sourceMap m m' →
    sourceMap (m.push offset (left.span c.pos (c.pos + n)))
      (m'.push offset (right.span d.pos (d.pos + n)))

namespace Twins

variable (τ : Twins)

/-- Words at corresponding places. -/
def Word (w v : WordToken) : Prop :=
  v.bytes = w.bytes ∧ ∃ c d, τ.cursor c d ∧ w.start = c.pos ∧ v.start = d.pos ∧
    w.bytes.length ≤ c.rest.length

/-- The compiler is in the same state at corresponding places; fewer than `k` and `l` bytes are
left there. Of open blocks only the kinds agree. -/
structure Like (k l : Nat) (s t : Compiler) : Prop where
  left : s.source = τ.left
  right : t.source = τ.right
  cursor : τ.cursor s.cursor t.cursor
  leftRest : s.cursor.rest.length < k
  rightRest : t.cursor.rest.length < l
  code : t.code = s.code
  store : t.store = s.store
  sourceMap : τ.sourceMap s.sourceMap t.sourceMap
  maxSlots : t.maxSlots = s.maxSlots
  pending : t.pending = s.pending
  depth : t.blocks.capacity = s.blocks.capacity
  blocks : t.blocks.items.map Block.construct = s.blocks.items.map Block.construct
  loopStarts : t.loopStarts = s.loopStarts
  savedExits : t.savedExits = s.savedExits
  loopExits : t.loopExits = s.loopExits
  exitCount : t.exitCount = s.exitCount
  forward : t.forward = s.forward
  body : t.body = s.body

/-- Both runs come to the same result, and to the same state at corresponding places. -/
def Gives {α : Type} (k l : Nat) (a b : α) (s t : Compiler) : Prop := b = a ∧ τ.Like k l s t

/-- The ends of two runs correspond: they are related as said, or both are failures for the same
reason, unless the first text has got lost. -/
inductive Outcome {α : Type} (Q : α → α → Compiler → Compiler → Prop) :
    EStateM.Result CompileError Compiler α → EStateM.Result CompileError Compiler α → Prop
  | ok {a b : α} {s t : Compiler} : Q a b s t → Outcome Q (.ok a s) (.ok b t)
  | error {e e' : CompileError} {s t : Compiler} :
      e'.cause = e.cause → e.cause ≠ .outOfFuel → Outcome Q (.error e s) (.error e' t)
  | lost {a : α} {s : Compiler} {r : EStateM.Result CompileError Compiler α} :
      τ.lost s.cursor.rest → Outcome Q (.ok a s) r
  | excused {e : CompileError} {s : Compiler} {r : EStateM.Result CompileError Compiler α} :
      τ.lost [] → Outcome Q (.error e s) r

/-- Two steps that lead from related states to related ends. The first one reads forward. -/
structure Couples {α : Type} (P : Compiler → Compiler → Prop) (x y : Compile α)
    (Q : α → α → Compiler → Compiler → Prop) : Prop where
  onward : Compiler.Onward x
  outcome : ∀ {s t}, P s t → τ.Outcome Q (x s) (y t)

variable {τ}

theorem Outcome.mono {α : Type} {Q R : α → α → Compiler → Compiler → Prop}
    {x y : EStateM.Result CompileError Compiler α} (h : τ.Outcome Q x y)
    (hQ : ∀ {a b s t}, Q a b s t → R a b s t) : τ.Outcome R x y := by
  cases h with
  | ok hq => exact .ok (hQ hq)
  | error h₁ h₂ => exact .error h₁ h₂
  | lost h => exact .lost h
  | excused h => exact .excused h

/-- Where nothing gets lost, the two runs end in the same way. -/
theorem Outcome.agree {α : Type} {Q : α → α → Compiler → Compiler → Prop}
    {x y : EStateM.Result CompileError Compiler α} (h : τ.Outcome Q x y)
    (hlost : ∀ bs, ¬ τ.lost bs) :
    (∃ a b s t, x = .ok a s ∧ y = .ok b t ∧ Q a b s t) ∨
      ∃ e e' s t, x = .error e s ∧ y = .error e' t ∧ e'.cause = e.cause := by
  cases h with
  | ok hq => exact .inl ⟨_, _, _, _, rfl, rfl, hq⟩
  | error h _ => exact .inr ⟨_, _, _, _, rfl, rfl, h⟩
  | lost h => exact absurd h (hlost _)
  | excused h => exact absurd h (hlost _)

/-- States that differ in text, place and source map only. -/
theorem Like.of_same {s t : Compiler} (hleft : s.source = τ.left) (hright : t.source = τ.right)
    (hcursor : τ.cursor s.cursor t.cursor) (hmap : τ.sourceMap s.sourceMap t.sourceMap)
    (h : { t with source := s.source, cursor := s.cursor, sourceMap := s.sourceMap } = s) :
    τ.Like (s.cursor.rest.length + 1) (t.cursor.rest.length + 1) s t := by
  have field {β : Type} (f : Compiler → β) := congrArg f h
  exact {
    left := hleft
    right := hright
    cursor := hcursor
    leftRest := Nat.lt_succ_self _
    rightRest := Nat.lt_succ_self _
    code := field Compiler.code
    store := field Compiler.store
    sourceMap := hmap
    maxSlots := field Compiler.maxSlots
    pending := field Compiler.pending
    depth := field fun s => s.blocks.capacity
    blocks := field fun s => s.blocks.items.map Block.construct
    loopStarts := field Compiler.loopStarts
    savedExits := field Compiler.savedExits
    loopExits := field Compiler.loopExits
    exitCount := field Compiler.exitCount
    forward := field Compiler.forward
    body := field Compiler.body }

theorem Like.mono {k l k' l' : Nat} {s t : Compiler} (h : τ.Like k l s t) (hk : k ≤ k')
    (hl : l ≤ l') : τ.Like k' l' s t :=
  { h with
    leftRest := Nat.lt_of_lt_of_le h.leftRest hk
    rightRest := Nat.lt_of_lt_of_le h.rightRest hl }

namespace Couples

variable {α β : Type} {P P' : Compiler → Compiler → Prop} {k l : Nat}
  {Q : α → α → Compiler → Compiler → Prop} {R : β → β → Compiler → Compiler → Prop}

theorem pre {x y : Compile α} (h : τ.Couples P x y Q) (hp : ∀ {s t}, P' s t → P s t) :
    τ.Couples P' x y Q :=
  ⟨h.onward, fun hst => h.outcome (hp hst)⟩

theorem bind {x y : Compile α} {f g : α → Compile β} (hx : τ.Couples P x y Q)
    (hf : ∀ a b, τ.Couples (Q a b) (f a) (g b) R) : τ.Couples P (x >>= f) (y >>= g) R := by
  refine ⟨hx.onward.bind fun a => (hf a a).onward, fun {s t} hst => ?_⟩
  have hend := hx.outcome hst
  simp only [Bind.bind, EStateM.bind]
  cases hxs : x s with
  | error e s' =>
      rw [hxs] at hend
      cases hyt : y t with
      | error e' t' =>
          rw [hyt] at hend
          cases hend with
          | error h₁ h₂ => exact .error h₁ h₂
          | excused h => exact .excused h
      | ok b t' =>
          rw [hyt] at hend
          cases hend with
          | excused h => exact .excused h
  | ok a s' =>
      rw [hxs] at hend
      -- What follows a lost place is lost, because the compiler reads forward.
      have hgone (hl : τ.lost s'.cursor.rest) (r : EStateM.Result CompileError Compiler β) :
          τ.Outcome R (f a s') r := by
        cases hfa : f a s' with
        | ok b s'' => exact .lost (τ.lost_suffix hl ((hf a a).onward _ _ _ hfa).suffix)
        | error e s'' => exact .excused (τ.lost_suffix hl List.nil_suffix)
      cases hyt : y t with
      | error e' t' =>
          rw [hyt] at hend
          cases hend with
          | lost h => exact hgone h _
      | ok b t' =>
          rw [hyt] at hend
          cases hend with
          | ok hq => exact (hf a b).outcome hq
          | lost h => exact hgone h _

/-- Both sides go on with the same result. -/
theorem andThen {x y : Compile α} {f g : α → Compile β} (hx : τ.Couples P x y (τ.Gives k l))
    (hf : ∀ a, τ.Couples (τ.Like k l) (f a) (g a) R) : τ.Couples P (x >>= f) (y >>= g) R := by
  refine hx.bind fun a b => ⟨(hf a).onward, fun {s t} hst => ?_⟩
  obtain ⟨rfl, hst⟩ := hst
  exact (hf _).outcome hst

theorem pure (a : α) : τ.Couples (τ.Like k l) (pure a) (pure a) (τ.Gives k l) :=
  ⟨.pure a, fun h => .ok ⟨rfl, h⟩⟩

theorem ite {c : Prop} [Decidable c] {x y x' y' : Compile α} (hx : τ.Couples P x x' Q)
    (hy : τ.Couples P y y' Q) : τ.Couples P (if c then x else y) (if c then x' else y') Q := by
  by_cases hc : c
  · rwa [if_pos hc, if_pos hc]
  · rwa [if_neg hc, if_neg hc]

/-- The two sides may look at their states. -/
theorem get_bind {f g : Compiler → Compile α} (h : ∀ s t, τ.Couples P (f s) (g t) Q) :
    τ.Couples P (get >>= f) (get >>= g) Q :=
  ⟨.get_bind fun s => (h s s).onward, fun {s t} hst => (h s t).outcome hst⟩

/-- They may look at what is the same in both. -/
theorem state {f g : Compiler → Compile α} (hg : ∀ s t, P s t → g t = g s)
    (h : ∀ s, τ.Couples P (f s) (g s) Q) : τ.Couples P (get >>= f) (get >>= g) Q := by
  refine ⟨.get_bind fun s => (h s).onward, fun {s t} hst => ?_⟩
  have hend := (h s).outcome hst
  rw [← hg s t hst] at hend
  exact hend

theorem modify {f g : Compiler → Compiler} (hc : ∀ s, (f s).cursor = s.cursor)
    (h : ∀ s t, P s t → τ.Like k l (f s) (g t)) :
    τ.Couples P (modify f) (modify g) (τ.Gives k l) :=
  ⟨.modify hc, fun {s t} hst => .ok ⟨rfl, h s t hst⟩⟩

theorem throw {e e' : CompileError} (h : e'.cause = e.cause) (hfuel : e.cause ≠ .outOfFuel) :
    τ.Couples P (throw e : Compile α) (throw e') Q :=
  ⟨.throw e, fun _ => .error h hfuel⟩

/-- Where no place is near enough, nothing has to be shown. -/
theorem never {x y : Compile α} (hx : Compiler.Onward x) (h : ∀ {s t}, ¬ P s t) :
    τ.Couples P x y Q :=
  ⟨hx, fun hst => (h hst).elim⟩

end Couples

/-! ### Reading -/

/-- Behind blanks, corresponding places look the same. -/
theorem look {c d : Cursor} (h : τ.cursor c d) : τ.lost c.skipBlank.rest ∨
    (τ.cursor c.skipBlank d.skipBlank ∧ outlook d.skipBlank.rest = outlook c.skipBlank.rest ∧
      d.skipBlank.rest.head? = c.skipBlank.rest.head?) := by
  obtain hlost | hskip := τ.skip h
  · exact .inl hlost
  · obtain hlost | hsight := τ.sight hskip (by simp) (by simp)
    · exact .inl hlost
    · exact .inr ⟨hskip, hsight⟩

/-- A recognizer finds corresponding things at corresponding places and ends at such places. -/
def Recognizes {α : Type} (τ : Twins) (V : α → α → Prop) (f : Cursor → α × Cursor) : Prop :=
  ∀ c d : Cursor, τ.cursor c d →
    τ.lost (f c).2.rest ∨ (V (f c).1 (f d).1 ∧ τ.cursor (f c).2 (f d).2)

/-- It is enough to look at places that have no blanks in front of them. -/
theorem Recognizes.of_look {α : Type} {V : α → α → Prop} {f : Cursor → α × Cursor}
    (hskip : ∀ c : Cursor, f c.skipBlank = f c) (ho : ∀ c : Cursor, c.Onward (f c).2)
    (h : ∀ {c d : Cursor}, τ.cursor c d → c.skipBlank = c → d.skipBlank = d →
      outlook d.rest = outlook c.rest → d.rest.head? = c.rest.head? →
      τ.lost (f c).2.rest ∨ (V (f c).1 (f d).1 ∧ τ.cursor (f c).2 (f d).2)) :
    τ.Recognizes V f := by
  intro c d hcd
  rw [← hskip c, ← hskip d]
  obtain hlost | ⟨hcursor, hout, hhead⟩ := τ.look hcd
  · exact .inl (τ.lost_suffix hlost (ho c.skipBlank).suffix)
  · exact h hcursor (by simp) (by simp) hout hhead

theorem recognizes_atEnd : τ.Recognizes Eq Cursor.atEnd := by
  refine .of_look (fun c => by simp [Cursor.atEnd]) Cursor.onward_skipBlank ?_
  intro c d h hc hd hout hhead
  refine .inr ⟨?_, by simpa [Cursor.atEnd, hc, hd] using h⟩
  simp only [Cursor.atEnd, hc, hd]
  cases hc' : c.rest <;> cases hd' : d.rest <;> simp_all

theorem recognizes_atStatementEnd : τ.Recognizes Eq Cursor.atStatementEnd := by
  refine .of_look (fun c => by simp [Cursor.atStatementEnd]) Cursor.onward_skipBlank ?_
  intro c d h hc hd hout hhead
  refine .inr ⟨?_, by simpa [Cursor.atStatementEnd, hc, hd] using h⟩
  simp only [Cursor.atStatementEnd, hc, hd, hhead]

theorem recognizes_symbol {b : UInt8} (hb : joins b = true ∨ b = Symbol.semicolon) :
    τ.Recognizes Eq (Cursor.symbol b) := by
  refine .of_look (Cursor.symbol_skipBlank b) (Cursor.onward_symbol b) ?_
  intro c d h hc hd hout hhead
  simp only [Cursor.symbol, hc, hd, hhead]
  by_cases hfound : c.rest.head? = some b
  · rw [if_pos hfound, if_pos hfound]
    have hnext : τ.lost (c.advance 1).rest ∨ τ.cursor (c.advance 1) (d.advance 1) := by
      obtain hjoins | rfl := hb
      · refine τ.pass h ?_
        obtain ⟨bs, hbs⟩ := List.head?_eq_some_iff.1 hfound
        simp [hbs, outlook_cons, hjoins]
      · exact τ.semicolon h hfound
    exact hnext.imp_right fun hcursor => ⟨rfl, hcursor⟩
  · rw [if_neg hfound, if_neg hfound]
    exact .inr ⟨rfl, h⟩

theorem recognizes_word : τ.Recognizes (Option.Rel τ.Word) Cursor.word := by
  refine .of_look Cursor.word_skipBlank Cursor.onward_word ?_
  intro c d h hc hd hout hhead
  have hbytes : d.rest.takeWhile isWordByte = c.rest.takeWhile isWordByte := by
    rw [← takeWhile_outlook (fun _ => joins_of_isWordByte) c.rest, ← hout,
      takeWhile_outlook fun _ => joins_of_isWordByte]
  simp only [Cursor.word, hc, hd, hhead, hbytes]
  by_cases hfound : c.rest.head?.any isWordStart = true
  · rw [if_pos hfound, if_pos hfound]
    have hlength : (c.rest.takeWhile isWordByte).length ≤ (outlook c.rest).length := by
      rw [← takeWhile_outlook (fun _ => joins_of_isWordByte) c.rest]
      exact (List.takeWhile_prefix _).length_le
    refine (τ.pass h hlength).imp_right fun hcursor => ⟨.some ⟨rfl, c, d, h, rfl, rfl, ?_⟩, hcursor⟩
    exact (List.takeWhile_prefix _).length_le
  · rw [if_neg hfound, if_neg hfound]
    exact .inr ⟨.none, h⟩

/-- Operators correspond whose meaning is the same. -/
abbrev SameOperator (t u : OperatorToken) : Prop := u.operator = t.operator

theorem recognizes_operator {table : List Operator.Row}
    (ht : table.all Operator.Row.joins = true) :
    τ.Recognizes (Option.Rel SameOperator) (Cursor.operator table) := by
  refine .of_look (fun c => by simp [Cursor.operator]) (Cursor.onward_operator ht) ?_
  intro c d h hc hd hout hhead
  have hmatch : Operator.match? table d.rest = Operator.match? table c.rest := by
    rw [← Operator.match?_outlook ht c.rest, ← hout, Operator.match?_outlook ht]
  simp only [Cursor.operator, hc, hd, hmatch]
  cases hfound : Operator.match? table c.rest with
  | none => exact .inr ⟨.none, h⟩
  | some found =>
      obtain ⟨o, n⟩ := found
      exact (τ.pass h (Operator.length_le_of_match? ht hfound)).imp_right fun hcursor =>
        ⟨.some rfl, hcursor⟩

theorem recognizes_unaryOperator :
    τ.Recognizes (Option.Rel SameOperator) Cursor.unaryOperator := by
  refine .of_look Cursor.unaryOperator_skipBlank Cursor.onward_unaryOperator ?_
  intro c d h hc hd hout hhead
  have hsigned : Operator.isSignedNumeral d.rest = Operator.isSignedNumeral c.rest := by
    rw [← Operator.isSignedNumeral_outlook c.rest, ← hout, Operator.isSignedNumeral_outlook]
  simp only [Cursor.unaryOperator, hc, hd, hsigned]
  split
  · exact .inr ⟨.none, h⟩
  · exact recognizes_operator Operator.joins_unary c d h

/-- The same for a recognizer that can fail. -/
structure Attempts {α : Type} (τ : Twins) (V : α → α → Prop) (act : Cursor.Action α) : Prop where
  ok : ∀ {c d c' : Cursor} {a : α}, τ.cursor c d → act c = .ok a c' →
    τ.lost c'.rest ∨ ∃ b d', act d = .ok b d' ∧ V a b ∧ τ.cursor c' d'
  error : ∀ {c d c' : Cursor} {e : CompileError}, τ.cursor c d → act c = .error e c' →
    e.cause ≠ .outOfFuel ∧ (τ.lost [] ∨ ∃ e' d', act d = .error e' d' ∧ e'.cause = e.cause)

/-- A recognizer that does not look at blanks in front of it may be tried behind them. -/
theorem Attempts.of_look {α : Type} {V : α → α → Prop} {act : Cursor.Action α}
    (hskip : ∀ c : Cursor, act c.skipBlank = act c)
    (ho : ∀ {c c' : Cursor} {a : α}, act c = .ok a c' → c.Onward c')
    (hfuel : ∀ {c c' : Cursor} {e : CompileError}, act c = .error e c' → e.cause ≠ .outOfFuel)
    (hok : ∀ {c d c' : Cursor} {a : α}, τ.cursor c d → c.skipBlank = c → d.skipBlank = d →
      outlook d.rest = outlook c.rest → d.rest.head? = c.rest.head? → act c = .ok a c' →
      τ.lost c'.rest ∨ ∃ b d', act d = .ok b d' ∧ V a b ∧ τ.cursor c' d')
    (herror : ∀ {c d c' : Cursor} {e : CompileError}, τ.cursor c d → c.skipBlank = c →
      d.skipBlank = d → outlook d.rest = outlook c.rest → d.rest.head? = c.rest.head? →
      act c = .error e c' → τ.lost [] ∨ ∃ e' d', act d = .error e' d' ∧ e'.cause = e.cause) :
    τ.Attempts V act where
  ok {c d c' a} hcd hact := by
    rw [← hskip] at hact
    obtain hlost | ⟨hcursor, hout, hhead⟩ := τ.look hcd
    · exact .inl (τ.lost_suffix hlost (ho hact).suffix)
    · rw [← hskip d]
      exact hok hcursor (by simp) (by simp) hout hhead hact
  error {c d c' e} hcd hact := by
    refine ⟨hfuel hact, ?_⟩
    rw [← hskip] at hact
    obtain hlost | ⟨hcursor, hout, hhead⟩ := τ.look hcd
    · exact .inl (τ.lost_suffix hlost List.nil_suffix)
    · rw [← hskip d]
      exact herror hcursor (by simp) (by simp) hout hhead hact

abbrev SameNumber (t u : NumberToken) : Prop := u.value = t.value

theorem attempts_number : τ.Attempts (Option.Rel SameNumber) Cursor.number := by
  have hscan {c d : Cursor} (hout : outlook d.rest = outlook c.rest) :
      Numeral.scan d.rest = Numeral.scan c.rest := by
    rw [← Numeral.scan_outlook c.rest, ← hout, Numeral.scan_outlook]
  refine .of_look Cursor.number_skipBlank Cursor.onward_number ?_ ?_ ?_
  · intro c c' e h
    simp only [Cursor.number] at h
    split at h
    · cases h
    · cases h
      simp
    · cases h
    · split at h
      · cases h
      · cases h
        simp
  · intro c d c' a h hc hd hout hhead hact
    simp only [Cursor.number, hc, hd, hscan hout] at hact ⊢
    split at hact
    · cases hact
      exact .inr ⟨none, d, rfl, .none, h⟩
    · cases hact
    · rename_i text htext
      cases hact
      exact (τ.pass h (Numeral.length_le_of_scan (.inr htext))).imp_right fun hcursor =>
        ⟨_, _, rfl, .some rfl, hcursor⟩
    · rename_i text htext
      split at hact
      · cases hact
        exact (τ.pass h (Numeral.length_le_of_scan (.inl htext))).imp_right fun hcursor =>
          ⟨_, _, rfl, .some rfl, hcursor⟩
      · cases hact
  · intro c d c' e h hc hd hout hhead hact
    simp only [Cursor.number, hc, hd, hscan hout] at hact ⊢
    split at hact
    · cases hact
    · cases hact
      exact .inr ⟨_, _, rfl, rfl⟩
    · cases hact
    · split at hact
      · cases hact
      · cases hact
        exact .inr ⟨_, _, rfl, rfl⟩

/-- Literals correspond that leave the same code and records. -/
abbrev SameString (t u : StringToken) : Prop :=
  Compiler.stringLiteral u = Compiler.stringLiteral t

theorem attempts_string : τ.Attempts (Option.Rel SameString) Cursor.string := by
  have hquote {c d : Cursor} {bs : List UInt8} (hhead : d.rest.head? = c.rest.head?)
      (hbs : c.rest = 34 :: bs) : ∃ bs', d.rest = 34 :: bs' := by
    rw [hbs] at hhead
    exact List.head?_eq_some_iff.1 hhead
  -- No error is one of fuel; then what is read over `c` is read over `d`, and so is a refusal.
  refine .of_look Cursor.string_skipBlank Cursor.onward_string ?_ ?_ ?_
  · intro c c' e h
    simp only [Cursor.string] at h
    split at h
    · split at h <;> cases h <;> simp
    · cases h
  · intro c d c' a h hc hd hout hhead hact
    simp only [Cursor.string, hc, hd] at hact ⊢
    split at hact
    · rename_i bs hbs
      obtain ⟨bs', hbs'⟩ := hquote hhead hbs
      split at hact
      · rename_i raw length last hscan
        cases hact
        obtain hlost | ⟨hscan', hcursor⟩ := τ.literal h hbs hbs' hscan
        · exact .inl hlost
        · simp only [hbs', hscan']
          refine .inr ⟨_, _, rfl, .some ?_, hcursor⟩
          split <;> rfl
      · cases hact
      · cases hact
    · rename_i hno
      cases hact
      refine .inr ⟨none, d, ?_, .none, h⟩
      split
      · rename_i bs' hbs'
        rw [hbs'] at hhead
        obtain ⟨bs, hbs⟩ := List.head?_eq_some_iff.1 hhead.symm
        exact absurd hbs (hno bs)
      · rfl
  · intro c d c' e h hc hd hout hhead hact
    simp only [Cursor.string, hc, hd] at hact ⊢
    split at hact
    · rename_i bs hbs
      obtain ⟨bs', hbs'⟩ := hquote hhead hbs
      split at hact
      · cases hact
      · rename_i n hscan
        cases hact
        obtain hlost | ⟨n', hscan'⟩ := τ.unterminated h hbs hbs' hscan
        · exact .inl hlost
        · simp only [hbs', hscan']
          exact .inr ⟨_, _, rfl, rfl⟩
      · rename_i n e hscan
        cases hact
        obtain hlost | ⟨n', hscan'⟩ := τ.invalidEscape h hbs hbs' hscan
        · exact .inl hlost
        · simp only [hbs', hscan']
          exact .inr ⟨_, _, rfl, rfl⟩
    · cases hact

namespace Couples

variable {α β : Type} {k l : Nat} {Q : α → α → Compiler → Compiler → Prop}

/-- What a recognizer takes from the text is taken from the bytes that are left. -/
theorem read {V : α → α → Prop} {f : Cursor → α × Cursor} (hf : τ.Recognizes V f)
    (ho : ∀ c : Cursor, c.Onward (f c).2) (used : α → Nat)
    (hused : ∀ c : Cursor, (f c).2.rest.length + used (f c).1 ≤ c.rest.length) :
    τ.Couples (τ.Like k l) (Compiler.read f) (Compiler.read f)
      fun a b s t => V a b ∧ τ.Like (k - used a) (l - used b) s t := by
  refine ⟨Compiler.onward_read ho, fun {s t} h => ?_⟩
  obtain hlost | ⟨hV, hcursor⟩ := hf _ _ h.cursor
  · exact .lost hlost
  · refine .ok ⟨hV, { h with cursor := hcursor, leftRest := ?_, rightRest := ?_ }⟩
    · have := hused s.cursor
      have := h.leftRest
      show (f s.cursor).2.rest.length < _
      omega
    · have := hused t.cursor
      have := h.rightRest
      show (f t.cursor).2.rest.length < _
      omega

theorem tryRead {V : α → α → Prop} {act : Cursor.Action α} (hact : τ.Attempts V act)
    (ho : ∀ {c c' : Cursor} {a : α}, act c = .ok a c' → c.Onward c') :
    τ.Couples (τ.Like k l) (Compiler.tryRead act) (Compiler.tryRead act)
      fun a b s t => V a b ∧ τ.Like k l s t := by
  refine ⟨Compiler.onward_tryRead ho, fun {s t} h => ?_⟩
  simp only [Compiler.tryRead]
  cases hs : act s.cursor with
  | ok a c =>
      obtain hlost | ⟨b, d, ht, hV, hcursor⟩ := hact.ok h.cursor hs
      · exact .lost hlost
      · rw [ht]
        refine .ok ⟨hV, { h with cursor := hcursor, leftRest := ?_, rightRest := ?_ }⟩
        · exact Nat.lt_of_le_of_lt (ho hs).suffix.length_le h.leftRest
        · exact Nat.lt_of_le_of_lt (ho ht).suffix.length_le h.rightRest
  | error e c =>
      obtain ⟨hfuel, hlost | ⟨e', d, ht, hcause⟩⟩ := hact.error h.cursor hs
      · exact .excused hlost
      · rw [ht]
        exact .error hcause hfuel

/-- The two sides go on with what has been found, or without. -/
theorem found {γ : Type} {P : Compiler → Compiler → Prop} {V : γ → γ → Prop} {n : Nat}
    {x y : Compile (Option γ)} {f g : Option γ → Compile α}
    (hx : τ.Couples P x y fun a b s t => Option.Rel V a b ∧
      τ.Like (k - n * a.isSome.toNat) (l - n * b.isSome.toNat) s t)
    (hV : ∀ c, V c c) (hnone : τ.Couples (τ.Like k l) (f none) (g none) Q)
    (hsome : ∀ c d, V c d → τ.Couples (τ.Like (k - n) (l - n)) (f (some c)) (g (some d)) Q) :
    τ.Couples P (x >>= f) (y >>= g) Q := by
  refine hx.bind fun a b => ⟨?_, ?_⟩
  · cases a with
    | none => exact hnone.onward
    | some c => exact (hsome c c (hV c)).onward
  · rintro s t ⟨hrel, hst⟩
    cases hrel with
    | none => exact hnone.outcome (by simpa using hst)
    | some hcd => exact (hsome _ _ hcd).outcome (by simpa using hst)

/-- A byte of punctuation decides how to go on. -/
theorem symbol_ite {b : UInt8} (hb : joins b = true ∨ b = Symbol.semicolon)
    {yes no yes' no' : Compile α} (hyes : τ.Couples (τ.Like (k - 1) (l - 1)) yes yes' Q)
    (hno : τ.Couples (τ.Like k l) no no' Q) :
    τ.Couples (τ.Like k l) (Compiler.symbol b >>= fun c => if c = true then yes else no)
      (Compiler.symbol b >>= fun c => if c = true then yes' else no') Q := by
  have hread := Couples.read (k := k) (l := l) (recognizes_symbol (τ := τ) hb)
    (Cursor.onward_symbol b) Bool.toNat ?_
  · refine hread.bind fun c c' => ⟨.ite hyes.onward hno.onward, ?_⟩
    rintro s t ⟨rfl, hst⟩
    cases c with
    | true => exact hyes.outcome hst
    | false => exact hno.outcome hst
  · intro c
    have hskip := (Cursor.onward_skipBlank c).suffix.length_le
    simp only [Cursor.symbol]
    split
    · rename_i hhead
      obtain ⟨bs, hbs⟩ := List.head?_eq_some_iff.1 hhead
      simp only [Cursor.advance, hbs, List.length_cons, List.drop_succ_cons, List.drop_zero,
        Bool.toNat_true] at hskip ⊢
      exact hskip
    · simpa using hskip

end Couples

section

variable {α : Type} {k l : Nat} {P : Compiler → Compiler → Prop}
  {Q : α → α → Compiler → Compiler → Prop}

theorem alike_failHere {cause : Cause} (h : cause ≠ .outOfFuel) :
    τ.Couples P (Compiler.failHere cause : Compile α) (Compiler.failHere cause) Q :=
  ⟨Compiler.onward_failHere _, fun _ => .error rfl h⟩

theorem alike_failAt {w v : WordToken} {cause : Cause} (h : cause ≠ .outOfFuel) :
    τ.Couples P (Compiler.failAt w cause : Compile α) (Compiler.failAt v cause) Q :=
  .throw rfl h

theorem alike_atEnd {x x' y y' : Compile α} (hx : τ.Couples (τ.Like k l) x x' Q)
    (hy : τ.Couples (τ.Like k l) y y' Q) :
    τ.Couples (τ.Like k l) (Compiler.read Cursor.atEnd >>= fun c => if c = true then x else y)
      (Compiler.read Cursor.atEnd >>= fun c => if c = true then x' else y') Q := by
  have hread := Couples.read (k := k) (l := l) (recognizes_atEnd (τ := τ)) Cursor.onward_skipBlank
    (fun _ => 0) fun c => (Cursor.onward_skipBlank c).suffix.length_le
  refine Couples.andThen (k := k) (l := l) ?_ fun c => .ite hx hy
  exact ⟨hread.onward, fun h => (hread.outcome h).mono fun ⟨hV, hst⟩ => ⟨hV.symm, hst⟩⟩

end

end Twins

end CellScript
