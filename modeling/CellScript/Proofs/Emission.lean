import CellScript.Proofs.Action
import CellScript.Proofs.Grammar

/-!
What the small steps of the compiler do.

Reading moves the front, emitting appends code, and everything that expressions
are made of does nothing else but these two and pushing operators. `advance` is
that effect as one operation on states, so the description of a larger step is a
single equation `s' = s.advance f code`, and two such steps compose by appending
their code.

Every recognizer skips blanks first, so trying one in vain does not change what
the next one finds. The grammar speaks of the place before the blanks and the
compiler has passed them already; the lemmas of the first section close that gap.
-/

namespace CellScript

namespace Cursor

theorem skipBlankFrom_idem (pos : Nat) (bs : List UInt8) :
    (skipBlankFrom pos bs).skipBlank = skipBlankFrom pos bs := by
  induction bs generalizing pos with
  | nil => rfl
  | cons b bs ih =>
      by_cases h : Ascii.isBlank b
      · simpa [skipBlankFrom, h] using ih (pos + 1)
      · simp [skipBlankFrom, skipBlank, h]

@[simp] theorem skipBlank_idem (c : Cursor) : c.skipBlank.skipBlank = c.skipBlank :=
  skipBlankFrom_idem c.pos c.rest

@[simp] theorem symbol_skipBlank (b : UInt8) (c : Cursor) : c.skipBlank.symbol b = c.symbol b := by
  simp [symbol]

@[simp] theorem number_skipBlank (c : Cursor) : number c.skipBlank = number c := by
  simp [number]

@[simp] theorem string_skipBlank (c : Cursor) : string c.skipBlank = string c := by
  simp [string]

@[simp] theorem word_skipBlank (c : Cursor) : c.skipBlank.word = c.word := by
  simp [word]

theorem symbol_false {b : UInt8} {c : Cursor} (h : (c.symbol b).1 = false) :
    (c.symbol b).2 = c.skipBlank := by
  simp only [symbol] at h ⊢
  split at h
  · simp at h
  · simp_all

theorem number_none {c c' : Cursor} (h : number c = .ok none c') : c' = c.skipBlank := by
  simp only [number] at h
  split at h
  · simpa using h.symm
  · simp at h
  · simp at h
  · split at h <;> simp at h

theorem string_none {c c' : Cursor} (h : string c = .ok none c') : c' = c.skipBlank := by
  simp only [string] at h
  split at h
  · split at h <;> simp at h
  · simpa using h.symm

theorem word_none {c : Cursor} (h : c.word.1 = none) : c.word.2 = c.skipBlank := by
  simp only [word] at h ⊢
  split at h
  · simp at h
  · simp_all

end Cursor

namespace Front

@[simp] theorem goto_goto (f : Front) (c c' : Cursor) : (f.goto c).goto c' = f.goto c' := rfl

@[simp] theorem cursor_goto (f : Front) (c : Cursor) : (f.goto c).cursor = c := rfl

/-- Passes blanks. -/
def skip (f : Front) : Front := f.goto f.cursor.skipBlank

@[simp] theorem skip_skip (f : Front) : f.skip.skip = f.skip := by
  simp [skip, goto]

end Front

namespace Grammar

theorem NoMark.eq_skip {b : UInt8} {f g : Front} (h : NoMark b f g) : g = f.skip := by
  obtain ⟨hc⟩ := h
  have := Cursor.symbol_false (congrArg Prod.fst hc)
  rw [hc] at this
  simp only at this
  rw [this, Front.skip]

theorem Mark.of_skip {b : UInt8} {f g : Front} (h : Mark b f.skip g) : Mark b f g := by
  obtain ⟨hc⟩ := h
  exact .mk (by simpa [Front.skip, Front.goto] using hc)

end Grammar

namespace Compiler

theorem append_list_append (code : Array UInt8) (bs bs' : List UInt8) :
    code ++ bs ++ bs' = code ++ (bs ++ bs') := by
  apply Array.ext'
  simp

theorem size_append_list (code : Array UInt8) (bs : List UInt8) :
    (code ++ bs).size = code.size + bs.length := by
  rw [← Array.length_toList]
  simp

/-- The part of a state that reading changes. -/
def front (s : Compiler) : Front := ⟨s.cursor, s.store, s.body, s.maxSlots⟩

/-- A state further on in the text, with more code. -/
def advance (s : Compiler) (f : Front) (code : Code) : Compiler :=
  { s with
    cursor := f.cursor
    store := f.store
    body := f.body
    maxSlots := f.maxSlots
    code := { s.code with code := s.code.code ++ code.bytes } }

/-- A state with other operators waiting. -/
def withPending (s : Compiler) (items : List Pending) : Compiler :=
  { s with pending := { s.pending with items } }

section

variable {s s' : Compiler} {f g : Front} {c d : Code}

@[simp] theorem cursor_advance : (s.advance f c).cursor = f.cursor := rfl

@[simp] theorem front_advance : (s.advance f c).front = f := rfl

@[simp] theorem front_withPending (items : List Pending) : (s.withPending items).front = s.front :=
  rfl

@[simp] theorem advance_advance : (s.advance f c).advance g d = s.advance g (c ++ d) := by
  simp [advance, append_list_append]

@[simp] theorem advance_front : s.advance s.front [] = s := by
  simp [advance, front]

@[simp] theorem advance_withPending (items : List Pending) :
    (s.withPending items).advance f c = (s.advance f c).withPending items := rfl

@[simp] theorem withPending_withPending (items items' : List Pending) :
    (s.withPending items).withPending items' = s.withPending items' := rfl

@[simp] theorem withPending_self : s.withPending s.pending.items = s := rfl

@[simp] theorem pending_advance : (s.advance f c).pending = s.pending := rfl

@[simp] theorem pending_withPending (items : List Pending) :
    (s.withPending items).pending.items = items := rfl

end

/-! ### Reading -/

section

variable {s s' : Compiler}

theorem cursor_eq_advance (s : Compiler) (c : Cursor) :
    { s with cursor := c } = s.advance (s.front.goto c) [] := by
  simp [advance, front, Front.goto]

theorem read_ok {α : Type} {r : Cursor → α × Cursor} {a : α} (h : read r s = .ok a s') :
    ∃ c, r s.front.cursor = (a, c) ∧ s' = s.advance (s.front.goto c) [] := by
  obtain ⟨ha, rfl⟩ := read_eq_ok.1 h
  exact ⟨_, Prod.ext ha rfl, cursor_eq_advance s _⟩

theorem tryRead_ok {α : Type} {r : Cursor.Action α} {a : α} (h : tryRead r s = .ok a s') :
    ∃ c, r s.front.cursor = .ok a c ∧ s' = s.advance (s.front.goto c) [] := by
  obtain ⟨c, hc, rfl⟩ := tryRead_eq_ok.1 h
  exact ⟨c, hc, cursor_eq_advance s c⟩

theorem symbol_ok {b : UInt8} (h : symbol b s = .ok true s') :
    ∃ f, Grammar.Mark b s.front f ∧ s' = s.advance f [] := by
  obtain ⟨hm, rfl⟩ := symbol_eq_ok.1 h
  exact ⟨_, .mk (Prod.ext hm rfl), cursor_eq_advance s _⟩

theorem symbol_ok_false {b : UInt8} (h : symbol b s = .ok false s') :
    ∃ f, Grammar.NoMark b s.front f ∧ s' = s.advance f [] := by
  obtain ⟨hm, rfl⟩ := symbol_eq_ok.1 h
  exact ⟨_, .mk (Prod.ext hm rfl), cursor_eq_advance s _⟩

theorem expect_ok {b : UInt8} {u : Unit} (h : expect b s = .ok u s') :
    ∃ f, Grammar.Mark b s.front f ∧ s' = s.advance f [] := by
  obtain ⟨hm, rfl⟩ := expect_eq_ok.1 h
  exact ⟨_, .mk (Prod.ext hm rfl), cursor_eq_advance s _⟩

theorem intern_ok {bytes : List UInt8} {id : Ident} (h : intern bytes s = .ok id s') :
    ∃ new st, Store.intern bytes s.store = .ok (id, new) st ∧
      s' = s.advance (s.front.withStore st) [] := by
  obtain ⟨new, st, hst, rfl⟩ := intern_eq_ok.1 h
  exact ⟨new, st, hst, by simp [advance, front, Front.withStore]⟩

theorem slotOf_ok {id : Ident} {slot : Option UInt8} (h : slotOf id s = .ok slot s') :
    s' = s ∧
      ((∃ body, s.body = some body ∧ body.locals.contains id = true ∧
          slot = some (s.store.heap.identSlot id)) ∨
        (slot = none ∧ ∀ body, s.body = some body → body.locals.contains id = false)) := by
  simp only [slotOf, Action.bind_eq_ok, Action.get_eq_ok] at h
  obtain ⟨_, _, ⟨rfl, rfl⟩, h⟩ := h
  cases hb : s.body with
  | none =>
      simp only [hb, Action.pure_eq_ok] at h
      exact ⟨h.2.symm, .inr ⟨h.1.symm, by simp⟩⟩
  | some body =>
      simp only [hb, Action.pure_eq_ok] at h
      refine ⟨h.2.symm, ?_⟩
      by_cases hl : body.locals.contains id = true
      · exact .inl ⟨body, rfl, hl, by rw [← h.1, if_pos hl]⟩
      · refine .inr ⟨by rw [← h.1, if_neg hl], ?_⟩
        rintro _ ⟨⟩
        simpa using hl

/-- A name is loaded from the slot found for it, or from its record if there is none. -/
theorem slotOf_resolve {id : Ident} {slot : Option UInt8} (h : slotOf id s = .ok slot s') :
    s' = s ∧ s.front.resolve id = (match slot with | some k => .slot k | none => .global id) := by
  obtain ⟨rfl, ⟨body, hb, hl, rfl⟩ | ⟨rfl, hl⟩⟩ := slotOf_ok h
  · refine ⟨rfl, ?_⟩
    simp only [Front.resolve, front, hb]
    exact if_pos hl
  · refine ⟨rfl, ?_⟩
    cases hb : s'.body with
    | none => simp only [Front.resolve, front, hb]
    | some body => simp only [Front.resolve, front, hb, hl body hb, Bool.false_eq_true, if_false]

theorem name_ok {wanted : Wanted} {w : WordToken} (h : name wanted s = .ok w s') :
    ∃ c, s.cursor.word = (some w, c) ∧ Keyword.lookup? w.bytes = none ∧
      s' = s.advance (s.front.goto c) [] := by
  simp only [name, Action.bind_eq_ok, read_eq_ok] at h
  obtain ⟨_, _, ⟨rfl, rfl⟩, h⟩ := h
  cases hw : s.cursor.word.1 with
  | none => simp [hw, failWanting_eq_ok] at h
  | some w' =>
      simp only [hw, Action.ite_eq_ok, Action.bind_eq_ok, failAt_eq_ok, false_and, exists_false,
        and_false, Action.pure_eq_ok, false_or] at h
      obtain ⟨hk, rfl, rfl⟩ := h
      refine ⟨s.cursor.word.2, Prod.ext hw rfl, by simpa using hk, cursor_eq_advance s _⟩

end

/-! ### Emitting -/

section

variable {s s' : Compiler} {u : Unit} {op : Opcode}

/-- Appends bytes to the code. -/
def append (s : Compiler) (bs : List UInt8) : Compiler :=
  { s with code := { s.code with code := s.code.code ++ bs } }

theorem emit_ok {bs : List UInt8} (h : onCode (CodeBuffer.emit bs) s = .ok u s') :
    s' = s.append bs ∧ s'.code.code.size ≤ s'.code.capacity := by
  obtain ⟨b, hb, rfl⟩ := onCode_eq_ok.1 h
  simp only [CodeBuffer.emit] at hb
  split at hb
  · simp at hb
  · rename_i hc
    cases hb
    refine ⟨rfl, ?_⟩
    simpa [size_append_list] using hc

theorem append_append (bs bs' : List UInt8) :
    (s.append bs).append bs' = s.append (bs ++ bs') := by
  simp [append, append_list_append]

theorem append_eq_advance {bs : List UInt8} {i : Instr} (h : i.bytes = bs) :
    s.append bs = s.advance s.front [i] := by
  simp [append, advance, front, h]

theorem emitOp_ok (hs : op.shape = .none) (h : emitOp op s = .ok u s') :
    s' = s.advance s.front [.plain op] := by
  rw [(emit_ok h).1]
  exact append_eq_advance (Instr.bytes_plain hs)

theorem emitOpByte_ok {b : UInt8} (hs : op.shape = .byte) (h : emitOpByte op b s = .ok u s') :
    s' = s.advance s.front [.withByte op b] := by
  simp only [emitOpByte, Action.bind_eq_ok] at h
  obtain ⟨_, t, ht, h⟩ := h
  rw [(emit_ok h).1, (emit_ok ht).1, append_append]
  exact append_eq_advance (Instr.bytes_withByte hs b)

theorem emitOpWord_ok {w : UInt16} (hs : op.shape = .word) (h : emitOpWord op w s = .ok u s') :
    s' = s.advance s.front [.withWord op w] := by
  simp only [emitOpWord, Action.bind_eq_ok] at h
  obtain ⟨_, t, ht, h⟩ := h
  rw [(emit_ok h).1, (emit_ok ht).1, append_append]
  exact append_eq_advance (Instr.bytes_withWord hs w)

theorem emitCall_ok {n : UInt8} {id : Ident} (hs : op.shape = .call)
    (h : emitCall op n id s = .ok u s') : s' = s.advance s.front [⟨op, n, id.offset⟩] := by
  simp only [emitCall, Action.bind_eq_ok] at h
  obtain ⟨_, t, ht, _, t', ht', h⟩ := h
  rw [(emit_ok h).1, (emit_ok ht').1, (emit_ok ht).1, append_append, append_append]
  exact append_eq_advance (Instr.bytes_call hs n id.offset)

theorem pushPending_ok {p : Pending} (h : pushPending p s = .ok u s') :
    s' = s.withPending (p :: s.pending.items) := by
  simp only [pushPending, BoundedStack.push?] at h
  split at h
  · rename_i pending hp
    split at hp
    · simp at hp
    · cases hp
      cases h
      rfl
  · simp at h

end

end Compiler

end CellScript
