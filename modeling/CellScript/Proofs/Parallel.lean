import CellScript.Proofs.Action
import CellScript.Proofs.Records
import CellScript.Builtin.Apply

/-!
Computations side by side.

What a program does must not depend on the sizes of the arena and of the stacks,
except that it may run out of room. This is a fact about two runs: one with less
room and one with more. `Parallel` says of two computations that they lead from
related states to related states with the same result, or that the first one gave
up. It is closed under everything that computations are composed of, so a fact
about a function follows from those about the functions it calls.

The module then turns to the arena. `Heap.Roomier` relates two heaps with the same
content, and everything that is ever asked of a heap or done to it is shown to
agree on both: they differ only in when `alloc` refuses.
-/

namespace CellScript

/-- Run on related states, both computations come to the same result and to related states, unless
the first one fails with an error of a certain kind. -/
structure Parallel {ε σ τ α : Type} (R : σ → τ → Prop) (gaveUp : ε → Prop) (x : EStateM ε σ α)
    (y : EStateM ε τ α) : Prop where
  ok : ∀ {s t s' a}, R s t → x s = .ok a s' → ∃ t', y t = .ok a t' ∧ R s' t'
  error : ∀ {s t s' e}, R s t → x s = .error e s' → ¬ gaveUp e →
    ∃ t', y t = .error e t' ∧ R s' t'

namespace Parallel

variable {ε σ τ α β : Type} {R : σ → τ → Prop} {gaveUp : ε → Prop}

theorem pure (a : α) : Parallel R gaveUp (Pure.pure a) (Pure.pure a) where
  ok h hx := by
    cases hx
    exact ⟨_, rfl, h⟩
  error _ hx := by cases hx

theorem throw (e : ε) :
    Parallel R gaveUp (MonadExcept.throw e : EStateM ε σ α) (MonadExcept.throw e) where
  ok _ hx := by cases hx
  error h hx _ := by
    cases hx
    exact ⟨_, rfl, h⟩

/-- Nothing is asked of the second computation once the first one has given up. -/
theorem giveUp {e : ε} (he : gaveUp e) (y : EStateM ε τ α) :
    Parallel R gaveUp (MonadExcept.throw e : EStateM ε σ α) y where
  ok _ hx := by cases hx
  error _ hx hno := by
    cases hx
    exact absurd he hno

theorem bind {x : EStateM ε σ α} {y : EStateM ε τ α} {f : α → EStateM ε σ β}
    {g : α → EStateM ε τ β} (hx : Parallel R gaveUp x y)
    (hf : ∀ a, Parallel R gaveUp (f a) (g a)) : Parallel R gaveUp (x >>= f) (y >>= g) where
  ok {s t s' b} h hok := by
    obtain ⟨a, s₁, hs, hok⟩ := Action.bind_eq_ok.1 hok
    obtain ⟨t₁, ht, h₁⟩ := hx.ok h hs
    obtain ⟨t', ht', h'⟩ := (hf a).ok h₁ hok
    exact ⟨t', Action.bind_eq_ok.2 ⟨a, t₁, ht, ht'⟩, h'⟩
  error {s t s' e} h herr hno := by
    simp only [Bind.bind, EStateM.bind] at herr ⊢
    cases hs : x s with
    | ok a s₁ =>
        obtain ⟨t₁, ht, h₁⟩ := hx.ok h hs
        rw [hs] at herr
        rw [ht]
        exact (hf a).error h₁ herr hno
    | error e' s₁ =>
        rw [hs] at herr
        cases herr
        obtain ⟨t₁, ht, h₁⟩ := hx.error h hs hno
        exact ⟨t₁, by rw [ht], h₁⟩

theorem ite {c : Prop} [Decidable c] {x y : EStateM ε σ α} {x' y' : EStateM ε τ α}
    (hx : c → Parallel R gaveUp x x') (hy : ¬ c → Parallel R gaveUp y y') :
    Parallel R gaveUp (if c then x else y) (if c then x' else y') := by
  by_cases hc : c
  · rw [if_pos hc, if_pos hc]
    exact hx hc
  · rw [if_neg hc, if_neg hc]
    exact hy hc

/-- Something is done under a condition before the computations go on. -/
theorem when {c : Prop} [Decidable c] {x : EStateM ε σ Unit} {y : EStateM ε τ Unit}
    {f : Unit → EStateM ε σ α} {g : Unit → EStateM ε τ α}
    (hx : Parallel R gaveUp x y) (hf : ∀ u, Parallel R gaveUp (f u) (g u)) :
    Parallel R gaveUp (if c then x >>= f else f ()) (if c then y >>= g else g ()) :=
  .ite (fun _ => hx.bind hf) fun _ => hf ()

/-- The two computations may look at their states. -/
theorem get_bind {f : σ → EStateM ε σ α} {g : τ → EStateM ε τ α}
    (h : ∀ s t, R s t → Parallel R gaveUp (f s) (g t)) :
    Parallel R gaveUp (get >>= f) (get >>= g) where
  ok hst hok := (h _ _ hst).ok hst hok
  error hst herr hno := (h _ _ hst).error hst herr hno

/-- An update that keeps the relation only because of what came before it. -/
theorem update {R : σ → σ → Prop} {x y : EStateM ε σ α} {f : α → σ → σ} {g : α → EStateM ε σ β}
    (hx : Parallel R gaveUp x y)
    (hf : ∀ {s s' t' a}, x s = .ok a s' → (∃ t, R s t) → R s' t' → R (f a s') (f a t'))
    (hg : ∀ a, Parallel R gaveUp (g a) (g a)) :
    Parallel R gaveUp (do let a ← x; modify (f a); g a)
      (do let a ← y; modify (f a); g a) where
  ok {s t s' b} h hok := by
    obtain ⟨a, s₁, hs, hok⟩ := Action.bind_eq_ok.1 hok
    obtain ⟨t₁, ht, h₁⟩ := hx.ok h hs
    obtain ⟨t', ht', h'⟩ := (hg a).ok (hf hs ⟨t, h⟩ h₁) hok
    exact ⟨t', Action.bind_eq_ok.2 ⟨a, t₁, ht, ht'⟩, h'⟩
  error {s t s' e} h herr hno := by
    simp only [Bind.bind, EStateM.bind] at herr ⊢
    cases hs : x s with
    | ok a s₁ =>
        obtain ⟨t₁, ht, h₁⟩ := hx.ok h hs
        rw [hs] at herr
        rw [ht]
        exact (hg a).error (hf hs ⟨t, h⟩ h₁) herr hno
    | error e' s₁ =>
        rw [hs] at herr
        cases herr
        obtain ⟨t₁, ht, h₁⟩ := hx.error h hs hno
        exact ⟨t₁, by rw [ht], h₁⟩

theorem modify {f : σ → σ} {g : τ → τ} (h : ∀ s t, R s t → R (f s) (g t)) :
    Parallel R gaveUp (modify f) (modify g) where
  ok hst hok := by
    cases hok
    exact ⟨_, rfl, h _ _ hst⟩
  error _ herr := by cases herr

end Parallel

/-! ### Two heaps -/

namespace Heap

/-- The second heap has the same content and at least as much room. -/
structure Roomier (h h' : Heap) : Prop where
  top : h'.top = h.top
  byte : ∀ i, h'.byte i = h.byte i
  fits : h.top ≤ h.bytes.size
  room : h.bytes.size ≤ h'.bytes.size

/-- The arena is used up. -/
def Error.IsExhausted : Error → Prop
  | exhausted .. => True
  | _ => False

variable {h h' : Heap}

theorem Roomier.write (hr : Roomier h h') {i : Nat} {bs : List UInt8}
    (hi : i + bs.length ≤ h.bytes.size) : Roomier (h.write i bs) (h'.write i bs) := by
  have hroom := hr.room
  refine ⟨by rw [top_write, top_write, hr.top], fun j => ?_, ?_, ?_⟩
  · by_cases hj : i ≤ j ∧ j < i + bs.length
    · obtain ⟨k, rfl⟩ := Nat.exists_eq_add_of_le hj.1
      rw [byte_write_inside (by omega) (by omega), byte_write_inside (by omega) (by omega)]
    · rw [byte_write_outside (by omega), byte_write_outside (by omega), hr.byte]
  · rw [top_write, size_write]
    exact hr.fits
  · rw [size_write, size_write]
    exact hroom

theorem Roomier.setByte (hr : Roomier h h') {i : Nat} (b : UInt8) (hi : i < h.bytes.size) :
    Roomier (h.setByte i b) (h'.setByte i b) := by
  have hfits : i + [b].length ≤ h.bytes.size := hi
  exact hr.write hfits

section

variable (hr : Roomier h h')

include hr

theorem Roomier.word (i : Nat) : h'.word i = h.word i := by
  simp only [Heap.word, hr.byte]

theorem Roomier.valueAt (i : Nat) : h'.valueAt i = h.valueAt i := by
  simp only [Heap.valueAt, hr.byte]

theorem Roomier.slice (i n : Nat) : h'.slice i n = h.slice i n := by
  simp only [Heap.slice, hr.byte]

theorem Roomier.inBounds (i n : Nat) : h'.inBounds i n = h.inBounds i n := by
  simp only [Heap.inBounds, hr.top]

theorem Roomier.strAt (o : UInt16) : h'.strAt o = h.strAt o := by
  have hsame : h'.isStrAt o = h.isStrAt o := by
    simp only [isStrAt, hr.inBounds, hr.word]
  rw [Heap.strAt, Heap.strAt, hsame]

theorem Roomier.arrayLength (o : UInt16) : h'.arrayLength o = h.arrayLength o := by
  rw [Heap.arrayLength, Heap.arrayLength, hr.byte]

theorem Roomier.arrayGet? (o : UInt16) (k : Nat) : h'.arrayGet? o k = h.arrayGet? o k := by
  rw [Heap.arrayGet?, Heap.arrayGet?, hr.arrayLength, hr.valueAt]

theorem Roomier.arrayElems (o : UInt16) : h'.arrayElems o = h.arrayElems o := by
  rw [Heap.arrayElems, Heap.arrayElems, hr.arrayLength, funext (hr.arrayGet? o)]

theorem Roomier.text? (v : Value) : h'.text? v = h.text? v := by
  cases v <;> simp only [Heap.text?, strBytes, hr.slice, hr.word]

theorem Roomier.identValue (id : Ident) : h'.identValue id = h.identValue id := hr.valueAt _

theorem Roomier.identSlot (id : Ident) : h'.identSlot id = h.identSlot id := hr.byte _

theorem Roomier.identText (id : Ident) : h'.identText id = h.identText id := by
  simp only [Heap.identText, identName, hr.slice, hr.byte]

theorem Roomier.identAt (o : UInt16) : h'.identAt o = h.identAt o := by
  simp only [Heap.identAt]
  rw [hr.inBounds, hr.inBounds, hr.byte]

theorem Roomier.usedBytes : h'.usedBytes = h.usedBytes := by
  have hbytes {g : Heap} (hg : g.top ≤ g.bytes.size) :
      g.usedBytes = (List.range g.top).map g.byte := by
    refine List.ext_getElem (by simp [Heap.usedBytes, hg]) fun k h₁ h₂ => ?_
    have hk : k < g.bytes.size := by
      simp only [List.length_map, List.length_range] at h₂
      omega
    simp [Heap.usedBytes, Heap.byte, Array.getD_eq_getD_getElem?, Array.getElem?_eq_getElem hk]
  have hfits := hr.fits
  have hroom := hr.room
  rw [hbytes hr.fits, hbytes (by rw [hr.top]; omega), hr.top, funext hr.byte]

end

/-! ### Allocation -/

theorem parallel_alloc (n : Nat) : Parallel Roomier Error.IsExhausted (alloc n) (alloc n) where
  ok {h h' g o} hr ha := by
    have hroom := hr.room
    obtain ⟨ho, rfl, hsize, -⟩ := alloc_ok hr.fits ha
    simp only [alloc, Bool.or_eq_true, decide_eq_true_eq] at ha ⊢
    split at ha
    · cases ha
    · rename_i hfree
      cases ha
      refine ⟨{ h' with top := h.top + n }, ?_, rfl, hr.byte, hsize, hroom⟩
      rw [hr.top, if_neg (by omega)]
  error hr ha hno := by
    obtain ⟨-, m, rfl⟩ := alloc_error ha
    exact absurd trivial hno

/-- A record is made and filled. -/
theorem parallel_allocWith {n : Nat} {f : UInt16 → Heap → Heap}
    (hf : ∀ o h h', Roomier h h' → o.toNat + n ≤ h.bytes.size → Roomier (f o h) (f o h')) :
    Parallel Roomier Error.IsExhausted (do let o ← alloc n; modify (f o); return o)
      (do let o ← alloc n; modify (f o); return o) := by
  refine .update (parallel_alloc n) (fun {h g g' o} ha hrel hr => ?_) fun o => .pure o
  obtain ⟨h', hr₀⟩ := hrel
  obtain ⟨ho, rfl, hsize, -⟩ := alloc_ok hr₀.fits ha
  exact hf o _ _ hr (by rw [ho]; exact hsize)

theorem parallel_allocStr (data : List UInt8) :
    Parallel Roomier Error.IsExhausted (allocStr data) (allocStr data) := by
  unfold allocStr
  refine .when (.throw _) fun _ => parallel_allocWith fun o h h' hr hroom => ?_
  have hfits : o.toNat + (Word.bytes (UInt16.ofNat data.length)).length ≤ h.bytes.size := by
    rw [Word.length_bytes]
    omega
  exact (hr.write hfits).write (by rw [size_write]; omega)

theorem parallel_allocArray (elems : List Value) :
    Parallel Roomier Error.IsExhausted (allocArray elems) (allocArray elems) := by
  unfold allocArray
  refine .when (.throw _) fun _ => parallel_allocWith fun o h h' hr hroom => ?_
  exact (hr.setByte _ (by omega)).write (by rw [size_setByte, length_encodeAll]; omega)

end Heap

/-! ### Operations of the language -/

/-- A fault of too little room, or one that only follows from an earlier one. -/
def Fault.IsCapacity : Fault → Prop
  | stackOverflow _ | stackUnderflow => True
  | heap e => e.IsExhausted
  | _ => False

namespace Builtin

open Heap

/-- An operation does the same on a roomier heap. -/
abbrev Scales {α : Type} (x : Operation α) : Prop := Parallel Roomier Fault.IsCapacity x x

theorem scales_onArena {α : Type} {act : Heap.Action α}
    (h : Parallel Roomier Error.IsExhausted act act) : Scales (onArena act) where
  ok {g g' f a} hr hok := by
    unfold onArena at hok
    split at hok
    · rename_i ha
      cases hok
      obtain ⟨f', hf', hr'⟩ := h.ok hr ha
      exact ⟨f', by rw [onArena, hf'], hr'⟩
    · cases hok
  error {g g' f e} hr herr hno := by
    unfold onArena at herr
    split at herr
    · cases herr
    · rename_i ha
      cases herr
      obtain ⟨f', hf', hr'⟩ := h.error hr ha hno
      exact ⟨f', by rw [onArena, hf'], hr'⟩

theorem scales_lift {α : Type} (x : Except Fault α) : Scales (lift x) := by
  cases x with
  | ok a => exact .pure a
  | error e => exact .throw e

theorem scales_makeStr (bytes : List UInt8) : Scales (makeStr bytes) := by
  unfold makeStr
  split
  · exact .pure _
  · exact .pure _
  · exact .bind (scales_onArena (parallel_allocStr _)) fun _ => .pure _

theorem scales_makeArray (elems : List Value) : Scales (makeArray elems) :=
  .bind (scales_onArena (parallel_allocArray elems)) fun _ => .pure _

/-- An operation that looks at the heap only in ways that do not show its size. -/
theorem scales_ask {α β : Type} {f : Heap → α} (hf : ∀ h h', Roomier h h' → f h' = f h)
    {x : α → Operation β} (hx : ∀ a, Scales (x a)) : Scales (do x (f (← get))) := by
  refine .get_bind fun h h' hr => ?_
  rw [hf h h' hr]
  exact hx (f h)

theorem renderWith_roomier {h h' : Heap} (hr : Roomier h h') (fuel : Nat) (v : Value) :
    renderWith h' fuel v = renderWith h fuel v := by
  induction fuel generalizing v with
  | zero => rfl
  | succ fuel ih =>
      cases v with
      | str o =>
          simp only [renderWith, strBytes, hr.slice, hr.word]
      | array o =>
          simp only [renderWith, hr.arrayElems, funext ih]
      | _ => rfl

theorem render_roomier {h h' : Heap} (hr : Roomier h h') (v : Value) :
    render h' v = render h v := by
  rw [render, render, hr.top, renderWith_roomier hr]

theorem comparison_roomier {h h' : Heap} (hr : Roomier h h') (op : Opcode) (a b : Value) :
    comparison h' op a b = comparison h op a b := by
  simp only [comparison, order, hr.text?]

theorem index_roomier {h h' : Heap} (hr : Roomier h h') (c i : Value) :
    index h' c i = index h c i := by
  simp only [index, hr.arrayLength, hr.arrayGet?, hr.text?]

theorem scales_binary (op : Opcode) (a b : Value) : Scales (binary op a b) := by
  unfold binary
  split
  · refine .get_bind fun h h' hr => ?_
    rw [hr.text?, hr.text?]
    split
    · exact scales_makeStr _
    · exact scales_lift _
  all_goals first
    | exact scales_lift _
    | exact .throw _
    | exact scales_ask (fun h h' hr => comparison_roomier hr _ a b) scales_lift

/-- An operation that looks at the text of its operand. -/
theorem scales_text (v : Value) {f : List UInt8 → Operation Value} (e : Fault)
    (hf : ∀ t, Scales (f t)) :
    Scales (do match (← get).text? v with | some t => f t | none => throw e) := by
  refine .get_bind fun h h' hr => ?_
  rw [hr.text?]
  split
  · exact hf _
  · exact .throw _

theorem scales_unary (op : Opcode) (a : Value) : Scales (unary op a) := by
  unfold unary
  split
  all_goals first
    | exact .pure _
    | exact .throw _
    | exact scales_lift _
    | exact scales_text _ _ fun _ => scales_lift _
    | exact scales_text _ _ fun _ => .pure _
    | skip
  · exact scales_ask (fun h h' hr => render_roomier hr _) scales_makeStr
  · exact scales_ask (fun h h' hr => hr.arrayLength _) fun n => scales_lift (ofLength n)

theorem scales_substring (op : Opcode) (s : Value) (start count : Int16) :
    Scales (substring op s start count) := by
  refine .get_bind fun h h' hr => ?_
  rw [hr.text?]
  split
  · exact .throw _
  · exact .when (.throw _) fun _ => .when (.throw _) fun _ => scales_makeStr _

theorem scales_left (s n : Value) : Scales (left s n) :=
  .bind (scales_lift _) fun _ => scales_substring _ _ _ _

theorem scales_right (s n : Value) : Scales (right s n) := by
  refine .bind (scales_lift _) fun k => .get_bind fun h h' hr => ?_
  rw [hr.text?]
  split
  · exact .throw _
  · exact .when (.throw _) fun _ => scales_substring _ _ _ _

theorem scales_substr (s start n : Value) : Scales (substr s start n) :=
  .bind (scales_lift _) fun _ => .bind (scales_lift _) fun _ => scales_substring _ _ _ _

theorem scales_slice (c i j : Value) : Scales (slice c i j) := by
  refine .bind (scales_lift _) fun i => .bind (scales_lift _) fun j => .get_bind fun h h' hr => ?_
  split
  · rw [hr.arrayElems]
    exact .bind (scales_lift _) fun _ => scales_makeArray _
  · rw [hr.text?]
    split
    · exact .throw _
    · exact .bind (scales_lift _) fun _ => scales_makeStr _

end Builtin

end CellScript
