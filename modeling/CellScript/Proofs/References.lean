import CellScript.Builtin.Apply
import CellScript.Proofs.Scopes

/-!
What values refer to.

Four kinds of value lead somewhere: a procedure and a function to the code of a
body, a string and an array to its record. A value is `Sound` when the body is one
of the program's, of the right kind, and the record exists; a heap is `Sound` when
the elements of its arrays are, and lead to records below the array. The operations
of the language keep this: they take sound values to sound values, add records and
change nothing else, and what they refuse they refuse for a reason of the language
and never for a damaged heap.
-/

namespace CellScript

/-- A fault that a program cannot bring about by its own logic. -/
def Fault.isInternal : Fault → Bool
  | unknownOpcode _ | codeOverrun _ | stackUnderflow | corruptValue _
  | heap (.invalidHandle _) => true
  | _ => false

/-- A value that refers to nothing. -/
def Value.isPlain : Value → Bool
  | proc _ | func _ | str _ | array _ => false
  | _ => true

def Value.Sound (rs : List Record) (ds : List (Definition × Nat)) : Value → Prop
  | proc entry => ∃ d ∈ ds, d.1.isFunc = false ∧ entry = UInt16.ofNat d.2
  | func entry => ∃ d ∈ ds, d.1.isFunc = true ∧ entry = UInt16.ofNat d.2
  | str offset => HasText rs offset
  | array offset => HasArray rs offset
  | _ => True

/-- The record that a value leads to, if any, begins below an offset. -/
def Value.Below (o : Nat) : Value → Prop
  | str offset | array offset => offset.toNat < o
  | _ => True

theorem Value.Below.mono {o o' : Nat} (ho : o ≤ o') {v : Value} (h : v.Below o) : v.Below o' := by
  cases v with
  | str offset => exact Nat.lt_of_lt_of_le h ho
  | array offset => exact Nat.lt_of_lt_of_le h ho
  | _ => trivial

theorem Value.sound_of_isPlain {rs : List Record} {ds : List (Definition × Nat)} {v : Value}
    (h : v.isPlain = true) : v.Sound rs ds := by
  cases v <;> trivial

theorem Value.Sound.mono {rs rs' : List Record} {ds : List (Definition × Nat)} {v : Value}
    (hr : ∀ r ∈ rs, r ∈ rs') (h : v.Sound rs ds) : v.Sound rs' ds := by
  cases v with
  | str offset =>
      obtain ⟨n, hlen, hn⟩ := h
      exact ⟨n, hlen, hr _ hn⟩
  | array offset =>
      obtain ⟨n, hn⟩ := h
      exact ⟨n, hr _ hn⟩
  | _ => exact h

/-- Records begin below the top. -/
theorem Value.Sound.below {h : Heap} {rs : List Record} {ds : List (Definition × Nat)} {v : Value}
    (l : Ledger h rs) (hv : v.Sound rs ds) : v.Below h.top := by
  have hstart {r : Record} (hr : r ∈ rs) (hsize : 0 < r.size) : r.start < h.top := by
    have := (l.within r hr).2
    rw [Record.stop] at this
    omega
  cases v with
  | str offset =>
      obtain ⟨n, -, hn⟩ := hv
      exact hstart hn (by simp only [Record.size]; omega)
  | array offset =>
      obtain ⟨n, hn⟩ := hv
      exact hstart hn (by simp only [Record.size]; omega)
  | _ => trivial

/-- The records are as listed, and the elements of arrays are sound and older than the array. -/
structure Heap.Sound (h : Heap) (rs : List Record) (ds : List (Definition × Nat)) : Prop where
  ledger : Ledger h rs
  elements : ∀ o n, ⟨.array, o, n⟩ ∈ rs → ∀ k < n,
    (h.valueAt (o + 1 + k * Value.size)).Sound rs ds ∧
      (h.valueAt (o + 1 + k * Value.size)).Below o

namespace Heap

variable {h : Heap} {rs : List Record} {ds : List (Definition × Nat)}

/-- A heap without arrays. -/
theorem Sound.of_ledger (l : Ledger h rs) (hno : ∀ r ∈ rs, r.kind ≠ .array) : h.Sound rs ds :=
  ⟨l, fun _ _ hm => absurd rfl (hno _ hm)⟩

theorem Sound.arrayGet? (hs : h.Sound rs ds) {offset : UInt16} (ho : HasArray rs offset) {k : Nat}
    {v : Value} (hv : h.arrayGet? offset k = some v) :
    v.Sound rs ds ∧ v.Below offset.toNat := by
  obtain ⟨n, hn⟩ := ho
  have hlength : h.arrayLength offset = n := hs.ledger.lengths _ hn
  unfold Heap.arrayGet? at hv
  split at hv
  · rename_i hk
    cases hv
    exact hs.elements _ _ hn k (hlength ▸ hk)
  · simp at hv

theorem Sound.arrayElems (hs : h.Sound rs ds) {offset : UInt16} (ho : HasArray rs offset) :
    ∀ v ∈ h.arrayElems offset, v.Sound rs ds ∧ v.Below offset.toNat := by
  intro v hv
  obtain ⟨k, -, hk⟩ := List.mem_filterMap.1 hv
  exact hs.arrayGet? ho hk

/-- The value of a name lies in no array. -/
theorem Sound.setIdentValue (hs : h.Sound rs ds) {id : Ident} (hid : HasIdent rs id) (v : Value) :
    (h.setIdentValue id v).Sound rs ds := by
  refine ⟨hs.ledger.setIdentValue hid v, fun o n hm k hk => ?_⟩
  obtain ⟨length, hid⟩ := hid
  have hapart := hs.ledger.apart _ hid _ hm
  simp only [Record.stop, Record.size, Ident.nameField, reduceCtorEq, Record.mk.injEq, false_and,
    false_or, Value.size] at hapart
  have hsame := (Heap.sameOutside_setIdentValue h id v).valueAt (i := o + 1 + k * Value.size)
    (by simp only [Value.size]; omega)
  rw [hsame]
  exact hs.elements o n hm k hk

end Heap

/-! ### Results of operations -/

/-- A value came out and the heap grew, or a fault and the heap is as it was. -/
def Heap.SoundAfter (h : Heap) (rs : List Record) (ds : List (Definition × Nat)) :
    EStateM.Result Fault Heap Value → Prop
  | .ok v h' => ∃ rs', (∀ r ∈ rs, r ∈ rs') ∧ h.Grows h' ∧ h'.Sound rs' ds ∧ v.Sound rs' ds
  | .error e h' => h' = h ∧ e.isInternal = false

/-- Plain values and faults of the language. -/
def PlainResult : Except Fault Value → Prop
  | .ok v => v.isPlain = true
  | .error e => e.isInternal = false

namespace Builtin

variable {h : Heap} {rs : List Record} {ds : List (Definition × Nat)}

section

variable (hs : h.Sound rs ds)

include hs

theorem pure_sound {v : Value} (hv : v.Sound rs ds) :
    h.SoundAfter rs ds ((pure v : Operation Value) h) :=
  ⟨rs, fun _ h => h, .refl h, hs, hv⟩

omit hs in
theorem throw_sound {e : Fault} (he : e.isInternal = false) :
    h.SoundAfter rs ds ((throw e : Operation Value) h) :=
  ⟨rfl, he⟩

theorem lift_sound {x : Except Fault Value} (hx : PlainResult x) :
    h.SoundAfter rs ds (lift x h) := by
  cases x with
  | ok v => exact pure_sound hs (Value.sound_of_isPlain hx)
  | error e => exact throw_sound hx

theorem makeStr_sound (bytes : List UInt8) : h.SoundAfter rs ds (makeStr bytes h) := by
  unfold makeStr
  split
  · exact pure_sound hs trivial
  · exact pure_sound hs trivial
  · rename_i hnil hsingle
    have hlen : 2 ≤ bytes.length := by
      match bytes with
      | [] => exact absurd rfl hnil
      | [c] => exact absurd rfl (hsingle c)
      | _ :: _ :: _ => simp
    simp only [onArena, bind, EStateM.bind]
    cases ha : Heap.allocStr bytes h with
    | ok offset h' =>
        obtain ⟨hgrow, hledger⟩ := Heap.allocStr_ok hs.ledger ha
        have hr : ∀ r ∈ rs, r ∈ ⟨.text, offset.toNat, bytes.length⟩ :: rs :=
          fun _ hr => List.mem_cons_of_mem _ hr
        refine ⟨_, hr, hgrow, ⟨hledger, ?_⟩, _, hlen, List.mem_cons_self ..⟩
        intro o n hm k hk
        obtain hm | hm := List.mem_cons.1 hm
        · cases hm
        · -- Arrays lie below the new record.
          have hwithin := (hs.ledger.within _ hm).2
          simp only [Record.stop, Record.size] at hwithin
          rw [hgrow.valueAt (by simp only [Value.size] at hwithin ⊢; omega)]
          exact (hs.elements o n hm k hk).imp_left (·.mono hr)
    | error e h' =>
        obtain ⟨rfl, he⟩ := Heap.allocStr_error ha
        refine ⟨rfl, ?_⟩
        cases e with
        | invalidHandle o => exact absurd rfl (he o)
        | _ => rfl

theorem makeArray_sound {elems : List Value} (he : ∀ v ∈ elems, v.Sound rs ds) :
    h.SoundAfter rs ds (makeArray elems h) := by
  simp only [makeArray, onArena, bind, EStateM.bind]
  cases ha : Heap.allocArray elems h with
  | ok offset h' =>
      obtain ⟨hgrow, hledger, htop, hread⟩ := Heap.allocArray_ok hs.ledger ha
      have hr : ∀ r ∈ rs, r ∈ ⟨.array, offset.toNat, elems.length⟩ :: rs :=
        fun _ hr => List.mem_cons_of_mem _ hr
      refine ⟨_, hr, hgrow, ⟨hledger, ?_⟩, _, List.mem_cons_self ..⟩
      intro o n hm k hk
      obtain hm | hm := List.mem_cons.1 hm
      · -- The new array holds the values that were given.
        cases hm
        rw [hread k hk]
        have hv := he _ (List.getElem_mem hk)
        exact ⟨hv.mono hr, htop ▸ hv.below hs.ledger⟩
      · have hwithin := (hs.ledger.within _ hm).2
        simp only [Record.stop, Record.size] at hwithin
        rw [hgrow.valueAt (by simp only [Value.size] at hwithin ⊢; omega)]
        exact (hs.elements o n hm k hk).imp_left (·.mono hr)
  | error e h' =>
      obtain ⟨rfl, herr⟩ := Heap.allocArray_error ha
      refine ⟨rfl, ?_⟩
      cases e with
      | invalidHandle o => exact absurd rfl (herr o)
      | _ => rfl

end

/-! ### Operations that leave the heap alone -/

theorem arith_plain (op : Opcode) (a b : Value) : PlainResult (arith op a b) := by
  unfold arith
  split
  · split <;> try exact rfl
    split <;> exact rfl
  · split <;> exact rfl
  · exact rfl

theorem remainder_plain (a b : Value) : PlainResult (remainder a b) := by
  unfold remainder
  split
  · split <;> exact rfl
  · exact rfl

theorem shift_plain (op : Opcode) (a b : Value) : PlainResult (shift op a b) := by
  unfold shift
  split
  · split
    · exact rfl
    · dsimp only
      split <;> exact rfl
  · exact rfl

theorem bitwise_plain (op : Opcode) (a b : Value) : PlainResult (bitwise op a b) := by
  unfold bitwise
  split
  · split <;> exact rfl
  · exact rfl

theorem logical_plain (op : Opcode) (a b : Value) : PlainResult (logical op a b) := by
  unfold logical
  split <;> exact rfl

theorem comparison_plain (h : Heap) (op : Opcode) (a b : Value) :
    PlainResult (comparison h op a b) := by
  have horder : ∀ e, order h op a b = .error e → e.isInternal = false := by
    intro e he
    unfold order at he
    split at he <;> try simp at he
    split at he <;> try simp at he
    split at he <;> try split at he
    all_goals
      cases he
      try rfl
  unfold comparison
  cases ho : order h op a b with
  | ok o => exact rfl
  | error e => exact horder e ho

theorem intOfText_plain (t : List UInt8) : PlainResult (intOfText t) := by
  unfold intOfText
  split
  · split <;> exact rfl
  · exact rfl

theorem floatOfText_plain (t : List UInt8) : PlainResult (floatOfText t) := by
  unfold floatOfText
  split <;> exact rfl

theorem intOfSingle_plain (x : Single) : PlainResult (intOfSingle x) := by
  unfold intOfSingle
  split <;> exact rfl

theorem ofLength_plain (n : Nat) : PlainResult (ofLength n) := by
  unfold ofLength
  split <;> exact rfl

/-! ### Operations by code -/

section

variable (hs : h.Sound rs ds)

include hs

theorem binary_sound (op : Opcode) (a b : Value) : h.SoundAfter rs ds (binary op a b h) := by
  unfold binary
  split
  · -- Two strings are joined, all else is added.
    simp only [bind, EStateM.bind, Action.get_apply]
    cases h.text? a with
    | none => exact lift_sound hs (arith_plain _ _ _)
    | some s =>
        cases h.text? b with
        | none => exact lift_sound hs (arith_plain _ _ _)
        | some t => exact makeStr_sound hs _
  · exact lift_sound hs (arith_plain _ _ _)
  · exact lift_sound hs (arith_plain _ _ _)
  · exact lift_sound hs (arith_plain _ _ _)
  · exact lift_sound hs (remainder_plain _ _)
  · exact lift_sound hs (shift_plain _ _ _)
  · exact lift_sound hs (shift_plain _ _ _)
  · exact lift_sound hs (shift_plain _ _ _)
  · exact lift_sound hs (bitwise_plain _ _ _)
  · exact lift_sound hs (bitwise_plain _ _ _)
  · exact lift_sound hs (bitwise_plain _ _ _)
  · exact lift_sound hs (logical_plain _ _ _)
  · exact lift_sound hs (logical_plain _ _ _)
  · exact lift_sound hs (comparison_plain h _ a b)
  · exact lift_sound hs (comparison_plain h _ a b)
  · exact lift_sound hs (comparison_plain h _ a b)
  · exact lift_sound hs (comparison_plain h _ a b)
  · exact lift_sound hs (comparison_plain h _ a b)
  · exact lift_sound hs (comparison_plain h _ a b)
  · exact throw_sound rfl

omit hs in
/-- An operation that looks at the text of its operand. -/
theorem text_sound (v : Value) {f : List UInt8 → Operation Value} {e : Fault}
    (hf : ∀ t, h.SoundAfter rs ds (f t h)) (he : e.isInternal = false) :
    h.SoundAfter rs ds ((do
      match (← get).text? v with
      | some t => f t
      | none => throw e : Operation Value) h) := by
  show h.SoundAfter rs ds ((match h.text? v with
    | some t => f t
    | none => throw e) h)
  cases h.text? v with
  | none => exact throw_sound he
  | some t => exact hf t

theorem unary_sound (op : Opcode) (a : Value) : h.SoundAfter rs ds (unary op a h) := by
  unfold unary
  split
  all_goals first
    | exact pure_sound hs trivial
    | exact throw_sound rfl
    | exact lift_sound hs (intOfSingle_plain _)
    | exact text_sound _ (fun t => lift_sound hs (intOfText_plain t)) rfl
    | exact text_sound _ (fun t => lift_sound hs (floatOfText_plain t)) rfl
    | exact text_sound _ (fun t => pure_sound hs trivial) rfl
    | exact makeStr_sound hs _
    | exact lift_sound hs (ofLength_plain _)
    | exact text_sound _ (fun t => lift_sound hs (ofLength_plain _)) rfl

theorem substring_sound (op : Opcode) (s : Value) (start count : Int16) :
    h.SoundAfter rs ds (substring op s start count h) := by
  simp only [substring, bind, EStateM.bind, Action.get_apply]
  cases h.text? s with
  | none => exact throw_sound rfl
  | some bytes =>
      by_cases hstart : start < 0
      · simp only [hstart, if_true]
        exact throw_sound rfl
      · by_cases hcount : count < 0
        · simp only [hstart, hcount, if_true, if_false]
          exact throw_sound rfl
        · simp only [hstart, hcount, if_false]
          exact makeStr_sound hs _

omit hs in
/-- An operation with an integer argument. -/
theorem int_sound (op : Opcode) (v : Value) {f : Int16 → Operation Value}
    (hf : ∀ n, h.SoundAfter rs ds (f n h)) :
    h.SoundAfter rs ds ((lift (intArgument op v) >>= f) h) := by
  cases v with
  | int n => exact hf n
  | _ => exact throw_sound rfl

theorem left_sound (s n : Value) : h.SoundAfter rs ds (left s n h) :=
  int_sound _ _ fun _ => substring_sound hs _ _ _ _

theorem right_sound (s n : Value) : h.SoundAfter rs ds (right s n h) := by
  refine int_sound _ _ fun k => ?_
  simp only [bind, EStateM.bind, Action.get_apply]
  cases h.text? s with
  | none => exact throw_sound rfl
  | some bytes =>
      by_cases hk : k < 0
      · simp only [hk, if_true]
        exact throw_sound rfl
      · simp only [hk, if_false]
        exact substring_sound hs _ _ _ _

theorem substr_sound (s start n : Value) : h.SoundAfter rs ds (substr s start n h) :=
  int_sound _ _ fun _ => int_sound _ _ fun _ => substring_sound hs _ _ _ _

omit hs in
theorem itemPosition_fault {i : Int16} {n : Nat} {e : Fault} (he : itemPosition i n = .error e) :
    e.isInternal = false := by
  unfold itemPosition at he
  dsimp only at he
  split at he
  · cases he
    rfl
  · simp at he

omit hs in
theorem range_fault {i j : Int16} {n : Nat} {e : Fault} (he : range i j n = .error e) :
    e.isInternal = false := by
  have hposition {i : Int16} {e : Fault} (he : rangePosition i n = .error e) :
      e.isInternal = false := by
    unfold rangePosition at he
    dsimp only at he
    split at he
    · cases he
      rfl
    · simp at he
  unfold range at he
  cases hi : rangePosition i n with
  | error e' =>
      simp only [hi, bind, Except.bind] at he
      cases he
      exact hposition hi
  | ok start =>
      cases hj : rangePosition j n with
      | error e' =>
          simp only [hi, hj, bind, Except.bind] at he
          cases he
          exact hposition hj
      | ok stop =>
          simp only [hi, hj, bind, Except.bind] at he
          split at he
          · cases he
            rfl
          · simp at he

omit hs in
/-- An index into what is no array. -/
theorem index_of_text {a : Value} {n : Int16} (hno : ∀ offset, a ≠ .array offset) :
    index h a (.int n) =
      (match h.text? a with
      | none => .error (mismatch .index [a])
      | some bytes => (itemPosition n bytes.length).map fun k => .strChar (bytes.getD k 0)) := by
  cases a <;> first | rfl | exact absurd rfl (hno _)

/-- An element of a sound array is sound. -/
theorem index_sound {c i : Value} (hc : c.Sound rs ds) :
    match index h c i with
    | .ok v => v.Sound rs ds
    | .error e => e.isInternal = false := by
  cases i with
  | int n =>
      by_cases harray : ∃ offset, c = .array offset
      · obtain ⟨offset, rfl⟩ := harray
        simp only [index, intArgument, bind, Except.bind]
        cases hk : itemPosition n (h.arrayLength offset) with
        | error e => exact itemPosition_fault hk
        | ok k =>
            simp only
            cases hv : h.arrayGet? offset k with
            | none => exact rfl
            | some v => exact (hs.arrayGet? hc hv).1
      · rw [index_of_text (not_exists.1 harray)]
        cases h.text? c with
        | none => exact rfl
        | some bytes =>
            simp only
            cases hk : itemPosition n bytes.length with
            | error e => exact itemPosition_fault hk
            | ok k => exact trivial
  | _ => exact rfl

omit hs in
/-- An operation on the ends of a range. -/
theorem range_sound (i j : Int16) (n : Nat) {f : Nat × Nat → Operation Value}
    (hf : ∀ p, h.SoundAfter rs ds (f p h)) :
    h.SoundAfter rs ds ((lift (range i j n) >>= f) h) := by
  cases hr : range i j n with
  | ok p => exact hf p
  | error e => exact throw_sound (range_fault hr)

theorem slice_sound {c : Value} (i j : Value) (hc : c.Sound rs ds) :
    h.SoundAfter rs ds (slice c i j h) := by
  refine int_sound _ _ fun i => int_sound _ _ fun j => ?_
  by_cases harray : ∃ offset, c = .array offset
  · obtain ⟨offset, rfl⟩ := harray
    refine range_sound i j _ fun p => makeArray_sound hs fun v hv => ?_
    exact (hs.arrayElems hc v (List.mem_of_mem_drop (List.mem_of_mem_take hv))).1
  · cases c with
    | array offset => exact absurd ⟨offset, rfl⟩ harray
    | _ =>
        simp only [bind, EStateM.bind, Action.get_apply]
        cases h.text? _ with
        | none => exact throw_sound rfl
        | some bytes => exact range_sound i j _ fun p => makeStr_sound hs _

end

end Builtin

end CellScript
