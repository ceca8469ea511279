import CellScript.Builtin.Apply
import CellScript.Proofs.Contents
import CellScript.Proofs.References

/-!
Operations see contents only.

Each operation is run twice, on values that stand for the same over two heaps. The
outcomes agree (`Heap.Agree`): both runs succeed with values that again stand for the
same, or both fail in the same way. Room is the one thing that the contents do not say,
so a run may fail for want of it where the other one goes through.

An operation looks at a value in three ways. It takes a plain value apart, for which all
references of a kind are one (`Value.face`); it takes the bytes of a string; or it takes
the elements of an array. None of them tells values apart that are alike, and what is
built from them is a plain value, a new string or a new array.
-/

namespace CellScript

namespace Heap

variable {h h' g g' : Heap}

/-- Outcomes of one operation on two heaps: values that stand for the same, the same error, or
an error for want of room on one side or on both. A heap is as it was after an error and has
grown otherwise. -/
inductive Agree (h h' : Heap) :
    EStateM.Result Fault Heap Value → EStateM.Result Fault Heap Value → Prop
  | ok {v w : Value} {g g' : Heap} : h.Grows g → h'.Grows g' → Same g g' v w →
      Builtin.render g v = Builtin.render g' w → Agree h h' (.ok v g) (.ok w g')
  | error (e : Fault) : Agree h h' (.error e h) (.error e h')
  | full (requested available available' : Nat) : Agree h h'
      (.error (.heap (.exhausted requested available)) h)
      (.error (.heap (.exhausted requested available')) h')
  | fullLeft {w : Value} {g' : Heap} (requested available : Nat) : h'.Grows g' → g'.Valid w →
      Agree h h' (.error (.heap (.exhausted requested available)) h) (.ok w g')
  | fullRight {v : Value} {g : Heap} (requested available : Nat) : h.Grows g → g.Valid v →
      Agree h h' (.ok v g) (.error (.heap (.exhausted requested available)) h')

theorem Agree.of_same {v w : Value} (a : h.Grows g) (a' : h'.Grows g') (hs : Same g g' v w) :
    Agree h h' (.ok v g) (.ok w g') :=
  .ok a a' hs (Builtin.render_eq_of_same hs)

/-! ### New records -/

/-- What comes of making a record: it is too large, or there is no room, or the value leads to
a whole record with the content `P`. -/
inductive Made (h : Heap) (fits : Prop) (large : Fault) (requested : Nat)
    (P : Heap → Value → Prop) :
    EStateM.Result Fault Heap Value → Prop
  | ok {v : Value} {g : Heap} : fits → h.Grows g → g.Valid v → P g v →
      Made h fits large requested P (.ok v g)
  | large : ¬ fits → Made h fits large requested P (.error large h)
  | full (available : Nat) : fits →
      Made h fits large requested P (.error (.heap (.exhausted requested available)) h)

/-- Records of one size whose contents are alike. -/
theorem agree_of_made {fits : Prop} {large : Fault} {requested : Nat} {P P' : Heap → Value → Prop}
    {x x' : EStateM.Result Fault Heap Value} (hx : Made h fits large requested P x)
    (hx' : Made h' fits large requested P' x')
    (hP : ∀ {g g' v w}, h.Grows g → h'.Grows g' → P g v → P' g' w → Alike g g' v w) :
    Agree h h' x x' := by
  cases hx with
  | ok hfits a hv hp =>
      cases hx' with
      | ok _ a' hw hp' => exact .of_same a a' ⟨hP a a' hp hp', hv, hw⟩
      | large hlarge => exact absurd hfits hlarge
      | full available _ => exact .fullRight requested available a hv
  | large hlarge =>
      cases hx' with
      | ok hfits => exact absurd hfits hlarge
      | large => exact .error large
      | full _ hfits => exact absurd hfits hlarge
  | full available hfits =>
      cases hx' with
      | ok _ a' hw _ => exact .fullLeft requested available a' hw
      | large hlarge => exact absurd hfits hlarge
      | full available' _ => exact .full requested available available'

end Heap

namespace Builtin

open Heap

variable {h h' : Heap} {a a' b b' c c' : Value}

/-- A string of two or more bytes gets a record. -/
theorem made_makeStr {bytes : List UInt8} (hlen : 2 ≤ bytes.length) :
    Made h (bytes.length ≤ maxStrLength)
      (.heap (.recordTooLarge bytes.length maxStrLength)) (2 + bytes.length)
      (fun g v => g.text? v = some bytes) (makeStr bytes h) := by
  cases ha : allocStr bytes h with
  | ok offset g =>
      obtain ⟨hmade, hword, hbytes⟩ := allocStr_made ha
      have hfits : bytes.length ≤ maxStrLength :=
        hword ▸ Nat.le_of_lt_succ (g.word offset.toNat).toNat_lt
      have hholds : g.Holds (.str offset) := by
        show offset.toNat + 2 + (g.word offset.toNat).toNat ≤ g.top
        rw [hword, hmade.start, hmade.stop]
        omega
      rw [makeStr_of_allocStr hlen ha]
      exact .ok hfits hmade.grows (valid_of_holds hholds nofun) (congrArg some hbytes)
  | error e g =>
      have hmake : makeStr bytes h = .error (.heap e) g := by
        match bytes, hlen with
        | _ :: _ :: _, _ =>
            simp only [makeStr, onArena, bind, EStateM.bind, ha]
      rw [hmake]
      obtain ⟨rfl, ⟨hlong, rfl⟩ | ⟨hfits, available, rfl⟩⟩ := allocStr_refused ha
      · exact .large (Nat.not_le_of_lt hlong)
      · exact .full available hfits

theorem made_makeArray {elems : List Value} (hvalid : ∀ v ∈ elems, h.Valid v) :
    Made h (elems.length ≤ maxArrayLength)
      (.heap (.recordTooLarge elems.length maxArrayLength)) (1 + Value.size * elems.length)
      (fun g v => ∃ offset, v = .array offset ∧ g.arrayElems offset = elems)
      (makeArray elems h) := by
  simp only [makeArray, onArena, bind, EStateM.bind]
  cases ha : allocArray elems h with
  | ok offset g =>
      obtain ⟨hmade, hlength, hread⟩ := allocArray_made ha
      have hfits : elems.length ≤ maxArrayLength :=
        hlength ▸ Nat.le_of_lt_succ (g.byte offset.toNat).toNat_lt
      have helems : g.arrayElems offset = elems := arrayElems_of_valueAt hlength hread
      have hholds : g.Holds (.array offset) := by
        show offset.toNat + 1 + Value.size * g.arrayLength offset ≤ g.top
        rw [hlength, hmade.start, hmade.stop]
        omega
      refine .ok hfits hmade.grows (.mk hholds ?_) ⟨offset, rfl, helems⟩
      rintro u ⟨_, hoffset, hu⟩
      cases hoffset
      exact hmade.grows.valid (hvalid u (helems ▸ hu))
  | error e g =>
      obtain ⟨rfl, ⟨hlong, rfl⟩ | ⟨hfits, available, rfl⟩⟩ := allocArray_refused ha
      · exact .large (Nat.not_le_of_lt hlong)
      · exact .full available hfits

theorem agree_pure {v : Value} (hv : v.isPlain = true) :
    Agree h h' ((pure v : Operation Value) h) ((pure v : Operation Value) h') :=
  .of_same (.refl h) (.refl h') (same_of_isPlain hv)

theorem agree_throw (e : Fault) :
    Agree h h' ((throw e : Operation Value) h) ((throw e : Operation Value) h') :=
  .error e

theorem agree_lift {x : Except Fault Value} (hx : PlainResult x) :
    Agree h h' (lift x h) (lift x h') := by
  cases x with
  | ok v => exact agree_pure hx
  | error e => exact agree_throw e

theorem agree_makeStr (bytes : List UInt8) : Agree h h' (makeStr bytes h) (makeStr bytes h') := by
  by_cases hlen : 2 ≤ bytes.length
  · exact agree_of_made (made_makeStr hlen) (made_makeStr hlen) fun _ _ hv hw => .text hv hw
  · match bytes, hlen with
    | [], _ => exact agree_pure rfl
    | [_], _ => exact agree_pure rfl
    | _ :: _ :: _, hlen => exact absurd (Nat.le_add_left 2 _) hlen

theorem agree_makeArray {elems elems' : List Value} (hs : List.Forall₂ (Same h h') elems elems') :
    Agree h h' (makeArray elems h) (makeArray elems' h') := by
  have hlength := hs.length_eq
  have hleft : ∀ v ∈ elems, h.Valid v := fun v hv => by
    obtain ⟨k, hk, rfl⟩ := List.getElem_of_mem hv
    exact ((List.forall₂_iff_get.1 hs).2 k hk (hlength ▸ hk)).left
  have hright : ∀ v ∈ elems', h'.Valid v := fun v hv => by
    obtain ⟨k, hk, rfl⟩ := List.getElem_of_mem hv
    exact ((List.forall₂_iff_get.1 hs).2 k (hlength ▸ hk) hk).right
  have hmade := made_makeArray hleft
  rw [hlength] at hmade
  refine agree_of_made hmade (made_makeArray hright) ?_
  rintro g g' _ _ a a' ⟨offset, rfl, helems⟩ ⟨offset', rfl, helems'⟩
  refine .array ?_ fun k u u' hu hu' => ?_
  · rw [← length_arrayElems, ← length_arrayElems, helems, helems', hlength]
  · rw [arrayGet?_eq_getElem?, helems] at hu
    rw [arrayGet?_eq_getElem?, helems'] at hu'
    obtain ⟨hk, rfl⟩ := List.getElem?_eq_some_iff.1 hu
    obtain ⟨hk', rfl⟩ := List.getElem?_eq_some_iff.1 hu'
    exact (((List.forall₂_iff_get.1 hs).2 k hk hk').grow a a').alike

/-! ### What is seen of a value -/

end Builtin

/-- A value of the kind, the same one for all references of a kind and for all strings. -/
def Value.face : Value → Value
  | strEmpty | strChar _ | str _ => strEmpty
  | proc _ => proc 0
  | func _ => func 0
  | array _ => array 0
  | v => v

theorem Heap.Alike.face_eq {h h' : Heap} {v w : Value} (hs : Alike h h' v w) : v.face = w.face := by
  have htext {h : Heap} {v : Value} {bytes : List UInt8} (hv : h.text? v = some bytes) :
      v.face = .strEmpty := by
    cases v <;> first | rfl | cases hv
  cases hs with
  | text hv hw => rw [htext hv, htext hw]
  | _ => rfl

namespace Builtin

open Heap

variable {h h' : Heap} {a a' b b' c c' : Value}

theorem mismatch_face (op : Opcode) (vs : List Value) :
    mismatch op vs = mismatch op (vs.map Value.face) := by
  have hname : Value.kindName ∘ Value.face = Value.kindName := by
    funext v
    cases v <;> rfl
  rw [mismatch, mismatch, List.map_map, hname]

/-- A function of two values that looks at their faces only. -/
theorem eq_of_face {β : Type} {f : Value → Value → β} (hf : ∀ a b, f a b = f a.face b.face)
    (ha : Alike h h' a a') (hb : Alike h h' b b') : f a b = f a' b' := by
  rw [hf a b, hf a' b', ha.face_eq, hb.face_eq]

theorem promote?_face (a b : Value) : promote? a b = promote? a.face b.face := by
  cases a <;> cases b <;> rfl

theorem arith_face (op : Opcode) (a b : Value) : arith op a b = arith op a.face b.face := by
  cases a <;> cases b <;> rfl

theorem remainder_face (a b : Value) : remainder a b = remainder a.face b.face := by
  cases a <;> cases b <;> rfl

theorem shift_face (op : Opcode) (a b : Value) : shift op a b = shift op a.face b.face := by
  cases a <;> cases b <;> rfl

theorem bitwise_face (op : Opcode) (a b : Value) : bitwise op a b = bitwise op a.face b.face := by
  cases a <;> cases b <;> rfl

theorem logical_face (op : Opcode) (a b : Value) : logical op a b = logical op a.face b.face := by
  cases a <;> cases b <;> rfl

theorem intArgument_face (op : Opcode) (v : Value) : intArgument op v = intArgument op v.face := by
  cases v <;> rfl

theorem order_face (h : Heap) (op : Opcode) (a b : Value) : order h op a b =
    match promote? a b with
    | some (.ints x y) => .ok (some (compare x.toInt y.toInt))
    | some (.floats x y) => .ok (x.compare y)
    | none =>
      match h.text? a, h.text? b with
      | some s, some t => .ok (some (compareBytes s t))
      | _, _ =>
        match a.face, b.face with
        | .bool x, .bool y =>
          if op = .eq || op = .ne then .ok (some (compare x y))
          else .error (mismatch op [a.face, b.face])
        | _, _ => .error (mismatch op [a.face, b.face]) := by
  cases a <;> cases b <;> rfl

section

variable (ha : Alike h h' a a') (hb : Alike h h' b b')

include ha

theorem mismatch_one (op : Opcode) : mismatch op [a] = mismatch op [a'] := by
  rw [mismatch_face op [a], mismatch_face op [a'], List.map_singleton, List.map_singleton,
    ha.face_eq]

theorem intArgument_eq (op : Opcode) : intArgument op a = intArgument op a' := by
  rw [intArgument_face op a, intArgument_face op a', ha.face_eq]

include hb

theorem mismatch_two (op : Opcode) : mismatch op [a, b] = mismatch op [a', b'] := by
  rw [mismatch_face op [a, b], mismatch_face op [a', b'], List.map_cons, List.map_singleton,
    List.map_cons, List.map_singleton, ha.face_eq, hb.face_eq]

theorem comparison_eq (op : Opcode) : comparison h op a b = comparison h' op a' b' := by
  rw [comparison, comparison, order_face, order_face, eq_of_face promote?_face ha hb,
    ha.text?_eq, hb.text?_eq, ha.face_eq, hb.face_eq]

end

/-! ### Operations by code -/

theorem agree_binary (op : Opcode) (ha : Alike h h' a a') (hb : Alike h h' b b') :
    Agree h h' (binary op a b h) (binary op a' b' h') := by
  have harith (op : Opcode) : Agree h h' (lift (arith op a b) h) (lift (arith op a' b') h') := by
    rw [eq_of_face (arith_face op) ha hb]
    exact agree_lift (arith_plain _ _ _)
  have hremainder : Agree h h' (lift (remainder a b) h) (lift (remainder a' b') h') := by
    rw [eq_of_face remainder_face ha hb]
    exact agree_lift (remainder_plain _ _)
  have hshift (op : Opcode) : Agree h h' (lift (shift op a b) h) (lift (shift op a' b') h') := by
    rw [eq_of_face (shift_face op) ha hb]
    exact agree_lift (shift_plain _ _ _)
  have hbitwise (op : Opcode) :
      Agree h h' (lift (bitwise op a b) h) (lift (bitwise op a' b') h') := by
    rw [eq_of_face (bitwise_face op) ha hb]
    exact agree_lift (bitwise_plain _ _ _)
  have hlogical (op : Opcode) :
      Agree h h' (lift (logical op a b) h) (lift (logical op a' b') h') := by
    rw [eq_of_face (logical_face op) ha hb]
    exact agree_lift (logical_plain _ _ _)
  have hcomparison (op : Opcode) :
      Agree h h' (lift (comparison h op a b) h) (lift (comparison h' op a' b') h') := by
    rw [comparison_eq ha hb]
    exact agree_lift (comparison_plain _ _ _ _)
  unfold binary
  split
  · -- Two strings are joined, all else is added.
    simp only [bind, EStateM.bind, Action.get_apply]
    rw [ha.text?_eq, hb.text?_eq]
    cases h'.text? a' with
    | none => exact harith _
    | some s =>
        cases h'.text? b' with
        | none => exact harith _
        | some t => exact agree_makeStr _
  · exact harith _
  · exact harith _
  · exact harith _
  · exact hremainder
  · exact hshift _
  · exact hshift _
  · exact hshift _
  · exact hbitwise _
  · exact hbitwise _
  · exact hbitwise _
  · exact hlogical _
  · exact hlogical _
  · exact hcomparison _
  · exact hcomparison _
  · exact hcomparison _
  · exact hcomparison _
  · exact hcomparison _
  · exact hcomparison _
  · rw [mismatch_two ha hb]
    exact agree_throw _

/-- An operation on the bytes of a string, or an error if there are none. -/
theorem agree_text (ha : h.text? a = h'.text? a') {e e' : Fault} (he : e = e')
    {f : List UInt8 → Operation Value} (hf : ∀ t, Agree h h' (f t h) (f t h')) :
    Agree h h'
      ((do
        match (← get).text? a with
        | some t => f t
        | none => throw e : Operation Value) h)
      ((do
        match (← get).text? a' with
        | some t => f t
        | none => throw e' : Operation Value) h') := by
  simp only [bind, EStateM.bind, Action.get_apply]
  rw [ha, he]
  cases h'.text? a' with
  | none => exact agree_throw e'
  | some t => exact hf t

/-- An operation of one argument on a string. -/
theorem unary_of_text {op : Opcode} {bytes : List UInt8} (ha : h.text? a = some bytes) :
    unary op a h = (match op with
      | .int => lift (intOfText bytes)
      | .float => lift (floatOfText bytes)
      | .asc => pure (.int (Int16.ofNat (bytes.headD 0).toNat))
      | .str => makeStr bytes
      | .len => lift (ofLength bytes.length)
      | op => throw (mismatch op [.strEmpty])) h := by
  cases a <;> cases ha <;> cases op <;> rfl

/-- An operation of one argument on an array. -/
theorem unary_of_array {op : Opcode} {offset : UInt16} : unary op (.array offset) h = (match op with
      | .str => makeStr (render h (.array offset))
      | .len => lift (ofLength (h.arrayLength offset))
      | op => throw (mismatch op [.array 0])) h := by
  cases op <;> rfl

theorem unary_of_proc {op : Opcode} {entry : UInt16} : unary op (.proc entry) h = (match op with
      | .str => makeStr (Ascii.bytes "<proc>")
      | op => throw (mismatch op [.proc 0])) h := by
  cases op <;> rfl

theorem unary_of_func {op : Opcode} {entry : UInt16} : unary op (.func entry) h = (match op with
      | .str => makeStr (Ascii.bytes "<func>")
      | op => throw (mismatch op [.func 0])) h := by
  cases op <;> rfl

theorem agree_unary (op : Opcode) (hs : Same h h' a a') :
    Agree h h' (unary op a h) (unary op a' h') := by
  have hrender := render_eq_of_same hs
  have hlength (n : Nat) : Agree h h' (lift (ofLength n) h) (lift (ofLength n) h') :=
    agree_lift (ofLength_plain n)
  obtain ⟨halike, -, -⟩ := hs
  have hsame := halike.text?_eq
  cases halike with
  | plain hplain =>
      unfold unary
      split
      all_goals first
        | exact agree_pure rfl
        | exact agree_throw _
        | exact agree_lift (intOfSingle_plain _)
        | exact agree_text hsame rfl fun t => agree_lift (intOfText_plain t)
        | exact agree_text hsame rfl fun t => agree_lift (floatOfText_plain t)
        | exact agree_text hsame rfl fun t => agree_pure rfl
        | exact agree_text hsame rfl fun t => hlength _
        | cases hplain
        | skip
      · -- What is printed is the same on both heaps.
        simp only [bind, EStateM.bind, Action.get_apply]
        rw [hrender]
        exact agree_makeStr _
  | text ha ha' =>
      rw [unary_of_text ha, unary_of_text ha']
      split
      · exact agree_lift (intOfText_plain _)
      · exact agree_lift (floatOfText_plain _)
      · exact agree_pure rfl
      · exact agree_makeStr _
      · exact hlength _
      · exact agree_throw _
  | proc =>
      rw [unary_of_proc, unary_of_proc]
      split
      · exact agree_makeStr _
      · exact agree_throw _
  | func =>
      rw [unary_of_func, unary_of_func]
      split
      · exact agree_makeStr _
      · exact agree_throw _
  | array hsize _ =>
      rw [unary_of_array, unary_of_array, hrender, hsize]
      split
      · exact agree_makeStr _
      · exact hlength _
      · exact agree_throw _

/-! ### Parts of strings and arrays -/

theorem agree_substring (op : Opcode) (ha : Alike h h' a a') (start count : Int16) :
    Agree h h' (substring op a start count h) (substring op a' start count h') := by
  simp only [substring, bind, EStateM.bind, Action.get_apply]
  rw [ha.text?_eq, mismatch_one ha]
  cases h'.text? a' with
  | none => exact agree_throw _
  | some bytes =>
      by_cases hstart : start < 0
      · simp only [hstart, if_true]
        exact agree_throw _
      · by_cases hcount : count < 0
        · simp only [hstart, hcount, if_true, if_false]
          exact agree_throw _
        · simp only [hstart, hcount, if_false]
          exact agree_makeStr _

/-- An operation with an integer argument. -/
theorem agree_int (op : Opcode) (ha : Alike h h' a a') {f g : Int16 → Operation Value}
    (hf : ∀ n, Agree h h' (f n h) (g n h')) :
    Agree h h' ((lift (intArgument op a) >>= f) h) ((lift (intArgument op a') >>= g) h') := by
  rw [intArgument_eq ha]
  cases intArgument op a' with
  | ok n => exact hf n
  | error e => exact agree_throw e

theorem agree_left (ha : Alike h h' a a') (hb : Alike h h' b b') :
    Agree h h' (left a b h) (left a' b' h') :=
  agree_int _ hb fun n => agree_substring _ ha 0 n

theorem agree_right (ha : Alike h h' a a') (hb : Alike h h' b b') :
    Agree h h' (right a b h) (right a' b' h') := by
  refine agree_int _ hb fun n => ?_
  simp only [bind, EStateM.bind, Action.get_apply]
  rw [ha.text?_eq, mismatch_one ha]
  cases h'.text? a' with
  | none => exact agree_throw _
  | some bytes =>
      by_cases hn : n < 0
      · simp only [hn, if_true]
        exact agree_throw _
      · simp only [hn, if_false]
        exact agree_substring _ ha _ _

theorem agree_substr (ha : Alike h h' a a') (hb : Alike h h' b b') (hc : Alike h h' c c') :
    Agree h h' (substr a b c h) (substr a' b' c' h') :=
  agree_int _ hb fun start => agree_int _ hc fun n => agree_substring _ ha start n

/-- Two arrays, or two values that are no arrays. -/
theorem array_or_not (ha : Alike h h' a a') :
    (∃ offset offset', a = .array offset ∧ a' = .array offset') ∨
      (∀ offset, a ≠ .array offset) ∧ ∀ offset, a' ≠ .array offset := by
  cases ha with
  | plain hplain =>
      refine .inr ⟨?_, ?_⟩ <;> rintro offset rfl <;> cases hplain
  | text hv hw =>
      refine .inr ⟨?_, ?_⟩
      · rintro offset rfl
        cases hv
      · rintro offset rfl
        cases hw
  | proc => exact .inr ⟨nofun, nofun⟩
  | func => exact .inr ⟨nofun, nofun⟩
  | array => exact .inl ⟨_, _, rfl, rfl⟩

/-- The same integer twice, or twice no integer. -/
theorem int_or_not (ha : Alike h h' a a') (op : Opcode) :
    (∃ n, a = .int n ∧ a' = .int n) ∨
      ∃ e, intArgument op a = .error e ∧ intArgument op a' = .error e := by
  have hface := ha.face_eq
  have hint := intArgument_eq ha op
  cases a with
  | int n =>
      refine .inl ⟨n, rfl, ?_⟩
      cases a' <;> cases hface
      rfl
  | _ => exact .inr ⟨_, rfl, hint.symm⟩

/-- An index, as an operation that leaves the heap alone. -/
def indexed (c i : Value) : Operation Value := do lift (index (← get) c i)

theorem itemPosition_plain {k : Int16} {n : Nat} {f : Nat → Value}
    (hf : ∀ i, (f i).isPlain = true) : PlainResult ((itemPosition k n).map f) := by
  cases hk : itemPosition k n with
  | ok i => exact hf i
  | error e => exact itemPosition_fault hk

theorem agree_indexed (ha : Same h h' a a') (hb : Alike h h' b b') :
    Agree h h' (indexed a b h) (indexed a' b' h') := by
  show Agree h h' (lift (index h a b) h) (lift (index h' a' b') h')
  obtain ⟨n, rfl, rfl⟩ | ⟨e, he, he'⟩ := int_or_not hb .index
  · obtain ⟨offset, offset', rfl, rfl⟩ | ⟨hno, hno'⟩ := array_or_not ha.alike
    · have helements := ha.elements
      have hlength := helements.length_eq
      simp only [index, intArgument, bind, Except.bind, arrayGet?_eq_getElem?, ← length_arrayElems,
        hlength]
      cases itemPosition n (h'.arrayElems offset').length with
      | error e => exact agree_throw e
      | ok k =>
          by_cases hk : k < (h.arrayElems offset).length
          · have hsame := (List.forall₂_iff_get.1 helements).2 k hk (hlength ▸ hk)
            simp only [List.getElem?_eq_getElem hk, List.getElem?_eq_getElem (hlength ▸ hk)]
            exact .of_same (.refl h) (.refl h') hsame
          · simp only [List.getElem?_eq_none (Nat.le_of_not_lt hk),
              List.getElem?_eq_none (Nat.le_of_not_lt (hlength ▸ hk))]
            exact agree_throw _
    · rw [index_of_text hno, index_of_text hno', ha.alike.text?_eq, mismatch_one ha.alike]
      cases h'.text? a' with
      | none => exact agree_throw _
      | some bytes => exact agree_lift (itemPosition_plain fun _ => rfl)
  · simp only [index, he, he', bind, Except.bind]
    exact agree_throw e

/-- A slice of what is no array. -/
theorem slice_of_text (hno : ∀ offset, a ≠ .array offset) : slice a b c = (do
    let i ← lift (intArgument .slice b)
    let j ← lift (intArgument .slice c)
    match (← get).text? a with
    | none => throw (mismatch .slice [a])
    | some bytes =>
      let (start, stop) ← lift (range i j bytes.length)
      makeStr ((bytes.drop start).take (stop - start))) := by
  cases a <;> first | rfl | exact absurd rfl (hno _)

theorem agree_slice (ha : Same h h' a a') (hb : Alike h h' b b') (hc : Alike h h' c c') :
    Agree h h' (slice a b c h) (slice a' b' c' h') := by
  obtain ⟨offset, offset', rfl, rfl⟩ | ⟨hno, hno'⟩ := array_or_not ha.alike
  · refine agree_int _ hb fun i => agree_int _ hc fun j => ?_
    have helements := ha.elements
    simp only [bind, EStateM.bind, Action.get_apply]
    rw [helements.length_eq]
    cases range i j (h'.arrayElems offset').length with
    | error e => exact agree_throw e
    | ok p => exact agree_makeArray (List.forall₂_take _ (List.forall₂_drop _ helements))
  · rw [slice_of_text hno, slice_of_text hno']
    refine agree_int _ hb fun i => agree_int _ hc fun j => ?_
    simp only [bind, EStateM.bind, Action.get_apply]
    rw [ha.alike.text?_eq, mismatch_one ha.alike]
    cases h'.text? a' with
    | none => exact agree_throw _
    | some bytes =>
        cases hrange : range i j bytes.length with
        | error e =>
            simp only [hrange]
            exact agree_throw e
        | ok p =>
            simp only [hrange]
            exact agree_makeStr _

/-! ### Comparison of strings -/

/-- Strings compare by their bytes, in lexicographic order. -/
theorem binary_of_text {s t : List UInt8} (ha : h.text? a = some s) (hb : h.text? b = some t) :
    binary .lt a b h = .ok (.bool (s < t)) h ∧ binary .le a b h = .ok (.bool (s ≤ t)) h ∧
    binary .gt a b h = .ok (.bool (t < s)) h ∧ binary .ge a b h = .ok (.bool (t ≤ s)) h ∧
    binary .eq a b h = .ok (.bool (s = t)) h ∧ binary .ne a b h = .ok (.bool (s ≠ t)) h := by
  have hpromote : promote? a b = none := by
    cases a <;> cases b <;> first | rfl | cases ha
  have hlift (op : Opcode) (r : Prop) [Decidable r]
      (hr : holds op (some (compareBytes s t)) = true ↔ r) :
      lift (comparison h op a b) h = .ok (.bool r) h := by
    have hdecide : holds op (some (compareBytes s t)) = decide r := by
      rw [Bool.eq_iff_iff, decide_eq_true_iff]
      exact hr
    rw [comparison, order_face, hpromote, ha, hb, ← hdecide]
    rfl
  have hle : s ≤ t ↔ compareBytes s t ≠ .gt :=
    List.not_lt.symm.trans (not_congr (compareBytes_eq_gt_iff s t).symm)
  have hge : t ≤ s ↔ compareBytes s t ≠ .lt :=
    List.not_lt.symm.trans (not_congr (compareBytes_eq_lt_iff s t).symm)
  refine ⟨hlift .lt _ ?_, hlift .le _ ?_, hlift .gt _ ?_, hlift .ge _ ?_, hlift .eq _ ?_,
    hlift .ne _ ?_⟩
  · rw [← compareBytes_eq_lt_iff]
    cases compareBytes s t <;> decide
  · rw [hle]
    cases compareBytes s t <;> decide
  · rw [← compareBytes_eq_gt_iff]
    cases compareBytes s t <;> decide
  · rw [hge]
    cases compareBytes s t <;> decide
  · rw [← compareBytes_eq_eq_iff]
    cases compareBytes s t <;> decide
  · rw [ne_eq, ← compareBytes_eq_eq_iff]
    cases compareBytes s t <;> decide

/-! ### All operations -/

/-- The operations on values. -/
inductive Routine where
  | unary (op : Opcode)
  | binary (op : Opcode)
  | left
  | right
  | substr
  | index
  | slice
  | array

/-- An operation on its arguments; `none` if there are too many or too few. -/
def Routine.apply? : Routine → List Value → Option (Operation Value)
  | .unary op, [a] => some (Builtin.unary op a)
  | .binary op, [a, b] => some (Builtin.binary op a b)
  | .left, [s, n] => some (Builtin.left s n)
  | .right, [s, n] => some (Builtin.right s n)
  | .substr, [s, start, n] => some (Builtin.substr s start n)
  | .index, [c, i] => some (indexed c i)
  | .slice, [c, i, j] => some (Builtin.slice c i j)
  | .array, elems => some (makeArray elems)
  | _, _ => none

theorem Routine.agree {r : Routine} {as bs : List Value} {x : Operation Value}
    (hs : List.Forall₂ (Same h h') as bs) (hx : r.apply? as = some x) :
    ∃ y, r.apply? bs = some y ∧ Agree h h' (x h) (y h') := by
  unfold Routine.apply? at hx
  split at hx
  all_goals cases hx
  · obtain _ | ⟨ha, _ | _⟩ := hs
    exact ⟨_, rfl, agree_unary _ ha⟩
  · obtain _ | ⟨ha, _ | ⟨hb, _ | _⟩⟩ := hs
    exact ⟨_, rfl, agree_binary _ ha.alike hb.alike⟩
  · obtain _ | ⟨ha, _ | ⟨hb, _ | _⟩⟩ := hs
    exact ⟨_, rfl, agree_left ha.alike hb.alike⟩
  · obtain _ | ⟨ha, _ | ⟨hb, _ | _⟩⟩ := hs
    exact ⟨_, rfl, agree_right ha.alike hb.alike⟩
  · obtain _ | ⟨ha, _ | ⟨hb, _ | ⟨hc, _ | _⟩⟩⟩ := hs
    exact ⟨_, rfl, agree_substr ha.alike hb.alike hc.alike⟩
  · obtain _ | ⟨ha, _ | ⟨hb, _ | _⟩⟩ := hs
    exact ⟨_, rfl, agree_indexed ha hb.alike⟩
  · obtain _ | ⟨ha, _ | ⟨hb, _ | ⟨hc, _ | _⟩⟩⟩ := hs
    exact ⟨_, rfl, agree_slice ha hb.alike hc.alike⟩
  · exact ⟨_, rfl, agree_makeArray hs⟩

/-- Operations see strings and arrays through their contents only. On arguments that stand for the
same over two heaps every operation comes to results that stand for the same and are printed
alike, or to the same error, or it lacks room on one of the heaps. Comparison of strings is the
lexicographic order of their bytes. -/
theorem seen_by_contents (h h' : Heap) :
    (∀ (r : Routine) (as bs : List Value) (x : Operation Value),
      List.Forall₂ (Same h h') as bs → r.apply? as = some x →
        ∃ y, r.apply? bs = some y ∧ Agree h h' (x h) (y h')) ∧
    (∀ v w, Same h h' v w → render h v = render h' w) ∧
    ∀ a b s t, h.text? a = some s → h.text? b = some t →
      binary .lt a b h = .ok (.bool (s < t)) h ∧ binary .le a b h = .ok (.bool (s ≤ t)) h ∧
      binary .gt a b h = .ok (.bool (t < s)) h ∧ binary .ge a b h = .ok (.bool (t ≤ s)) h ∧
      binary .eq a b h = .ok (.bool (s = t)) h ∧ binary .ne a b h = .ok (.bool (s ≠ t)) h :=
  ⟨fun _ _ _ _ hs hx => Routine.agree hs hx, fun _ _ hs => render_eq_of_same hs,
    fun _ _ _ _ ha hb => binary_of_text ha hb⟩

/-- An array of the string `ab` and a number, with the string at different places. -/
theorem seen_by_contents_array :
    let h : Heap := ⟨#[0, 0, 0, 2, 97, 98, 0, 0, 0, 0, 0, 0, 0], 6⟩
    let h' : Heap := ⟨#[0, 0, 7, 0, 2, 97, 98, 0, 0, 0, 0, 0, 0, 0], 7⟩
    List.Forall₂ (Same h h') [.str 2, .int 1] [.str 3, .int 1] ∧
      Agree h h' (makeArray [.str 2, .int 1] h) (makeArray [.str 3, .int 1] h') := by
  intro h h'
  have hleft : h.Holds (.str 2) :=
    show (2 : UInt16).toNat + 2 + (h.word (2 : UInt16).toNat).toNat ≤ h.top by decide
  have hright : h'.Holds (.str 3) :=
    show (3 : UInt16).toNat + 2 + (h'.word (3 : UInt16).toNat).toNat ≤ h'.top by decide
  have htext : h.text? (.str 2) = some [97, 98] := by decide
  have htext' : h'.text? (.str 3) = some [97, 98] := by decide
  have hs : List.Forall₂ (Same h h') [.str 2, .int 1] [.str 3, .int 1] :=
    .cons ⟨.text htext htext', valid_of_holds hleft nofun, valid_of_holds hright nofun⟩
      (.cons (same_of_isPlain rfl) .nil)
  clear_value h h'
  obtain ⟨y, hy, hagree⟩ := (seen_by_contents h h').1 .array _ _ _ hs rfl
  cases hy
  exact ⟨hs, hagree⟩

end Builtin

end CellScript
