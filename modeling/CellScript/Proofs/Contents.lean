import CellScript.Proofs.Parts
import CellScript.Proofs.Permanence
import Mathlib.Data.List.Forall2
import Mathlib.Data.Finset.Card

/-!
What values stand for.

The bytes of a string can lie in the value itself or anywhere on the heap, and an array
is an offset. `Heap.Alike` relates values over two heaps that stand for the same: equal
plain values, strings with the same bytes, arrays of elements that are alike. It says
nothing about where the records lie or whether they are whole. That is `Heap.Valid`: the
record of a value and those of its elements in turn lie below the top, and they come to
an end, since the predicate is inductive. A heap that grows keeps both.

Printing is the one operation that follows values to their end, and it is given a bound
by the height of the heap. Along the way into a valid value no array is met twice, so
there are no more levels than there are offsets below the top (`Valid.nests`), and values
that are alike are printed alike.
-/

namespace CellScript

namespace Heap

variable {h h' g g' : Heap}

/-! ### Whole records -/

/-- The record of a value, if it has one, lies below the top. -/
def Holds (h : Heap) : Value → Prop
  | .str offset => offset.toNat + 2 + (h.word offset.toNat).toNat ≤ h.top
  | .array offset => offset.toNat + 1 + Value.size * h.arrayLength offset ≤ h.top
  | _ => True

/-- The value, its elements and theirs in turn have whole records and come to an end. -/
inductive Valid (h : Heap) : Value → Prop
  | mk {v : Value} : h.Holds v → (∀ u, h.Contains u v → Valid h u) → Valid h v

theorem Valid.holds {v : Value} (hv : h.Valid v) : h.Holds v := by
  cases hv with
  | mk hholds _ => exact hholds

theorem Valid.element {u v : Value} (hv : h.Valid v) (hu : h.Contains u v) : h.Valid u := by
  cases hv with
  | mk _ helements => exact helements u hu

theorem Valid.acc {v : Value} (hv : h.Valid v) : Acc h.Contains v := by
  induction hv with
  | mk _ _ ih => exact ⟨_, ih⟩

/-- A value without elements. -/
theorem valid_of_holds {v : Value} (hv : h.Holds v) (hno : ∀ offset, v ≠ .array offset) :
    h.Valid v :=
  .mk hv fun _ hu => by
    obtain ⟨offset, rfl, -⟩ := hu
    exact absurd rfl (hno offset)

theorem valid_of_isPlain {v : Value} (hv : v.isPlain = true) : h.Valid v := by
  refine valid_of_holds ?_ ?_
  · cases v with
    | str => cases hv
    | array => cases hv
    | _ => trivial
  · rintro offset rfl
    cases hv

/-! ### Elements by position -/

theorem arrayElems_eq (h : Heap) (offset : UInt16) :
    h.arrayElems offset = (List.range (h.arrayLength offset)).map fun k =>
      h.valueAt (offset.toNat + 1 + k * Value.size) := by
  rw [arrayElems, ← List.filterMap_eq_map]
  refine List.filterMap_congr fun k hk => ?_
  rw [arrayGet?, if_pos (List.mem_range.1 hk)]
  rfl

theorem arrayElems_of_valueAt {elems : List Value} {offset : UInt16}
    (hlength : h.arrayLength offset = elems.length)
    (hread : ∀ k (hk : k < elems.length),
      h.valueAt (offset.toNat + 1 + k * Value.size) = elems[k]) : h.arrayElems offset = elems := by
  rw [arrayElems_eq, hlength]
  refine List.ext_getElem (by simp) fun k hk hk' => ?_
  rw [List.getElem_map, List.getElem_range, hread k hk']

theorem length_arrayElems (h : Heap) (offset : UInt16) :
    (h.arrayElems offset).length = h.arrayLength offset := by
  rw [arrayElems_eq, List.length_map, List.length_range]

theorem arrayGet?_eq_getElem? (h : Heap) (offset : UInt16) (k : Nat) :
    h.arrayGet? offset k = (h.arrayElems offset)[k]? := by
  rw [arrayElems_eq, List.getElem?_map, arrayGet?]
  by_cases hk : k < h.arrayLength offset
  · rw [if_pos hk, List.getElem?_range hk]
    rfl
  · rw [if_neg hk, List.getElem?_eq_none (by rw [List.length_range]; omega)]
    rfl

section

variable (a : Grows h g)

include a

theorem Grows.text? {v : Value} (hv : h.Holds v) : g.text? v = h.text? v := by
  cases v with
  | str offset =>
      have hwithin : offset.toNat + 2 + (h.word offset.toNat).toNat ≤ h.top := hv
      have hword := a.word (i := offset.toNat) (by omega)
      show some (g.strBytes offset) = some (h.strBytes offset)
      rw [strBytes, strBytes, hword]
      exact congrArg some (slice_congr fun k hk => a.byte _ (by omega))
  | _ => rfl

theorem Grows.arrayLength {offset : UInt16} (hv : h.Holds (.array offset)) :
    g.arrayLength offset = h.arrayLength offset := by
  have hwithin : offset.toNat + 1 + Value.size * h.arrayLength offset ≤ h.top := hv
  rw [Heap.arrayLength, Heap.arrayLength, a.byte _ (by omega)]

theorem Grows.arrayElems {offset : UInt16} (hv : h.Holds (.array offset)) :
    g.arrayElems offset = h.arrayElems offset := by
  have hwithin : offset.toNat + 1 + Value.size * h.arrayLength offset ≤ h.top := hv
  rw [arrayElems_eq, arrayElems_eq, a.arrayLength hv]
  refine List.map_congr_left fun k hk => a.valueAt ?_
  have hk := List.mem_range.1 hk
  simp only [Value.size] at hwithin ⊢
  omega

theorem Grows.contains {u v : Value} (hv : h.Holds v) : g.Contains u v ↔ h.Contains u v := by
  constructor
  · rintro ⟨offset, rfl, hu⟩
    exact ⟨offset, rfl, a.arrayElems hv ▸ hu⟩
  · rintro ⟨offset, rfl, hu⟩
    exact ⟨offset, rfl, (a.arrayElems hv).symm ▸ hu⟩

theorem Grows.holds {v : Value} (hv : h.Holds v) : g.Holds v := by
  have htop := a.top
  cases v with
  | str offset =>
      have hwithin : offset.toNat + 2 + (h.word offset.toNat).toNat ≤ h.top := hv
      show offset.toNat + 2 + (g.word offset.toNat).toNat ≤ g.top
      rw [a.word (by omega)]
      omega
  | array offset =>
      have hwithin : offset.toNat + 1 + Value.size * h.arrayLength offset ≤ h.top := hv
      show offset.toNat + 1 + Value.size * g.arrayLength offset ≤ g.top
      rw [a.arrayLength hv]
      omega
  | _ => trivial

theorem Grows.valid {v : Value} (hv : h.Valid v) : g.Valid v := by
  induction hv with
  | mk hholds _ ih => exact .mk (a.holds hholds) fun u hu => ih u ((a.contains hholds).1 hu)

end

/-! ### Values that stand for the same -/

/-- The two values stand for the same, each on its heap. -/
inductive Alike (h h' : Heap) : Value → Value → Prop
  | plain {v : Value} : v.isPlain = true → Alike h h' v v
  | text {v w : Value} {bytes : List UInt8} :
      h.text? v = some bytes → h'.text? w = some bytes → Alike h h' v w
  | proc (entry entry' : UInt16) : Alike h h' (.proc entry) (.proc entry')
  | func (entry entry' : UInt16) : Alike h h' (.func entry) (.func entry')
  | array {offset offset' : UInt16} : h.arrayLength offset = h'.arrayLength offset' →
      (∀ k u u', h.arrayGet? offset k = some u → h'.arrayGet? offset' k = some u' →
        Alike h h' u u') → Alike h h' (.array offset) (.array offset')

theorem Alike.text?_eq {v w : Value} (hs : Alike h h' v w) : h.text? v = h'.text? w := by
  cases hs with
  | plain hv => cases v <;> first | rfl | cases hv
  | text hv hw => rw [hv, hw]
  | _ => rfl

/-- Whether one of two values that are alike is an array decides it for both. -/
theorem Alike.array_inv {w : Value} {offset : UInt16} (hs : Alike h h' (.array offset) w) :
    ∃ offset', w = .array offset' ∧ h.arrayLength offset = h'.arrayLength offset' ∧
      ∀ k u u', h.arrayGet? offset k = some u → h'.arrayGet? offset' k = some u' →
        Alike h h' u u' := by
  cases hs with
  | plain hv => cases hv
  | text hv _ => cases hv
  | array hlength helements => exact ⟨_, rfl, hlength, helements⟩

/-- Values that are alike and valid. -/
structure Same (h h' : Heap) (v w : Value) : Prop where
  alike : Alike h h' v w
  left : h.Valid v
  right : h'.Valid w

/-- The elements of arrays that are alike. -/
theorem Same.elements {offset offset' : UInt16} (hs : Same h h' (.array offset) (.array offset')) :
    List.Forall₂ (Same h h') (h.arrayElems offset) (h'.arrayElems offset') := by
  obtain ⟨_, hoffset, hlength, helements⟩ := hs.alike.array_inv
  cases hoffset
  rw [List.forall₂_iff_get]
  refine ⟨by rw [length_arrayElems, length_arrayElems, hlength], fun k hk hk' => ?_⟩
  refine ⟨helements k _ _ ?_ ?_, hs.left.element ⟨_, rfl, List.getElem_mem hk⟩,
    hs.right.element ⟨_, rfl, List.getElem_mem hk'⟩⟩
  · rw [arrayGet?_eq_getElem?]
    exact List.getElem?_eq_getElem hk
  · rw [arrayGet?_eq_getElem?]
    exact List.getElem?_eq_getElem hk'

/-- Growing heaps keep what is alike. -/
theorem Alike.grow {v w : Value} (hs : Alike h h' v w) (a : Grows h g) (a' : Grows h' g')
    (hv : h.Valid v) (hw : h'.Valid w) : Alike g g' v w := by
  induction hs with
  | plain hplain => exact .plain hplain
  | text htext htext' =>
      exact .text ((a.text? hv.holds).trans htext) ((a'.text? hw.holds).trans htext')
  | proc => exact .proc _ _
  | func => exact .func _ _
  | @array offset offset' hlength _ ih =>
      have hget {h g : Heap} {offset : UInt16} (a : Grows h g) (hv : h.Holds (.array offset))
          (k : Nat) : g.arrayGet? offset k = h.arrayGet? offset k := by
        rw [arrayGet?_eq_getElem?, arrayGet?_eq_getElem?, a.arrayElems hv]
      refine .array ?_ fun k u u' hu hu' => ?_
      · rw [a.arrayLength hv.holds, a'.arrayLength hw.holds, hlength]
      · rw [hget a hv.holds] at hu
        rw [hget a' hw.holds] at hu'
        refine ih k u u' hu hu' (hv.element ⟨_, rfl, ?_⟩) (hw.element ⟨_, rfl, ?_⟩)
        · exact List.mem_of_getElem? (arrayGet?_eq_getElem? h _ k ▸ hu)
        · exact List.mem_of_getElem? (arrayGet?_eq_getElem? h' _ k ▸ hu')

theorem Same.grow {v w : Value} (hs : Same h h' v w) (a : Grows h g) (a' : Grows h' g') :
    Same g g' v w :=
  ⟨hs.alike.grow a a' hs.left hs.right, a.valid hs.left, a'.valid hs.right⟩

theorem same_of_isPlain {v : Value} (hv : v.isPlain = true) : Same h h' v v :=
  ⟨.plain hv, valid_of_isPlain hv, valid_of_isPlain hv⟩

/-! ### Levels of a value -/

/-- The value has at most so many levels. -/
def Nests (h : Heap) : Nat → Value → Prop
  | 0, _ => False
  | n + 1, v => ∀ u, h.Contains u v → Nests h n u

theorem Nests.exists_succ {n : Nat} {v : Value} (hn : h.Nests n v) : ∃ m, n = m + 1 := by
  cases n with
  | zero => cases hn
  | succ m => exact ⟨m, rfl⟩

theorem not_contains_trans_self {v : Value} (hv : h.Valid v) :
    ¬ Relation.TransGen h.Contains v v := by
  have hacc : Acc (Relation.TransGen h.Contains) v := hv.acc.transGen
  induction hacc with
  | intro v _ ih => exact fun hself => ih v hself hv hself

/-- A valid value has no more levels than there are offsets below the top, and one more. The
arrays on the way to it lie below the top and are all different, and each of them uses up one
of the levels. -/
theorem Valid.nests {v : Value} (hv : h.Valid v) : h.Nests (h.top + 1) v := by
  have hpath (v : Value) (hv : h.Valid v) : ∀ above : Finset Nat, above ⊆ Finset.range h.top →
      (∀ o ∈ above, ∃ offset : UInt16, offset.toNat = o ∧
        Relation.TransGen h.Contains v (.array offset)) →
      h.Nests (h.top - above.card + 1) v := by
    induction hv with
    | @mk v hholds helements ih =>
        intro above hbelow habove u hu
        obtain ⟨offset, rfl, hmem⟩ := hu
        have hwithin : offset.toNat + 1 + Value.size * h.arrayLength offset ≤ h.top := hholds
        have hnew : offset.toNat ∉ above := by
          intro hin
          obtain ⟨offset', hoffset, htrans⟩ := habove _ hin
          obtain rfl := UInt16.toNat_inj.1 hoffset
          exact not_contains_trans_self (.mk hholds helements) htrans
        have hcard : above.card < h.top := by
          have hsub : insert offset.toNat above ⊆ Finset.range h.top :=
            Finset.insert_subset (Finset.mem_range.2 (by omega)) hbelow
          have hle := Finset.card_le_card hsub
          rw [Finset.card_insert_of_notMem hnew, Finset.card_range] at hle
          omega
        have hrest := ih u ⟨offset, rfl, hmem⟩ (insert offset.toNat above)
          (Finset.insert_subset (Finset.mem_range.2 (by omega)) hbelow) fun o ho => by
            obtain rfl | ho := Finset.mem_insert.1 ho
            · exact ⟨offset, rfl, .single ⟨offset, rfl, hmem⟩⟩
            · obtain ⟨offset', hoffset, htrans⟩ := habove o ho
              exact ⟨offset', hoffset, .head ⟨offset, rfl, hmem⟩ htrans⟩
        rw [Finset.card_insert_of_notMem hnew] at hrest
        rwa [show h.top - above.card = h.top - (above.card + 1) + 1 by omega]
  simpa using hpath v hv ∅ (Finset.empty_subset _) (by simp)

end Heap

/-! ### Printing -/

namespace Builtin

open Heap

variable {h h' : Heap} {v w : Value}

theorem renderWith_text {bytes : List UInt8} (hv : h.text? v = some bytes) (n : Nat) :
    renderWith h (n + 1) v = bytes := by
  cases v <;> first | cases hv; rfl | cases hv

/-- Whatever bounds are enough for two values that are alike, they are printed alike. -/
theorem renderWith_eq_of_alike (hs : Alike h h' v w) {n n' : Nat} (hn : h.Nests n v)
    (hn' : h'.Nests n' w) : renderWith h n v = renderWith h' n' w := by
  induction hs generalizing n n' with
  | @plain v hplain =>
      obtain ⟨⟨n, rfl⟩, n', rfl⟩ := And.intro hn.exists_succ hn'.exists_succ
      cases v <;> first | rfl | cases hplain
  | text hv hw =>
      obtain ⟨⟨n, rfl⟩, n', rfl⟩ := And.intro hn.exists_succ hn'.exists_succ
      rw [renderWith_text hv, renderWith_text hw]
  | proc =>
      obtain ⟨⟨n, rfl⟩, n', rfl⟩ := And.intro hn.exists_succ hn'.exists_succ
      rfl
  | func =>
      obtain ⟨⟨n, rfl⟩, n', rfl⟩ := And.intro hn.exists_succ hn'.exists_succ
      rfl
  | @array offset offset' hlength _ ih =>
      obtain ⟨⟨n, rfl⟩, n', rfl⟩ := And.intro hn.exists_succ hn'.exists_succ
      have helements : (h.arrayElems offset).map (renderWith h n) =
          (h'.arrayElems offset').map (renderWith h' n') := by
        refine List.ext_getElem ?_ fun k hk hk' => ?_
        · rw [List.length_map, List.length_map, length_arrayElems, length_arrayElems, hlength]
        · rw [List.length_map] at hk hk'
          rw [List.getElem_map, List.getElem_map]
          refine ih k _ _ ?_ ?_ (hn _ ⟨offset, rfl, List.getElem_mem hk⟩)
            (hn' _ ⟨offset', rfl, List.getElem_mem hk'⟩)
          · rw [arrayGet?_eq_getElem?, List.getElem?_eq_getElem hk]
          · rw [arrayGet?_eq_getElem?, List.getElem?_eq_getElem hk']
      simp only [renderWith, helements]

/-- Values that stand for the same are printed alike. -/
theorem render_eq_of_same (hs : Same h h' v w) : render h v = render h' w :=
  renderWith_eq_of_alike hs.alike hs.left.nests hs.right.nests

end Builtin

end CellScript
