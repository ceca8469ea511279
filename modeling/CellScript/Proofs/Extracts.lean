import CellScript.Proofs.Agreement

/-!
Parts of strings and arrays as parts of lists.

A string is the list of its bytes and an array the list of its elements. Taking an item, a
range, the front or a stretch is what it is for lists, and where positions are checked they
are checked against the length of the list. A part is a new string or array. The one thing
that can be missing is room for its record, and whether it is missing is known beforehand:
`Heap.Yields` says that making a record fails exactly if the record is larger than what is
left.
-/

namespace CellScript

namespace Heap

variable {h g : Heap} {n : Nat} {o : UInt16} {e : Error}

/-! ### Room for a record -/

/-- The bytes that can still be handed out. -/
def room (h : Heap) : Nat := min h.bytes.size addressable - h.top

/-- Making a record of so many bytes: with room for it, a value came out of which `P` holds
and nothing was overwritten; without it, the heap is as it was. -/
def Yields (h : Heap) (size : Nat) (P : Heap → Value → Prop) :
    EStateM.Result Fault Heap Value → Prop
  | .ok v g => size ≤ h.room ∧ h.Grows g ∧ P g v
  | .error e g => h.room < size ∧ g = h ∧ e = .heap (.exhausted size h.room)

/-- The size of the record that a string needs. -/
def stringSize (bytes : List UInt8) : Nat := if bytes.length < 2 then 0 else 2 + bytes.length

/-- A string of the given bytes is made, of the kind that its length asks for. -/
def YieldsString (h : Heap) (bytes : List UInt8) : EStateM.Result Fault Heap Value → Prop :=
  h.Yields (stringSize bytes) fun g v => g.Normal v bytes

/-- An array of the given elements is made. Its record lies below the top. -/
def YieldsArray (h : Heap) (elems : List Value) : EStateM.Result Fault Heap Value → Prop :=
  h.Yields (1 + Value.size * elems.length) fun g v => ∃ offset, v = .array offset ∧
    offset.toNat + 1 + Value.size * elems.length ≤ g.top ∧ g.arrayElems offset = elems

theorem alloc_exhausted (hn : 0 < n) (ha : alloc n h = .error e g) :
    g = h ∧ e = .exhausted n h.room ∧ h.room < n := by
  simp only [alloc, Bool.or_eq_true, decide_eq_true_eq] at ha
  split at ha
  · rename_i hroom
    cases ha
    have hmin : min h.bytes.size addressable ≤ addressable := Nat.min_le_right _ _
    exact ⟨rfl, rfl, show min h.bytes.size addressable - h.top < n by omega⟩
  · cases ha

/-- A block that has been cut off had room. -/
theorem Extends.le_room (hx : h.Extends g o n) : n ≤ h.room := by
  have hsize := hx.grows.size
  have hstop := hx.stop
  have hle : h.top + n ≤ min h.bytes.size addressable :=
    Nat.le_min.2 ⟨by rw [← hsize, ← hstop]; exact hx.size, by rw [← hstop]; exact hx.reach⟩
  exact Nat.le_sub_of_add_le' hle

/-- A record is cut off and filled in, and only the first of the two can fail. -/
theorem fill_exhausted {fill : UInt16 → Heap → Heap} (hn : 0 < n)
    (ha : (do let offset ← alloc n; modify (fill offset); return offset : Action UInt16) h =
      .error e g) : g = h ∧ e = .exhausted n h.room ∧ h.room < n := by
  cases halloc : alloc n h with
  | ok o t =>
      simp [bind, EStateM.bind, halloc, CellScript.Action.modify_apply, pure, EStateM.pure] at ha
  | error e' t =>
      simp only [bind, EStateM.bind, halloc] at ha
      cases ha
      exact alloc_exhausted hn halloc

theorem allocStr_exhausted {data : List UInt8} (hlen : data.length ≤ maxStrLength)
    (ha : allocStr data h = .error e g) :
    g = h ∧ e = .exhausted (2 + data.length) h.room ∧ h.room < 2 + data.length := by
  rw [allocStr, if_neg (Nat.not_lt.2 hlen)] at ha
  exact fill_exhausted (Nat.zero_lt_of_lt (Nat.lt_add_of_pos_left (by decide))) ha

theorem allocArray_exhausted {elems : List Value} (hlen : elems.length ≤ maxArrayLength)
    (ha : allocArray elems h = .error e g) :
    g = h ∧ e = .exhausted (1 + Value.size * elems.length) h.room ∧
      h.room < 1 + Value.size * elems.length := by
  rw [allocArray, if_neg (Nat.not_lt.2 hlen)] at ha
  exact fill_exhausted (Nat.zero_lt_of_lt (Nat.lt_add_of_pos_left (by decide))) ha

end Heap

namespace Builtin

open Heap

variable {h : Heap} {s : Value} {bytes : List UInt8} {offset : UInt16} {i j n start : Int16}

/-- Bytes that fit a record become the string of their length. -/
theorem makeStr_yields (hlen : bytes.length ≤ maxStrLength) :
    h.YieldsString bytes (makeStr bytes h) := by
  match bytes, hlen with
  | [], _ => exact ⟨Nat.zero_le _, .refl h, rfl⟩
  | [c], _ => exact ⟨Nat.zero_le _, .refl h, rfl⟩
  | b :: c :: rest, hlen =>
      have hsize : stringSize (b :: c :: rest) = 2 + (b :: c :: rest).length :=
        if_neg (by simp)
      rw [YieldsString, hsize]
      cases ha : allocStr (b :: c :: rest) h with
      | ok offset g =>
          have hmakes := makeStr_makes (h := h) hlen
          rw [makeStr_of_allocStr (by simp) ha] at hmakes ⊢
          exact ⟨(allocStr_made ha).1.le_room, hmakes⟩
      | error e g =>
          obtain ⟨rfl, rfl, hfull⟩ := allocStr_exhausted hlen ha
          simp only [makeStr, onArena, bind, EStateM.bind, ha]
          exact ⟨hfull, rfl, rfl⟩

theorem makeArray_yields {elems : List Value} (hlen : elems.length ≤ maxArrayLength) :
    h.YieldsArray elems (makeArray elems h) := by
  simp only [makeArray, onArena, bind, EStateM.bind]
  cases ha : allocArray elems h with
  | ok offset g =>
      obtain ⟨hmade, hlength, hread⟩ := allocArray_made ha
      have hwithin : offset.toNat + 1 + Value.size * elems.length ≤ g.top := by
        rw [hmade.stop, hmade.start]
        omega
      exact ⟨hmade.le_room, hmade.grows, offset, rfl, hwithin, arrayElems_of_valueAt hlength hread⟩
  | error e g =>
      obtain ⟨rfl, rfl, hfull⟩ := allocArray_exhausted hlen ha
      exact ⟨hfull, rfl, rfl⟩

/-! ### Positions -/

/-- The position that a number stands for in a list of `length` items: it counts from the front,
and from the end if it is negative. -/
def place (i : Int16) (length : Nat) : Int :=
  if 0 ≤ i.toInt then i.toInt else length + i.toInt

/-- The item that an index stands for. -/
def itemAt {α : Type} (xs : List α) (i : Int16) : Except Fault α :=
  if hi : 0 ≤ place i xs.length ∧ place i xs.length < xs.length then
    .ok (xs.get ⟨(place i xs.length).toNat, by omega⟩)
  else .error (.indexOutOfRange i.toInt xs.length)

/-- Two numbers are the ends of a range. -/
def IsRange (length : Nat) (i j : Int16) : Prop :=
  0 ≤ place i length ∧ place i length ≤ place j length ∧ place j length ≤ length

/-- The first of two ends that is out of place. -/
def culprit (length : Nat) (i j : Int16) : Int16 :=
  if 0 ≤ place i length ∧ place i length ≤ length then j else i

/-- The items of a range. -/
def between {α : Type} (xs : List α) (i j : Int16) : List α :=
  (xs.take (place j xs.length).toNat).drop (place i xs.length).toNat

theorem position_eq (i : Int16) (length : Nat) : position i length = place i length := by
  have hzero : (0 : Int16).toInt = 0 := rfl
  by_cases hi : i < 0
  · rw [position, if_pos hi, place, if_neg]
    rw [Int16.lt_iff_toInt_lt, hzero] at hi
    omega
  · rw [position, if_neg hi, place, if_pos]
    rw [Int16.lt_iff_toInt_lt, hzero] at hi
    omega

theorem itemPosition_eq (i : Int16) (length : Nat) : itemPosition i length =
    if 0 ≤ place i length ∧ place i length < length then .ok (place i length).toNat
    else .error (.indexOutOfRange i.toInt length) := by
  rw [itemPosition, position_eq]
  by_cases hi : 0 ≤ place i length ∧ place i length < length
  · rw [if_neg (by omega), if_pos hi]
  · rw [if_pos (by omega), if_neg hi]

theorem rangePosition_eq (i : Int16) (length : Nat) : rangePosition i length =
    if 0 ≤ place i length ∧ place i length ≤ length then .ok (place i length).toNat
    else .error (.indexOutOfRange i.toInt length) := by
  rw [rangePosition, position_eq]
  by_cases hi : 0 ≤ place i length ∧ place i length ≤ length
  · rw [if_neg (by omega), if_pos hi]
  · rw [if_pos (by omega), if_neg hi]

theorem range_of_isRange {length : Nat} (hr : IsRange length i j) :
    range i j length = .ok ((place i length).toNat, (place j length).toNat) := by
  obtain ⟨hi, hij, hj⟩ := hr
  simp only [range, rangePosition_eq, bind, Except.bind]
  rw [if_pos ⟨hi, by omega⟩, if_pos ⟨by omega, hj⟩]
  exact if_neg (by omega)

theorem range_of_not_isRange {length : Nat} (hr : ¬ IsRange length i j) :
    range i j length = .error (.indexOutOfRange (culprit length i j).toInt length) := by
  simp only [range, rangePosition_eq, bind, Except.bind, culprit]
  by_cases hi : 0 ≤ place i length ∧ place i length ≤ length
  · rw [if_pos hi, if_pos hi]
    by_cases hj : 0 ≤ place j length ∧ place j length ≤ length
    · have hij : ¬ place i length ≤ place j length := fun hij => hr ⟨hi.1, hij, hj.2⟩
      rw [if_pos hj]
      exact if_pos (by omega)
    · rw [if_neg hj]
  · rw [if_neg hi, if_neg hi]

/-- A range is read off as in the code, from its start on. -/
theorem between_eq {α : Type} (xs : List α) (i j : Int16) : between xs i j =
    (xs.drop (place i xs.length).toNat).take
      ((place j xs.length).toNat - (place i xs.length).toNat) :=
  List.drop_take ..

theorem length_between_le {α : Type} (xs : List α) (i j : Int16) :
    (between xs i j).length ≤ xs.length := by
  rw [between, List.length_drop, List.length_take]
  omega

/-! ### Strings -/

theorem not_array_of_text? (hs : h.text? s = some bytes) (offset : UInt16) : s ≠ .array offset := by
  rintro rfl
  cases hs

theorem index_string (hs : h.text? s = some bytes) (i : Int16) :
    index h s (.int i) = (itemAt bytes i).map .strChar := by
  rw [index_of_text (not_array_of_text? hs), hs]
  simp only [itemPosition_eq, itemAt]
  by_cases hi : 0 ≤ place i bytes.length ∧ place i bytes.length < bytes.length
  · rw [if_pos hi, dif_pos hi]
    have hlt : (place i bytes.length).toNat < bytes.length := by omega
    simp only [Except.map, List.getD_eq_getElem?_getD, List.getElem?_eq_getElem hlt,
      Option.getD_some, List.get_eq_getElem]
  · rw [if_neg hi, dif_neg hi]
    rfl

theorem slice_string (hs : h.text? s = some bytes) (i j : Int16) :
    slice s (.int i) (.int j) h = match range i j bytes.length with
      | .ok (start, stop) => makeStr ((bytes.drop start).take (stop - start)) h
      | .error e => .error e h := by
  rw [slice_of_text (not_array_of_text? hs)]
  simp only [intArgument, lift, bind, EStateM.bind, pure, EStateM.pure, Action.get_apply, hs]
  cases range i j bytes.length <;> rfl

theorem slice_string_yields (hs : h.text? s = some bytes) (hr : IsRange bytes.length i j) :
    h.YieldsString (between bytes i j) (slice s (.int i) (.int j) h) := by
  rw [slice_string hs, range_of_isRange hr]
  show h.YieldsString _ (makeStr _ h)
  rw [← between_eq]
  exact makeStr_yields (Nat.le_trans (length_between_le bytes i j) (length_le_of_text? hs))

theorem stretch_yields (hs : h.text? s = some bytes) (a n : Nat) :
    h.YieldsString ((bytes.drop a).take n) (makeStr ((bytes.drop a).take n) h) := by
  refine makeStr_yields (Nat.le_trans ?_ (length_le_of_text? hs))
  rw [List.length_take, List.length_drop]
  omega

/-! ### Arrays -/

theorem index_array (h : Heap) (offset : UInt16) (i : Int16) :
    index h (.array offset) (.int i) = itemAt (h.arrayElems offset) i := by
  simp only [index, intArgument, bind, Except.bind, arrayGet?_eq_getElem?, ← length_arrayElems,
    itemPosition_eq, itemAt]
  by_cases hi : 0 ≤ place i (h.arrayElems offset).length ∧
      place i (h.arrayElems offset).length < (h.arrayElems offset).length
  · have hlt : (place i (h.arrayElems offset).length).toNat < (h.arrayElems offset).length := by
      omega
    rw [if_pos hi, dif_pos hi]
    simp only [List.getElem?_eq_getElem hlt, List.get_eq_getElem]
  · rw [if_neg hi, dif_neg hi]

theorem slice_array (h : Heap) (offset : UInt16) (i j : Int16) :
    slice (.array offset) (.int i) (.int j) h = match range i j (h.arrayElems offset).length with
      | .ok (start, stop) => makeArray (((h.arrayElems offset).drop start).take (stop - start)) h
      | .error e => .error e h := by
  simp only [slice, intArgument, lift, bind, EStateM.bind, pure, EStateM.pure, Action.get_apply]
  cases range i j (h.arrayElems offset).length <;> rfl

theorem slice_array_yields (hr : IsRange (h.arrayElems offset).length i j) :
    h.YieldsArray (between (h.arrayElems offset) i j)
      (slice (.array offset) (.int i) (.int j) h) := by
  rw [slice_array, range_of_isRange hr]
  show h.YieldsArray _ (makeArray _ h)
  rw [← between_eq]
  refine makeArray_yields (Nat.le_trans (length_between_le _ i j) ?_)
  rw [length_arrayElems]
  exact Nat.le_of_lt_succ (h.byte offset.toNat).toNat_lt

/-! ### Both -/

/-- The parts of a string that consists of the given bytes. -/
structure StringParts (h : Heap) (s : Value) (bytes : List UInt8) : Prop where
  item (i : Int16) : index h s (.int i) = (itemAt bytes i).map .strChar
  range (i j : Int16) : IsRange bytes.length i j →
    h.YieldsString (between bytes i j) (slice s (.int i) (.int j) h)
  noRange (i j : Int16) : ¬ IsRange bytes.length i j → slice s (.int i) (.int j) h =
    .error (.indexOutOfRange (culprit bytes.length i j).toInt bytes.length) h
  front (n : Int16) : 0 ≤ n.toInt → h.YieldsString (bytes.take n.toInt.toNat) (left s (.int n) h)
  noFront (n : Int16) : n.toInt < 0 →
    left s (.int n) h = .error (.negativeArgument "left" n.toInt) h
  stretch (a n : Int16) : 0 ≤ a.toInt → 0 ≤ n.toInt →
    h.YieldsString ((bytes.drop a.toInt.toNat).take n.toInt.toNat) (substr s (.int a) (.int n) h)
  noStretch (a n : Int16) : a.toInt < 0 ∨ n.toInt < 0 → substr s (.int a) (.int n) h =
    .error (.negativeArgument "substr" (if a.toInt < 0 then a else n).toInt) h

/-- The parts of an array that consists of the given elements. -/
structure ArrayParts (h : Heap) (offset : UInt16) (elems : List Value) : Prop where
  item (i : Int16) : index h (.array offset) (.int i) = itemAt elems i
  range (i j : Int16) : IsRange elems.length i j →
    h.YieldsArray (between elems i j) (slice (.array offset) (.int i) (.int j) h)
  noRange (i j : Int16) : ¬ IsRange elems.length i j → slice (.array offset) (.int i) (.int j) h =
    .error (.indexOutOfRange (culprit elems.length i j).toInt elems.length) h

theorem stringParts (hs : h.text? s = some bytes) : StringParts h s bytes where
  item := index_string hs
  range _ _ := slice_string_yields hs
  noRange i j hr := by rw [slice_string hs, range_of_not_isRange hr]
  front n hn := by
    have hleft : left s (.int n) h = substring .left s 0 n h := rfl
    rw [hleft, substring_eq hs, if_neg (by decide), if_neg (by omega)]
    exact stretch_yields hs 0 _
  noFront n hn := by
    have hleft : left s (.int n) h = substring .left s 0 n h := rfl
    rw [hleft, substring_eq hs, if_neg (by decide), if_pos hn]
    rfl
  stretch a n ha hn := by
    have hsubstr : substr s (.int a) (.int n) h = substring .substr s a n h := rfl
    rw [hsubstr, substring_eq hs, if_neg (by omega), if_neg (by omega)]
    exact stretch_yields hs _ _
  noStretch a n hsign := by
    have hsubstr : substr s (.int a) (.int n) h = substring .substr s a n h := rfl
    rw [hsubstr, substring_eq hs]
    by_cases ha : a.toInt < 0
    · rw [if_pos ha, if_pos ha]
      rfl
    · rw [if_neg ha, if_neg ha, if_pos (hsign.resolve_left ha)]
      rfl

theorem arrayParts (h : Heap) (offset : UInt16) : ArrayParts h offset (h.arrayElems offset) where
  item := index_array h offset
  range _ _ := slice_array_yields
  noRange i j hr := by rw [slice_array, range_of_not_isRange hr]

/-- Every part of a string or an array is the part of the list of its bytes or elements. -/
theorem parts_of_lists (h : Heap) :
    (∀ s bytes, h.text? s = some bytes → StringParts h s bytes) ∧
      ∀ offset, ArrayParts h offset (h.arrayElems offset) :=
  ⟨fun _ _ hs => stringParts hs, arrayParts h⟩

/-- The last item and the last two items of a string of three bytes. -/
theorem parts_of_lists_from_end :
    let h : Heap := ⟨#[0, 0, 0, 3, 97, 98, 99, 0, 0, 0, 0], 7⟩
    h.text? (.str 2) = some [97, 98, 99] ∧ IsRange 3 (-2) 3 ∧
      index h (.str 2) (.int (-1)) = .ok (.strChar 99) ∧
      h.YieldsString [98, 99] (slice (.str 2) (.int (-2)) (.int 3) h) := by
  intro h
  have hs : h.text? (.str 2) = some [97, 98, 99] := by decide
  have hr : IsRange 3 (-2) 3 := by
    refine ⟨?_, ?_, ?_⟩ <;> decide
  -- What the bytes of the record are is all that matters.
  clear_value h
  have hparts := (parts_of_lists h).1 _ _ hs
  exact ⟨hs, hr, hparts.item (-1), hparts.range (-2) 3 hr⟩

end Builtin

end CellScript
