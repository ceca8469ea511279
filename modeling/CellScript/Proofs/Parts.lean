import CellScript.Builtin.Select
import CellScript.Proofs.Records

/-!
The end of a string.

`right` counts from the back, and it has to turn that into a start for the common
substring routine, which takes sixteen-bit numbers. A string can be longer than the
largest of them. As long as no more than 32767 bytes are left out, the result is the
last bytes of the string, made by length like every other string. Beyond that the
start wraps around, and the routine refuses a negative start that nobody wrote.
-/

namespace CellScript

/-! ### Strings by length -/

namespace Heap

variable {h h' : Heap} {v : Value} {bytes : List UInt8}

/-- A string of the given bytes, in the kind that their number asks for. A record lies
below the top with all of its bytes. -/
def Normal (h : Heap) (v : Value) : List UInt8 → Prop
  | [] => v = .strEmpty
  | [c] => v = .strChar c
  | bytes => ∃ offset, v = .str offset ∧ offset.toNat + 2 + bytes.length ≤ h.top ∧
      h.strBytes offset = bytes

/-- A string of the given bytes came out and the heap grew, or there was no room for it and
the heap is as it was. -/
def Makes (h : Heap) (bytes : List UInt8) : EStateM.Result Fault Heap Value → Prop
  | .ok v h' => h.Grows h' ∧ h'.Normal v bytes
  | .error e h' => h' = h ∧ ∃ requested available, e = .heap (.exhausted requested available)

theorem length_le_of_text? (hv : h.text? v = some bytes) : bytes.length ≤ maxStrLength := by
  cases v with
  | strEmpty =>
      cases hv
      exact Nat.zero_le _
  | strChar c =>
      cases hv
      exact show 1 ≤ 65535 by decide
  | str offset =>
      cases hv
      rw [strBytes, slice, List.length_map, List.length_range]
      exact Nat.le_of_lt_succ (h.word offset.toNat).toNat_lt
  | _ => cases hv

theorem alloc_of_room {n : Nat} (hn : 0 < n) (hsize : h.top + n ≤ h.bytes.size)
    (hreach : h.top + n ≤ addressable) :
    alloc n h = .ok (UInt16.ofNat h.top) { h with top := h.top + n } := by
  have hroom : n ≤ min h.bytes.size addressable - h.top := by omega
  simp only [alloc, Bool.or_eq_true, decide_eq_true_eq]
  rw [if_neg (by omega)]

theorem allocStr_of_room (hlen : bytes.length ≤ maxStrLength)
    (hsize : h.top + (2 + bytes.length) ≤ h.bytes.size)
    (hreach : h.top + (2 + bytes.length) ≤ addressable) :
    ∃ offset h', allocStr bytes h = .ok offset h' := by
  simp only [allocStr, Action.ite_eq_ok, Action.bind_eq_ok, Action.throw_eq_ok, Action.pure_eq_ok,
    Action.modify_eq_ok, alloc_of_room (by omega) hsize hreach]
  exact ⟨_, _, .inr ⟨by omega, _, _, rfl, ⟨⟩, _, rfl, rfl, rfl⟩⟩

end Heap

/-! ### The last bytes -/

namespace Builtin

variable {h h' : Heap} {s : Value} {bytes : List UInt8} {n : Int16}

theorem makeStr_of_allocStr {offset : UInt16} (hlen : 2 ≤ bytes.length)
    (ha : Heap.allocStr bytes h = .ok offset h') : makeStr bytes h = .ok (.str offset) h' := by
  match bytes, hlen with
  | b :: c :: rest, _ =>
      simp only [makeStr, onArena, bind, EStateM.bind, ha]
      rfl

theorem makeStr_makes (hlen : bytes.length ≤ Heap.maxStrLength) :
    h.Makes bytes (makeStr bytes h) := by
  match bytes, hlen with
  | [], _ => exact ⟨.refl h, rfl⟩
  | [c], _ => exact ⟨.refl h, rfl⟩
  | b :: c :: rest, hlen =>
      simp only [makeStr, onArena, bind, EStateM.bind]
      cases ha : Heap.allocStr (b :: c :: rest) h with
      | ok offset h' =>
          obtain ⟨hmade, -, hbytes⟩ := Heap.allocStr_made ha
          have hwithin : offset.toNat + 2 + (b :: c :: rest).length ≤ h'.top := by
            rw [hmade.stop, hmade.start]
            omega
          exact ⟨hmade.grows, offset, rfl, hwithin, hbytes⟩
      | error e h' =>
          obtain ⟨rfl, ⟨hlong, -⟩ | ⟨-, available, rfl⟩⟩ := Heap.allocStr_refused ha
          · exact absurd hlen (Nat.not_le_of_lt hlong)
          · exact ⟨rfl, _, available, rfl⟩

/-- Where the ends of a stretch are cut off, the list has no more items to take. -/
theorem extract_clamped {α : Type} (xs : List α) (a n : Nat) :
    xs.extract (min a xs.length)
        (min a xs.length + min n (xs.length - min a xs.length)) = (xs.drop a).take n := by
  rw [List.extract_eq_take_drop, Nat.add_sub_cancel_left]
  obtain ha | ha := Nat.le_total a xs.length
  · rw [Nat.min_eq_left ha, ← List.length_drop, ← List.take_take, List.take_length]
  · rw [Nat.min_eq_right ha, List.drop_length, List.drop_eq_nil_of_le ha, List.take_nil,
      List.take_nil]

/-- The common routine on two numbers of either sign. -/
theorem substring_eq {op : Opcode} (hs : h.text? s = some bytes) (start count : Int16) :
    substring op s start count h =
      if start.toInt < 0 then .error (.negativeArgument op.name start.toInt) h
      else if count.toInt < 0 then .error (.negativeArgument op.name count.toInt) h
      else makeStr ((bytes.drop start.toInt.toNat).take count.toInt.toNat) h := by
  have hsign (n : Int16) : n < 0 ↔ n.toInt < 0 := Int16.lt_iff_toInt_lt
  simp only [substring, bind, EStateM.bind, Action.get_apply, hs, hsign]
  by_cases hstart : start.toInt < 0
  · rw [if_pos hstart, if_pos hstart]
    rfl
  · rw [if_neg hstart, if_neg hstart]
    by_cases hcount : count.toInt < 0
    · rw [if_pos hcount, if_pos hcount]
      rfl
    · rw [if_neg hcount, if_neg hcount, extract_clamped]

/-- On a start that is a number of bytes it takes what lies from there on, as long as the start
is one that sixteen bits can hold. -/
theorem substring_ofNat {op : Opcode} (hs : h.text? s = some bytes) {start : Nat} {count : Int16}
    (hstart : start < 65536) (hcount : 0 ≤ count.toInt) :
    substring op s (Int16.ofNat start) count h =
      if start ≤ 32767 then makeStr ((bytes.drop start).take count.toInt.toNat) h
      else .error (.negativeArgument op.name (start - 65536)) h := by
  rw [substring_eq hs]
  by_cases hfits : start ≤ 32767
  · have hvalue : (Int16.ofNat start).toInt = start := Int16.toInt_ofNat_of_lt (by omega)
    rw [if_pos hfits, if_neg (by omega), if_neg (by omega), hvalue, Int.toNat_natCast]
  · -- Sixteen bits hold the start less 65536.
    have hvalue : (Int16.ofNat start).toInt = start - 65536 := by
      rw [Int16.toInt_ofNat', Int.bmod_def, show (Int16.size : Int) = 65536 from rfl]
      omega
    rw [if_neg hfits, if_pos (by omega), hvalue]

theorem right_eq (hs : h.text? s = some bytes) (hn : 0 ≤ n.toInt) :
    right s (.int n) h =
      if bytes.length - n.toInt.toNat ≤ 32767 then
        makeStr (bytes.drop (bytes.length - n.toInt.toNat)) h
      else .error (.negativeArgument "right"
        ((bytes.length - n.toInt.toNat : Nat) - 65536)) h := by
  have hlen : bytes.length ≤ 65535 := Heap.length_le_of_text? hs
  have hmax := n.toInt_lt
  have hn' : ¬ n < 0 := by
    rw [Int16.lt_iff_toInt_lt, show (0 : Int16).toInt = 0 from rfl]
    omega
  -- The two numbers that are handed on.
  have hstart : bytes.length - min n.toInt.toNat bytes.length = bytes.length - n.toInt.toNat := by
    omega
  have hcount : (Int16.ofNat (min n.toInt.toNat bytes.length)).toInt =
      (min n.toInt.toNat bytes.length : Nat) := Int16.toInt_ofNat_of_lt (by omega)
  have hall : (bytes.drop (bytes.length - n.toInt.toNat)).take
      (Int16.ofNat (min n.toInt.toNat bytes.length)).toInt.toNat =
      bytes.drop (bytes.length - n.toInt.toNat) := by
    refine List.take_of_length_le ?_
    rw [hcount, List.length_drop]
    omega
  have hright : right s (.int n) h = substring .right s
      (Int16.ofNat (bytes.length - n.toInt.toNat))
      (Int16.ofNat (min n.toInt.toNat bytes.length)) h := by
    simp only [right, intArgument, lift, bind, EStateM.bind, pure, EStateM.pure, Action.get_apply,
      hs, hn', if_false, hstart]
  rw [hright, substring_ofNat hs (by omega) (by omega), hall]
  rfl

/-- What `right` does with a number that is not negative. The bytes left out in front decide:
up to 32767 of them, the result is the last `n` bytes, or all of them if there are no more than
`n`, and nothing but room on the heap can be missing; from 32768 on, the result is an error
about a negative number that was never given. -/
theorem right_ends (hs : h.text? s = some bytes) (hn : 0 ≤ n.toInt) :
    (bytes.length - n.toInt.toNat ≤ 32767 →
      h.Makes (bytes.drop (bytes.length - n.toInt.toNat)) (right s (.int n) h)) ∧
    (32768 ≤ bytes.length - n.toInt.toNat →
      right s (.int n) h = .error
        (.negativeArgument "right" ((bytes.length - n.toInt.toNat : Nat) - 65536)) h) := by
  rw [right_eq hs hn]
  constructor
  · intro hfits
    rw [if_pos hfits]
    refine makeStr_makes ?_
    rw [List.length_drop]
    exact Nat.le_trans (Nat.sub_le _ _) (Heap.length_le_of_text? hs)
  · intro hwraps
    rw [if_neg (by omega)]

theorem right_ends_two :
    let h : Heap := ⟨#[0, 0, 0, 3, 97, 98, 99, 0, 0, 0, 0], 7⟩
    h.text? (.str 2) = some [97, 98, 99] ∧ 0 ≤ (2 : Int16).toInt ∧
      h.Makes [98, 99] (right (.str 2) (.int 2) h) := by
  intro h
  have hs : h.text? (.str 2) = some [97, 98, 99] := by decide
  have hn : 0 ≤ (2 : Int16).toInt := by decide
  have hskipped : [(97 : UInt8), 98, 99].length - (2 : Int16).toInt.toNat = 1 := by decide
  -- What the bytes of the record are is all that matters.
  clear_value h
  obtain ⟨hfits, -⟩ := right_ends hs hn
  rw [hskipped] at hfits
  exact ⟨hs, hn, hfits (by decide)⟩

/-- The last byte of a string of 32769 bytes is refused, although there is room for it. -/
theorem right_refuses_last :
    ∃ offset h, makeStr (List.replicate 32769 97) (Heap.ofSize 40000) = .ok (.str offset) h ∧
      h.text? (.str offset) = some (List.replicate 32769 97) ∧
      right (.str offset) (.int 1) h = .error (.negativeArgument "right" (-32768)) h := by
  have hlength : (List.replicate 32769 (97 : UInt8)).length = 32769 := List.length_replicate
  have hroom : (Heap.ofSize 40000).bytes.size = 40000 := by
    rw [Heap.ofSize, Array.size_replicate]
    exact Nat.max_eq_left (by decide)
  have htop : (Heap.ofSize 40000).top = 2 := rfl
  have hmost : (List.replicate 32769 (97 : UInt8)).length ≤ Heap.maxStrLength := by
    rw [hlength]
    decide
  obtain ⟨offset, h, ha⟩ := Heap.allocStr_of_room (h := Heap.ofSize 40000) hmost (by omega)
    (by rw [hlength, htop]; decide)
  have hbytes : h.text? (.str offset) = some (List.replicate 32769 97) :=
    congrArg some (Heap.allocStr_made ha).2.2
  refine ⟨offset, h, makeStr_of_allocStr (by rw [hlength]; decide) ha, hbytes, ?_⟩
  have hskipped : 32769 - (1 : Int16).toInt.toNat = 32768 := by decide
  rw [right_eq hbytes (by decide), hlength, hskipped]
  rfl

end Builtin

end CellScript
