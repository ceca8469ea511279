import CellScript.Machine.Stack

/-!
The operand stack as a list of bytes.

All that a program can see of the stack is the part below the stack pointer.
`Holds` says which bytes these are, and every operation of the stack is described
by what it does to that list: values are put behind it and taken from its end,
the stack pointer cuts it or appends zeros, and a slot is replaced in its middle.
What lies above the stack pointer never matters.
-/

namespace CellScript

/-- Values in their stored form, the lowest first. -/
def Value.encodeAll (vs : List Value) : List UInt8 := vs.flatMap Value.encode

namespace Value

@[simp] theorem encodeAll_nil : encodeAll [] = [] := rfl

@[simp] theorem encodeAll_append (vs ws : List Value) :
    encodeAll (vs ++ ws) = encodeAll vs ++ encodeAll ws := by
  simp [encodeAll]

theorem encodeAll_cons (v : Value) (vs : List Value) :
    encodeAll (v :: vs) = v.encode ++ encodeAll vs :=
  rfl

@[simp] theorem encodeAll_singleton (v : Value) : encodeAll [v] = v.encode := by
  simp [encodeAll]

@[simp] theorem length_encodeAll (vs : List Value) : (encodeAll vs).length = 3 * vs.length := by
  induction vs with
  | nil => rfl
  | cons v vs ih =>
      rw [encodeAll_cons, List.length_append, ih, length_encode, size, List.length_cons]
      omega

/-- Zero bytes are unset values. -/
theorem encodeAll_unset (n : Nat) :
    List.replicate (3 * n) (0 : UInt8) = encodeAll (List.replicate n .unset) := by
  induction n with
  | zero => rfl
  | succ n ih =>
      rw [List.replicate_succ, encodeAll_cons, ← ih, show 3 * (n + 1) = 3 * n + 1 + 1 + 1 by omega]
      rfl

end Value

namespace OperandStack

/-- The bytes below the stack pointer, in a stack of `cap` bytes. -/
structure Holds (s : OperandStack) (cap : Nat) (l : List UInt8) : Prop where
  size : s.bytes.size = cap
  sp : s.sp = l.length
  bytes : ∃ rest, s.bytes.toList = l ++ rest

theorem holds_ofSize (n : Nat) : (ofSize n).Holds n [] where
  size := by simp [ofSize]
  sp := rfl
  bytes := ⟨_, rfl⟩

variable {s : OperandStack} {cap : Nat} {l : List UInt8}

theorem Holds.length_le (h : s.Holds cap l) : l.length ≤ cap := by
  obtain ⟨rest, hb⟩ := h.bytes
  have := congrArg List.length hb
  rw [List.length_append, Array.length_toList, h.size] at this
  omega

theorem Holds.byte (h : s.Holds cap l) {k : Nat} (hk : k < l.length) : s.byte k = l[k] := by
  obtain ⟨rest, hb⟩ := h.bytes
  rw [OperandStack.byte, Array.getD_eq_getD_getElem?, ← Array.getElem?_toList, hb,
    List.getElem?_append_left hk, List.getElem?_eq_getElem hk, Option.getD_some]

/-! ### Writing -/

@[simp] theorem sp_write (s : OperandStack) (i : Nat) (bs : List UInt8) :
    (s.write i bs).sp = s.sp := by
  induction bs generalizing s i with
  | nil => rfl
  | cons b bs ih => simp [write, ih]

theorem toList_write {i : Nat} {bs : List UInt8} (h : i + bs.length ≤ s.bytes.size) :
    (s.write i bs).bytes.toList =
      s.bytes.toList.take i ++ bs ++ s.bytes.toList.drop (i + bs.length) := by
  induction bs generalizing s i with
  | nil => simp [write]
  | cons b bs ih =>
      rw [List.length_cons] at h
      rw [write, ih (by simp only [Array.size_setIfInBounds]; omega)]
      have hi : i < s.bytes.toList.length := by
        rw [Array.length_toList]
        omega
      simp only [Array.toList_setIfInBounds, List.length_cons]
      rw [List.take_succ_eq_append_getElem (by simpa using hi), List.take_set,
        List.set_eq_of_length_le (by rw [List.length_take]; omega), List.getElem_set_self,
        List.drop_set_of_lt (by omega), show i + 1 + bs.length = i + (bs.length + 1) by omega]
      simp

/-- Bytes written over the end of the list and beyond it. -/
theorem Holds.write (h : s.Holds cap l) {pre bs : List UInt8} {old post : List UInt8}
    (hl : l = pre ++ old ++ post) (hlen : old.length = bs.length) :
    (s.write pre.length bs).Holds cap (pre ++ bs ++ post) := by
  obtain ⟨rest, hb⟩ := h.bytes
  have hle := h.length_le
  subst hl
  have hw : (s.write pre.length bs).bytes.toList = pre ++ bs ++ post ++ rest := by
    simp only [List.length_append] at hle
    rw [toList_write (by rw [h.size]; omega), hb]
    simp [← hlen]
  refine ⟨?_, ?_, rest, hw⟩
  · have := congrArg List.length hw
    have hb' := congrArg List.length hb
    simp only [List.length_append, Array.length_toList, h.size] at this hb'
    omega
  · rw [sp_write, h.sp]
    simp [hlen]

/-- Bytes written above the stack pointer, which moves behind them. -/
theorem Holds.append (h : s.Holds cap l) {bs : List UInt8} (hfit : l.length + bs.length ≤ cap) :
    Holds { s.write s.sp bs with sp := s.sp + bs.length } cap (l ++ bs) := by
  obtain ⟨rest, hb⟩ := h.bytes
  have hw : (s.write s.sp bs).bytes.toList = l ++ bs ++ rest.drop bs.length := by
    rw [toList_write (by rw [h.size, h.sp]; omega), hb, h.sp]
    simp
  refine ⟨?_, ?_, _, hw⟩
  · have := congrArg List.length hw
    have hb' := congrArg List.length hb
    simp only [List.length_append, Array.length_toList, h.size, List.length_drop] at this hb'
    show (s.write s.sp bs).bytes.size = cap
    omega
  · simp [h.sp]

/-- The stack pointer cuts the list. -/
theorem Holds.cut {pre post : List UInt8} (h : s.Holds cap (pre ++ post)) :
    Holds { s with sp := pre.length } cap pre := by
  obtain ⟨rest, hb⟩ := h.bytes
  exact ⟨h.size, rfl, post ++ rest, by rw [hb, List.append_assoc]⟩

/-! ### Operations -/

theorem pushBytes_ok (h : s.Holds cap l) {bs : List UInt8} (hfit : l.length + bs.length ≤ cap) :
    ∃ s', pushBytes bs s = .ok () s' ∧ s'.Holds cap (l ++ bs) := by
  refine ⟨_, ?_, h.append hfit⟩
  rw [pushBytes, if_neg (by rw [h.size, h.sp]; omega)]
  simp only [sp_write]

theorem pushBytes_full (h : s.Holds cap l) {bs : List UInt8} (hfull : cap < l.length + bs.length) :
    pushBytes bs s = .error (.stackOverflow cap) s := by
  rw [pushBytes, if_pos (by rw [h.size, h.sp]; omega), h.size]

theorem get_ok (h : s.Holds cap l) {i : Nat} {v : Value} {pre post : List UInt8}
    (hl : l = pre ++ v.encode ++ post) (hi : i = pre.length) : s.get i = .ok v := by
  subst hl hi
  have hlen := h.length_le
  simp only [List.length_append, Value.length_encode] at hlen
  have hbyte (k : Nat) (hk : k < v.encode.length) : s.byte (pre.length + k) = v.encode[k] := by
    have hk' : pre.length + k < (pre ++ v.encode).length := by
      rw [List.length_append]
      omega
    rw [h.byte (by rw [List.length_append]; omega), List.getElem_append_left hk',
      List.getElem_append_right (Nat.le_add_right _ _)]
    simp only [Nat.add_sub_cancel_left]
  have h₀ := hbyte 0 (by rw [Value.length_encode]; decide)
  have h₁ := hbyte 1 (by rw [Value.length_encode]; decide)
  have h₂ := hbyte 2 (by rw [Value.length_encode]; decide)
  simp only [Value.encode, Word.bytes, List.getElem_cons_zero, List.getElem_cons_succ,
    Nat.add_zero] at h₀ h₁ h₂
  rw [OperandStack.get, if_neg (by rw [h.size]; omega), h₀, h₁, h₂, Value.decode?_tag_payload]

/-- A value among several on top. -/
theorem get_encodeAll {vs : List Value} (h : s.Holds cap (l ++ Value.encodeAll vs)) {k : Nat}
    (hk : k < vs.length) : s.get (l.length + 3 * k) = .ok vs[k] := by
  have hsplit : l ++ Value.encodeAll vs = (l ++ Value.encodeAll (vs.take k)) ++ vs[k].encode ++
      Value.encodeAll (vs.drop (k + 1)) := by
    rw [List.append_assoc, ← Value.encodeAll_cons, List.getElem_cons_drop, List.append_assoc,
      ← Value.encodeAll_append, List.take_append_drop]
  refine get_ok h hsplit ?_
  rw [List.length_append, Value.length_encodeAll, List.length_take]
  omega

theorem pop_ok {v : Value} (h : s.Holds cap (l ++ v.encode)) :
    ∃ s', pop s = .ok v s' ∧ s'.Holds cap l := by
  refine ⟨_, ?_, h.cut⟩
  have hsp : s.sp = l.length + Value.size := by
    rw [h.sp, List.length_append, Value.length_encode]
  have hget : s.get (s.sp - Value.size) = .ok v :=
    get_ok h (List.append_nil _).symm (by omega)
  rw [pop, if_neg (by omega), hget, hsp, Nat.add_sub_cancel]

theorem getMany_ok (h : s.Holds cap l) {vs : List Value} {i : Nat} {pre post : List UInt8}
    (hl : l = pre ++ Value.encodeAll vs ++ post) (hi : i = pre.length) :
    s.getMany i vs.length = .ok vs := by
  induction vs generalizing i pre with
  | nil => rfl
  | cons v vs ih =>
      have hl' : l = pre ++ v.encode ++ (Value.encodeAll vs ++ post) := by
        rw [hl, Value.encodeAll_cons]
        simp only [List.append_assoc]
      have hv : s.get i = .ok v := get_ok h hl' hi
      have hvs : s.getMany (i + Value.size) vs.length = .ok vs := by
        rw [← List.append_assoc] at hl'
        refine ih hl' ?_
        rw [hi, List.length_append, Value.length_encode]
      rw [List.length_cons, getMany, hv]
      simp only [bind, Except.bind, hvs]
      rfl

theorem popMany_ok {vs : List Value} (h : s.Holds cap (l ++ Value.encodeAll vs)) :
    ∃ s', popMany vs.length s = .ok vs s' ∧ s'.Holds cap l := by
  refine ⟨_, ?_, h.cut⟩
  have hsp : s.sp = l.length + vs.length * Value.size := by
    rw [h.sp, List.length_append, Value.length_encodeAll, Value.size, Nat.mul_comm]
  have hget : s.getMany (s.sp - vs.length * Value.size) vs.length = .ok vs :=
    getMany_ok h (List.append_nil _).symm (by omega)
  rw [popMany, if_neg (by omega), hget, hsp, Nat.add_sub_cancel]

theorem set_ok (h : s.Holds cap l) {i : Nat} {v w : Value} {pre post : List UInt8}
    (hl : l = pre ++ w.encode ++ post) (hi : i = pre.length) :
    ∃ s', set i v s = .ok () s' ∧ s'.Holds cap (pre ++ v.encode ++ post) := by
  subst hi
  refine ⟨_, ?_, h.write hl rfl⟩
  have hsp := h.sp
  subst hl
  simp only [List.length_append, Value.length_encode] at hsp
  rw [OperandStack.set, if_neg (by omega)]

/-- Moving the stack pointer up appends zeros. -/
theorem setPointer_up (h : s.Holds cap l) {n : Nat} (hfit : l.length + n ≤ cap) :
    ∃ s', setPointer (l.length + n) s = .ok () s' ∧ s'.Holds cap (l ++ List.replicate n 0) := by
  have hzeros : l.length + (List.replicate n (0 : UInt8)).length ≤ cap := by
    rw [List.length_replicate]
    exact hfit
  refine ⟨_, ?_, h.append hzeros⟩
  rw [setPointer, if_neg (by rw [h.size]; omega)]
  simp [h.sp]

theorem setPointer_full (h : s.Holds cap l) {n : Nat} (hfull : cap < n) :
    setPointer n s = .error (.stackOverflow cap) s := by
  rw [setPointer, if_pos (by rw [h.size]; omega), h.size]

theorem setPointer_down {pre post : List UInt8} (h : s.Holds cap (pre ++ post)) :
    ∃ s', setPointer pre.length s = .ok () s' ∧ s'.Holds cap pre := by
  have hlen := h.length_le
  have hsp := h.sp
  rw [List.length_append] at hlen hsp
  refine ⟨_, ?_, h.cut⟩
  rw [setPointer, if_neg (by rw [h.size]; omega), show pre.length - s.sp = 0 by omega]
  rfl

theorem popWord_ok {w : UInt16} (h : s.Holds cap (l ++ Word.bytes w)) :
    ∃ s', popWord s = .ok w s' ∧ s'.Holds cap l := by
  refine ⟨_, ?_, h.cut⟩
  have hsp : s.sp = l.length + 2 := by
    rw [h.sp, List.length_append, Word.length_bytes]
  have h₀ : s.byte (s.sp - 2) = Word.hi w := by
    rw [h.byte (by rw [← h.sp]; omega), List.getElem_append_right (by omega)]
    simp [hsp, Word.bytes]
  have h₁ : s.byte (s.sp - 1) = Word.lo w := by
    rw [h.byte (by rw [← h.sp]; omega), List.getElem_append_right (by omega)]
    simp [hsp, Word.bytes]
  rw [popWord, if_neg (by omega), h₀, h₁, Word.ofBytes_hi_lo, hsp, Nat.add_sub_cancel]

end OperandStack

end CellScript
