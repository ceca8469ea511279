import CellScript.Text.Ascii
import CellScript.Text.Utf8

/-!
Texts read back from their bytes.

The bytes of a text are the encodings of its characters one after the other. The decoder is
total and replaces what it cannot read, but in the encoding of a character there is nothing to
replace: the first byte says how many follow, and the second one lies in the narrower range
that some first bytes ask for.
-/

namespace CellScript

namespace Ascii

/-- The bytes of a text are those of its characters. -/
theorem bytes_ofList (cs : List Char) :
    bytes (String.ofList cs) = cs.flatMap String.utf8EncodeChar := by
  rw [bytes, String.toByteArray_ofList, List.utf8Encode, List.toList_data_toByteArray]

theorem bytes_eq (text : String) : bytes text = text.toList.flatMap String.utf8EncodeChar := by
  rw [← bytes_ofList, String.ofList_toList]

end Ascii

namespace Utf8

variable {p : Pending} {rest : List UInt8} {b : UInt8} {n : Nat}

/-- Bytes that continue a sequence carry six bits each. -/
theorem toNat_continue (n : Nat) : (UInt8.ofNat (n % 64 + 128)).toNat = n % 64 + 128 :=
  UInt8.toNat_ofNat_of_lt' (by rw [UInt8.size]; omega)

theorem push_continue (p : Pending) (n : Nat) : p.push (UInt8.ofNat (n % 64 + 128)) =
    ⟨p.bits * 64 + n % 64, p.missing - 1, 0x80, 0xBF⟩ := by
  have hbits : n % 64 + 128 - 0x80 = n % 64 := by omega
  unfold Pending.push
  rw [toNat_continue, hbits]

theorem decodeFrom_continue (hlow : p.least.toNat ≤ n % 64 + 128)
    (hhigh : n % 64 + 128 ≤ p.most.toNat) :
    decodeFrom (some p) (UInt8.ofNat (n % 64 + 128) :: rest) =
      if p.missing - 1 = 0 then Char.ofNat (p.bits * 64 + n % 64) :: decodeFrom none rest
      else decodeFrom (some ⟨p.bits * 64 + n % 64, p.missing - 1, 0x80, 0xBF⟩) rest := by
  have hrange : (p.least ≤ UInt8.ofNat (n % 64 + 128) &&
      UInt8.ofNat (n % 64 + 128) ≤ p.most) = true := by
    rw [Bool.and_eq_true, decide_eq_true_eq, decide_eq_true_eq, UInt8.le_iff_toNat_le,
      UInt8.le_iff_toNat_le, toNat_continue]
    exact ⟨hlow, hhigh⟩
  rw [decodeFrom, if_pos hrange, push_continue]

theorem decodeFrom_whole {c : Char} (h : lead b = .whole c) :
    decodeFrom none (b :: rest) = c :: decodeFrom none rest := by rw [decodeFrom, h]

theorem decodeFrom_opens (h : lead b = .opens p) :
    decodeFrom none (b :: rest) = decodeFrom (some p) rest := by rw [decodeFrom, h]

theorem lead_whole (hn : n < 0x80) : lead (UInt8.ofNat n) = .whole (Char.ofNat n) := by
  have hbyte : (UInt8.ofNat n).toNat = n :=
    UInt8.toNat_ofNat_of_lt' (by rw [UInt8.size]; omega)
  rw [lead, hbyte, if_pos hn]

/-- The first byte of a sequence of two. -/
theorem lead_two (hlow : 0x80 ≤ n) (hhigh : n < 0x800) :
    lead (UInt8.ofNat (n / 64 % 32 + 192)) = .opens ⟨n / 64, 1, 0x80, 0xBF⟩ := by
  have hn : n / 64 % 32 = n / 64 := by omega
  have hbyte : (UInt8.ofNat (n / 64 + 192)).toNat = n / 64 + 192 :=
    UInt8.toNat_ofNat_of_lt' (by rw [UInt8.size]; omega)
  rw [hn, lead, hbyte]
  rw [if_neg (by omega), if_neg (by omega), if_pos (by omega), Nat.add_sub_cancel]

/-- The first byte of a sequence of three: the second one avoids what is shorter or a surrogate. -/
theorem lead_three (hlow : 0x800 ≤ n) (hhigh : n < 0x10000) (hvalid : n < 0xD800 ∨ 0xDFFF < n) :
    ∃ least most, lead (UInt8.ofNat (n / 4096 % 16 + 224)) = .opens ⟨n / 4096, 2, least, most⟩ ∧
      least.toNat ≤ n / 64 % 64 + 128 ∧ n / 64 % 64 + 128 ≤ most.toNat := by
  have hn : n / 4096 % 16 = n / 4096 := by omega
  have hbyte : (UInt8.ofNat (n / 4096 + 224)).toNat = n / 4096 + 224 :=
    UInt8.toNat_ofNat_of_lt' (by rw [UInt8.size]; omega)
  rw [hn, lead, hbyte]
  rw [if_neg (by omega), if_neg (by omega), if_neg (by omega)]
  by_cases hzero : n / 4096 = 0
  · refine ⟨0xA0, 0xBF, ?_, ?_, ?_⟩
    · rw [if_pos (by omega), hzero]
    · simp; omega
    · simp; omega
  · rw [if_neg (by omega)]
    by_cases hsurrogate : n / 4096 = 13
    · refine ⟨0x80, 0x9F, ?_, ?_, ?_⟩
      · rw [if_pos (by omega), hsurrogate]
      · simp
      · simp; omega
    · refine ⟨0x80, 0xBF, ?_, ?_, ?_⟩
      · rw [if_neg (by omega), if_pos (by omega), Nat.add_sub_cancel]
      · simp
      · simp; omega

/-- The first byte of a sequence of four: the second one avoids what is shorter or too large. -/
theorem lead_four (hlow : 0x10000 ≤ n) (hhigh : n < 0x110000) :
    ∃ least most, lead (UInt8.ofNat (n / 262144 % 8 + 240)) =
        .opens ⟨n / 262144, 3, least, most⟩ ∧
      least.toNat ≤ n / 4096 % 64 + 128 ∧ n / 4096 % 64 + 128 ≤ most.toNat := by
  have hn : n / 262144 % 8 = n / 262144 := by omega
  have hbyte : (UInt8.ofNat (n / 262144 + 240)).toNat = n / 262144 + 240 :=
    UInt8.toNat_ofNat_of_lt' (by rw [UInt8.size]; omega)
  rw [hn, lead, hbyte]
  rw [if_neg (by omega), if_neg (by omega), if_neg (by omega), if_neg (by omega),
    if_neg (by omega), if_neg (by omega)]
  by_cases hzero : n / 262144 = 0
  · refine ⟨0x90, 0xBF, ?_, ?_, ?_⟩
    · rw [if_pos (by omega), hzero]
    · simp; omega
    · simp; omega
  · rw [if_neg (by omega)]
    by_cases hlast : n / 262144 = 4
    · refine ⟨0x80, 0x8F, ?_, ?_, ?_⟩
      · rw [if_neg (by omega), if_pos (by omega), hlast]
      · simp
      · simp; omega
    · refine ⟨0x80, 0xBF, ?_, ?_, ?_⟩
      · rw [if_pos (by omega), Nat.add_sub_cancel]
      · simp
      · simp; omega

/-- A character is read back from its encoding, whatever follows. -/
theorem decodeFrom_encode (c : Char) (rest : List UInt8) :
    decodeFrom none (String.utf8EncodeChar c ++ rest) = c :: decodeFrom none rest := by
  have hvalid : c.toNat < 0xD800 ∨ 0xDFFF < c.toNat ∧ c.toNat < 0x110000 := c.valid
  have hchar : Char.ofNat c.toNat = c := Char.ofNat_toNat c
  simp only [String.utf8EncodeChar, Char.toNat_val]
  generalize c.toNat = n at hvalid hchar ⊢
  have hlow (n : Nat) : UInt8.toNat 0x80 ≤ n % 64 + 128 := Nat.le_add_left 128 _
  have hhigh (n : Nat) : n % 64 + 128 ≤ UInt8.toNat 0xBF := by simp; omega
  split
  · rw [List.singleton_append, decodeFrom_whole (lead_whole (by omega)), hchar]
  · rename_i hone
    split
    · rw [List.cons_append, List.singleton_append,
        decodeFrom_opens (lead_two (by omega) (by omega)), decodeFrom_continue (hlow n) (hhigh n),
        if_pos (by simp), show n / 64 * 64 + n % 64 = n by omega, hchar]
    · rename_i htwo
      split
      · obtain ⟨least, most, hlead, hleast, hmost⟩ :=
          lead_three (n := n) (by omega) (by omega) (by omega)
        rw [List.cons_append, List.cons_append, List.singleton_append, decodeFrom_opens hlead,
          decodeFrom_continue hleast hmost, if_neg (by simp),
          decodeFrom_continue (hlow n) (hhigh n),
          if_pos (by simp), show (n / 4096 * 64 + n / 64 % 64) * 64 + n % 64 = n by omega, hchar]
      · obtain ⟨least, most, hlead, hleast, hmost⟩ :=
          lead_four (n := n) (by omega) (by omega)
        rw [List.cons_append, List.cons_append, List.cons_append, List.singleton_append,
          decodeFrom_opens hlead, decodeFrom_continue hleast hmost, if_neg (by simp),
          decodeFrom_continue (hlow _) (hhigh _), if_neg (by simp),
          decodeFrom_continue (hlow n) (hhigh n), if_pos (by simp),
          show ((n / 262144 * 64 + n / 4096 % 64) * 64 + n / 64 % 64) * 64 + n % 64 = n by omega,
          hchar]

theorem decode_encode (cs : List Char) : decode (cs.flatMap String.utf8EncodeChar) = cs := by
  induction cs with
  | nil => rfl
  | cons c cs ih => rw [List.flatMap_cons, decode, decodeFrom_encode, ← decode, ih]

/-- The decoder reads any text back from its bytes. -/
theorem text_encode (cs : List Char) :
    text (cs.flatMap String.utf8EncodeChar) = String.ofList cs := by
  rw [text, decode_encode]

/-- Every byte of a longer sequence is above the characters of seven bits. -/
theorem encode_eq_or (c : Char) : String.utf8EncodeChar c = [UInt8.ofNat c.toNat] ∧ c.toNat < 128 ∨
    ∀ b ∈ String.utf8EncodeChar c, 128 ≤ b.toNat := by
  have hhigh {low base : Nat} (hbase : 128 ≤ base) (hlt : low + base < 256) :
      128 ≤ (UInt8.ofNat (low + base)).toNat := by
    rw [UInt8.toNat_ofNat_of_lt' hlt]
    omega
  simp only [String.utf8EncodeChar, Char.toNat_val]
  split
  · exact .inl ⟨rfl, by omega⟩
  · right
    split
    · simp only [List.forall_mem_cons]
      exact ⟨hhigh (by omega) (by omega), hhigh (by omega) (by omega), by simp⟩
    · split
      · simp only [List.forall_mem_cons]
        exact ⟨hhigh (by omega) (by omega), hhigh (by omega) (by omega),
          hhigh (by omega) (by omega), by simp⟩
      · simp only [List.forall_mem_cons]
        exact ⟨hhigh (by omega) (by omega), hhigh (by omega) (by omega),
          hhigh (by omega) (by omega), hhigh (by omega) (by omega), by simp⟩

/-- A character of seven bits is a byte that occurs in no other encoding. -/
theorem eq_of_mem_encode {c d : Char} (hc : c.toNat < 128)
    (h : UInt8.ofNat c.toNat ∈ String.utf8EncodeChar d) : d = c := by
  have hbyte (c : Char) (hc : c.toNat < 128) : (UInt8.ofNat c.toNat).toNat = c.toNat :=
    UInt8.toNat_ofNat_of_lt' (by rw [UInt8.size]; omega)
  obtain ⟨hd, hlt⟩ | hhigh := encode_eq_or d
  · rw [hd, List.mem_singleton] at h
    have hnumber := congrArg UInt8.toNat h
    rw [hbyte c hc, hbyte d hlt] at hnumber
    exact Char.toNat_inj.1 hnumber.symm
  · have hge := hhigh _ h
    rw [hbyte c hc] at hge
    omega

end Utf8

end CellScript
