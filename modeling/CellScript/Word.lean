/-!
# Big-endian words

Heap records, stack frames and instruction operands all store sixteen-bit
quantities as two bytes, the high byte first. Everything that reads or writes
such a field goes through the three functions below, so that layout arguments
need a single fact: joining the two halves of a word gives the word back.
-/

namespace CellScript

namespace Word

/-- The byte stored first. -/
def hi (w : UInt16) : UInt8 := (w >>> 8).toUInt8

/-- The byte stored second. -/
def lo (w : UInt16) : UInt8 := w.toUInt8

def ofBytes (hi lo : UInt8) : UInt16 := UInt16.ofNat (hi.toNat * 256 + lo.toNat)

def bytes (w : UInt16) : List UInt8 := [hi w, lo w]

theorem toNat_hi (w : UInt16) : (hi w).toNat = w.toNat / 256 := by
  have := w.toNat_lt
  simp [hi, Nat.shiftRight_eq_div_pow]
  omega

theorem toNat_lo (w : UInt16) : (lo w).toNat = w.toNat % 256 := by
  simp [lo]

@[simp] theorem toNat_ofBytes (a b : UInt8) : (ofBytes a b).toNat = a.toNat * 256 + b.toNat := by
  have := a.toNat_lt
  have := b.toNat_lt
  simp only [ofBytes, UInt16.toNat_ofNat']
  omega

@[simp] theorem ofBytes_hi_lo (w : UInt16) : ofBytes (hi w) (lo w) = w := by
  apply UInt16.toNat_inj.1
  rw [toNat_ofBytes, toNat_hi, toNat_lo]
  omega

@[simp] theorem hi_ofBytes (a b : UInt8) : hi (ofBytes a b) = a := by
  have := b.toNat_lt
  apply UInt8.toNat_inj.1
  rw [toNat_hi, toNat_ofBytes]
  omega

@[simp] theorem lo_ofBytes (a b : UInt8) : lo (ofBytes a b) = b := by
  have := b.toNat_lt
  apply UInt8.toNat_inj.1
  rw [toNat_lo, toNat_ofBytes]
  omega

@[simp] theorem length_bytes (w : UInt16) : (bytes w).length = 2 := rfl

end Word

end CellScript
