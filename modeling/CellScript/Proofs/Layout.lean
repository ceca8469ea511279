import CellScript.Machine.Step
import CellScript.Proofs.ProgramCode

/-!
Where instructions stand.

The machine reads bytes, and the code of a tree is a list of instructions. `Placed`
says that a list of instructions stands at an address: reading there gives the
first of them, and the others follow. It splits along concatenation, so that what
is known of the code of a program passes to each of its parts.

Jumps hold distances in sixteen bits. In a program that fits, every distance does,
and the counter behind a jump is the target that was meant.
-/

namespace CellScript

namespace Code

/-- The instructions stand one after the other from address `a` on. -/
def Placed (bytes : Array UInt8) : Nat → Code → Prop
  | _, [] => True
  | a, i :: code => Instruction.decode? bytes a = some (i.place a) ∧ Placed bytes (a + i.size) code

variable {bytes : Array UInt8} {a : Nat}

theorem placed_append {c d : Code} :
    Placed bytes a (c ++ d) ↔ Placed bytes a c ∧ Placed bytes (a + c.size) d := by
  induction c generalizing a with
  | nil => simp [Placed]
  | cons i c ih => simp only [List.cons_append, Placed, ih, size_cons, Nat.add_assoc, and_assoc]

/-- The instructions with their addresses. -/
def layout : Nat → Code → List (Nat × Instr)
  | _, [] => []
  | a, i :: code => (a, i) :: layout (a + i.size) code

@[simp] theorem layout_append (a : Nat) (c d : Code) :
    layout a (c ++ d) = layout a c ++ layout (a + c.size) d := by
  induction c generalizing a with
  | nil => simp [layout]
  | cons i c ih => simp [layout, ih, Nat.add_assoc]

theorem Placed.decode? {code : Code} (h : Placed bytes a code) {x : Nat × Instr}
    (hx : x ∈ layout a code) : Instruction.decode? bytes x.1 = some (x.2.place x.1) := by
  induction code generalizing a with
  | nil => cases hx
  | cons i code ih =>
      obtain rfl | hx := List.mem_cons.1 hx
      · exact h.1
      · exact ih h.2 hx

theorem length_le_size (code : Code) : code.length ≤ code.size := by
  induction code with
  | nil => exact Nat.le_refl _
  | cons i code ih =>
      simp only [List.length_cons, size_cons, Instr.size]
      omega

theorem layout_le {code : Code} {x : Nat × Instr} (hx : x ∈ layout a code) : a ≤ x.1 := by
  induction code generalizing a with
  | nil => cases hx
  | cons i code ih =>
      obtain rfl | hx := List.mem_cons.1 hx
      · exact Nat.le_refl _
      · exact Nat.le_trans (Nat.le_add_right _ _) (ih hx)

theorem layout_lt {code : Code} {x : Nat × Instr} (hx : x ∈ layout a code) :
    x.1 < a + code.size := by
  induction code generalizing a with
  | nil => cases hx
  | cons i code ih =>
      have hpos : 0 < i.size := by
        simp only [Instr.size]
        omega
      rw [size_cons]
      obtain rfl | hx := List.mem_cons.1 hx
      · exact Nat.lt_add_of_pos_right (Nat.add_pos_left hpos _)
      · have := ih hx
        omega

/-- Addresses increase. -/
theorem layout_increasing (a : Nat) (code : Code) :
    (layout a code).Pairwise fun x y => x.1 < y.1 := by
  induction code generalizing a with
  | nil => exact .nil
  | cons i code ih =>
      refine .cons (fun x hx => ?_) (ih _)
      have hle := layout_le hx
      simp only [Instr.size] at hle
      omega

end Code

/-- A whole instruction in the bytes is read as such. -/
theorem Instr.decode?_place {bytes : Array UInt8} {pre post : List UInt8} {i : Instr}
    (h : bytes.toList = pre ++ i.bytes ++ post) :
    Instruction.decode? bytes pre.length = some (i.place pre.length) := by
  have hget (k : Nat) (b : UInt8) (hb : i.bytes[k]? = some b) :
      bytes[pre.length + k]? = some b := by
    rw [← Array.getElem?_toList, h, List.append_assoc, List.getElem?_append_right (by omega),
      Nat.add_sub_cancel_left, List.getElem?_append_left]
    · exact hb
    · exact (List.getElem?_eq_some_iff.1 hb).1
  obtain ⟨op, byte, word⟩ := i
  have h₀ := hget 0 op.toByte (by
    cases hs : op.shape <;> simp [Instr.bytes, place, hs, Instruction.encode, Word.bytes])
  simp only [Nat.add_zero] at h₀
  simp only [Instruction.decode?, h₀, bind, Option.bind, Opcode.ofByte?_toByte, place]
  cases hs : op.shape with
  | none => rfl
  | byte =>
      have h₁ := hget 1 byte (by simp [Instr.bytes, place, hs, Instruction.encode])
      simp [h₁]
  | word =>
      have h₁ := hget 1 (Word.hi word)
        (by simp [Instr.bytes, place, hs, Instruction.encode, Word.bytes])
      have h₂ := hget 2 (Word.lo word)
        (by simp [Instr.bytes, place, hs, Instruction.encode, Word.bytes])
      simp [Instruction.wordAt?, h₁, h₂]
  | call =>
      have h₁ := hget 1 byte
        (by simp [Instr.bytes, place, hs, Instruction.encode, Word.bytes])
      have h₂ := hget 2 (Word.hi word)
        (by simp [Instr.bytes, place, hs, Instruction.encode, Word.bytes])
      have h₃ := hget 3 (Word.lo word)
        (by simp [Instr.bytes, place, hs, Instruction.encode, Word.bytes])
      simp [Instruction.wordAt?, h₁, h₂, h₃]

namespace Code

theorem placed_of_bytes {bytes : Array UInt8} {pre post : List UInt8} {code : Code}
    (h : bytes.toList = pre ++ code.bytes ++ post) : Placed bytes pre.length code := by
  induction code generalizing pre with
  | nil => trivial
  | cons i code ih =>
      refine ⟨Instr.decode?_place (by simpa using h), ?_⟩
      have := @ih (pre ++ i.bytes) (by simpa using h)
      rwa [List.length_append, Instr.length_bytes] at this

/-- Reading the bytes piece by piece gives back the instructions that stand there. -/
theorem Placed.itemsFrom {bytes : Array UInt8} {a fuel : Nat} {code : Code}
    (h : Placed bytes a code) (hsize : a + code.size = bytes.size) (hfuel : code.length ≤ fuel) :
    CodeItem.itemsFrom bytes fuel a =
      (layout a code).map fun x => .instruction (x.2.place x.1) := by
  induction code generalizing a fuel with
  | nil =>
      have hend : bytes[a]? = none := by
        rw [Array.getElem?_eq_none_iff]
        exact Nat.le_of_eq hsize.symm
      cases fuel with
      | zero => rfl
      | succ fuel => simp [CodeItem.itemsFrom, hend, layout]
  | cons i code ih =>
      obtain ⟨hd, hrest⟩ := h
      obtain ⟨fuel, rfl⟩ : ∃ k, fuel = k + 1 := Nat.exists_eq_add_one.2 (Nat.lt_of_lt_of_le
        (Nat.zero_lt_succ _) hfuel)
      rw [size_cons] at hsize
      have hlt : a < bytes.size := by
        simp only [Instr.size] at hsize
        omega
      have hlater := ih hrest (by omega) (Nat.le_of_succ_le_succ hfuel)
      rw [CodeItem.itemsFrom, Array.getElem?_eq_getElem hlt]
      simp only [hd, Instr.next_place, hlater, layout, List.map_cons]

end Code

/-- The code of a program stands at address zero. -/
theorem Program.IsCodeOf.placed {p : Program} {t : Stmt} (h : p.IsCodeOf t) :
    Code.Placed p.code 0 (t.code none 0 ++ [.plain .stop]) :=
  @Code.placed_of_bytes p.code [] [] _ (by simpa using h.code)

theorem Program.IsCodeOf.size_lt {p : Program} {t : Stmt} (h : p.IsCodeOf t) : t.size < 65535 := by
  have hlen := congrArg List.length h.code
  rw [Code.length_bytes, Code.size_append, Stmt.size_code, Array.length_toList] at hlen
  have hstop : Code.size [.plain .stop] = 1 := rfl
  have := h.size
  omega

/-- Reading the code of a program piece by piece gives its instructions. -/
theorem Program.IsCodeOf.items {p : Program} {t : Stmt} (h : p.IsCodeOf t) :
    CodeItem.items p.code =
      (Code.layout 0 (t.code none 0 ++ [.plain .stop])).map fun x =>
        .instruction (x.2.place x.1) := by
  have hsize : Code.size (t.code none 0 ++ [.plain .stop]) = p.code.size := by
    rw [← Code.length_bytes, ← h.code, Array.length_toList]
  refine h.placed.itemsFrom (by omega) ?_
  rw [← hsize]
  exact Code.length_le_size _

/-! ### Jumps -/

theorem signedWord_distanceWord {start target : Nat} (h : Instr.InReach start target) :
    signedWord (Instr.distanceWord start target) = signedAddress target - signedAddress start := by
  obtain ⟨h₁, h₂⟩ := h
  unfold signedWord Instr.distanceWord
  rw [Int16.toInt16_toUInt16, Int16.toInt_ofInt_of_le (by simpa using h₁) (by omega)]

/-- Taking a jump leads to its target. -/
theorem Instr.jumpCounter_place {op : Opcode} (hop : op.shape = .word) {a target : Nat}
    (h : InReach (a + 3) target) (ha : a + 3 ≤ 65535) (ht : target ≤ 65535) :
    ((jump op a (some target)).place a).jumpCounter = target := by
  have hw := signedWord_distanceWord h
  rw [signedAddress_of_lt (by omega), signedAddress_of_lt (by omega)] at hw
  simp only [jump, withWord, place, hop, Instruction.jumpCounter, Instruction.jumpTarget,
    Instruction.next, Shape.size, hw]
  omega

end CellScript
