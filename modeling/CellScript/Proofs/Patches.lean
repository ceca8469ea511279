import CellScript.Proofs.Emission

/-!
Forward jumps and their patches.

A jump whose target lies ahead is emitted with a zero operand; later two bytes of
the code are overwritten with the distance. In terms of instructions a patch
replaces one jump by the same jump with a target and leaves the rest alone.

The jumps out of a loop are many, and they stand anywhere in the statements of the
loop. `breaks` lists their operands in the order of the text. Patching all of them
turns the code of a statement in a loop of unknown end into its code in a loop
that ends at the target.
-/

namespace CellScript

/-! ### Bytes -/

/-- The code with the word at `o` replaced. -/
def setWordAt (bs : List UInt8) (o : Nat) (w : UInt16) : List UInt8 :=
  (bs.set o (Word.hi w)).set (o + 1) (Word.lo w)

theorem setWordAt_jump {op : Opcode} (hop : op.shape = .word) (c d : Code) (w w' : UInt16) :
    setWordAt (Code.bytes (c ++ .withWord op w :: d)) (c.size + 1) w' =
      Code.bytes (c ++ .withWord op w' :: d) := by
  have hlen : c.bytes.length = c.size := Code.length_bytes c
  simp only [Code.bytes_append, Code.bytes_cons, Instr.bytes_withWord hop, setWordAt]
  rw [List.set_append_right _ _ (by omega), List.set_append_right _ _ (by omega)]
  simp [hlen, show c.size + 1 - c.size = 1 by omega, show c.size + 1 + 1 - c.size = 2 by omega]

/-- Patches all of `xs` to the target, the last one first. -/
def patchAll (target : Nat) (xs : List Nat) (bs : List UInt8) : List UInt8 :=
  xs.foldr (fun x bs => setWordAt bs x (Instr.distanceWord (x + 2) target)) bs

theorem patchAll_append (target : Nat) (xs ys : List Nat) (bs : List UInt8) :
    patchAll target (xs ++ ys) bs = patchAll target xs (patchAll target ys bs) := by
  simp [patchAll]

theorem patchAll_singleton {op : Opcode} (hop : op.shape = .word) (c d : Code) (a target : Nat)
    (ha : c.size = a) :
    patchAll target [a + 1] (Code.bytes (c ++ .jump op a none :: d)) =
      Code.bytes (c ++ .jump op a (some target) :: d) := by
  subst ha
  exact setWordAt_jump hop c d 0 _

/-! ### The exits of a statement -/

namespace Stmt

/-- Where the operands of the jumps out of the loop around lie. -/
def breaks (a : Nat) : Stmt → List Nat
  | seq s t => s.breaks a ++ t.breaks (a + s.size)
  | ifThen c s => s.breaks (a + c.code.size + 3)
  | ifElse c s t =>
      s.breaks (a + c.code.size + 3) ++ t.breaks (a + c.code.size + 3 + s.size + 3)
  | exitLoop => [a + 1]
  | _ => []

theorem breaks_eq_nil {s : Stmt} {a b : Nat} (h : s.breaks a = []) : s.breaks b = [] := by
  induction s generalizing a b with
  | seq s t ihs iht =>
      simp only [breaks, List.append_eq_nil_iff] at h ⊢
      exact ⟨ihs h.1, iht h.2⟩
  | ifThen c s ih => exact ih h
  | ifElse c s t ihs iht =>
      simp only [breaks, List.append_eq_nil_iff] at h ⊢
      exact ⟨ihs h.1, iht h.2⟩
  | exitLoop => simp [breaks] at h
  | _ => rfl

/-- In a body, every jump out of a loop has its loop in the body too. -/
def Enclosed : Stmt → Prop
  | seq s t | ifElse _ s t => s.Enclosed ∧ t.Enclosed
  | ifThen _ s | whileDo _ s | repeatUntil s _ => s.Enclosed
  | define _ s => (∀ a, s.breaks a = []) ∧ s.Enclosed
  | _ => True

/-- The addresses at which statements of the text begin: a block has one for each of the
statements that open, divide and close it. -/
def starts (a : Nat) : Stmt → List Nat
  | skip => []
  | seq s t => s.starts a ++ t.starts (a + s.size)
  | ifThen c s => a :: s.starts (a + c.code.size + 3) ++ [a + c.code.size + 3 + s.size]
  | ifElse c s t =>
      a :: s.starts (a + c.code.size + 3) ++ (a + c.code.size + 3 + s.size) ::
        t.starts (a + c.code.size + 3 + s.size + 3) ++
        [a + c.code.size + 3 + s.size + 3 + t.size]
  | whileDo c s => a :: s.starts (a + c.code.size + 3) ++ [a + c.code.size + 3 + s.size]
  | repeatUntil s _ => a :: s.starts a ++ [a + s.size]
  | define _ s => a :: s.starts (a + 3) ++ [a + 3 + s.size]
  | _ => [a]

def Fits (exit : Option Nat) (a : Nat) : Stmt → Prop
  | seq s t => s.Fits exit a ∧ t.Fits exit (a + s.size)
  | ifThen c s =>
      let a' := a + c.code.size + 3
      Instr.InReach a' (a' + s.size) ∧ s.Fits exit a'
  | ifElse c s t =>
      let a' := a + c.code.size + 3
      let b := a' + s.size + 3
      Instr.InReach a' b ∧ s.Fits exit a' ∧ Instr.InReach b (b + t.size) ∧ t.Fits exit b
  | whileDo c s =>
      let a' := a + c.code.size + 3
      let b := a' + s.size + 3
      Instr.InReach a' b ∧ s.Fits (some b) a' ∧ Instr.InReach b a
  | repeatUntil s c =>
      let b := a + s.size + c.code.size + 3
      s.Fits (some b) a ∧ Instr.InReach b a
  | exitLoop => ∀ target, exit = some target → Instr.InReach (a + 3) target
  | define _ s =>
      Instr.InReach (a + 3) (a + 3 + s.size + 1) ∧ s.Fits none (a + 3)
  | _ => True

/-- Patching the exits of a statement to the end of its loop gives its code in that loop. -/
theorem patchAll_breaks (target : Nat) (s : Stmt) :
    ∀ (a : Nat) (c d : Code), c.size = a →
    patchAll target (s.breaks a) (Code.bytes (c ++ s.code none a ++ d)) =
      Code.bytes (c ++ s.code (some target) a ++ d) := by
  induction s with
  | seq s t ihs iht =>
      intro a c d ha
      simp only [breaks, code, patchAll_append]
      have ht := iht (a + s.size) (c ++ s.code none a) d (by simp [ha])
      have hs := ihs a c (t.code (some target) (a + s.size) ++ d) ha
      simp only [List.append_assoc] at ht hs ⊢
      rw [ht, hs]
  | ifThen e s ih =>
      intro a c d ha
      have := ih (a + e.code.size + 3)
        (c ++ (e.code ++ [.jump .jfalse (a + e.code.size) (some (a + e.code.size + 3 + s.size))])) d
        (by simp [ha, Opcode.shape, Shape.size]; omega)
      simpa [breaks, code] using this
  | ifElse e s t ihs iht =>
      intro a c d ha
      simp only [breaks, patchAll_append]
      have ht := iht (a + e.code.size + 3 + s.size + 3)
        (c ++ e.code ++ .jump .jfalse (a + e.code.size) (some (a + e.code.size + 3 + s.size + 3)) ::
          s.code none (a + e.code.size + 3) ++
          [.jump .jump (a + e.code.size + 3 + s.size)
            (some (a + e.code.size + 3 + s.size + 3 + t.size))]) d
        (by simp [ha, Opcode.shape, Shape.size]; omega)
      have hs := ihs (a + e.code.size + 3)
        (c ++ e.code ++
          [.jump .jfalse (a + e.code.size) (some (a + e.code.size + 3 + s.size + 3))])
        (.jump .jump (a + e.code.size + 3 + s.size)
            (some (a + e.code.size + 3 + s.size + 3 + t.size)) ::
          t.code (some target) (a + e.code.size + 3 + s.size + 3) ++ d)
        (by simp [ha, Opcode.shape, Shape.size]; omega)
      simp only [code, List.append_assoc, List.cons_append, List.nil_append] at ht hs ⊢
      rw [ht, hs]
  | exitLoop =>
      intro a c d ha
      simpa [breaks, code] using
        patchAll_singleton (show Opcode.jump.shape = .word from rfl) c d a target ha
  | _ => intros; rfl

theorem Fits.of_breaks {target : Nat} {s : Stmt} :
    ∀ {a : Nat}, s.Fits none a → (∀ x ∈ s.breaks a, Instr.InReach (x + 2) target) →
    s.Fits (some target) a := by
  induction s with
  | seq s t ihs iht =>
      intro a h hx
      simp only [breaks, List.mem_append] at hx
      exact ⟨ihs h.1 fun x hm => hx x (.inl hm), iht h.2 fun x hm => hx x (.inr hm)⟩
  | ifThen e s ih =>
      intro a h hx
      exact ⟨h.1, ih h.2 hx⟩
  | ifElse e s t ihs iht =>
      intro a h hx
      simp only [breaks, List.mem_append] at hx
      exact ⟨h.1, ihs h.2.1 fun x hm => hx x (.inl hm), h.2.2.1,
        iht h.2.2.2 fun x hm => hx x (.inr hm)⟩
  | exitLoop =>
      intro a _ hx t ht
      cases ht
      exact hx (a + 1) (by simp [breaks])
  | _ => intro a h _; exact h

end Stmt

end CellScript
