import CellScript.Proofs.Patches

/-!
Programs with open blocks.

Between two statements the compiler is in the middle of a tree: some blocks are
open, each with the statements that stand before it in the block around it, and
the statements read so far in the innermost one. A list of `Frame`s and a
statement describe such an outline. Everything that the compiler keeps on its
stacks can be read off the outline: the code with zero operands where targets are
missing, where those operands are, where loops begin, and which jumps leave them.

Closing a block moves one frame into the statement before it, and the lemmas here
say that all of these views follow.
-/

namespace CellScript

/-- An open block, with the statements before it in the block around. -/
inductive Frame where
  | ifThen (before : Stmt) (c : Expr)
  /-- The second branch of a conditional; the first one is complete. -/
  | ifElse (before : Stmt) (c : Expr) (a : Stmt)
  | whileDo (before : Stmt) (c : Expr)
  | repeatUntil (before : Stmt)
  /-- A body, as it was after its parameters. -/
  | body (before : Stmt) (head : Body)

namespace Frame

def before : Frame → Stmt
  | ifThen b _ | ifElse b _ _ | whileDo b _ | repeatUntil b | body b _ => b

def construct : Frame → Construct
  | ifThen _ _ => .ifBlock
  | ifElse _ _ _ => .elseBlock
  | whileDo _ _ => .whileLoop
  | repeatUntil _ => .repeatLoop
  | body _ head => if head.isFunc then .funcBody else .procBody

/-- The code between the statements before the block and those in it. -/
def lead (a : Nat) : Frame → Code
  | ifThen _ c => c.code ++ [.jump .jfalse (a + c.code.size) none]
  | ifElse _ c s =>
      let a' := a + c.code.size
      c.code ++ .jump .jfalse a' (some (a' + 3 + s.size + 3)) :: s.code none (a' + 3) ++
        [.jump .jump (a' + 3 + s.size) none]
  | whileDo _ c => c.code ++ [.jump .jfalse (a + c.code.size) none]
  | repeatUntil _ => []
  | body _ _ => [.jump .jump a none]

def leadSize : Frame → Nat
  | ifThen _ c | whileDo _ c => c.code.size + 3
  | ifElse _ c s => c.code.size + 3 + s.size + 3
  | repeatUntil _ => 0
  | body _ _ => 3

@[simp] theorem size_lead (a : Nat) (f : Frame) : (f.lead a).size = f.leadSize := by
  cases f with
  | ifThen b c => simp [lead, leadSize, Opcode.shape, Shape.size]
  | ifElse b c s => simp [lead, leadSize, Opcode.shape, Shape.size]; omega
  | whileDo b c => simp [lead, leadSize, Opcode.shape, Shape.size]
  | repeatUntil b => rfl
  | body b head => simp [lead, leadSize, Opcode.shape, Shape.size]

/-- The jump around the block that lacks its target. -/
def fixup? (a : Nat) : Frame → Option Fixup
  | ifThen _ c => some ⟨a + c.code.size + 1⟩
  | ifElse _ c s => some ⟨a + c.code.size + 3 + s.size + 1⟩
  | body _ _ => some ⟨a + 1⟩
  | whileDo _ _ | repeatUntil _ => none

def isLoop : Frame → Bool
  | whileDo _ _ | repeatUntil _ => true
  | _ => false

/-- Jumps in the lead that leave a loop: of the loop itself, or of the one around. -/
def leadExits (a : Nat) : Frame → List Nat
  | whileDo _ c => [a + c.code.size + 1]
  | ifElse _ c s => s.breaks (a + c.code.size + 3)
  | _ => []

/-- The jumps of the lead that have targets reach them. -/
def LeadFits (a : Nat) : Frame → Prop
  | ifElse _ c s =>
      let a' := a + c.code.size + 3
      Instr.InReach a' (a' + s.size + 3) ∧ s.Fits none a'
  | _ => True

def LeadEnclosed : Frame → Prop
  | ifElse _ _ s => s.Enclosed
  | _ => True

def leadStarts (a : Nat) : Frame → List Nat
  | ifElse _ c s => a :: s.starts (a + c.code.size + 3) ++ [a + c.code.size + 3 + s.size]
  | _ => [a]

/-- The statement that a frame and its block make, unless the condition behind the block or
the final size of the body is still to come. -/
def close (cur : Stmt) : Frame → Stmt → Prop
  | ifThen _ c, s => s = .ifThen c cur
  | ifElse _ c a, s => s = .ifElse c a cur
  | whileDo _ c, s => s = .whileDo c cur
  | repeatUntil _, s => ∃ c, s = .repeatUntil cur c
  | body _ _, s => ∃ d, s = .define d cur

end Frame

namespace Outline

/-- The number of bytes so far. -/
def size : List Frame → Stmt → Nat
  | [], cur => cur.size
  | f :: fs, cur => size fs f.before + f.leadSize + cur.size

/-- Where the innermost block begins. -/
def base : List Frame → Nat
  | [] => 0
  | f :: fs => size fs f.before + f.leadSize

def code : List Frame → Stmt → Code
  | [], cur => cur.code none 0
  | f :: fs, cur =>
      code fs f.before ++ f.lead (size fs f.before) ++ cur.code none (base (f :: fs))

def forward : List Frame → List Fixup
  | [] => []
  | f :: fs => (f.fixup? (size fs f.before)).toList ++ forward fs

def loopStarts : List Frame → List Nat
  | [] => []
  | f :: fs => if f.isLoop then size fs f.before :: loopStarts fs else loopStarts fs

/-- The jumps out of the innermost loop, and those out of each loop around it. The last entry
is for the code outside of all loops. -/
def exits : List Frame → Stmt → List Nat × List (List Nat)
  | [], cur => (cur.breaks 0, [])
  | f :: fs, cur =>
      let outer := exits fs f.before
      let own := f.leadExits (size fs f.before) ++ cur.breaks (base (f :: fs))
      if f.isLoop then (own, outer.1 :: outer.2) else (outer.1 ++ own, outer.2)

def Fits : List Frame → Stmt → Prop
  | [], cur => cur.Fits none 0
  | f :: fs, cur =>
      Fits fs f.before ∧ f.LeadFits (size fs f.before) ∧ cur.Fits none (base (f :: fs))

@[simp] theorem size_code (fs : List Frame) (cur : Stmt) : (code fs cur).size = size fs cur := by
  induction fs generalizing cur with
  | nil => simp [code, size]
  | cons f fs ih => simp [code, size, ih]; omega

theorem size_eq (fs : List Frame) (cur : Stmt) : size fs cur = base fs + cur.size := by
  cases fs with
  | nil => simp [size, base]
  | cons f fs => rfl

/-! ### One more statement -/

section

variable (fs : List Frame) (cur s : Stmt)

theorem size_seq : size fs (.seq cur s) = size fs cur + s.size := by
  simp only [size_eq, Stmt.size]
  omega

theorem code_seq : code fs (.seq cur s) = code fs cur ++ s.code none (size fs cur) := by
  cases fs with
  | nil => simp [code, Stmt.code, size]
  | cons f fs => simp [code, Stmt.code, size, base]

theorem exits_seq :
    exits fs (.seq cur s) = ((exits fs cur).1 ++ s.breaks (size fs cur), (exits fs cur).2) := by
  cases fs with
  | nil => simp [exits, Stmt.breaks, size]
  | cons f fs => cases h : f.isLoop <;> simp [exits, Stmt.breaks, size, base, h]

variable {s} in
theorem exits_seq_of_breaks (h : s.breaks (size fs cur) = []) :
    exits fs (.seq cur s) = exits fs cur := by
  rw [exits_seq, h, List.append_nil]

theorem fits_seq : Fits fs (.seq cur s) ↔ Fits fs cur ∧ s.Fits none (size fs cur) := by
  cases fs with
  | nil => simp [Fits, Stmt.Fits, size]
  | cons f fs => simp [Fits, Stmt.Fits, size, base, and_assoc]

end

/-! ### One more frame -/

section

variable (f : Frame) (fs : List Frame)

theorem code_open : code (f :: fs) .skip = code fs f.before ++ f.lead (size fs f.before) := by
  simp [code, Stmt.code]

theorem exits_openBlock {f : Frame} (hf : f.isLoop = false)
    (he : f.leadExits (size fs f.before) = []) : exits (f :: fs) .skip = exits fs f.before := by
  simp [exits, Stmt.breaks, hf, he]

theorem exits_openLoop {f : Frame} (hf : f.isLoop = true) : exits (f :: fs) .skip =
    (f.leadExits (size fs f.before), (exits fs f.before).1 :: (exits fs f.before).2) := by
  simp [exits, Stmt.breaks, hf]

end

/-- The exits as the compiler stacks them: the last one of the innermost loop on top. -/
def exitStack (e : List Nat × List (List Nat)) : List Fixup :=
  ((e.1 :: e.2).flatMap List.reverse).map Fixup.mk

theorem exitStack_append (xs ys : List Nat) (outer : List (List Nat)) :
    exitStack (xs ++ ys, outer) = ys.reverse.map Fixup.mk ++ exitStack (xs, outer) := by
  simp [exitStack]

theorem exitStack_open (xs ys : List Nat) (outer : List (List Nat)) :
    exitStack (xs, ys :: outer) = xs.reverse.map Fixup.mk ++ exitStack (ys, outer) := by
  simp [exitStack]

/-- No jump leaves a loop where there is none. -/
def Enclosed : List Frame → Stmt → Prop
  | [], cur => cur.Enclosed ∧ cur.breaks 0 = []
  | f :: fs, cur =>
      Enclosed fs f.before ∧ f.LeadEnclosed ∧ cur.Enclosed ∧
        (loopStarts (f :: fs) = [] →
          f.leadExits (size fs f.before) = [] ∧ cur.breaks (base (f :: fs)) = [])

theorem enclosed_seq (fs : List Frame) (cur s : Stmt) :
    Enclosed fs (.seq cur s) ↔
      Enclosed fs cur ∧ s.Enclosed ∧ (loopStarts fs = [] → s.breaks (size fs cur) = []) := by
  cases fs with
  | nil =>
      simp only [Enclosed, Stmt.Enclosed, Stmt.breaks, List.append_eq_nil_iff, loopStarts, size,
        Nat.zero_add, true_implies]
      grind
  | cons f fs =>
      simp only [Enclosed, Stmt.Enclosed, Stmt.breaks, List.append_eq_nil_iff, size, base]
      grind

/-! ### Dividing and closing conditionals

In each case one jump gets its target; nothing else in the code changes, and the
exits of the loop around stay the same. -/

section

variable (fs : List Frame) (b s t : Stmt) (c : Expr)

/-- The operand of the open jump of a conditional. -/
def conditionFixup : Nat := size fs b + c.code.size + 1

theorem code_divide :
    setWordAt (code (.ifThen b c :: fs) s).bytes (conditionFixup fs b c)
        (Instr.distanceWord (conditionFixup fs b c + 2) (size (.ifThen b c :: fs) s + 3)) ++
      (Instr.withWord .jump 0).bytes = (code (.ifElse b c s :: fs) .skip).bytes := by
  have h := patchAll_singleton (show Opcode.jfalse.shape = .word from rfl)
    (code fs b ++ c.code) (s.code none (size fs b + c.code.size + 3)) (size fs b + c.code.size)
    (size fs b + c.code.size + 3 + s.size + 3) (by simp)
  simp only [patchAll, List.foldr] at h
  simp only [code, Frame.before, Frame.lead, base, Frame.leadSize, size, conditionFixup,
    Stmt.code, ← Nat.add_assoc, List.append_assoc, List.cons_append, List.nil_append,
    List.append_nil] at h ⊢
  rw [h]
  simp [Instr.jump]

theorem exits_divide : exits (.ifElse b c s :: fs) .skip = exits (.ifThen b c :: fs) s := by
  simp [exits, Frame.isLoop, Frame.leadExits, Frame.before, Stmt.breaks, base, Frame.leadSize,
    Nat.add_assoc]

variable {fs b s t c}

theorem Fits.divide (h : Fits (.ifThen b c :: fs) s)
    (hr : Instr.InReach (conditionFixup fs b c + 2) (size (.ifThen b c :: fs) s + 3)) :
    Fits (.ifElse b c s :: fs) .skip := by
  obtain ⟨hb, -, hs⟩ := h
  refine ⟨hb, ⟨?_, ?_⟩, trivial⟩
  · simpa [conditionFixup, size, Frame.before, Frame.leadSize, Nat.add_assoc] using hr
  · simpa [base, Frame.before, Frame.leadSize, Nat.add_assoc] using hs

theorem Enclosed.divide (h : Enclosed (.ifThen b c :: fs) s) :
    Enclosed (.ifElse b c s :: fs) .skip := by
  obtain ⟨hb, -, hs, hout⟩ := h
  refine ⟨hb, hs, trivial, fun hl => ⟨?_, rfl⟩⟩
  simpa [Frame.leadExits, base, Frame.before, Frame.leadSize, Nat.add_assoc] using (hout hl).2

variable (fs b s t c)

theorem code_endif :
    setWordAt (code (.ifThen b c :: fs) s).bytes (conditionFixup fs b c)
        (Instr.distanceWord (conditionFixup fs b c + 2) (size (.ifThen b c :: fs) s)) =
      (code fs (.seq b (.ifThen c s))).bytes := by
  have h := patchAll_singleton (show Opcode.jfalse.shape = .word from rfl)
    (code fs b ++ c.code) (s.code none (size fs b + c.code.size + 3)) (size fs b + c.code.size)
    (size fs b + c.code.size + 3 + s.size) (by simp)
  simp only [patchAll, List.foldr] at h
  rw [code_seq]
  simp only [code, Frame.before, Frame.lead, base, Frame.leadSize, size, conditionFixup,
    Stmt.code, ← Nat.add_assoc, List.append_assoc, List.cons_append, List.nil_append] at h ⊢
  exact h

theorem code_endifElse :
    setWordAt (code (.ifElse b c s :: fs) t).bytes (size fs b + c.code.size + 3 + s.size + 1)
        (Instr.distanceWord (size fs b + c.code.size + 3 + s.size + 1 + 2)
          (size (.ifElse b c s :: fs) t)) =
      (code fs (.seq b (.ifElse c s t))).bytes := by
  have h := patchAll_singleton (show Opcode.jump.shape = .word from rfl)
    (code fs b ++ (c.code ++ .jump .jfalse (size fs b + c.code.size)
      (some (size fs b + c.code.size + 3 + s.size + 3)) ::
        s.code none (size fs b + c.code.size + 3)))
    (t.code none (size fs b + c.code.size + 3 + s.size + 3))
    (size fs b + c.code.size + 3 + s.size)
    (size fs b + c.code.size + 3 + s.size + 3 + t.size)
    (by simp [Opcode.shape, Shape.size]; omega)
  simp only [patchAll, List.foldr] at h
  rw [code_seq]
  simp only [code, Frame.before, Frame.lead, base, Frame.leadSize, size,
    Stmt.code, ← Nat.add_assoc, List.append_assoc, List.cons_append, List.nil_append] at h ⊢
  exact h

end

/-! ### Closing a block

What a block that is no loop leaves open to the loop around is what its statement
does. A loop leaves nothing open: its exits have been patched. -/

section

variable {fs : List Frame} {cur st : Stmt} {k : Frame}

theorem exits_closeBlock (hk : k.isLoop = false)
    (hb : st.breaks (size fs k.before) =
      k.leadExits (size fs k.before) ++ cur.breaks (base (k :: fs))) :
    exits fs (.seq k.before st) = exits (k :: fs) cur := by
  rw [exits_seq, hb]
  simp [exits, hk]

theorem Enclosed.closeBlock (h : Enclosed (k :: fs) cur) (hk : k.isLoop = false)
    (hb : st.breaks (size fs k.before) =
      k.leadExits (size fs k.before) ++ cur.breaks (base (k :: fs)))
    (hs : k.LeadEnclosed → cur.Enclosed → st.Enclosed) : Enclosed fs (.seq k.before st) := by
  obtain ⟨hbefore, hlead, hcur, hout⟩ := h
  refine (enclosed_seq _ _ _).2 ⟨hbefore, hs hlead hcur, fun hl => ?_⟩
  obtain ⟨h₁, h₂⟩ := hout (by simpa [loopStarts, hk] using hl)
  rw [hb, h₁, h₂, List.append_nil]

theorem Enclosed.closeLoop (h : Enclosed (k :: fs) cur) (hb : st.breaks (size fs k.before) = [])
    (hs : cur.Enclosed → st.Enclosed) : Enclosed fs (.seq k.before st) := by
  obtain ⟨hbefore, -, hcur, -⟩ := h
  exact (enclosed_seq _ _ _).2 ⟨hbefore, hs hcur, fun _ => hb⟩

end

section

variable (fs : List Frame) (b s : Stmt) (c : Expr)

theorem code_wend :
    patchAll (size (.whileDo b c :: fs) s + 3) (exits (.whileDo b c :: fs) s).1
        ((code (.whileDo b c :: fs) s).bytes ++
          (Instr.jump .jump (size (.whileDo b c :: fs) s) (some (size fs b))).bytes) =
      (code fs (.seq b (.whileDo c s))).bytes := by
  have hs := Stmt.patchAll_breaks (size fs b + c.code.size + 3 + s.size + 3) s
    (size fs b + c.code.size + 3)
    (code fs b ++ (c.code ++ [.jump .jfalse (size fs b + c.code.size) none]))
    [.jump .jump (size fs b + c.code.size + 3 + s.size) (some (size fs b))]
    (by simp [Opcode.shape, Shape.size]; omega)
  have hc := patchAll_singleton (show Opcode.jfalse.shape = .word from rfl)
    (code fs b ++ c.code)
    (s.code (some (size fs b + c.code.size + 3 + s.size + 3)) (size fs b + c.code.size + 3) ++
      [.jump .jump (size fs b + c.code.size + 3 + s.size) (some (size fs b))])
    (size fs b + c.code.size) (size fs b + c.code.size + 3 + s.size + 3) (by simp)
  have hexits : (exits (.whileDo b c :: fs) s).1 =
      [size fs b + c.code.size + 1] ++ s.breaks (size fs b + c.code.size + 3) := by
    simp [exits, Frame.isLoop, Frame.leadExits, Frame.before, base, Frame.leadSize, Nat.add_assoc]
  rw [hexits, patchAll_append, code_seq]
  simp only [code, Frame.before, Frame.lead, base, Frame.leadSize, size, Stmt.code,
    ← Nat.add_assoc, List.append_assoc, List.cons_append, List.nil_append, Code.bytes_append,
    Code.bytes_cons, Code.bytes_nil, List.append_nil] at hs hc ⊢
  rw [hs, hc]

theorem code_until :
    patchAll (size (.repeatUntil b :: fs) s + c.code.size + 3) (exits (.repeatUntil b :: fs) s).1
        ((code (.repeatUntil b :: fs) s).bytes ++ c.code.bytes ++
          (Instr.jump .jfalse (size (.repeatUntil b :: fs) s + c.code.size)
            (some (size fs b))).bytes) =
      (code fs (.seq b (.repeatUntil s c))).bytes := by
  have hs := Stmt.patchAll_breaks (size fs b + s.size + c.code.size + 3) s (size fs b)
    (code fs b)
    (c.code ++ [.jump .jfalse (size fs b + s.size + c.code.size) (some (size fs b))])
    (by simp)
  have hexits : (exits (.repeatUntil b :: fs) s).1 = s.breaks (size fs b) := by
    simp [exits, Frame.isLoop, Frame.leadExits, Frame.before, base, Frame.leadSize]
  rw [hexits, code_seq]
  simp only [code, Frame.before, Frame.lead, base, Frame.leadSize, size, Stmt.code,
    Nat.add_zero, List.append_assoc, Code.bytes_append, Code.bytes_cons,
    Code.bytes_nil, List.append_nil] at hs ⊢
  exact hs

end

theorem code_end (b s : Stmt) (head : Body) (d : Definition) :
    setWordAt ((code [.body b head] s).bytes ++ (Stmt.bodyEnd d.isFunc).bytes) (b.size + 1)
        (Instr.distanceWord (b.size + 1 + 2) (size [.body b head] s + 1)) =
      (code [] (.seq b (.define d s))).bytes := by
  have h := patchAll_singleton (show Opcode.jump.shape = .word from rfl)
    (b.code none 0) (s.code none (b.size + 3) ++ [Stmt.bodyEnd d.isFunc]) b.size
    (b.size + 3 + s.size + 1) (by simp)
  simp only [patchAll, List.foldr] at h
  rw [code_seq]
  simp only [code, Frame.before, Frame.lead, base, Frame.leadSize, size, Stmt.code,
    List.append_assoc, List.cons_append, List.nil_append, Code.bytes_append, Code.bytes_cons,
    Code.bytes_nil, List.append_nil] at h ⊢
  exact h

/-! ### Where statements begin -/

/-- The addresses at which the statements of the outline begin. -/
def starts : List Frame → Stmt → List Nat
  | [], cur => cur.starts 0
  | f :: fs, cur =>
      starts fs f.before ++ f.leadStarts (size fs f.before) ++ cur.starts (base (f :: fs))

theorem starts_seq (fs : List Frame) (cur s : Stmt) :
    starts fs (.seq cur s) = starts fs cur ++ s.starts (size fs cur) := by
  cases fs with
  | nil => simp [starts, Stmt.starts, size]
  | cons f fs => simp [starts, Stmt.starts, size, base]

/-- How a statement changes the outline. -/
inductive Step : List Frame → Stmt → List Frame → Stmt → Prop
  | append {fs : List Frame} {cur s : Stmt} :
      (∀ a, s.starts a = [a]) → Step fs cur fs (.seq cur s)
  | begin {fs : List Frame} {k : Frame} :
      (∀ a, k.leadStarts a = [a]) → Step fs k.before (k :: fs) .skip
  | divide {fs : List Frame} {b a : Stmt} {c : Expr} :
      Step (.ifThen b c :: fs) a (.ifElse b c a :: fs) .skip
  | finish {fs : List Frame} {k : Frame} {cur s : Stmt} :
      k.close cur s → Step (k :: fs) cur fs (.seq k.before s)

end Outline

end CellScript
