import CellScript.Proofs.Points
import CellScript.Proofs.Traversal

/-!
Where bodies lie in the code.

Definitions stand at the top level of a program, between its other statements. So
the code of a program is a row of pieces, and the piece of a definition is the jump
around the body followed by the body, its `Region`. The control of a statement stays
in the piece of the statement: its jumps lead into it or to its end. Hence the only
jump that passes a body is the one in front of it.
-/

namespace CellScript

/-- The stretch of code that is the body of a procedure or function. -/
structure Region where
  id : Ident
  isFunc : Bool
  entry : Nat
  stop : Nat
  deriving Repr, DecidableEq

/-- An address lies in the body. -/
def Region.Holds (r : Region) (a : Nat) : Prop := r.entry ≤ a ∧ a < r.stop

instance (r : Region) (a : Nat) : Decidable (r.Holds a) :=
  inferInstanceAs (Decidable (r.entry ≤ a ∧ a < r.stop))

namespace Stmt

/-- There is no definition in the statement. -/
def DefinesNothing : Stmt → Prop
  | seq s t | ifElse _ s t => s.DefinesNothing ∧ t.DefinesNothing
  | ifThen _ s | whileDo _ s | repeatUntil s _ => s.DefinesNothing
  | define _ _ => False
  | _ => True

/-- Definitions stand at the top level only. -/
def Flat : Stmt → Prop
  | seq s t => s.Flat ∧ t.Flat
  | define _ s => s.DefinesNothing
  | s => s.DefinesNothing

/-- The bodies of a program whose code begins at `a`. -/
def regions (a : Nat) : Stmt → List (Definition × Region)
  | seq s t => s.regions a ++ t.regions (a + s.size)
  | define d s => [(d, ⟨d.id, d.isFunc, a + 3, a + 3 + s.size + 1⟩)]
  | _ => []

theorem DefinesNothing.flat {s : Stmt} (h : s.DefinesNothing) : s.Flat := by
  induction s with
  | seq s t ihs iht => exact ⟨ihs h.1, iht h.2⟩
  | define d s => exact False.elim h
  | _ => exact h

end Stmt

namespace Grammar

mutual

theorem Statement.definesNothing {f f' : Front} {s : Stmt} (h : Statement f s f') :
    s.DefinesNothing := by
  cases h with
  | ifThen _ _ _ h | whileDo _ _ _ h => exact (Block.definesNothing h :)
  | repeatUntil _ _ h => exact (Block.definesNothing h :)
  | ifElse _ _ _ h _ _ h' => exact ⟨Block.definesNothing h, Block.definesNothing h'⟩
  | _ => trivial

theorem Block.definesNothing {f f' : Front} {s : Stmt} (h : Block f s f') :
    s.DefinesNothing := by
  cases h with
  | nil => trivial
  | snoc h h' => exact ⟨Block.definesNothing h, Statement.definesNothing h'⟩

end

/-- What is read is flat and keeps the bounds. -/
theorem Items.flat {f f' : Front} {t : Stmt} (h : Items f t f') (hb : f.body = none) :
    t.Flat ∧ f'.body = none ∧ f'.store.heap.bytes.size = f.store.heap.bytes.size ∧
      f'.maxSlots = f.maxSlots ∧ ∀ d ∈ t.definitions 0, d.1.slots ≤ f.maxSlots := by
  have H := steady_bounded
  induction h with
  | nil => exact ⟨trivial, hb, rfl, rfl, by simp [Stmt.definitions]⟩
  | @statement f₁ f₂ f₃ t s _ h₂ h₃ ih =>
      obtain ⟨hflat, hb₁, hsize, hmax, hslots⟩ := ih
      obtain ⟨hsize', hmax', -⟩ := H.trans (H.statement h₂) (H.mark h₃)
      have hbody : f₃.body = none := by
        have hsame := steady_sameBody.trans (steady_sameBody.statement h₂) (steady_sameBody.mark h₃)
        simpa [SameBody, hb₁] using hsame
      refine ⟨⟨hflat, h₂.definesNothing.flat⟩, hbody, hsize'.trans hsize, hmax'.trans hmax, ?_⟩
      rw [Stmt.definitions, h₂.definitions, List.append_nil]
      exact hslots
  | @definition f₁ f₂ f₃ f₄ f₅ f₆ t s isFunc head body _ _ h₂ h₃ h₄ h₅ hbody h₆ ih =>
      obtain ⟨hflat, hb₁, hsize, hmax, hslots⟩ := ih
      obtain ⟨hsize', hmax', hrange⟩ :=
        H.trans h₂.bounded (H.trans (H.mark h₃) (H.trans (H.block h₄) (H.reserved h₅)))
      obtain ⟨hsize₆, hmax₆, -⟩ := H.mark h₆
      have hlocals := hrange (fun b hb => by rw [hb₁] at hb; cases hb) body hbody
      refine ⟨⟨hflat, h₄.definesNothing⟩, by cases h₆; rfl, ?_, ?_, ?_⟩
      · rw [hsize₆, Front.size_closeBody, hsize', hsize]
      · exact hmax₆.trans (hmax'.trans hmax)
      · intro d hd
        obtain hd | hd := List.mem_append.1 hd
        · exact hslots d hd
        · obtain rfl := List.mem_singleton.1 hd
          rw [← hmax, ← hmax']
          exact hlocals

end Grammar

namespace Stmt

variable {s t : Stmt} {a pc : Nat} {d : Definition} {r : Region}

/-! ### Regions and definitions -/

theorem definition_of_region (h : (d, r) ∈ t.regions a) :
    (d, r.entry) ∈ t.definitions a ∧ r.id = d.id ∧ r.isFunc = d.isFunc := by
  induction t generalizing a with
  | seq s t ihs iht =>
      obtain h | h := List.mem_append.1 h
      · exact (ihs h).imp_left (List.mem_append_left _)
      · exact (iht h).imp_left (List.mem_append_right _)
  | define d s ih =>
      cases List.mem_singleton.1 h
      exact ⟨List.mem_singleton_self _, rfl, rfl⟩
  | _ => cases h

theorem region_of_definition {entry : Nat} (h : (d, entry) ∈ t.definitions a) :
    ∃ r, (d, r) ∈ t.regions a ∧ r.entry = entry := by
  induction t generalizing a with
  | seq s t ihs iht =>
      obtain h | h := List.mem_append.1 h
      · obtain ⟨r, hr, he⟩ := ihs h
        exact ⟨r, List.mem_append_left _ hr, he⟩
      · obtain ⟨r, hr, he⟩ := iht h
        exact ⟨r, List.mem_append_right _ hr, he⟩
  | define d s ih =>
      cases List.mem_singleton.1 h
      exact ⟨_, List.mem_singleton_self _, rfl⟩
  | _ => cases h

/-- A body lies in the code, behind the jump around it. -/
theorem regions_within (h : (d, r) ∈ t.regions a) :
    a + 3 ≤ r.entry ∧ r.entry < r.stop ∧ r.stop ≤ a + t.size := by
  induction t generalizing a with
  | seq s t ihs iht =>
      simp only [size]
      obtain h | h := List.mem_append.1 h
      · have := ihs h
        omega
      · have := iht h
        omega
  | define d s ih =>
      cases List.mem_singleton.1 h
      simp only [size]
      omega
  | _ => cases h

/-- Bodies do not overlap. -/
theorem regions_apart {d' : Definition} {r' : Region} (h : (d, r) ∈ t.regions a)
    (h' : (d', r') ∈ t.regions a) :
    (d, r) = (d', r') ∨ r.stop ≤ r'.entry ∨ r'.stop ≤ r.entry := by
  induction t generalizing a with
  | seq s t ihs iht =>
      obtain h | h := List.mem_append.1 h <;> obtain h' | h' := List.mem_append.1 h'
      · exact ihs h h'
      · have := regions_within h
        have := regions_within h'
        omega
      · have := regions_within h
        have := regions_within h'
        omega
      · exact iht h h'
  | define d s ih =>
      cases List.mem_singleton.1 h
      cases List.mem_singleton.1 h'
      exact .inl rfl
  | _ => cases h

/-- In front of a body stands the jump to its end. -/
theorem regions_skip {exit : Option Nat} (h : (d, r) ∈ t.regions a) :
    (r.entry - 3, Instr.jump .jump (r.entry - 3) (some r.stop)) ∈
      Code.layout a (t.code exit a) := by
  induction t generalizing a exit with
  | seq s t ihs iht =>
      rw [code, Code.layout_append, size_code]
      obtain h | h := List.mem_append.1 h
      · exact List.mem_append_left _ (ihs h)
      · exact List.mem_append_right _ (iht h)
  | define d s ih =>
      cases List.mem_singleton.1 h
      exact List.mem_cons_self ..
  | _ => cases h

/-! ### The body of an address -/

theorem DefinesNothing.bodyAt (h : s.DefinesNothing) : s.bodyAt pc a = none := by
  induction s generalizing a with
  | seq s t ihs iht => rw [Stmt.bodyAt, ihs h.1, iht h.2, Option.or_none]
  | ifElse c s t ihs iht => rw [Stmt.bodyAt, ihs h.1, iht h.2, Option.or_none]
  | ifThen c s ih | whileDo c s ih => exact ih h
  | repeatUntil s c ih => exact ih h
  | define d s => exact False.elim h
  | _ => rfl

theorem bodyAt_of_region (hf : t.Flat) (h : (d, r) ∈ t.regions a) (hpc : r.Holds pc) :
    t.bodyAt pc a = some d := by
  induction t generalizing a with
  | seq s t ihs iht =>
      obtain ⟨hlo, hhi⟩ := hpc
      rw [bodyAt]
      obtain h | h := List.mem_append.1 h
      · rw [ihs hf.1 h, Option.some_or]
      · have := regions_within h
        rw [s.bodyAt_outside (by omega), Option.none_or, iht hf.2 h]
  | define d s ih =>
      cases List.mem_singleton.1 h
      obtain ⟨hlo, hhi⟩ := hpc
      rw [bodyAt, if_pos (by simp only at hlo hhi; omega), hf.bodyAt, Option.none_or]
  | _ => cases h

theorem region_of_bodyAt (hf : t.Flat) (h : t.bodyAt pc a = some d) :
    ∃ r, (d, r) ∈ t.regions a ∧ r.Holds pc := by
  induction t generalizing a with
  | seq s t ihs iht =>
      rw [bodyAt] at h
      cases hs : s.bodyAt pc a with
      | some d' =>
          rw [hs, Option.some_or] at h
          cases h
          obtain ⟨r, hr, hpc⟩ := ihs hf.1 hs
          exact ⟨r, List.mem_append_left _ hr, hpc⟩
      | none =>
          rw [hs, Option.none_or] at h
          obtain ⟨r, hr, hpc⟩ := iht hf.2 h
          exact ⟨r, List.mem_append_right _ hr, hpc⟩
  | define d' s ih =>
      rw [bodyAt] at h
      split at h
      · rw [hf.bodyAt, Option.none_or] at h
        cases h
        exact ⟨_, List.mem_singleton_self _, by simp only [Region.Holds]; omega⟩
      · cases h
  | ifThen c s | ifElse c s t | whileDo c s | repeatUntil s c =>
      rw [DefinesNothing.bodyAt hf] at h
      cases h
  | _ => cases h

/-- An address belongs to a body if its region holds it. -/
theorem Flat.bodyAt_eq_some_iff (hf : t.Flat) :
    t.bodyAt pc a = some d ↔ ∃ r, (d, r) ∈ t.regions a ∧ r.Holds pc :=
  ⟨region_of_bodyAt hf, fun ⟨_, hr, hpc⟩ => bodyAt_of_region hf hr hpc⟩

end Stmt

/-! ### Jumps and bodies -/

/-- A jump leads to a point of the same body. -/
theorem Flows.target {rs : List Record} {S : Point → Prop} {q : Point} {i : Instr}
    (h : Flows rs S q i) (hi : i.op = .jump ∨ i.op = .jfalse) :
    ∃ height, S ⟨(i.place q.addr).jumpCounter, q.body, height⟩ := by
  cases h with
  | jump hc hs => exact ⟨_, hc ▸ hs⟩
  | branch hc _ hs => exact ⟨_, hc ▸ hs⟩
  | @literal _ _ _ l =>
      cases l with
      | truth b => cases b <;> simp [Literal.instr, Instr.plain] at hi
      | _ => simp [Literal.instr, Instr.plain, Instr.withByte, Instr.withWord] at hi
  | @load _ _ _ p | @store _ _ _ p =>
      cases p <;> simp [Place.load, Place.store, Instr.withByte, Instr.withWord] at hi
  | @apply _ _ _ _ op ha => cases op <;> first | (cases ha; done) | simp [Instr.plain] at hi
  | _ => simp [Instr.plain, Instr.withByte] at hi

/-- The code of a statement that no jump leaves. -/
theorem Stmt.jump_within {rs : List Record} {s : Stmt} {b : Option Definition} {a : Nat}
    (hf : s.Fine rs (Definition.scope b)) (hfit : s.Fits none a) (henc : s.Enclosed)
    (hsize : a + s.size ≤ 65535) (hclosed : s.breaks a = []) {x : Point × Instr}
    (hx : x ∈ s.points none b a) (hi : x.2.op = .jump ∨ x.2.op = .jfalse) :
    a ≤ (x.2.place x.1.addr).jumpCounter ∧ (x.2.place x.1.addr).jumpCounter ≤ a + s.size := by
  have hflows := Stmt.flows (S := fun q => a ≤ q.addr ∧ q.addr ≤ a + s.size) hf hfit henc hsize
    (fun y hy => ⟨(points_within hy).1, Nat.le_of_lt (points_within hy).2⟩)
    ⟨Nat.le_add_right _ _, Nat.le_refl _⟩ (fun _ => hclosed) (by simp)
  obtain ⟨_, htarget⟩ := (hflows x hx).target hi
  exact htarget

/-- A jump from `a` to `b` stays on its side of a body. -/
def Region.Keeps (r : Region) (a b : Nat) : Prop :=
  r.Holds a ∧ r.Holds b ∨ a < r.entry ∧ b < r.entry ∨ r.stop ≤ a ∧ r.stop ≤ b

/-- Every jump other than the one around a body stays on its side of the body. -/
theorem Stmt.jump_keeps {rs : List Record} {t : Stmt} {a : Nat} (hf : t.Fine rs none)
    (hfit : t.Fits none a) (henc : t.Enclosed) (hsize : a + t.size ≤ 65535)
    (hclosed : t.breaks a = []) {x : Point × Instr} (hx : x ∈ t.points none none a)
    (hi : x.2.op = .jump ∨ x.2.op = .jfalse) {d : Definition} {r : Region}
    (hr : (d, r) ∈ t.regions a) :
    x.1.addr + 3 = r.entry ∨ r.Keeps x.1.addr (x.2.place x.1.addr).jumpCounter := by
  induction t generalizing a with
  | seq s t ihs iht =>
      rw [size, ← Nat.add_assoc] at hsize
      simp only [breaks, List.append_eq_nil_iff] at hclosed
      obtain hx | hx := List.mem_append.1 hx <;> obtain hr | hr := List.mem_append.1 hr
      · exact ihs hf.1 hfit.1 henc.1 (by omega) hclosed.1 hx hr
      · have hwithin := points_within hx
        have hjump := jump_within hf.1 hfit.1 henc.1 (by omega) hclosed.1 hx hi
        have := regions_within hr
        exact .inr (.inr (.inl (by omega)))
      · have hwithin := points_within hx
        have hjump := jump_within hf.2 hfit.2 henc.2 (by omega) hclosed.2 hx hi
        have := regions_within hr
        exact .inr (.inr (.inr (by omega)))
      · exact iht hf.2 hfit.2 henc.2 (by omega) hclosed.2 hx hr
  | define d s ih =>
      cases List.mem_singleton.1 hr
      simp only [size, ← Nat.add_assoc] at hsize
      obtain hx | hx := List.mem_append.1 hx
      · obtain rfl | hx := List.mem_cons.1 hx
        · exact .inl rfl
        · have hwithin := points_within hx
          have hjump := jump_within (b := some d) hf.2.2.2 hfit.2 henc.2 (by omega) (henc.1 _) hx hi
          refine .inr (.inl ⟨?_, ?_⟩) <;> simp only [Region.Holds] <;> omega
      · obtain rfl := List.mem_singleton.1 hx
        cases hd : d.isFunc <;> simp [bodyEnd, hd, Instr.plain] at hi
  | _ => cases hr

end CellScript
