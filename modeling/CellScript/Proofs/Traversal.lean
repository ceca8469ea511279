import CellScript.Proofs.Emission
import CellScript.Proofs.Names

/-!
What reading keeps.

Whatever is read, the front moves by a handful of elementary steps: the cursor goes
on, a string literal or a name gets its record, a name becomes a local, a body
opens or closes. A relation between fronts that is reflexive, transitive and holds
of the elementary steps therefore holds between the two ends of every piece of the
grammar. The inductions over the grammar are done here once, for an arbitrary such
relation.
-/

namespace CellScript

namespace Grammar

/-- A relation that holds over every step of reading an expression. -/
structure Steady (R : Front → Front → Prop) : Prop where
  refl (f : Front) : R f f
  trans {f g h : Front} : R f g → R g h → R f h
  goto (f : Front) (c : Cursor) : R f (f.goto c)
  text {f f' : Front} {t : StringToken} {l : Literal} : Text f t l f' → R f f'
  name {f f' : Front} {id : Ident} : Name f id f' → R f f'

/-- The same for the statements of a body, where names become locals. -/
structure SteadyInBody (R : Front → Front → Prop) : Prop extends Steady R where
  declared {f f' : Front} {id : Ident} : Declared f id f' → R f f'

namespace Steady

section

variable {R : Front → Front → Prop} (H : Steady R) {f f' : Front}

include H

theorem mark {b : UInt8} (h : Mark b f f') : R f f' := by
  cases h
  exact H.goto _ _

theorem noMark {b : UInt8} (h : NoMark b f f') : R f f' := by
  cases h
  exact H.goto _ _

theorem reserved {k : Keyword} (h : Reserved k f f') : R f f' := by
  cases h
  exact H.goto _ _

end

mutual

theorem level {R : Front → Front → Prop} (H : Steady R) {k : Nat} {f f' : Front} {e : Expr} :
    Level k f e f' → R f f'
  | .tighter h => level H h
  | .binary h₁ _ h₂ => H.trans (level H h₁) (H.trans (H.goto _ _) (level H h₂))
  | .unary _ h => H.trans (H.goto _ _) (level H h)
  | .operand _ h => H.trans (H.goto _ _) (operand H h)

theorem operand {R : Front → Front → Prop} (H : Steady R) {f f' : Front} {e : Expr} :
    Operand f e f' → R f f'
  | .group h₁ h₂ h₃ => H.trans (H.mark h₁) (H.trans (expression H h₂) (H.mark h₃))
  | .array h₁ h₂ _ => H.trans (H.mark h₁) (listed H h₂)
  | .number _ => H.goto _ _
  | .text _ h => H.trans (H.goto _ _) (H.text h)
  | .yes h => H.reserved h
  | .no h => H.reserved h
  | .builtin h₁ h₂ h₃ => H.trans (H.reserved h₁) (H.trans (H.mark h₂) (listed H h₃))
  | .call h₁ h₂ h₃ _ => H.trans (H.name h₁) (H.trans (H.mark h₂) (listed H h₃))
  | .variable h₁ h₂ h₃ => H.trans (H.name h₁) (H.trans (H.noMark h₂) (indexed H h₃))

theorem indexed {R : Front → Front → Prop} (H : Steady R) {f f' : Front} {e e' : Expr} :
    Indexed e f e' f' → R f f'
  | .done h => H.noMark h
  | .index h₁ h₂ h₃ h₄ h₅ =>
      H.trans (H.mark h₁) (H.trans (expression H h₂)
        (H.trans (H.noMark h₃) (H.trans (H.mark h₄) (indexed H h₅))))
  | .range h₁ h₂ h₃ h₄ h₅ h₆ =>
      H.trans (H.mark h₁) (H.trans (expression H h₂) (H.trans (H.mark h₃)
        (H.trans (expression H h₄) (H.trans (H.mark h₅) (indexed H h₆)))))

theorem listed {R : Front → Front → Prop} (H : Steady R) {b : UInt8} {f f' : Front}
    {es : List Expr} : Listed b f es f' → R f f'
  | .none h => H.mark h
  | .some h₁ h₂ => H.trans (H.noMark h₁) (listedFrom H h₂)

theorem listedFrom {R : Front → Front → Prop} (H : Steady R) {b : UInt8} {f f' : Front}
    {e : Expr} {es : List Expr} : ListedFrom b f e es f' → R f f'
  | .last h₁ h₂ h₃ => H.trans (expression H h₁) (H.trans (H.noMark h₂) (H.mark h₃))
  | .more h₁ h₂ h₃ => H.trans (expression H h₁) (H.trans (H.mark h₂) (listedFrom H h₃))

theorem expression {R : Front → Front → Prop} (H : Steady R) {f f' : Front} {e : Expr} :
    Expression f e f' → R f f'
  | @Expression.mk _ g _ c h _ => H.trans (level H h) (H.goto g c)

end

section

variable {R : Front → Front → Prop} (H : Steady R) {f f' : Front}

include H

theorem arguments {e : Expr} {es : List Expr} (h : Arguments f e es f') : R f f' := by
  induction h with
  | last h₁ h₂ => exact H.trans (H.expression h₁) (H.noMark h₂)
  | more h₁ h₂ _ ih => exact H.trans (H.expression h₁) (H.trans (H.mark h₂) ih)

theorem operands {es : List Expr} (h : Operands f es f') : R f f' := by
  cases h with
  | none _ => exact H.goto _ _
  | some _ h => exact H.trans (H.goto _ _) (H.arguments h)

end

end Steady

namespace SteadyInBody

section

variable {R : Front → Front → Prop} (H : SteadyInBody R) {f f' : Front}

include H

theorem target {id : Ident} {p : Place} (h : Target f id p f') : R f f' := by
  cases h with
  | global => exact H.refl _
  | old => exact H.refl _
  | new _ _ h => exact H.declared h

theorem inputs {ps : List Place} (h : Inputs f ps f') : R f f' := by
  induction h with
  | last h₁ h₂ h₃ => exact H.trans (H.name h₁) (H.trans (H.target h₂) (H.noMark h₃))
  | more h₁ h₂ h₃ _ ih =>
      exact H.trans (H.name h₁) (H.trans (H.target h₂) (H.trans (H.mark h₃) ih))

theorem parameters (h : Parameters f f') : R f f' := by
  have one {f f' : Front} (h : Parameter f f') : R f f' := by
    cases h with
    | mk h₁ _ _ h₂ => exact H.trans (H.name h₁) (H.declared h₂)
  induction h with
  | last h₁ h₂ => exact H.trans (one h₁) (H.noMark h₂)
  | more h₁ h₂ _ ih => exact H.trans (one h₁) (H.trans (H.mark h₂) ih)

theorem parameterList (h : ParameterList f f') : R f f' := by
  cases h with
  | none h₁ h₂ => exact H.trans (H.mark h₁) (H.mark h₂)
  | some h₁ h₂ h₃ h₄ =>
      exact H.trans (H.mark h₁) (H.trans (H.noMark h₂) (H.trans (H.parameters h₃) (H.mark h₄)))

end

mutual

theorem statement {R : Front → Front → Prop} (H : SteadyInBody R) {f f' : Front} {s : Stmt} :
    Statement f s f' → R f f'
  | .assign h₁ h₂ h₃ h₄ =>
      H.trans (H.name h₁) (H.trans (H.mark h₂) (H.trans (H.expression h₃) (H.target h₄)))
  | .perform h₁ h₂ h₃ _ => H.trans (H.name h₁) (H.trans (H.noMark h₂) (H.operands h₃))
  | .print h₁ h₂ _ => H.trans (H.reserved h₁) (H.operands h₂)
  | .input h₁ h₂ => H.trans (H.reserved h₁) (H.inputs h₂)
  | .halt h => H.reserved h
  | .exitLoop h => H.reserved h
  | .returnValue h₁ _ _ _ h₂ =>
      H.trans (H.reserved h₁) (H.trans (H.goto _ _) (H.expression h₂))
  | @Statement.returnBare _ g c _ h _ _ _ => H.trans (H.reserved h) (H.goto g c)
  | .ifThen h₁ h₂ h₃ h₄ h₅ =>
      H.trans (H.reserved h₁) (H.trans (H.expression h₂) (H.trans (H.mark h₃)
        (H.trans (block H h₄) (H.reserved h₅))))
  | .ifElse h₁ h₂ h₃ h₄ h₅ h₆ h₇ h₈ =>
      H.trans (H.reserved h₁) (H.trans (H.expression h₂) (H.trans (H.mark h₃)
        (H.trans (block H h₄) (H.trans (H.reserved h₅) (H.trans (H.mark h₆)
          (H.trans (block H h₇) (H.reserved h₈)))))))
  | .whileDo h₁ h₂ h₃ h₄ h₅ =>
      H.trans (H.reserved h₁) (H.trans (H.expression h₂) (H.trans (H.mark h₃)
        (H.trans (block H h₄) (H.reserved h₅))))
  | .repeatUntil h₁ h₂ h₃ h₄ h₅ =>
      H.trans (H.reserved h₁) (H.trans (H.mark h₂) (H.trans (block H h₃)
        (H.trans (H.reserved h₄) (H.expression h₅))))

theorem block {R : Front → Front → Prop} (H : SteadyInBody R) {f f' : Front} {s : Stmt} :
    Block f s f' → R f f'
  | .nil => H.refl _
  | .snoc h₁ h₂ h₃ => H.trans (block H h₁) (H.trans (statement H h₂) (H.mark h₃))

end

end SteadyInBody

/-- The same body is open, if one is. It may have got more locals. -/
def SameBody (f f' : Front) : Prop :=
  f'.body.map (fun b => (b.id, b.isFunc)) = f.body.map fun b => (b.id, b.isFunc)

theorem steady_sameBody : SteadyInBody SameBody where
  refl _ := rfl
  trans h h' := h'.trans h
  goto _ _ := rfl
  text h := by cases h <;> rfl
  name h := by cases h; rfl
  declared h := by
    cases h with
    | mk hb _ _ => simp [SameBody, hb, Front.addLocal]

theorem SameBody.some {f f' : Front} {body : Body} (h : SameBody f f') (hb : f.body = some body) :
    ∃ body', f'.body = some body' ∧ body'.id = body.id ∧ body'.isFunc = body.isFunc := by
  rw [SameBody, hb, Option.map_some] at h
  cases hb' : f'.body with
  | none => simp [hb'] at h
  | some body' =>
      rw [hb', Option.map_some, Option.some.injEq, Prod.mk.injEq] at h
      exact ⟨body', rfl, h⟩

/-! ### Bounds -/

end Grammar

namespace Store

theorem size_intern {name : List UInt8} {id : Ident} {new : Bool} {s s' : Store}
    (h : intern name s = .ok (id, new) s') : s'.heap.bytes.size = s.heap.bytes.size := by
  cases interned_of_eq h with
  | known => rfl
  | fresh => exact size_withRecord _ _ _

end Store

theorem Heap.size_allocStr {data : List UInt8} {o : UInt16} {h h' : Heap}
    (ha : allocStr data h = .ok o h') : h'.bytes.size = h.bytes.size := by
  simp only [allocStr, Action.ite_eq_ok, Action.bind_eq_ok, Action.throw_eq_ok, false_and,
    exists_false, and_false, false_or, Action.modify_eq_ok, Action.pure_eq_ok] at ha
  obtain ⟨-, o', t, halloc, _, _, rfl, -, rfl⟩ := ha
  rw [size_write, setWord, size_write]
  simp only [alloc] at halloc
  split at halloc
  · cases halloc
  · cases halloc
    rfl

namespace Grammar

/-- The open body has no more locals than it may have. -/
def InRange (f : Front) : Prop := ∀ body, f.body = some body → body.locals.length ≤ f.maxSlots

/-- The bounds stay what they are, and are kept. -/
structure Bounded (f f' : Front) : Prop where
  size : f'.store.heap.bytes.size = f.store.heap.bytes.size
  maxSlots : f'.maxSlots = f.maxSlots
  inRange : InRange f → InRange f'

theorem steady_bounded : SteadyInBody Bounded where
  refl _ := ⟨rfl, rfl, id⟩
  trans h h' := ⟨h'.size.trans h.size, h'.maxSlots.trans h.maxSlots, h'.inRange ∘ h.inRange⟩
  goto _ _ := ⟨rfl, rfl, id⟩
  text h := by
    cases h with
    | empty => exact ⟨rfl, rfl, id⟩
    | char => exact ⟨rfl, rfl, id⟩
    | long ha => exact ⟨Heap.size_allocStr ha, rfl, id⟩
  name h := by
    cases h with
    | mk _ _ hi => exact ⟨Store.size_intern hi, rfl, id⟩
  declared h := by
    cases h with
    | mk hb _ hlt =>
        constructor
        · simp only [Front.addLocal, Front.withHeap, Heap.setIdentSlot, Heap.size_setByte]
        · rfl
        · rintro - _ ⟨⟩
          rw [List.length_append]
          exact hlt

theorem Header.bounded {isFunc : Bool} {entry : UInt16} {f f' : Front} {head : Body}
    (h : Header isFunc entry f head f') : Bounded f f' := by
  have H := steady_bounded
  cases h with
  | @mk _ f₂ f₃ id _ h₁ h₂ _ _ h₃ _ =>
      obtain ⟨hsize, hmax, -⟩ := H.trans (H.reserved h₁) (H.name h₂)
      have hlist := H.parameterList h₃
      have hopen : (f₂.openBody id isFunc entry).maxSlots = f₂.maxSlots := by
        simp only [Front.openBody, Front.withHeap]
      constructor
      · simp only [Front.countParameters, Front.withHeap, Heap.setIdentArguments, Heap.size_setByte]
        rw [hlist.size, ← hsize]
        simp [Front.openBody, Front.withHeap, Heap.setIdentSlot, Heap.setIdentValue,
          Heap.setValueAt]
      · exact (hlist.maxSlots.trans hopen).trans hmax
      · have hrange : InRange (f₂.openBody id isFunc entry) := by
          rintro _ ⟨⟩
          exact Nat.zero_le _
        intro _ body hbody
        exact hlist.inRange hrange body hbody

theorem Front.size_closeBody (f : Front) (body : Body) :
    (f.closeBody body).store.heap.bytes.size = f.store.heap.bytes.size := by
  simp only [Front.closeBody, Front.withHeap]
  generalize f.store.heap = h
  induction body.locals generalizing h with
  | nil => rfl
  | cons id ids ih => rw [List.foldl_cons, ih, Heap.setIdentSlot, Heap.size_setByte]

theorem Header.body_eq {isFunc : Bool} {entry : UInt16} {f f' : Front} {head : Body}
    (h : Header isFunc entry f head f') : f'.body = some head := by
  cases h
  assumption

end Grammar

end CellScript
