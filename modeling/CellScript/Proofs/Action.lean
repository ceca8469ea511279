import CellScript.Compiler.Statement

/-!
Inversion of compiler actions.

The compiler is written in a state monad with errors, and nearly every fact about
it starts from a run that succeeded: `act s = .ok a s'`. The lemmas below take
such an equation apart along the structure of `act`. Sequencing becomes an
existential, a test becomes a disjunction, and an action that only fails becomes
`False`, so that a guard in front of a step leaves nothing behind but its
condition. They are simp lemmas: `simp only` with them turns the equation of a
`do` block into the list of the equations of its steps.
-/

namespace CellScript

namespace Action

variable {ε σ α β : Type}

theorem bind_eq_ok {x : EStateM ε σ α} {f : α → EStateM ε σ β} {s s' : σ} {b : β} :
    (x >>= f) s = .ok b s' ↔ ∃ a t, x s = .ok a t ∧ f a t = .ok b s' := by
  simp only [bind, EStateM.bind]
  cases h : x s with
  | ok a t =>
      constructor
      · exact fun hf => ⟨a, t, rfl, hf⟩
      · rintro ⟨a', t', hx, hf⟩
        cases hx
        exact hf
  | error e t => simp

theorem pure_eq_ok {a b : α} {s s' : σ} :
    (pure a : EStateM ε σ α) s = .ok b s' ↔ a = b ∧ s = s' := by
  simp [pure, EStateM.pure]

theorem get_apply (s : σ) : (get : EStateM ε σ σ) s = .ok s s := rfl

theorem get_bind_apply (f : σ → EStateM ε σ α) (s : σ) : (get >>= f) s = f s s := rfl

theorem modify_apply (f : σ → σ) (s : σ) : (modify f : EStateM ε σ PUnit) s = .ok ⟨⟩ (f s) := rfl

theorem throw_apply (e : ε) (s : σ) : (throw e : EStateM ε σ α) s = .error e s := rfl

theorem get_eq_ok {s a s' : σ} : (get : EStateM ε σ σ) s = .ok a s' ↔ s = a ∧ s = s' := by
  simp [get_apply]

theorem modify_eq_ok {f : σ → σ} {s s' : σ} {u : PUnit} :
    (modify f : EStateM ε σ PUnit) s = .ok u s' ↔ f s = s' := by
  simp [modify_apply]

theorem throw_eq_ok {e : ε} {s s' : σ} {a : α} :
    (throw e : EStateM ε σ α) s = .ok a s' ↔ False := by
  simp [throw_apply]

theorem ite_eq_ok {c : Prop} [Decidable c] {x y : EStateM ε σ α} {s s' : σ} {a : α} :
    (if c then x else y) s = .ok a s' ↔ (c ∧ x s = .ok a s') ∨ (¬ c ∧ y s = .ok a s') := by
  by_cases h : c <;> simp [h]

end Action

namespace Compiler

variable {α : Type} {s s' : Compiler} {a : α}

theorem read_eq_ok {f : Cursor → α × Cursor} :
    read f s = .ok a s' ↔ (f s.cursor).1 = a ∧ { s with cursor := (f s.cursor).2 } = s' := by
  simp [read]

theorem tryRead_eq_ok {act : Cursor.Action α} :
    tryRead act s = .ok a s' ↔ ∃ c, act s.cursor = .ok a c ∧ { s with cursor := c } = s' := by
  simp only [tryRead]
  cases act s.cursor <;> simp [and_assoc]

theorem failHere_eq_ok {cause : Cause} : failHere cause s = .ok a s' ↔ False := by
  simp [failHere]

theorem failAt_eq_ok {w : WordToken} {cause : Cause} : failAt w cause s = .ok a s' ↔ False :=
  Action.throw_eq_ok

theorem failWanting_eq_ok {wanted : Wanted} : failWanting wanted s = .ok a s' ↔ False := by
  simp only [failWanting, Action.bind_eq_ok, Action.ite_eq_ok, failHere_eq_ok, and_false, or_self,
    exists_false]

theorem redefinition_eq_ok {v : Value} {w : WordToken} :
    redefinition v w s = .ok a s' ↔ False := by
  unfold redefinition
  split <;> exact failAt_eq_ok

theorem onStore_eq_ok {act : EStateM Heap.Error Store α} :
    onStore act s = .ok a s' ↔ ∃ st, act s.store = .ok a st ∧ { s with store := st } = s' := by
  simp only [onStore]
  cases act s.store <;> simp [and_assoc]

theorem onCode_eq_ok {act : CodeBuffer.Action α} :
    onCode act s = .ok a s' ↔ ∃ b, act s.code = .ok a b ∧ { s with code := b } = s' := by
  simp only [onCode]
  cases act s.code <;> simp [and_assoc]

theorem symbol_eq_ok {b : UInt8} {r : Bool} :
    symbol b s = .ok r s' ↔
      (s.cursor.symbol b).1 = r ∧ { s with cursor := (s.cursor.symbol b).2 } = s' :=
  read_eq_ok

theorem expect_eq_ok {b : UInt8} {u : Unit} :
    expect b s = .ok u s' ↔
      (s.cursor.symbol b).1 = true ∧ { s with cursor := (s.cursor.symbol b).2 } = s' := by
  simp only [expect, Action.bind_eq_ok, symbol_eq_ok, Action.ite_eq_ok, failWanting_eq_ok,
    Action.pure_eq_ok]
  cases h : (s.cursor.symbol b).1 <;> simp

theorem intern_eq_ok {bytes : List UInt8} {id : Ident} :
    intern bytes s = .ok id s' ↔
      ∃ new st, Store.intern bytes s.store = .ok (id, new) st ∧ { s with store := st } = s' := by
  simp only [intern, Action.bind_eq_ok, onStore_eq_ok, Action.pure_eq_ok]
  constructor
  · rintro ⟨⟨id', new⟩, t, ⟨st, h, rfl⟩, rfl, rfl⟩
    exact ⟨new, st, h, rfl⟩
  · rintro ⟨new, st, h, rfl⟩
    exact ⟨(id, new), _, ⟨st, h, rfl⟩, rfl, rfl⟩

theorem modifyHeap_eq_ok {f : Heap → Heap} {u : Unit} :
    modifyHeap f s = .ok u s' ↔
      { s with store := { s.store with heap := f s.store.heap } } = s' :=
  Action.modify_eq_ok

theorem valueOf_eq_ok {id : Ident} {v : Value} :
    valueOf id s = .ok v s' ↔ s.store.heap.identValue id = v ∧ s = s' := by
  simp only [valueOf, Action.bind_eq_ok, Action.get_eq_ok, Action.pure_eq_ok]
  constructor
  · rintro ⟨_, _, ⟨rfl, rfl⟩, rfl, rfl⟩
    exact ⟨rfl, rfl⟩
  · rintro ⟨rfl, rfl⟩
    exact ⟨s, s, ⟨rfl, rfl⟩, rfl, rfl⟩

theorem argumentCount_eq_ok {n : Nat} {w : WordToken} {k : UInt8} :
    argumentCount n w s = .ok k s' ↔ n ≤ 255 ∧ UInt8.ofNat n = k ∧ s = s' := by
  by_cases h : n ≤ 255
  · simp [argumentCount, h, Action.pure_eq_ok]
  · simp [argumentCount, h, failAt_eq_ok]

end Compiler

end CellScript
