import CellScript.Proofs.Runs
import CellScript.Proofs.WellFormed
import Mathlib.Data.List.Basic

/-!
Strings and arrays are there to stay.

A value on the stack, in a slot, in a name or in an array may lead to a record of
the heap. In a run of a clean program it always leads to the beginning of a record
of its kind (`Value.Sound`), and an array only to records older than itself. Hence
the elements of elements and so on come to an end, and so does the recursion that
prints a value, which `Builtin.render` bounds by a number of its own.

Two things happen to the heap along a run: records are added at the top, and names
get values. `Heap.Retains` is what they have in common. It lets the value fields of
some names change and nothing else below the top, so the bytes of strings and the
elements of arrays are forever what they were when the record was made.
-/

namespace CellScript

open Activation

/-! ### Printing ends -/

/-- A value stands in an array. -/
def Heap.Contains (h : Heap) (v c : Value) : Prop :=
  ∃ offset, c = .array offset ∧ v ∈ h.arrayElems offset

namespace Builtin

variable {h : Heap} {rs : List Record} {ds : List (Definition × Nat)}

/-- The elements of a sound value, and theirs in turn, come to an end. -/
theorem acc_of_sound (hs : h.Sound rs ds) {v : Value} (hv : v.Sound rs ds) :
    Acc h.Contains v := by
  -- Elements lead below the array that holds them.
  have hbelow (n : Nat) : ∀ v : Value, v.Sound rs ds → v.Below n → Acc h.Contains v := by
    induction n with
    | zero =>
        rintro v - hn
        refine ⟨v, ?_⟩
        rintro u ⟨offset, rfl, -⟩
        exact absurd hn (Nat.not_lt_zero _)
    | succ n ih =>
        intro v hv hn
        refine ⟨v, ?_⟩
        rintro u ⟨offset, rfl, hu⟩
        obtain ⟨husound, hulow⟩ := hs.arrayElems hv u hu
        exact ih u husound (hulow.mono (Nat.le_of_lt_succ hn))
  exact hbelow h.top v hv (hv.below hs.ledger)

/-- Beyond the offset of the record more fuel makes no difference. -/
theorem renderWith_eq (hs : h.Sound rs ds) {n fuel : Nat} {v : Value} (hv : v.Sound rs ds)
    (hn : v.Below n) (hfuel : n < fuel) : renderWith h fuel v = renderWith h (n + 1) v := by
  induction n generalizing fuel v with
  | zero =>
      obtain ⟨fuel, rfl⟩ := Nat.exists_eq_succ_of_ne_zero (Nat.ne_of_gt hfuel)
      cases v with
      | array offset => exact absurd hn (Nat.not_lt_zero _)
      | _ => rfl
  | succ n ih =>
      obtain ⟨fuel, rfl⟩ := Nat.exists_eq_succ_of_ne_zero (Nat.ne_of_gt (Nat.zero_lt_of_lt hfuel))
      cases v with
      | array offset =>
          have helems : (h.arrayElems offset).map (renderWith h fuel) =
              (h.arrayElems offset).map (renderWith h (n + 1)) := by
            refine List.map_congr_left fun u hu => ?_
            obtain ⟨husound, hulow⟩ := hs.arrayElems hv u hu
            exact ih husound (hulow.mono (Nat.le_of_lt_succ hn)) (by omega)
          simp only [renderWith, helems]
      | _ => rfl

/-- The printed form of an array is made of the printed forms of its elements. -/
theorem render_array (hs : h.Sound rs ds) {offset : UInt16} (ho : HasArray rs offset) :
    render h (.array offset) =
      91 :: commaSeparated ((h.arrayElems offset).map (render h)) ++ [93] := by
  have helems : (h.arrayElems offset).map (renderWith h h.top) =
      (h.arrayElems offset).map (render h) := by
    refine List.map_congr_left fun u hu => ?_
    obtain ⟨husound, hulow⟩ := hs.arrayElems ho u hu
    have hoffset : Value.Below h.top (.array offset) :=
      Value.Sound.below hs.ledger (show Value.Sound rs ds (.array offset) from ho)
    rw [render, renderWith_eq hs husound hulow hoffset,
      renderWith_eq hs husound hulow (Nat.lt_succ_of_lt hoffset)]
  rw [render, renderWith, helems]

end Builtin

/-! ### What stays -/

namespace Heap

/-- The value field of a name covers a position. -/
def InValueOf (id : Ident) (i : Nat) : Prop :=
  id.offset.toNat + Ident.valueField ≤ i ∧ i < id.offset.toNat + Ident.valueField + Value.size

/-- Nothing below the old top has changed but the values of names of a kind. -/
structure Retains (named : Ident → Prop) (h h' : Heap) : Prop where
  top : h.top ≤ h'.top
  size : h'.bytes.size = h.bytes.size
  byte : ∀ i < h.top, h'.byte i = h.byte i ∨ ∃ id, named id ∧ InValueOf id i

variable {named : Ident → Prop} {h h' h'' : Heap} {rs : List Record}

theorem Grows.retains (hg : h.Grows h') : Retains named h h' :=
  ⟨hg.top, hg.size, fun i hi => .inl (hg.byte i hi)⟩

theorem retains_setIdentValue {id : Ident} (hid : named id) (v : Value) :
    Retains named h (h.setIdentValue id v) := by
  have hsame := Heap.sameOutside_setIdentValue h id v
  refine ⟨Nat.le_of_eq hsame.top.symm, hsame.size, fun i _ => ?_⟩
  by_cases hi : InValueOf id i
  · exact .inr ⟨id, hid, hi⟩
  · refine .inl (hsame.byte i ?_)
    simp only [InValueOf, Ident.valueField, Value.size] at hi
    omega

theorem Retains.trans (a : Retains named h h') (b : Retains named h' h'') :
    Retains named h h'' where
  top := Nat.le_trans a.top b.top
  size := b.size.trans a.size
  byte i hi := by
    obtain hb | hb := b.byte i (Nat.lt_of_lt_of_le hi a.top)
    · rw [hb]
      exact a.byte i hi
    · exact .inr hb

section

variable (l : Ledger h rs) (a : Retains named h h') (hnamed : ∀ id, named id → HasIdent rs id)

include l a hnamed

/-- The bytes of a record other than that of a name are the same. -/
theorem Retains.record {r : Record} (hr : r ∈ rs) (hk : r.kind ≠ .ident) {i : Nat}
    (hlo : r.start ≤ i) (hhi : i < r.stop) : h'.byte i = h.byte i := by
  have hwithin := (l.within r hr).2
  obtain hb | ⟨id, hid, hin⟩ := a.byte i (by omega)
  · exact hb
  · obtain ⟨n, hn⟩ := hnamed id hid
    obtain heq | hapart := l.apart _ hn r hr
    · exact absurd (heq ▸ rfl) hk
    · simp only [Record.stop, Record.size, Ident.nameField, InValueOf, Ident.valueField,
        Value.size] at hapart hin hhi
      omega

theorem Retains.strBytes {offset : UInt16} (ho : HasText rs offset) :
    h'.strBytes offset = h.strBytes offset := by
  obtain ⟨n, -, hn⟩ := ho
  have hbyte {i : Nat} := a.record l hnamed hn (by simp) (i := i)
  have hlength : (h.word offset.toNat).toNat = n := l.lengths _ hn
  simp only [Record.stop, Record.size] at hbyte
  have hword : h'.word offset.toNat = h.word offset.toNat := by
    rw [word, word, hbyte (by omega) (by omega), hbyte (by omega) (by omega)]
  rw [Heap.strBytes, Heap.strBytes, hword, hlength]
  exact slice_congr fun k hk => hbyte (by omega) (by omega)

theorem Retains.arrayElems {offset : UInt16} (ho : HasArray rs offset) :
    h'.arrayElems offset = h.arrayElems offset := by
  obtain ⟨n, hn⟩ := ho
  have hbyte {i : Nat} := a.record l hnamed hn (by simp) (i := i)
  have hlength : h.arrayLength offset = n := l.lengths _ hn
  simp only [Record.stop, Record.size, Value.size] at hbyte
  have hlength' : h'.arrayLength offset = n := by
    rw [arrayLength, hbyte (by omega) (by omega)]
    exact hlength
  rw [Heap.arrayElems, Heap.arrayElems, hlength, hlength']
  refine List.filterMap_congr fun k hk => ?_
  have hk := List.mem_range.1 hk
  simp only [arrayGet?, hlength, hlength', if_pos hk, valueAt, Value.size, Option.some.injEq]
  rw [hbyte (by omega) (by omega), hbyte (by omega) (by omega), hbyte (by omega) (by omega)]

end

end Heap

section

variable {κ : Type} [Console κ] {p : Program} {t : Stmt} {rs₀ rs : List Record} {cap n : Nat}
  {m m' : Machine κ} {as : List Activation} {ops : List Value}

/-- A name in the table that the code of the program assigns to. -/
def Program.Assigns (p : Program) (id : Ident) : Prop := id ∈ p.assigned ∧ id ∈ p.names

omit [Console κ] in
theorem Moves.retains {as' : List Activation} {ops' : List Value} (hp : p.Checked t rs₀)
    (hstore : p.store.Ok rs₀) (hm : Moves p t rs₀ m m' as ops as' ops')
    (h : Running p t rs₀ cap rs m as ops) : m.heap.Retains p.Assigns m'.heap := by
  have hsame (hheap : m'.heap = m.heap) : m.heap.Retains p.Assigns m'.heap :=
    hheap.symm ▸ (Heap.Grows.refl m.heap).retains
  cases hm with
  | stay hgrow => exact hgrow.retains
  | assign hid hdecode hheap =>
      rw [hheap]
      exact Heap.retains_setIdentValue
        ⟨hp.mem_assigned h.point hdecode, (Program.Checked.mem_names hstore _).2 hid⟩ _
  | slot _ hheap => exact hsame hheap
  | enter _ _ _ _ _ _ hheap => exact hsame hheap
  | leave _ _ hheap => exact hsame hheap

/-- From a described machine on, a run adds records and retains the old ones. -/
theorem Running.retains (hp : p.Checked t rs₀) (hstore : p.store.Ok rs₀) (hcap : cap ≤ 65535)
    (h : Running p t rs₀ cap rs m as ops) (hrun : Machine.run p.code n m = .running m')
    (hwide : ∀ k < n, ∀ m', Machine.run p.code k m = .running m' → Wide p t m') :
    ∃ rs' as' ops', (∀ r ∈ rs, r ∈ rs') ∧ Running p t rs₀ cap rs' m' as' ops' ∧
      m.heap.Retains p.Assigns m'.heap := by
  induction n generalizing m' with
  | zero =>
      cases hrun
      exact ⟨rs, as, ops, fun _ hr => hr, h, (Heap.Grows.refl _).retains⟩
  | succ n ih =>
      obtain ⟨m₁, hbefore, hs⟩ := Machine.run_succ_running.1 hrun
      obtain ⟨rs₁, as₁, ops₁, hr₁, h₁, hretains⟩ :=
        ih hbefore fun k hk => hwide k (Nat.lt_succ_of_lt hk)
      obtain ⟨rs₂, as₂, ops₂, hr₂, h₂, hmoves⟩ :=
        h₁.next hp hcap (hwide n (Nat.lt_succ_self n) m₁ hbefore) hs
      exact ⟨rs₂, as₂, ops₂, fun r hr => hr₂ r (hr₁ r hr), h₂,
        hretains.trans (hmoves.retains hp hstore h₁)⟩

/-- Where a described machine keeps values: on the stack, the operands of callers among them, in
slots, in names and in arrays. -/
inductive Carries (p : Program) (m : Machine κ) (rs : List Record) (as : List Activation)
    (ops : List Value) : Value → Prop
  | operand {v : Value} : v ∈ ops → Carries p m rs as ops v
  | caller {a : Activation} {v : Value} : a ∈ as → v ∈ a.below → Carries p m rs as ops v
  | slot {a : Activation} {v : Value} : a ∈ as → v ∈ a.slots → Carries p m rs as ops v
  | name {id : Ident} : id ∈ p.names → Carries p m rs as ops (m.heap.identValue id)
  | element {offset : UInt16} {v : Value} : HasArray rs offset → v ∈ m.heap.arrayElems offset →
      Carries p m rs as ops v

omit [Console κ] in
theorem Running.sound_of_carries (hstore : p.store.Ok rs₀) (h : Running p t rs₀ cap rs m as ops)
    {v : Value} (hv : Carries p m rs as ops v) : v.Sound rs (t.definitions 0) := by
  cases hv with
  | operand hv => exact h.operands v hv
  | caller ha hv => exact h.frames _ ha v (.inr hv)
  | slot ha hv => exact h.frames _ ha v (.inl hv)
  | name hid => exact h.values _ ((Program.Checked.mem_names hstore _).1 hid)
  | element ho hv => exact (h.heap.arrayElems ho v hv).1

end

/-- In every state of a run of a clean program the values lead to records of their kind, arrays
only to records below them, so that printing ends; and in every later state the records are there
with the same content, and nothing of the heap has changed but values of assigned names. -/
theorem Program.values_permanent {source : Source} {limits vm : Limits} {p : Program}
    (hc : compile source limits = .ok p) (hvm : vm.validate = .ok ()) (hclean : p.Clean) :
    ∃ t rs₀, Grammar.Reads source limits t p.store ∧ p.Checked t rs₀ ∧
      ∀ {κ : Type} [Console κ] (console : κ) (n : Nat) (m : Machine κ),
        Machine.run p.code n (.start p vm console) = .running m →
        ∃ rs as ops, Running p t rs₀ vm.stackSize rs m as ops ∧
          (∀ v, Carries p m rs as ops v →
            v.Sound rs (t.definitions 0) ∧ Acc m.heap.Contains v ∧
            ∀ offset, v = .array offset →
              (∀ u ∈ m.heap.arrayElems offset, u.Below offset.toNat) ∧
              Builtin.render m.heap v = 91 :: Builtin.commaSeparated
                ((m.heap.arrayElems offset).map (Builtin.render m.heap)) ++ [93]) ∧
          ∀ (k : Nat) (m' : Machine κ),
            Machine.run p.code (n + k) (.start p vm console) = .running m' →
            (∃ rs' as' ops', (∀ r ∈ rs, r ∈ rs') ∧
              Running p t rs₀ vm.stackSize rs' m' as' ops') ∧
            (∀ offset, HasText rs offset → m'.heap.strBytes offset = m.heap.strBytes offset) ∧
            (∀ offset, HasArray rs offset →
              m'.heap.arrayElems offset = m.heap.arrayElems offset) ∧
            m.heap.Retains p.Assigns m'.heap := by
  obtain ⟨t, rs₀, hreads, hp, hstore⟩ := stored_of_compile hc
  have hcap := (Limits.valid_of_validate hvm).stackSize.2
  refine ⟨t, rs₀, hreads, hp, fun console n m hrun => ?_⟩
  obtain ⟨rs, as, ops, h, -⟩ := hp.running_of_clean hclean hcap hrun
  refine ⟨rs, as, ops, h, fun v hv => ?_, fun k m' hlater => ?_⟩
  · have hsound := h.sound_of_carries hstore hv
    refine ⟨hsound, Builtin.acc_of_sound h.heap hsound, ?_⟩
    rintro offset rfl
    exact ⟨fun u hu => (h.heap.arrayElems hsound u hu).2, Builtin.render_array h.heap hsound⟩
  · have hwide (j : Nat) (m₁ : Machine _) (hj : Machine.run p.code j m = .running m₁) :
        Wide p t m₁ := by
      have hall : Machine.run p.code (n + j) (.start p vm console) = .running m₁ := by
        rw [Machine.run_add, hrun]
        exact hj
      exact hp.wide_of_clean hclean hcap hall
    rw [Machine.run_add, hrun] at hlater
    obtain ⟨rs', as', ops', hr, h', hretains⟩ :=
      h.retains hp hstore hcap hlater fun j _ m₁ hj => hwide j m₁ hj
    have hnamed (id : Ident) (hid : p.Assigns id) : HasIdent rs id :=
      ((Checked.mem_names hstore id).1 hid.2).mono h.records
    exact ⟨⟨rs', as', ops', hr, h'⟩, fun _ ho => hretains.strBytes h.heap.ledger hnamed ho,
      fun _ ho => hretains.arrayElems h.heap.ledger hnamed ho, hretains⟩

/-- A name holds an array of a string and an array, and is then assigned a number: the array is
still there. -/
theorem Program.values_permanent_of_nested : ∃ (p : Program) (m m' : Machine QueuedConsole),
    compile (.ofText "m" "a = [\"xy\", [1]]; print a; a = 2;") default = .ok p ∧
    Limits.validate default = .ok () ∧ p.Clean ∧
    Machine.run p.code 5 (.start p default (.ofInput [])) = .running m ∧
    Machine.run p.code (5 + 4) (.start p default (.ofInput [])) = .running m' ∧
    m.heap.identValue ⟨2⟩ = .array 21 ∧ m'.heap.identValue ⟨2⟩ = .int 2 ∧
    Acc m.heap.Contains (.array 21) ∧ m'.heap.arrayElems 21 = m.heap.arrayElems 21 := by
  obtain ⟨p, hc, htest⟩ := exists_of_compile
    (.ofText "m" "a = [\"xy\", [1]]; print a; a = 2;") default
    (fun p => (Machine.run p.code 5 (.start p default (QueuedConsole.ofInput []))).goesOn fun m =>
      (Machine.run p.code (5 + 4) (.start p default (QueuedConsole.ofInput []))).goesOn fun m' =>
        decide (p.Clean ∧ ⟨2⟩ ∈ p.names ∧ m.heap.identValue ⟨2⟩ = .array 21 ∧
          m'.heap.identValue ⟨2⟩ = .int 2))
    (by decide +kernel)
  have hvm : Limits.validate default = .ok () := rfl
  obtain ⟨m, hrun, htest⟩ := Progress.goesOn_iff.1 htest
  obtain ⟨m', hrun', htest⟩ := Progress.goesOn_iff.1 htest
  obtain ⟨hclean, hname, hvalue, hvalue'⟩ := of_decide_eq_true htest
  obtain ⟨t, rs₀, -, -, hstates⟩ := values_permanent hc hvm hclean
  obtain ⟨rs, as, ops, -, hvalues, hlater⟩ := hstates _ 5 m hrun
  obtain ⟨hsound, hacc, -⟩ := hvalues _ (.name hname)
  obtain ⟨-, -, harrays, -⟩ := hlater 4 m' hrun'
  rw [hvalue] at hsound hacc
  exact ⟨p, m, m', hc, hvm, hclean, hrun, hrun', hvalue, hvalue', hacc, harrays 21 hsound⟩

end CellScript
