import CellScript.Proofs.Preservation

/-!
Runs.

What a step preserves a run preserves, as long as every call on the way reserves
enough slots. For programs that assign to no name of a procedure or function
(`Program.Clean`) this needs no proviso: the record of a body then keeps the value
that the compiler gave it, so that a call through it enters that very body, and
every other record reserves the most slots there are.

`reserved` keeps book along a run of the numbers of slots that the active calls
have reserved. It is computed from the machines alone, and it is what the
descriptions say.
-/

namespace CellScript

open Activation

/-- Whether a run goes on, in a state that passes a test. -/
def Progress.goesOn {κ : Type} (test : Machine κ → Bool) : Progress κ → Bool
  | .running m => test m
  | _ => false

theorem Progress.goesOn_iff {κ : Type} {test : Machine κ → Bool} {r : Progress κ} :
    r.goesOn test = true ↔ ∃ m, r = .running m ∧ test m = true := by
  cases r with
  | running m => simp [goesOn]
  | halted m => simp [goesOn]
  | trapped t m => simp [goesOn]

namespace Machine

variable {κ : Type} [Console κ] {code : Array UInt8} {m m'' : Machine κ} {n : Nat}

theorem run_succ_running : run code (n + 1) m = .running m'' ↔
    ∃ m', run code n m = .running m' ∧ step code m' = .ok .next m'' := by
  rw [run_add]
  cases run code n m with
  | running m' =>
      simp only [run, Progress.running.injEq, exists_eq_left']
      cases step code m' with
      | ok flow m₁ => cases flow <;> simp
      | error e m₁ => simp
  | halted m' => simp
  | trapped t m' => simp

/-- The numbers of slots that the active calls have reserved, innermost first, after so many
steps. -/
def reserved (code : Array UInt8) (m : Machine κ) : Nat → List Nat
  | 0 => []
  | n + 1 =>
      match run code n m with
      | .running a =>
          match step code a with
          | .ok .next b =>
              if a.depth < b.depth then a.calledSlots code :: reserved code m n
              else if b.depth < a.depth then (reserved code m n).tail
              else reserved code m n
          | _ => reserved code m n
      | _ => reserved code m n

theorem reserved_succ {m m' : Machine κ} (hr : run code n m = .running m')
    (hs : step code m' = .ok .next m'') :
    reserved code m (n + 1) =
      if m'.depth < m''.depth then m'.calledSlots code :: reserved code m n
      else if m''.depth < m'.depth then (reserved code m n).tail
      else reserved code m n := by
  simp only [reserved, hr, hs]

end Machine

variable {κ : Type} {p : Program} {t : Stmt} {rs₀ rs : List Record} {cap : Nat}

theorem Program.Checked.start (hp : p.Checked t rs₀) (limits : Limits) (console : κ) :
    Running p t rs₀ limits.stackSize rs₀ (Machine.start p limits console) [] [] where
  point := t.hasPoint_zero
  stack := OperandStack.holds_ofSize _
  fp := rfl
  depth := rfl
  linked := trivial
  records _ hr := hr
  heap := Heap.Sound.of_ledger hp.declares.ledger hp.declares.kinds
  operands := by simp
  frames := by simp
  values id hid := by
    by_cases hdef : ∃ d ∈ t.definitions 0, d.1.id = id
    · obtain ⟨d, hd, rfl⟩ := hdef
      have hv : p.heap.identValue d.1.id = (d.1.entry d.2).value :=
        congrArg Entry.value (hp.declares.defined d hd).2
      show (p.heap.identValue d.1.id).Sound rs₀ (t.definitions 0)
      rw [hv, Definition.entry]
      cases hkind : d.1.isFunc with
      | true => exact ⟨d, hd, hkind, rfl⟩
      | false => exact ⟨d, hd, hkind, rfl⟩
    · have hv : p.heap.identValue id = .unset :=
        congrArg Entry.value (hp.declares.others id hid fun d hd he => hdef ⟨d, hd, he⟩)
      show (p.heap.identValue id).Sound rs₀ (t.definitions 0)
      rw [hv]
      trivial
  counts _ _ := ⟨rfl, rfl⟩

section

variable [Console κ] {m₀ m m' : Machine κ} {as : List Activation} {ops : List Value} {n : Nat}

theorem Running.next (hp : p.Checked t rs₀) (hcap : cap ≤ 65535)
    (h : Running p t rs₀ cap rs m as ops) (hwide : Wide p t m)
    (hs : Machine.step p.code m = .ok .next m') :
    ∃ rs' as' ops', (∀ r ∈ rs, r ∈ rs') ∧ Running p t rs₀ cap rs' m' as' ops' ∧
      Moves p t rs₀ m m' as ops as' ops' := by
  have hstep := h.step hp hcap hwide
  rw [hs] at hstep
  exact hstep

omit [Console κ] in
theorem Moves.slots {as' : List Activation} {ops' : List Value} {rs' : List Record}
    (hm : Moves p t rs₀ m m' as ops as' ops') (h : Running p t rs₀ cap rs m as ops)
    (h' : Running p t rs₀ cap rs' m' as' ops') :
    as'.map (·.slots.length) =
      if m.depth < m'.depth then m.calledSlots p.code :: as.map (·.slots.length)
      else if m'.depth < m.depth then (as.map (·.slots.length)).tail
      else as.map (·.slots.length) := by
  rw [h.depth, h'.depth]
  cases hm with
  | stay => simp
  | assign => simp
  | slot hlen => simp [hlen]
  | enter hd _ _ _ hle hslots _ =>
      rw [if_pos (by simp), Machine.calledSlots_eq (Machine.called_eq hd), List.map_cons, hslots,
        Machine.length_slotsOf hle]
  | leave =>
      rw [if_neg (by simp), if_pos (by simp), List.map_cons, List.tail_cons]

/-- Every state of a run is described if the calls before it reserved enough, and its slots are
those that have been reserved. -/
theorem Program.Checked.running (hp : p.Checked t rs₀) {limits : Limits}
    (hcap : limits.stackSize ≤ 65535) {console : κ}
    (hrun : Machine.run p.code n (.start p limits console) = .running m)
    (hwide : ∀ k < n, ∀ m', Machine.run p.code k (.start p limits console) = .running m' →
      Wide p t m') :
    ∃ rs as ops, Running p t rs₀ limits.stackSize rs m as ops ∧
      as.map (·.slots.length) = Machine.reserved p.code (.start p limits console) n := by
  induction n generalizing m with
  | zero =>
      cases hrun
      exact ⟨rs₀, [], [], hp.start limits console, rfl⟩
  | succ n ih =>
      obtain ⟨m₁, hbefore, hs⟩ := Machine.run_succ_running.1 hrun
      obtain ⟨rs, as, ops, h, hslots⟩ := ih hbefore fun k hk => hwide k (Nat.lt_succ_of_lt hk)
      obtain ⟨rs', as', ops', -, h', hmoves⟩ :=
        h.next hp hcap (hwide n (Nat.lt_succ_self n) m₁ hbefore) hs
      refine ⟨rs', as', ops', h', ?_⟩
      rw [hmoves.slots h h', Machine.reserved_succ hbefore hs, hslots]

/-! ### When a call reserves enough -/

omit [Console κ] in
/-- A name that no body is defined under reserves the most slots there are, and the name of a
body as many as the body has. -/
theorem Running.identSlot (hp : p.Checked t rs₀) (h : Running p t rs₀ cap rs m as ops) {id : Ident}
    (hid : HasIdent rs₀ id) :
    (∃ d ∈ t.definitions 0, d.1.id = id ∧ (m.heap.identSlot id).toNat = d.1.slots) ∨
    ((∀ d ∈ t.definitions 0, d.1.id ≠ id) ∧ (m.heap.identSlot id).toNat = 255) := by
  rw [(h.counts id hid).1]
  by_cases hdef : ∃ d ∈ t.definitions 0, d.1.id = id
  · obtain ⟨d, hd, rfl⟩ := hdef
    have hs : p.heap.identSlot d.1.id = UInt8.ofNat d.1.slots :=
      congrArg Entry.slot (hp.declares.defined d hd).2
    refine .inl ⟨d, hd, rfl, ?_⟩
    rw [hs, UInt8.toNat_ofNat']
    have := (hp.fine.definitions hd).2
    omega
  · have hothers : ∀ d ∈ t.definitions 0, d.1.id ≠ id := fun d hd he => hdef ⟨d, hd, he⟩
    have hs : p.heap.identSlot id = Ident.noSlot :=
      congrArg Entry.slot (hp.declares.others id hid hothers)
    exact .inr ⟨hothers, by rw [hs]; rfl⟩

/-- A call reserves too little exactly if a body is defined under the called name, and the value
of the name leads to another body, which needs more. -/
theorem Running.wide_iff (hp : p.Checked t rs₀) (hcap : cap ≤ 65535)
    (h : Running p t rs₀ cap rs m as ops) :
    Wide p t m ↔ ∀ m' d d', Machine.step p.code m = .ok .next m' → m.depth < m'.depth →
      (d, m'.pc) ∈ t.definitions 0 → d' ∈ t.definitions 0 → m.called p.code = some d'.1.id →
      d.slots ≤ d'.1.slots := by
  constructor
  · intro hwide m' d d' hs hdeep hd hd' hcalled
    have hslots := hwide m' d hs hdeep hd
    obtain ⟨d₂, hd₂, hsame, hnumber⟩ | ⟨hothers, -⟩ := h.identSlot hp (hp.declares.defined d' hd').1
    · rw [Machine.calledSlots_eq hcalled, hnumber] at hslots
      rwa [hp.definition_of_id hd₂ hd' hsame] at hslots
    · exact absurd rfl (hothers d' hd')
  · intro hnarrow m' d hs hdeep hd
    obtain ⟨id, hid, hcalled, -⟩ := h.call_of_deeper hp hcap hs hdeep
    rw [Machine.calledSlots_eq hcalled]
    obtain ⟨d', hd', rfl, hnumber⟩ | ⟨-, hnumber⟩ := h.identSlot hp hid
    · rw [hnumber]
      exact hnarrow m' d d' hs hdeep hd hd' hcalled
    · rw [hnumber]
      exact (hp.fine.definitions hd).2

/-! ### Clean programs -/

/-- The names that the code assigns to. -/
def Program.assigned (p : Program) : List Ident :=
  (CodeItem.items p.code).filterMap fun
    | .instruction i => if i.op = .identSet then some ⟨i.word⟩ else none
    | .raw .. => none

/-- No assignment is to the name of a body. -/
def Program.Clean (p : Program) : Prop :=
  ∀ id ∈ p.assigned, Compiler.isBody (p.heap.identValue id) = false

instance (p : Program) : Decidable p.Clean :=
  inferInstanceAs (Decidable (∀ id ∈ p.assigned, Compiler.isBody (p.heap.identValue id) = false))

/-- The records of the bodies have the values that the compiler gave them. -/
def Kept (t : Stmt) (m : Machine κ) : Prop :=
  ∀ d ∈ t.definitions 0, m.heap.identValue d.1.id = (d.1.entry d.2).value

theorem Program.Checked.mem_assigned (hp : p.Checked t rs₀) {q : Point} (hq : t.HasPoint q)
    {id : Ident}
    (hd : Instruction.decode? p.code q.addr = some ((Place.global id).store.place q.addr)) :
    id ∈ p.assigned := by
  obtain ⟨i, hi, hd', -⟩ := hp.code.flows hp.fine hq
  refine List.mem_filterMap.2 ⟨.instruction (i.place q.addr), ?_, ?_⟩
  · rw [hp.code.items]
    exact List.mem_map.2 ⟨_, Stmt.mem_layout hi, rfl⟩
  · rw [← Option.some.inj (hd.symm.trans hd')]
    rfl

omit [Console κ] in
theorem Moves.kept {as' : List Activation} {ops' : List Value} (hp : p.Checked t rs₀)
    (hclean : p.Clean) (hm : Moves p t rs₀ m m' as ops as' ops')
    (h : Running p t rs₀ cap rs m as ops) (hkept : Kept t m) : Kept t m' := by
  intro d hd
  have hid := (hp.declares.defined d hd).1
  cases hm with
  | stay hgrow =>
      rw [← hkept d hd]
      exact congrArg Entry.value (h.entry_of_grows hgrow hid)
  | @assign _ _ id v hid' hdecode hheap =>
      have hne : d.1.id ≠ id := by
        rintro rfl
        have hbody : p.heap.identValue d.1.id = (d.1.entry d.2).value :=
          congrArg Entry.value (hp.declares.defined d hd).2
        have hfalse := hclean _ (hp.mem_assigned h.point hdecode)
        rw [hbody, Definition.isBody_entry] at hfalse
        cases hfalse
      rw [hheap, h.heap.ledger.identValue_setIdentValue (hid'.mono h.records)
        (hid.mono h.records) v, if_neg hne, hkept d hd]
  | slot _ hheap => rw [hheap, hkept d hd]
  | enter _ _ _ _ _ _ hheap => rw [hheap, hkept d hd]
  | leave _ _ hheap => rw [hheap, hkept d hd]

/-- As long as the records of the bodies are kept, calls reserve enough: a call through the name
of a body enters that body. -/
theorem Running.wide_of_kept (hp : p.Checked t rs₀) (hcap : cap ≤ 65535)
    (h : Running p t rs₀ cap rs m as ops) (hkept : Kept t m) : Wide p t m := by
  refine (h.wide_iff hp hcap).2 fun m' d d' hs hdeep hd hd' hcalled => ?_
  obtain ⟨id, -, hcalled', e, he, hpc, hvalue⟩ := h.call_of_deeper hp hcap hs hdeep
  obtain rfl : d'.1.id = id := Option.some.inj (hcalled.symm.trans hcalled')
  obtain rfl : (d, m'.pc) = e := Stmt.definitions_inj hd he hpc
  rw [hkept d' hd'] at hvalue
  exact Nat.le_of_eq (by rw [hp.entry_inj hd' he hvalue])

/-- A run of a clean program keeps the records of the bodies. -/
theorem Program.Checked.kept (hp : p.Checked t rs₀) (hclean : p.Clean) {limits : Limits}
    (hcap : limits.stackSize ≤ 65535) {console : κ}
    (hrun : Machine.run p.code n (.start p limits console) = .running m)
    (hwide : ∀ k < n, ∀ m', Machine.run p.code k (.start p limits console) = .running m' →
      Wide p t m') : Kept t m := by
  induction n generalizing m with
  | zero =>
      cases hrun
      exact fun d hd => congrArg Entry.value (hp.declares.defined d hd).2
  | succ n ih =>
      obtain ⟨m₁, hbefore, hs⟩ := Machine.run_succ_running.1 hrun
      have hwide' := fun k hk => hwide k (Nat.lt_succ_of_lt hk)
      obtain ⟨rs, as, ops, h, -⟩ := hp.running hcap hbefore hwide'
      obtain ⟨rs', as', ops', -, -, hmoves⟩ :=
        h.next hp hcap (hwide n (Nat.lt_succ_self n) m₁ hbefore) hs
      exact hmoves.kept hp hclean h (ih hbefore hwide')

/-- In a run of a clean program all calls reserve enough. -/
theorem Program.Checked.wide_of_clean (hp : p.Checked t rs₀) (hclean : p.Clean) {limits : Limits}
    (hcap : limits.stackSize ≤ 65535) {console : κ} :
    ∀ {n : Nat} {m : Machine κ}, Machine.run p.code n (.start p limits console) = .running m →
      Wide p t m := by
  intro n
  induction n using Nat.strongRecOn with
  | ind n ih =>
      intro m hrun
      have hwide := fun k hk m' => @ih k hk m'
      obtain ⟨rs, as, ops, h, -⟩ := hp.running hcap hrun hwide
      exact h.wide_of_kept hp hcap (hp.kept hclean hcap hrun hwide)

/-- So all its states are described. -/
theorem Program.Checked.running_of_clean (hp : p.Checked t rs₀) (hclean : p.Clean) {limits : Limits}
    (hcap : limits.stackSize ≤ 65535) {console : κ}
    (hrun : Machine.run p.code n (.start p limits console) = .running m) :
    ∃ rs as ops, Running p t rs₀ limits.stackSize rs m as ops ∧
      as.map (·.slots.length) = Machine.reserved p.code (.start p limits console) n :=
  hp.running hcap hrun fun _ _ _ => hp.wide_of_clean hclean hcap

end

end CellScript
