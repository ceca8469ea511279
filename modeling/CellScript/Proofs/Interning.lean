import CellScript.Proofs.Chains

/-!
Interning as a map from names to records.

A `Session` is a store together with what its calls of `Store.intern` have answered. Calls
come in any order with other blocks that are cut off from the arena and with writes into
the records that have been answered. Whatever has been requested, interning has been a
map (`Session.Faithful`): a name that was interned before gets its record again, every
other one gets a record of its own, and a call that fails leaves everything as it was.
-/

namespace CellScript

/-- A call of `Store.intern` that succeeded: the name, its record, and whether it was new. -/
structure Answer extends Binding where
  isNew : Bool

/-- What can happen to a store. Records are written through earlier answers. -/
inductive Request where
  | intern (name : List UInt8)
  | alloc (n : Nat)
  | allocStr (data : List UInt8)
  | allocArray (elems : List Value)
  | setValue (answer : Nat) (v : Value)
  | setSlot (answer : Nat) (slot : UInt8)
  | setArguments (answer : Nat) (n : UInt8)

structure Session where
  store : Store
  answers : List Answer

namespace Session

def cut (t : Session) (act : Heap.Action UInt16) : Session :=
  match Store.onHeap id act t.store with
  | .ok _ s | .error _ s => { t with store := s }

def write (t : Session) (answer : Nat) (f : Heap → Ident → Heap) : Session :=
  match t.answers[answer]? with
  | some a => { t with store := { t.store with heap := f t.store.heap a.id } }
  | none => t

def step (t : Session) : Request → Session
  | .intern name =>
    match Store.intern name t.store with
    | .ok (id, isNew) s => ⟨s, t.answers ++ [⟨⟨name, id⟩, isNew⟩]⟩
    | .error _ s => { t with store := s }
  | .alloc n => t.cut (Heap.alloc n)
  | .allocStr data => t.cut (Heap.allocStr data)
  | .allocArray elems => t.cut (Heap.allocArray elems)
  | .setValue answer v => t.write answer fun h id => h.setIdentValue id v
  | .setSlot answer slot => t.write answer fun h id => h.setIdentSlot id slot
  | .setArguments answer n => t.write answer fun h id => h.setIdentArguments id n

/-- All requests in a row, from an empty store. -/
def run (size buckets : Nat) (requests : List Request) : Session :=
  requests.foldl step ⟨.ofSize size buckets, []⟩

/-- The names with the records that were made for them, in this order. -/
def made (t : Session) : List Binding :=
  (t.answers.filter (·.isNew)).map Answer.toBinding

def available (t : Session) : Nat :=
  min t.store.heap.bytes.size Heap.addressable - t.store.heap.top

/-- Interning is a map from names to records. -/
structure Faithful (t : Session) : Prop where
  /-- A name that was interned before has its record, and nothing changes. -/
  known (name : List UInt8) (id : Ident) (s : Store) :
    Store.intern name t.store = .ok (id, false) s ↔
      s = t.store ∧ ∃ a ∈ t.answers, a.name = name ∧ a.id = id
  fresh (name : List UInt8) (id : Ident) (s : Store) :
    Store.intern name t.store = .ok (id, true) s → (∀ a ∈ t.answers, a.name ≠ name) ∧
      id.offset.toNat = t.store.heap.top ∧ s.heap.identName id = name ∧ s.heap.entry id = .fresh
  /-- It is refused for its length or for want of room, and nothing changes. -/
  refused (name : List UInt8) (e : Heap.Error) (s : Store) :
    Store.intern name t.store = .error e s ↔ s = t.store ∧
      (Ident.maxLength < name.length ∧ e = .recordTooLarge name.length Ident.maxLength ∨
        name.length ≤ Ident.maxLength ∧ (∀ a ∈ t.answers, a.name ≠ name) ∧
          t.available < Ident.nameField + name.length ∧
          e = .exhausted (Ident.nameField + name.length) t.available)
  /-- Of the answers to one name, the first one is new. -/
  first (before : List Answer) (a : Answer) (after : List Answer) :
    t.answers = before ++ a :: after → (a.isNew = true ↔ ∀ b ∈ before, b.name ≠ a.name)
  /-- Names and offsets determine each other. -/
  injective (a b : Answer) : a ∈ t.answers → b ∈ t.answers →
    (a.id.offset = b.id.offset ↔ a.name = b.name)
  find (name : List UInt8) (id : Ident) :
    t.store.find? name = some id ↔ ∃ a ∈ t.answers, a.name = name ∧ a.id = id
  ascending : t.made.Pairwise fun e e' => e.id.offset.toNat < e'.id.offset.toNat
  /-- The chain of a bucket leads through the records of its names in their order and ends. -/
  chains (b : Nat) : b < t.store.buckets.size →
    t.store.heap.Chain (t.store.buckets.getD b 0) (Store.members t.store.buckets.size t.made b) ∧
      t.store.chain b = Store.members t.store.buckets.size t.made b
  /-- A record is in the chain of the bucket of its name and in no other one. -/
  home (a : Answer) (b : Nat) : a ∈ t.answers → b < t.store.buckets.size →
    (a.id ∈ t.store.chain b ↔ b = t.store.bucketOf (Ident.hash a.name))

/-- The table lists what has been made, and every answer is in it. -/
structure Ok (count : Nat) (t : Session) : Prop where
  table : t.store.Table t.made
  count : t.store.buckets.size = count
  answered : ∀ a ∈ t.answers, a.toBinding ∈ t.made
  first : ∀ before a after, t.answers = before ++ a :: after →
    (a.isNew = true ↔ ∀ b ∈ before, b.name ≠ a.name)

variable {t : Session} {count : Nat}

theorem made_subset {e : Binding} (he : e ∈ t.made) : ∃ a ∈ t.answers, a.toBinding = e := by
  obtain ⟨a, ha, rfl⟩ := List.mem_map.1 he
  exact ⟨a, (List.mem_filter.1 ha).1, rfl⟩

theorem Ok.mem_made (h : t.Ok count) {name : List UInt8} {id : Ident} :
    ⟨name, id⟩ ∈ t.made ↔ ∃ a ∈ t.answers, a.name = name ∧ a.id = id := by
  constructor
  · intro he
    obtain ⟨a, ha, heq⟩ := made_subset he
    exact ⟨a, ha, congrArg Binding.name heq, congrArg Binding.id heq⟩
  · rintro ⟨a, ha, rfl, rfl⟩
    exact h.answered a ha

theorem Ok.unknown_iff (h : t.Ok count) {name : List UInt8} :
    (∀ e ∈ t.made, e.name ≠ name) ↔ ∀ a ∈ t.answers, a.name ≠ name := by
  constructor
  · exact fun hnew a ha => hnew _ (h.answered a ha)
  · intro hnew e he
    obtain ⟨a, ha, rfl⟩ := made_subset he
    exact hnew a ha

/-- What is written lies between the hash and the length of a record. -/
def WritesField (f : Heap → Ident → Heap) : Prop :=
  ∀ heap (id : Ident), ∃ lo hi, Heap.SameOutside lo hi heap (f heap id) ∧
    id.offset.toNat + Ident.valueField ≤ lo ∧ hi ≤ id.offset.toNat + Ident.lengthField

theorem writesField_value (v : Value) : WritesField fun heap id => heap.setIdentValue id v :=
  fun heap id => ⟨_, _, Heap.sameOutside_setIdentValue heap id v, Nat.le_refl _,
    Nat.add_le_add_left (by decide) _⟩

theorem writesField_slot (slot : UInt8) : WritesField fun heap id => heap.setIdentSlot id slot :=
  fun heap id => ⟨_, _, Heap.sameOutside_setIdentSlot heap id slot,
    Nat.add_le_add_left (by decide) _, Nat.add_le_add_left (by decide) _⟩

theorem writesField_arguments (n : UInt8) :
    WritesField fun heap id => heap.setIdentArguments id n :=
  fun heap id => ⟨_, _, Heap.sameOutside_setIdentArguments heap id n,
    Nat.add_le_add_left (by decide) _, Nat.add_le_add_left (by decide) _⟩

/-! ### What a step keeps -/

theorem Ok.answer (h : t.Ok count) {a : Answer} {s : Store} (hcount : s.buckets.size = count)
    (htable : s.Table (⟨s, t.answers ++ [a]⟩ : Session).made)
    (ha : a.toBinding ∈ (⟨s, t.answers ++ [a]⟩ : Session).made)
    (hfirst : a.isNew = true ↔ ∀ b ∈ t.answers, b.name ≠ a.name) :
    (⟨s, t.answers ++ [a]⟩ : Session).Ok count where
  table := htable
  count := hcount
  answered := by
    intro b hb
    obtain hb | rfl : b ∈ t.answers ∨ b = a := by simpa using hb
    · have := h.answered b hb
      simp only [made, List.filter_append, List.map_append, List.mem_append] at this ⊢
      exact .inl this
    · exact ha
  first := by
    intro before b after heq
    -- Either the last answer is meant or one of those before it.
    rcases List.eq_nil_or_concat after with rfl | ⟨after, c, rfl⟩
    · obtain ⟨rfl, hb⟩ := List.append_inj' heq rfl
      cases hb
      exact hfirst
    · have heq : t.answers ++ [a] = (before ++ b :: after) ++ [c] := by simpa using heq
      exact h.first before b after (List.append_inj' heq rfl).1

theorem Ok.intern (h : t.Ok count) (name : List UInt8) : (t.step (.intern name)).Ok count := by
  simp only [Session.step]
  rcases h.table.interns name with ⟨he, hi⟩ | ⟨hnew, -, -, hi, -, -, htable, hcount⟩ |
    ⟨-, -, hi⟩ | ⟨-, -, -, hi⟩ <;> rw [hi]
  · have hmade (id : Ident) :
        (⟨t.store, t.answers ++ [⟨⟨name, id⟩, false⟩]⟩ : Session).made = t.made := by
      simp [made, List.filter_append]
    refine h.answer h.count (hmade _ ▸ h.table) (hmade _ ▸ he) ⟨nofun, fun hfirst => ?_⟩
    obtain ⟨a, ha, hname, -⟩ := h.mem_made.1 he
    exact absurd hname (hfirst a ha)
  · have hmade (id : Ident) (s : Store) :
        (⟨s, t.answers ++ [⟨⟨name, id⟩, true⟩]⟩ : Session).made = t.made ++ [⟨name, id⟩] := by
      simp [made, List.filter_append]
    exact h.answer (hcount.trans h.count) (hmade _ _ ▸ htable) (hmade _ _ ▸ by simp)
      ⟨fun _ => h.unknown_iff.1 hnew, fun _ => rfl⟩
  · exact h
  · exact h

theorem Ok.cut (h : t.Ok count) {act : Heap.Action UInt16}
    (hok : ∀ o heap, act t.store.heap = .ok o heap → Heap.Grows t.store.heap heap ∧
      heap.top ≤ heap.bytes.size ∧ heap.top ≤ Heap.addressable)
    (herror : ∀ e heap, act t.store.heap = .error e heap → heap = t.store.heap) :
    (t.cut act).Ok count := by
  simp only [Session.cut, Store.onHeap]
  rcases hact : act t.store.heap with ⟨o, heap⟩ | ⟨e, heap⟩
  · obtain ⟨hgrows, hsize, hreach⟩ := hok o heap hact
    exact ⟨h.table.grows hgrows hsize hreach, h.count, h.answered, h.first⟩
  · obtain rfl := herror e heap hact
    exact ⟨h.table, h.count, h.answered, h.first⟩

theorem Ok.write (h : t.Ok count) (answer : Nat) {f : Heap → Ident → Heap} (hf : WritesField f) :
    (t.write answer f).Ok count := by
  simp only [Session.write]
  split
  · rename_i a ha
    obtain ⟨lo, hi, hs, hlo, hhi⟩ := hf t.store.heap a.id
    have hmade := h.answered a (List.mem_of_getElem? ha)
    exact ⟨h.table.field hmade hs hlo hhi, h.count, h.answered, h.first⟩
  · exact h

theorem Ok.step (h : t.Ok count) (r : Request) : (t.step r).Ok count := by
  cases r with
  | intern name => exact h.intern name
  | alloc n =>
      refine h.cut (fun o heap ha => ?_) fun e heap ha => (Heap.alloc_error ha).1
      obtain ⟨-, rfl, hsize, hreach⟩ := Heap.alloc_ok h.table.top_le_size ha
      exact ⟨⟨Nat.le_add_right _ _, rfl, fun _ _ => rfl⟩, hsize, hreach⟩
  | allocStr data =>
      refine h.cut (fun o heap ha => ?_) fun e heap ha => (Heap.allocStr_error ha).1
      have hmade := (Heap.allocStr_made ha).1
      exact ⟨hmade.grows, hmade.size, hmade.reach⟩
  | allocArray elems =>
      refine h.cut (fun o heap ha => ?_) fun e heap ha => (Heap.allocArray_error ha).1
      have hmade := (Heap.allocArray_made ha).1
      exact ⟨hmade.grows, hmade.size, hmade.reach⟩
  | setValue answer v => exact h.write answer (writesField_value v)
  | setSlot answer slot => exact h.write answer (writesField_slot slot)
  | setArguments answer n => exact h.write answer (writesField_arguments n)

/-- Whatever is requested, the table stays in order. -/
theorem ok_run (size : Nat) (hcount : 0 < count) (requests : List Request) :
    (run size count requests).Ok count := by
  have hrun (t : Session) (h : t.Ok count) : (requests.foldl Session.step t).Ok count := by
    induction requests generalizing t with
    | nil => exact h
    | cons r requests ih => exact ih _ (h.step r)
  refine hrun _ ⟨Store.table_ofSize size hcount, Array.size_replicate, nofun, ?_⟩
  intro before a after heq
  simp at heq

/-! ### What a table in order says -/

theorem Ok.faithful (h : t.Ok count) : t.Faithful where
  known name id s := by
    -- The four outcomes: the name is known, gets a record, is too long, or finds no room.
    rcases h.table.interns name with ⟨he, hi⟩ | ⟨hnew, -, -, hi⟩ | ⟨hnew, -, hi⟩ |
      ⟨hnew, -, -, hi⟩ <;> rw [hi]
    · rw [← h.mem_made]
      constructor
      · rintro ⟨⟩
        exact ⟨rfl, he⟩
      · rintro ⟨rfl, he'⟩
        cases h.table.eq_of_name he he' rfl
        rfl
    all_goals
      refine ⟨nofun, ?_⟩
      rintro ⟨-, a, ha, hname, -⟩
      exact absurd hname (h.unknown_iff.1 hnew a ha)
  fresh name id s := by
    rcases h.table.interns name with ⟨-, hi⟩ | ⟨hnew, -, -, hi, hid, hfresh, htable, -⟩ |
      ⟨-, -, hi⟩ | ⟨-, -, -, hi⟩ <;> rw [hi]
    · nofun
    · rintro ⟨⟩
      exact ⟨h.unknown_iff.1 hnew, hid, (htable.holds ⟨name, id⟩ (by simp)).name, hfresh⟩
    · nofun
    · nofun
  refused name e s := by
    rcases h.table.interns name with ⟨he, hi⟩ | ⟨hnew, hlen, hroom, hi, -⟩ |
      ⟨hnew, hlen, hi⟩ | ⟨hnew, hlen, hroom, hi⟩ <;> rw [hi]
    · refine ⟨nofun, ?_⟩
      rintro ⟨-, ⟨hlen, -⟩ | ⟨-, hnew, -⟩⟩
      · exact absurd hlen (Nat.not_lt.2 (h.table.holds _ he).short)
      · exact absurd rfl (h.unknown_iff.2 hnew _ he)
    · refine ⟨nofun, ?_⟩
      rintro ⟨-, ⟨hlong, -⟩ | ⟨-, -, hfull, -⟩⟩
      · exact absurd hlong (Nat.not_lt.2 hlen)
      · exact absurd hfull (Nat.not_lt.2 hroom)
    · constructor
      · rintro ⟨⟩
        exact ⟨rfl, .inl ⟨hlen, rfl⟩⟩
      · rintro ⟨rfl, ⟨-, rfl⟩ | ⟨hshort, -⟩⟩
        · rfl
        · exact absurd hlen (Nat.not_lt.2 hshort)
    · constructor
      · rintro ⟨⟩
        exact ⟨rfl, .inr ⟨hlen, h.unknown_iff.1 hnew, hroom, rfl⟩⟩
      · rintro ⟨rfl, ⟨hlong, -⟩ | ⟨-, -, -, rfl⟩⟩
        · exact absurd hlong (Nat.not_lt.2 hlen)
        · rfl
  first := h.first
  injective a b ha hb := by
    have ha := h.answered a ha
    have hb := h.answered b hb
    constructor
    · intro hoffset
      exact congrArg Binding.name (h.table.eq_of_id ha hb (congrArg Ident.mk hoffset))
    · intro hname
      exact congrArg (fun e => e.id.offset) (h.table.eq_of_name ha hb hname)
  find name id := by rw [h.table.find?_eq_some, h.mem_made]
  ascending := h.table.ordered.imp fun {e e'} hle => by
    simp only [Binding.stop, Ident.nameField] at hle
    omega
  chains b hb := ⟨h.table.chains b hb, h.table.chain_eq b hb⟩
  home a b ha hb := by
    rw [h.table.chain_eq b hb, h.table.mem_members (h.answered a ha)]
    rfl

/-- Interning is a faithful map after every sequence of requests, for every size of the arena
and every number of buckets that is a power of two. -/
theorem interning_faithful (size k : Nat) (requests : List Request) :
    (run size (2 ^ k) requests).Faithful ∧
      ∀ hash, (run size (2 ^ k) requests).store.bucketOf hash = hash.toNat % 2 ^ k := by
  have h := ok_run size (Nat.two_pow_pos k) requests
  refine ⟨h.faithful, fun hash => ?_⟩
  rw [Store.bucketOf, h.count, Nat.and_two_pow_sub_one_eq_mod]

/-- One bucket, and two records of different names in its chain. -/
example : let t := run 64 1 [.intern [97], .allocArray [.int 7], .intern [98], .setSlot 1 0,
      .intern [97]]
    t.answers.map (fun a => (a.id.offset.toNat, a.isNew)) = [(2, true), (17, true), (2, false)] ∧
      (t.store.chain 0).map (·.offset.toNat) = [2, 17] := by
  decide

end Session

end CellScript
