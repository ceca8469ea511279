import CellScript.Proofs.Naming
import Mathlib.Data.List.Nodup

/-!
The table of names and its chains.

The table is a list that is threaded through the arena: the heads of the buckets and the
links in the records are sixteen-bit offsets, and zero ends a chain. Between two calls of
`Store.intern` anything else can be cut off from the arena, and the value, the slot and the
arguments of a record can be overwritten. `Store.Table` says what survives all of this. It
lists the names with their records in the order in which they were met, and says of each
bucket that its chain leads through those of its names and ends.
-/

namespace CellScript

/-- A name and the record that was made for it. -/
structure Binding where
  name : List UInt8
  id : Ident

namespace Binding

def stop (e : Binding) : Nat := e.id.offset.toNat + (Ident.nameField + e.name.length)

/-- The bucket of a name among so many. -/
def bucket (count : Nat) (e : Binding) : Nat := (Ident.hash e.name).toNat &&& (count - 1)

end Binding

namespace Heap

variable {h h' : Heap} {o : UInt16} {id : Ident} {ids : List Ident} {e : Binding}

/-- The links from an offset on lead through these records and end. -/
inductive Chain (h : Heap) : UInt16 → List Ident → Prop
  | nil : Chain h 0 []
  | cons {id : Ident} {ids : List Ident} : id.offset ≠ 0 →
      Chain h (h.word id.offset.toNat) ids → Chain h id.offset (id :: ids)

/-- The record of a name lies in the heap. -/
structure Carries (h : Heap) (e : Binding) : Prop where
  reserved_le : reserved ≤ e.id.offset.toNat
  stop_le : e.stop ≤ h.top
  short : e.name.length ≤ Ident.maxLength
  hash : h.identHash e.id = Ident.hash e.name
  name : h.identName e.id = e.name

/-! ### Chains -/

theorem Chain.congr (hc : h.Chain o ids)
    (hw : ∀ id ∈ ids, h'.word id.offset.toNat = h.word id.offset.toNat) : h'.Chain o ids := by
  induction hc with
  | nil => exact .nil
  | cons hne _ ih =>
      refine .cons hne ?_
      rw [hw _ List.mem_cons_self]
      exact ih fun id hid => hw id (List.mem_cons_of_mem _ hid)

/-- A walk along the links finds the records and stops. -/
theorem Chain.chainFrom_eq (hc : h.Chain o ids) {fuel : Nat} (hfuel : ids.length ≤ fuel) :
    h.chainFrom fuel o = ids := by
  induction hc generalizing fuel with
  | nil => rcases fuel with _ | fuel <;> rfl
  | @cons id ids hne hc ih =>
      obtain ⟨fuel, rfl⟩ : ∃ n, fuel = n + 1 := Nat.exists_eq_add_one.2 (by simp at hfuel; omega)
      rw [chainFrom, if_neg hne, ih (by simpa using hfuel)]

/-- A record is linked behind the last one. -/
theorem Chain.snoc (hc : h.Chain o ids) (hnodup : ids.Nodup) {last new : Ident}
    (hlast : ids.getLast? = some last) (hlink : h'.word last.offset.toNat = new.offset)
    (hold : ∀ id ∈ ids, id ≠ last → h'.word id.offset.toNat = h.word id.offset.toNat)
    (hne : new.offset ≠ 0) (hend : h'.word new.offset.toNat = 0) : h'.Chain o (ids ++ [new]) := by
  induction hc with
  | nil => simp at hlast
  | @cons id ids hid hc ih =>
      refine .cons hid ?_
      rcases ids with _ | ⟨id', ids⟩
      · obtain rfl : id = last := by simpa using hlast
        rw [hlink]
        exact .cons hne (hend ▸ .nil)
      · rw [List.getLast?_cons_cons] at hlast
        have hmem := List.mem_of_getLast? hlast
        have hdistinct : id ≠ last := by
          rintro rfl
          exact (List.nodup_cons.1 hnodup).1 hmem
        rw [hold id List.mem_cons_self hdistinct]
        exact ih (List.nodup_cons.1 hnodup).2 hlast
          fun id hid => hold id (List.mem_cons_of_mem _ hid)

/-! ### Records -/

theorem Carries.length (hh : h.Carries e) :
    (h.byte (e.id.offset.toNat + Ident.lengthField)).toNat = e.name.length := by
  have := congrArg List.length hh.name
  simpa [identName, slice] using this

/-- The hash, the length and the name of a record are all that is looked at. -/
theorem Carries.congr (hh : h.Carries e) (htop : h.top ≤ h'.top)
    (hbyte : ∀ j, e.id.offset.toNat + Ident.hashField ≤ j → j < e.stop →
      j < e.id.offset.toNat + Ident.valueField ∨ e.id.offset.toNat + Ident.lengthField ≤ j →
      h'.byte j = h.byte j) :
    h'.Carries e := by
  have hstop : e.stop = e.id.offset.toNat + 10 + e.name.length := by
    simp [Binding.stop, Ident.nameField, Nat.add_assoc]
  simp only [Ident.hashField, Ident.valueField, Ident.lengthField] at hbyte
  refine ⟨hh.reserved_le, Nat.le_trans hh.stop_le htop, hh.short, ?_, ?_⟩
  · rw [← hh.hash]
    simp only [identHash, word, Ident.hashField]
    rw [hbyte _ (Nat.le_refl _) (by omega) (by omega), hbyte _ (by omega) (by omega) (by omega)]
  · have hlength := hh.length
    rw [← hh.name]
    simp only [identName, Ident.lengthField, Ident.nameField] at hlength ⊢
    rw [hbyte _ (by omega) (by omega) (.inr (Nat.le_refl _))]
    exact slice_congr fun k hk => hbyte _ (by omega) (by omega) (.inr (by omega))

theorem Carries.isNamed_iff (hh : h.Carries e) {name : List UInt8} :
    h.isNamed name e.id = true ↔ e.name = name := by
  simp only [isNamed, Bool.and_eq_true, beq_iff_eq, hh.hash, hh.name]
  constructor
  · exact And.right
  · rintro rfl
    exact ⟨rfl, rfl⟩

end Heap

namespace Store

variable {s : Store} {es : List Binding} {e e' : Binding}

/-- The records of a bucket. -/
def members (count : Nat) (es : List Binding) (b : Nat) : List Ident :=
  (es.filter fun e => e.bucket count == b).map Binding.id

theorem members_snoc (count : Nat) (es : List Binding) (e : Binding) (b : Nat) :
    members count (es ++ [e]) b =
      members count es b ++ if e.bucket count = b then [e.id] else [] := by
  by_cases h : e.bucket count = b <;> simp [members, List.filter_append, h]

/-- The names that have been met, in this order, and the chains of their records. -/
structure Table (s : Store) (es : List Binding) : Prop where
  top_le_size : s.heap.top ≤ s.heap.bytes.size
  top_le : s.heap.top ≤ Heap.addressable
  reserved_le : Heap.reserved ≤ s.heap.top
  bucketed : 0 < s.buckets.size
  holds : ∀ e ∈ es, s.heap.Carries e
  ordered : es.Pairwise fun e e' => e.stop ≤ e'.id.offset.toNat
  distinct : (es.map Binding.name).Nodup
  chains : ∀ b < s.buckets.size,
    s.heap.Chain (s.buckets.getD b 0) (members s.buckets.size es b)

theorem table_ofSize (size : Nat) {count : Nat} (hcount : 0 < count) :
    (Store.ofSize size count).Table [] where
  top_le_size := (Ledger.ofSize size).top_le_size
  top_le := (Ledger.ofSize size).top_le
  reserved_le := Nat.le_refl _
  bucketed := by simpa [ofSize] using hcount
  holds := by simp
  ordered := .nil
  distinct := .nil
  chains b hb := by
    have hempty : (ofSize size count).buckets.getD b 0 = 0 := by
      simp only [ofSize, Array.getD_eq_getD_getElem?, Array.getElem?_replicate]
      split <;> rfl
    rw [hempty]
    exact .nil

namespace Table

variable (ht : s.Table es)

include ht

/-! ### Reading the table -/

theorem apart (he : e ∈ es) (he' : e' ∈ es) :
    e = e' ∨ e.stop ≤ e'.id.offset.toNat ∨ e'.stop ≤ e.id.offset.toNat := by
  have hup := ht.ordered.imp fun {e e'} h =>
    (.inr (.inl h) : e = e' ∨ e.stop ≤ e'.id.offset.toNat ∨ e'.stop ≤ e.id.offset.toNat)
  exact hup.forall_of_forall_of_flip (fun _ _ => .inl rfl)
    (ht.ordered.imp fun h => .inr (.inr h)) he he'

theorem eq_of_id (he : e ∈ es) (he' : e' ∈ es) (hid : e.id = e'.id) : e = e' := by
  have hstart : e.id.offset.toNat = e'.id.offset.toNat := congrArg (fun id => id.offset.toNat) hid
  rcases ht.apart he he' with heq | h | h
  · exact heq
  all_goals
    simp only [Binding.stop, Ident.nameField] at h
    omega

theorem eq_of_name (he : e ∈ es) (he' : e' ∈ es) (hname : e.name = e'.name) : e = e' :=
  List.inj_on_of_nodup_map ht.distinct he he' hname

/-- The arena has room for every chain. -/
theorem length_le : es.length ≤ s.heap.top := by
  -- Each record begins at least one byte above the ones before it.
  have hbound (es : List Binding) (lo : Nat) (hlo : lo ≤ s.heap.top)
      (hes : es.Pairwise fun e e' => e.stop ≤ e'.id.offset.toNat)
      (hin : ∀ e ∈ es, lo ≤ e.id.offset.toNat ∧ e.stop ≤ s.heap.top) :
      lo + es.length ≤ s.heap.top := by
    induction es generalizing lo with
    | nil => simpa using hlo
    | cons e es ih =>
        obtain ⟨hfirst, hrest⟩ := List.pairwise_cons.1 hes
        obtain ⟨hstart, hstop⟩ := hin e List.mem_cons_self
        simp only [Binding.stop, Ident.nameField] at hfirst hstop
        have := ih (e.id.offset.toNat + 1) (by omega) hrest fun e' he' =>
          ⟨by have := hfirst e' he'; omega, (hin e' (List.mem_cons_of_mem _ he')).2⟩
        rw [List.length_cons]
        omega
  have := hbound es 0 (Nat.zero_le _) ht.ordered fun e he =>
    ⟨Nat.zero_le _, (ht.holds e he).stop_le⟩
  omega

theorem length_members (b : Nat) : (members s.buckets.size es b).length ≤ s.heap.top := by
  rw [members, List.length_map]
  exact Nat.le_trans (List.length_filter_le _ _) ht.length_le

theorem mem_members (he : e ∈ es) {b : Nat} :
    e.id ∈ members s.buckets.size es b ↔ b = e.bucket s.buckets.size := by
  simp only [members, List.mem_map, List.mem_filter, beq_iff_eq]
  constructor
  · rintro ⟨e', ⟨he', rfl⟩, hid⟩
    rw [ht.eq_of_id he' he hid]
  · rintro rfl
    exact ⟨e, ⟨he, rfl⟩, rfl⟩

theorem chain_eq (b : Nat) (hb : b < s.buckets.size) :
    s.chain b = members s.buckets.size es b :=
  (ht.chains b hb).chainFrom_eq (ht.length_members b)

theorem nodup_members (b : Nat) : (members s.buckets.size es b).Nodup := by
  refine List.Nodup.map_on ?_ ((List.Nodup.of_map _ ht.distinct).filter _)
  intro e he e' he' hid
  exact ht.eq_of_id (List.mem_filter.1 he).1 (List.mem_filter.1 he').1 hid

theorem bucketOf_lt (hash : UInt16) : s.bucketOf hash < s.buckets.size :=
  Store.bucketOf_lt ht.bucketed hash

/-- A name is found exactly if it has been met. -/
theorem find?_eq_some {name : List UInt8} {id : Ident} :
    s.find? name = some id ↔ ⟨name, id⟩ ∈ es := by
  have hchain := ht.chain_eq _ (ht.bucketOf_lt (Ident.hash name))
  have hfound {id : Ident} (hf : s.find? name = some id) : ⟨name, id⟩ ∈ es := by
    have hmem := List.mem_of_find?_eq_some hf
    rw [hchain] at hmem
    obtain ⟨e, hfilter, rfl⟩ := List.mem_map.1 hmem
    have he := (List.mem_filter.1 hfilter).1
    obtain rfl := (ht.holds e he).isNamed_iff.1 (List.find?_some hf)
    exact he
  refine ⟨hfound, fun he => ?_⟩
  have hmem : id ∈ s.chain (s.bucketOf (Ident.hash name)) := by
    rw [hchain]
    exact (ht.mem_members he).2 rfl
  have hsome : (s.find? name).isSome := List.find?_isSome.2
    ⟨id, hmem, (ht.holds _ he).isNamed_iff.2 rfl⟩
  obtain ⟨id', hf⟩ := Option.isSome_iff_exists.1 hsome
  have hsame : id' = id := congrArg Binding.id (ht.eq_of_name (hfound hf) he rfl)
  rw [hf, hsame]

theorem find?_eq_none {name : List UInt8} : s.find? name = none ↔ ∀ e ∈ es, e.name ≠ name := by
  rw [Option.eq_none_iff_forall_ne_some]
  constructor
  · rintro h e he rfl
    exact h e.id (ht.find?_eq_some.2 he)
  · intro h id hf
    exact h _ (ht.find?_eq_some.1 hf) rfl

/-! ### Other changes of the heap -/

/-- The table stays if only values, slots and arguments are overwritten, and the top goes up. -/
theorem keep {heap : Heap} (htop : s.heap.top ≤ heap.top) (hsize : heap.top ≤ heap.bytes.size)
    (hreach : heap.top ≤ Heap.addressable)
    (hbyte : ∀ e ∈ es, ∀ j, e.id.offset.toNat ≤ j → j < e.stop →
      j < e.id.offset.toNat + Ident.valueField ∨ e.id.offset.toNat + Ident.lengthField ≤ j →
        heap.byte j = s.heap.byte j) :
    ({ s with heap } : Store).Table es where
  top_le_size := hsize
  top_le := hreach
  reserved_le := Nat.le_trans ht.reserved_le htop
  bucketed := ht.bucketed
  holds e he := (ht.holds e he).congr htop fun j hj => hbyte e he j (Nat.le_of_add_right_le hj)
  ordered := ht.ordered
  distinct := ht.distinct
  chains b hb := by
    refine (ht.chains b hb).congr fun id hid => ?_
    obtain ⟨e, he, rfl⟩ := List.mem_map.1 hid
    have hbyte := hbyte e (List.mem_filter.1 he).1
    simp only [Binding.stop, Ident.nameField, Ident.valueField] at hbyte
    simp only [Heap.word]
    rw [hbyte _ (Nat.le_refl _) (by omega) (by omega), hbyte _ (by omega) (by omega) (by omega)]

theorem grows {heap : Heap} (hg : Heap.Grows s.heap heap) (hsize : heap.top ≤ heap.bytes.size)
    (hreach : heap.top ≤ Heap.addressable) : ({ s with heap } : Store).Table es :=
  ht.keep hg.top hsize hreach fun e he j _ hj _ =>
    hg.byte j (Nat.lt_of_lt_of_le hj (ht.holds e he).stop_le)

/-- Fields of one record are overwritten, between its hash and its length. -/
theorem field {heap : Heap} {lo hi : Nat} (he : e ∈ es) (hs : Heap.SameOutside lo hi s.heap heap)
    (hlo : e.id.offset.toNat + Ident.valueField ≤ lo)
    (hhi : hi ≤ e.id.offset.toNat + Ident.lengthField) : ({ s with heap } : Store).Table es := by
  refine ht.keep (Nat.le_of_eq hs.top.symm) (by rw [hs.top, hs.size]; exact ht.top_le_size)
    (by rw [hs.top]; exact ht.top_le) fun e' he' j hj hj' hfield => hs.byte j ?_
  simp only [Ident.valueField, Ident.lengthField] at hlo hhi hfield
  rcases ht.apart he he' with rfl | h | h
  · omega
  all_goals
    simp only [Binding.stop, Ident.nameField] at h hj'
    omega

/-! ### New records -/

/-- Linking a record writes into the link of one record at most. -/
theorem byte_link {b : Nat} (hb : b < s.buckets.size) (new : Ident) (he : e ∈ es) {j : Nat}
    (hj : e.id.offset.toNat + Ident.hashField ≤ j) (hj' : j < e.stop) :
    (s.link b new).heap.byte j = s.heap.byte j := by
  obtain hheap | ⟨last, hlast, hheap⟩ := s.heap_link b new
  · rw [hheap]
  · rw [ht.chain_eq b hb] at hlast
    obtain ⟨e', hmem, rfl⟩ := List.mem_map.1 hlast
    rw [hheap]
    have hs := Heap.sameOutside_setWord s.heap e'.id.offset.toNat new.offset
    refine hs.byte j ?_
    simp only [Ident.hashField] at hj
    rcases ht.apart (List.mem_filter.1 hmem).1 he with rfl | h | h
    · omega
    all_goals
      simp only [Binding.stop, Ident.nameField] at h hj'
      omega

/-- The chains behind a link to a record that ends its own. -/
theorem chains_link {b : Nat} (hb : b < s.buckets.size) {new : Ident} (hne : new.offset ≠ 0)
    {heap : Heap} (hwords : ∀ e ∈ es, heap.word e.id.offset.toNat =
      (s.link b new).heap.word e.id.offset.toNat) (hend : heap.word new.offset.toNat = 0) (b' : Nat)
    (hb' : b' < s.buckets.size) : heap.Chain ((s.link b new).buckets.getD b' 0)
      (members s.buckets.size es b' ++ if b = b' then [new] else []) := by
  have hmem {b : Nat} {id : Ident} (hid : id ∈ members s.buckets.size es b) :
      ∃ e ∈ es, e.id = id ∧ e.bucket s.buckets.size = b := by
    obtain ⟨e, he, rfl⟩ := List.mem_map.1 hid
    obtain ⟨he, hbucket⟩ := List.mem_filter.1 he
    exact ⟨e, he, rfl, beq_iff_eq.1 hbucket⟩
  rcases hlast : (members s.buckets.size es b).getLast? with _ | last
  · -- The bucket is empty and gets the record as its head.
    have hlink : s.link b new =
        { s with buckets := s.buckets.setIfInBounds b new.offset } := by
      rw [Store.link, ht.chain_eq b hb, hlast]
    rw [hlink] at hwords ⊢
    simp only [Array.getD_eq_getD_getElem?, Array.getElem?_setIfInBounds]
    by_cases heq : b = b'
    · subst heq
      rw [if_pos rfl, if_pos rfl, if_pos hb, List.getLast?_eq_none_iff.1 hlast]
      exact .cons hne (hend ▸ .nil)
    · rw [if_neg heq, if_neg heq, List.append_nil, ← Array.getD_eq_getD_getElem?]
      refine (ht.chains b' hb').congr fun id hid => ?_
      obtain ⟨e, he, rfl, -⟩ := hmem hid
      exact hwords e he
  · have hlink : s.link b new =
        { s with heap := s.heap.setWord last.offset.toNat new.offset } := by
      rw [Store.link, ht.chain_eq b hb, hlast]
    rw [hlink] at hwords ⊢
    obtain ⟨elast, helast, rfl, hbucket⟩ := hmem (List.mem_of_getLast? hlast)
    have hs := Heap.sameOutside_setWord s.heap elast.id.offset.toNat new.offset
    have hword : heap.word elast.id.offset.toNat = new.offset := by
      rw [hwords elast helast]
      have hstop := (ht.holds elast helast).stop_le
      have := ht.top_le_size
      simp only [Binding.stop, Ident.nameField] at hstop
      exact Heap.word_write (by omega)
    have hold {e : Binding} (he : e ∈ es) (hdistinct : e.id ≠ elast.id) :
        heap.word e.id.offset.toNat = s.heap.word e.id.offset.toNat := by
      rw [hwords e he]
      refine hs.word ?_
      rcases ht.apart he helast with rfl | h | h
      · exact absurd rfl hdistinct
      all_goals
        simp only [Binding.stop, Ident.nameField] at h
        omega
    by_cases heq : b = b'
    · subst heq
      rw [if_pos rfl]
      refine (ht.chains b hb).snoc (ht.nodup_members b) hlast hword (fun id hid hdistinct => ?_)
        hne hend
      obtain ⟨e, he, rfl, -⟩ := hmem hid
      exact hold he hdistinct
    · -- The record that is written to is in no other chain.
      rw [if_neg heq, List.append_nil]
      refine (ht.chains b' hb').congr fun id hid => ?_
      obtain ⟨e, he, rfl, hb'⟩ := hmem hid
      refine hold he fun hid => heq ?_
      rw [← hb', ht.eq_of_id he helast hid, hbucket]

end Table

theorem size_buckets_link (s : Store) (b : Nat) (id : Ident) :
    (s.link b id).buckets.size = s.buckets.size := by
  unfold link
  split
  · simp
  · rfl

theorem identHash_fresh {g : Heap} {id : Ident} {name : List UInt8}
    (hs : id.offset.toNat + Ident.nameField + name.length ≤ g.bytes.size) :
    (g.write id.offset.toNat (Heap.identRecord name)).identHash id = Ident.hash name := by
  simp only [Ident.nameField] at hs
  have hbyte (k : Nat) (hk : k < (Heap.identRecord name).length) :=
    Heap.byte_write_inside (h := g) (i := id.offset.toNat) hk (by
      rw [identRecord_eq] at hk
      simp only [List.length_cons] at hk
      omega)
  simp only [identRecord_eq] at hbyte ⊢
  have h₂ := hbyte 2 (by simp)
  have h₃ := hbyte 3 (by simp)
  simp only [List.getElem_cons_succ, List.getElem_cons_zero] at h₂ h₃
  simp only [Heap.identHash, Heap.word, Ident.hashField, Nat.add_assoc, h₂, h₃, Word.ofBytes_hi_lo]

/-- A fresh record on top of the others, in front of which it has been linked. -/
theorem Table.add (ht : s.Table es) {name : List UInt8} {id : Ident}
    (hlen : name.length ≤ Ident.maxLength) (hnew : ∀ e ∈ es, e.name ≠ name)
    (hstart : ∀ e ∈ es, e.stop ≤ id.offset.toNat) (hreserved : Heap.reserved ≤ id.offset.toNat)
    (htop : (Binding.mk name id).stop = s.heap.top) {g s' : Store}
    (hg : s.link (s.bucketOf (Ident.hash name)) id = g)
    (hs' : s' = { g with heap := g.heap.write id.offset.toNat (Heap.identRecord name) }) :
    s'.Table (es ++ [⟨name, id⟩]) ∧ s'.heap.entry id = .fresh ∧
      s'.buckets.size = s.buckets.size := by
  have hheap : g.heap.write id.offset.toNat (Heap.identRecord name) = s'.heap := by rw [hs']
  have hbuckets : s'.buckets = (s.link (s.bucketOf (Ident.hash name)) id).buckets := by
    rw [hs', ← hg]
  have hcount : s'.buckets.size = s.buckets.size := by rw [hbuckets, size_buckets_link]
  have hbucket := ht.bucketOf_lt (Ident.hash name)
  have hgtop : g.heap.top = s.heap.top := by rw [← hg, top_link]
  have hgsize : g.heap.bytes.size = s.heap.bytes.size := by rw [← hg, size_link]
  have hsize : id.offset.toNat + Ident.nameField + name.length ≤ g.heap.bytes.size := by
    have := ht.top_le_size
    simp only [Binding.stop] at htop
    omega
  obtain ⟨hlink, hfresh, -⟩ := fresh_record name hsize
  have hne : id.offset ≠ 0 := by
    intro hz
    rw [hz] at hreserved
    exact absurd hreserved (by decide)
  have hhash := identHash_fresh hsize
  have hname := identName_fresh hlen hsize
  rw [hheap] at hlink hfresh hhash hname
  refine ⟨?_, hfresh id rfl, hcount⟩
  have hheaptop : s'.heap.top = s.heap.top := by rw [← hheap, Heap.top_write, hgtop]
  -- Below the record, only links can differ.
  have hbelow {j : Nat} (hj : j < id.offset.toNat) : s'.heap.byte j = g.heap.byte j := by
    rw [← hheap]
    exact Heap.byte_write_outside (.inl hj)
  have hbyte {e : Binding} (he : e ∈ es) {j : Nat} (hj : e.id.offset.toNat + Ident.hashField ≤ j)
      (hj' : j < e.stop) : s'.heap.byte j = s.heap.byte j := by
    rw [hbelow (Nat.lt_of_lt_of_le hj' (hstart e he)), ← hg]
    exact ht.byte_link hbucket id he hj hj'
  have hwords : ∀ e ∈ es, s'.heap.word e.id.offset.toNat =
      (s.link (s.bucketOf (Ident.hash name)) id).heap.word e.id.offset.toNat := by
    intro e he
    have := hstart e he
    simp only [Binding.stop, Ident.nameField] at this
    rw [hg, Heap.word, Heap.word, hbelow (by omega), hbelow (by omega)]
  refine
    { top_le_size := ?_, top_le := ?_, reserved_le := ?_, bucketed := ?_, holds := ?_,
      ordered := ?_, distinct := ?_, chains := ?_ }
  · rw [hheaptop, ← hheap, Heap.size_write, hgsize]
    exact ht.top_le_size
  · rw [hheaptop]
    exact ht.top_le
  · rw [hheaptop]
    exact ht.reserved_le
  · rw [hcount]
    exact ht.bucketed
  · intro e he
    obtain he | rfl : e ∈ es ∨ e = ⟨name, id⟩ := by simpa using he
    · exact (ht.holds e he).congr (Nat.le_of_eq hheaptop.symm) fun j hj hj' _ => hbyte he hj hj'
    · exact ⟨hreserved, Nat.le_of_eq (htop.trans hheaptop.symm), hlen, hhash, hname⟩
  · refine List.pairwise_append.2 ⟨ht.ordered, List.pairwise_singleton _ _, fun e he e' he' => ?_⟩
    rw [List.mem_singleton.1 he']
    exact hstart e he
  · rw [List.map_append]
    refine List.Nodup.append ht.distinct (List.nodup_singleton _) ?_
    simpa using hnew
  · intro b hb
    rw [hcount] at hb
    rw [hcount, members_snoc, hbuckets]
    exact ht.chains_link hbucket hne hwords hlink b hb

/-- What interning can do. -/
inductive Interns (s : Store) (es : List Binding) (name : List UInt8) : Prop
  | known {id : Ident} : ⟨name, id⟩ ∈ es → Store.intern name s = .ok (id, false) s →
      Interns s es name
  | fresh {id : Ident} {s' : Store} : (∀ e ∈ es, e.name ≠ name) →
      name.length ≤ Ident.maxLength → Ident.nameField + name.length ≤
        min s.heap.bytes.size Heap.addressable - s.heap.top →
      Store.intern name s = .ok (id, true) s' → id.offset.toNat = s.heap.top →
      s'.heap.entry id = .fresh → s'.Table (es ++ [⟨name, id⟩]) →
      s'.buckets.size = s.buckets.size → Interns s es name
  | long : (∀ e ∈ es, e.name ≠ name) → Ident.maxLength < name.length → Store.intern name s =
      .error (.recordTooLarge name.length Ident.maxLength) s → Interns s es name
  | full : (∀ e ∈ es, e.name ≠ name) → name.length ≤ Ident.maxLength →
      min s.heap.bytes.size Heap.addressable - s.heap.top < Ident.nameField + name.length →
      Store.intern name s = .error (.exhausted (Ident.nameField + name.length)
        (min s.heap.bytes.size Heap.addressable - s.heap.top)) s → Interns s es name

theorem Table.interns (ht : s.Table es) (name : List UInt8) : Interns s es name := by
  have hi := interned s name
  generalize hr : Store.intern name s = r at hi
  cases hi with
  | known hlen hf => exact .known (ht.find?_eq_some.1 hf) hr
  | @fresh id hlen hf ho hsize hreach =>
      have hnew := ht.find?_eq_none.1 hf
      have hcut : (s.withTop (s.heap.top + (Ident.nameField + name.length))).Table es :=
        ht.grows ⟨Nat.le_add_right _ _, rfl, fun _ _ => rfl⟩ hsize hreach
      obtain ⟨htable, hfresh, hcount⟩ := hcut.add hlen hnew
        (fun e he => by rw [ho]; exact (ht.holds e he).stop_le) (by rw [ho]; exact ht.reserved_le)
        (by rw [Binding.stop, ho]; rfl) rfl rfl
      exact .fresh hnew hlen (by omega) hr ho hfresh htable hcount
  | long hlen =>
      refine .long (fun e he hname => ?_) hlen hr
      exact absurd hlen (Nat.not_lt.2 (hname ▸ (ht.holds e he).short))
  | full hlen hf hroom => exact .full (ht.find?_eq_none.1 hf) hlen hroom hr

end Store

end CellScript
