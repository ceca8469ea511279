import CellScript.SourceMap

/-!
What bisection finds.

Bisection looks at a few entries of a table only. It finds the right one because
the tables are in order: the entries at or before some offset come first. For a
table of line starts this is the case by construction. A source map stays in
order because code is only ever appended, so what is entered is entered at the end;
an entry at the same offset is replaced.
-/

namespace CellScript

/-! ### Bisection -/

/-- The range keeps the last index that satisfies the test, and ends there. -/
theorem bisectFrom_eq {p : Nat → Bool} {fuel base size last : Nat} (hfuel : size ≤ fuel)
    (hlow : base ≤ last) (hhigh : last < base + size) (hyes : ∀ i ≤ last, p i = true)
    (hno : ∀ i, last < i → i < base + size → p i = false) : bisectFrom p fuel base size = last := by
  induction fuel generalizing base size with
  | zero => omega
  | succ fuel ih =>
      rw [bisectFrom]
      split
      · omega
      · rename_i hsize
        by_cases hhalf : base + size / 2 ≤ last
        · simp only [hyes _ hhalf, if_true]
          exact ih (by omega) hhalf (by omega) fun i h h' => hno i h (by omega)
        · have hp := hno (base + size / 2) (by omega) (by omega)
          simp only [hp, Bool.false_eq_true, if_false]
          exact ih (by omega) hlow (by omega) fun i h h' => hno i h (by omega)

theorem bisectFrom_eq_base {p : Nat → Bool} {fuel base size : Nat}
    (hno : ∀ i, base ≤ i → i < base + size → p i = false) : bisectFrom p fuel base size = base := by
  induction fuel generalizing size with
  | zero => rfl
  | succ fuel ih =>
      rw [bisectFrom]
      split
      · rfl
      · have hp := hno (base + size / 2) (by omega) (by omega)
        simp only [hp, Bool.false_eq_true, if_false]
        exact ih fun i h h' => hno i h (by omega)

/-- The leading indices that satisfy the test are counted. -/
theorem bisect_eq {p : Nat → Bool} {n k : Nat} (hk : k ≤ n) (hyes : ∀ i < k, p i = true)
    (hno : ∀ i, k ≤ i → i < n → p i = false) : bisect p n = k := by
  unfold bisect
  split
  · omega
  · rename_i hn
    cases k with
    | zero =>
        rw [bisectFrom_eq_base fun i _ h => hno i (Nat.zero_le i) (by omega)]
        simp [hno 0 (Nat.le_refl 0) (by omega)]
    | succ k =>
        rw [bisectFrom_eq (Nat.le_refl n) (Nat.zero_le k) (by omega)
          (fun i h => hyes i (by omega)) fun i h h' => hno i h (by omega)]
        simp [hyes k (by omega)]

/-- Where the entries that pass a test come first, they are counted. -/
theorem bisect_append {α : Type} {q : α → Bool} {front back : List α} (d : α)
    (hfront : ∀ a ∈ front, q a = true) (hback : ∀ a ∈ back, q a = false) :
    bisect (fun i => q ((front ++ back).getD i d)) (front ++ back).length = front.length := by
  refine bisect_eq (by simp) (fun i hi => hfront _ ?_) fun i hi hlt => hback _ ?_
  · simp [List.getD, List.getElem?_append_left hi, hi]
  · rw [List.length_append] at hlt
    have hback : i - front.length < back.length := by omega
    simp [List.getD, List.getElem?_append_right hi, hback]

/-- The search ends at the last key that is not past the target: it is the target, or the target
would be put in behind it. -/
theorem binarySearch_eq {key : Nat → Nat} {n k target : Nat} (hk : k < n)
    (hle : ∀ i ≤ k, key i ≤ target) (hlt : ∀ i, k < i → i < n → target < key i) :
    binarySearch key n target = if key k = target then .ok k else .error (k + 1) := by
  have hbase : bisectFrom (fun i => key i ≤ target) n 0 n = k := by
    refine bisectFrom_eq (Nat.le_refl n) (Nat.zero_le _) (by omega)
      (fun i hi => decide_eq_true (hle i hi)) fun i hi hn => ?_
    exact decide_eq_false (Nat.not_le.2 (hlt i hi (by omega)))
  simp only [binarySearch, hbase, if_neg (Nat.ne_zero_of_lt hk)]
  split
  · rfl
  · rename_i hne
    rw [if_pos (Nat.lt_of_le_of_ne (hle k (Nat.le_refl _)) hne)]

theorem exists_split {α : Type} {q : α → Bool} {xs : List α}
    (h : xs.Pairwise fun a b => q b = true → q a = true) :
    ∃ front back, xs = front ++ back ∧ (∀ a ∈ front, q a = true) ∧ ∀ b ∈ back, q b = false := by
  induction h with
  | nil => exact ⟨[], [], rfl, by simp, by simp⟩
  | @cons a xs ha _ ih =>
      by_cases hq : q a = true
      · obtain ⟨front, back, rfl, hfront, hback⟩ := ih
        exact ⟨a :: front, back, rfl, by simpa [hq] using hfront, hback⟩
      · refine ⟨[], a :: xs, rfl, by simp, fun b hb => ?_⟩
        obtain rfl | hb := List.mem_cons.1 hb
        · simpa using hq
        · simpa using fun hqb => hq (ha b hb hqb)

/-! ### Lines and columns -/

namespace Source

theorem lt_of_mem_startsAfter {offset n : Nat} {bs : List UInt8} (h : n ∈ startsAfter offset bs) :
    offset < n := by
  induction bs generalizing offset with
  | nil => simp [startsAfter] at h
  | cons b bs ih =>
      rw [startsAfter] at h
      split at h
      · obtain rfl | h := List.mem_cons.1 h
        · omega
        · exact Nat.lt_of_succ_lt (ih h)
      · exact Nat.lt_of_succ_lt (ih h)

theorem startsAfter_append (offset : Nat) (bs bs' : List UInt8) :
    startsAfter offset (bs ++ bs') =
      startsAfter offset bs ++ startsAfter (offset + bs.length) bs' := by
  induction bs generalizing offset with
  | nil => simp [startsAfter]
  | cons b bs ih =>
      simp only [List.cons_append, startsAfter, ih, List.length_cons, Nat.add_right_comm offset 1,
        ← Nat.add_assoc]
      split <;> rfl

theorem pairwise_startsAfter (offset : Nat) (bs : List UInt8) :
    (startsAfter offset bs).Pairwise (· < ·) := by
  induction bs generalizing offset with
  | nil => exact .nil
  | cons b bs ih =>
      rw [startsAfter]
      split
      · exact .cons (fun n hn => lt_of_mem_startsAfter hn) (ih _)
      · exact ih _

/-- The line of an offset is the number of lines that begin at or before it. -/
theorem position_eq {s : Source} {front back : List Nat} {offset : Nat}
    (hs : s.lineStarts.toList = front ++ back) (hoffset : offset ≤ s.size)
    (hfront : ∀ n ∈ front, n ≤ offset) (hback : ∀ n ∈ back, offset < n) (hne : front ≠ []) :
    s.position offset = (.ofNat front.length, .ofNat (offset - front.getLast hne + 1)) := by
  have hpos := List.length_pos_iff.2 hne
  have hsize : s.lineCount = front.length + back.length := by
    rw [lineCount, ← Array.length_toList, hs, List.length_append]
  have hget (i : Nat) : s.lineStarts.getD i 0 = (front ++ back).getD i 0 := by
    rw [← hs]
    simp [List.getD, Array.getD_eq_getD_getElem?]
  have hlow (i : Nat) (hi : i < front.length) : s.lineStarts.getD i 0 = front[i] := by
    rw [hget, List.getD_eq_getElem?_getD, List.getElem?_append_left hi, List.getElem?_eq_getElem hi,
      Option.getD_some]
  have hhigh (i : Nat) (hi : front.length ≤ i) (hlt : i - front.length < back.length) :
      s.lineStarts.getD i 0 = back[i - front.length] := by
    rw [hget, List.getD_eq_getElem?_getD, List.getElem?_append_right hi,
      List.getElem?_eq_getElem hlt, Option.getD_some]
  have hindex : s.lineIndex offset = front.length - 1 := by
    rw [lineIndex, binarySearch_eq (k := front.length - 1) (by omega)
      (fun i hi => by rw [hlow i (by omega)]; exact hfront _ (List.getElem_mem _))
      (fun i hi hlt => by
        rw [hhigh i (by omega) (by omega)]
        exact hback _ (List.getElem_mem _))]
    -- A hit and a miss mean the same line.
    split <;> rename_i h <;> split at h <;> cases h <;> rfl
  have hlast : s.lineStarts.getD (front.length - 1) 0 = front.getLast hne := by
    rw [hlow _ (by omega), List.getLast_eq_getElem]
  have hadd (n : Nat) : UInt32.ofNat n + 1 = .ofNat (n + 1) := (UInt32.ofNat_add n 1).symm
  simp only [position, Nat.min_eq_left hoffset, hindex, hlast, hadd, Nat.sub_add_cancel hpos]

theorem position_append (name name' : String) {bs : List UInt8} (bs' : List UInt8) {offset : Nat}
    (h : offset ≤ bs.length) :
    (ofBytes name' (bs ++ bs')).position offset = (ofBytes name bs).position offset := by
  have hordered : (0 :: startsAfter 0 bs).Pairwise fun a b =>
      decide (b ≤ offset) = true → decide (a ≤ offset) = true := by
    refine List.Pairwise.imp (fun {a b} hab hb => ?_)
      (List.Pairwise.cons (fun n hn => lt_of_mem_startsAfter hn) (pairwise_startsAfter 0 bs))
    exact decide_eq_true (Nat.le_trans (Nat.le_of_lt hab) (of_decide_eq_true hb))
  obtain ⟨front, back, hsplit, hfront, hback⟩ := exists_split hordered
  simp only [decide_eq_true_eq, decide_eq_false_iff_not, Nat.not_le] at hfront hback
  have hne : front ≠ [] := by
    rintro rfl
    have hzero : 0 ∈ back := by rw [← List.nil_append back, ← hsplit]; exact List.mem_cons_self
    exact absurd (hback 0 hzero) (Nat.not_lt_zero _)
  rw [position_eq (s := ofBytes name bs) hsplit (by simpa [ofBytes, size] using h) hfront hback hne]
  have hsplit' : (ofBytes name' (bs ++ bs')).lineStarts.toList =
      front ++ (back ++ startsAfter bs.length bs') := by
    rw [← List.append_assoc, ← hsplit]
    simp [ofBytes, startsAfter_append]
  refine position_eq hsplit' ?_ hfront ?_ hne
  · simp only [ofBytes, size, List.size_toArray, List.length_append]
    omega
  · intro n hn
    obtain hn | hn := List.mem_append.1 hn
    · exact hback n hn
    · exact Nat.lt_of_le_of_lt h (lt_of_mem_startsAfter hn)

theorem span_append {name name' : String} {bs bs' : List UInt8} {start stop : Nat}
    (hstart : start ≤ bs.length) (hstop : stop ≤ bs.length) :
    (ofBytes name' (bs ++ bs')).span start stop = (ofBytes name bs).span start stop := by
  simp only [span, position_append name name' bs' hstart,
    position_append name name' bs' (Nat.max_le.2 ⟨hstart, hstop⟩)]

end Source

/-! ### Source maps -/

namespace SourceMap

/-- Where the code of the statements begins. -/
def offsets (m : SourceMap) : List Nat := m.entries.toList.map MapEntry.offset

theorem offsets_push (m : SourceMap) (offset : Nat) (span : Span) :
    (m.push offset span).offsets =
      if m.offsets.getLast? = some offset then m.offsets else m.offsets ++ [offset] := by
  obtain ⟨⟨entries⟩⟩ := m
  obtain rfl | ⟨entries, last, rfl⟩ := entries.eq_nil_or_concat
  · simp [push, offsets]
  · by_cases hlast : last.offset = offset
    · simp [push, offsets, hlast]
    · simp [push, offsets, hlast]

/-- The entries are in order, each at an offset of its own, and none behind `n`. -/
structure Ordered (m : SourceMap) (n : Nat) : Prop where
  increasing : m.entries.toList.Pairwise fun e e' => e.offset < e'.offset
  bounded : ∀ e ∈ m.entries.toList, e.offset ≤ n

theorem ordered_empty (n : Nat) : empty.Ordered n := ⟨.nil, by simp [empty]⟩

variable {m : SourceMap} {n pc : Nat} {span : Span}

theorem Ordered.mono {n' : Nat} (h : m.Ordered n) (hn : n ≤ n') : m.Ordered n' :=
  ⟨h.increasing, fun e he => Nat.le_trans (h.bounded e he) hn⟩

/-- The last of the entries at or before an address is found. -/
theorem lookup?_append {front back : List MapEntry} (hm : m.entries.toList = front ++ back)
    (hfront : ∀ e ∈ front, e.offset ≤ pc) (hback : ∀ e ∈ back, pc < e.offset) :
    m.lookup? pc = front.getLast?.map MapEntry.span := by
  have hcount := bisect_append (q := fun e : MapEntry => decide (e.offset ≤ pc)) default
    (fun e he => by simpa using hfront e he) (fun e he => by simpa using hback e he)
  have hget (i : Nat) : m.entries.getD i default = (front ++ back).getD i default := by
    rw [← hm]
    simp [List.getD, Array.getD_eq_getD_getElem?]
  have hsize : m.entries.size = (front ++ back).length := by rw [← hm, Array.length_toList]
  simp only [lookup?, hget, hsize, hcount]
  obtain rfl | ⟨front, e, rfl⟩ := front.eq_nil_or_concat
  · simp
  · simp [← Array.getElem?_toList, hm]

/-- An entry behind all others takes the place of one at its own offset. -/
theorem push_entries (h : m.Ordered n) (span : Span) : ∃ front back,
    m.entries.toList = front ++ back ∧ (∀ e ∈ front, e.offset < n) ∧ (∀ e ∈ back, e.offset = n) ∧
      (m.push n span).entries.toList = front ++ [⟨n, span⟩] := by
  obtain ⟨⟨entries⟩⟩ := m
  obtain rfl | ⟨front, last, rfl⟩ := entries.eq_nil_or_concat
  · exact ⟨[], [], rfl, by simp, by simp, rfl⟩
  · rw [List.concat_eq_append] at h ⊢
    have hall : (front ++ [last]).Pairwise fun e e' => e.offset < e'.offset := h.increasing
    have hordered : ∀ e ∈ front, e.offset < last.offset := fun e he =>
      (List.pairwise_append.1 hall).2.2 e he last List.mem_cons_self
    have hlast : last.offset ≤ n := h.bounded last (by simp)
    by_cases hn : last.offset = n
    · refine ⟨front, [last], rfl, fun e he => hn ▸ hordered e he, by simpa using hn, ?_⟩
      simp [push, hn]
    · refine ⟨front ++ [last], [], by simp, fun e he => ?_, by simp, by simp [push, hn]⟩
      exact Nat.lt_of_le_of_ne (h.bounded e he) fun heq => by
        obtain he | he := List.mem_append.1 he
        · have := hordered e he
          omega
        · simp only [List.mem_singleton] at he
          exact hn (he ▸ heq)

theorem Ordered.push (h : m.Ordered n) (span : Span) : (m.push n span).Ordered n := by
  obtain ⟨front, back, hm, hfront, -, hpush⟩ := push_entries h span
  constructor
  · rw [hpush, List.pairwise_append]
    refine ⟨?_, by simp, fun e he e' he' => ?_⟩
    · have hall := h.increasing
      rw [hm] at hall
      exact (List.pairwise_append.1 hall).1
    · rw [List.mem_singleton.1 he']
      exact hfront e he
  · intro e he
    rw [hpush] at he
    obtain he | he := List.mem_append.1 he
    · exact Nat.le_of_lt (hfront e he)
    · exact Nat.le_of_eq (by rw [List.mem_singleton.1 he])

/-- Code from the offset on belongs to what has been entered. -/
theorem lookup?_push_of_le (h : m.Ordered n) (span : Span) (hpc : n ≤ pc) :
    (m.push n span).lookup? pc = some span := by
  obtain ⟨front, back, -, hfront, -, hpush⟩ := push_entries h span
  rw [← List.append_nil (front ++ _)] at hpush
  rw [lookup?_append hpush (fun e he => ?_) (by simp)]
  · simp
  · exact Nat.le_trans (((h.push span).bounded e (by rwa [hpush, List.append_nil]))) hpc

theorem lookup?_push_of_lt (h : m.Ordered n) (span : Span) (hpc : pc < n) :
    (m.push n span).lookup? pc = m.lookup? pc := by
  obtain ⟨front, back, hm, hfront, hback, hpush⟩ := push_entries h span
  have hordered : front.Pairwise fun a b : MapEntry =>
      decide (b.offset ≤ pc) = true → decide (a.offset ≤ pc) = true := by
    have hall := h.increasing
    rw [hm] at hall
    refine (List.pairwise_append.1 hall).1.imp fun {a b} hab hb => ?_
    exact decide_eq_true (Nat.le_trans (Nat.le_of_lt hab) (of_decide_eq_true hb))
  obtain ⟨low, high, rfl, hlow, hhigh⟩ := exists_split hordered
  simp only [decide_eq_true_eq, decide_eq_false_iff_not, Nat.not_le] at hlow hhigh
  rw [List.append_assoc] at hm hpush
  rw [lookup?_append hm hlow, lookup?_append hpush hlow]
  · intro e he
    obtain he | he := List.mem_append.1 he
    · exact hhigh e he
    · rw [List.mem_singleton.1 he]
      exact hpc
  · intro e he
    obtain he | he := List.mem_append.1 he
    · exact hhigh e he
    · rw [hback e he]
      exact hpc

end SourceMap

end CellScript
