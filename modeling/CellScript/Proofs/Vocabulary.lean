import CellScript.Cursor

/-!
What the tables of words and operators say.

The compiler looks words and operators up in tables, and its correctness rests on
what stands there: an operator of the unary table takes one operand, a word of
class `function n` takes `n` arguments, and so on. Each such fact is checked once
over the rows of its table, and passed on to whatever a lookup finds.
-/

namespace CellScript

/-- The number of operands of an operator, a built-in function, an index or a range. -/
def Opcode.arity? : Opcode → Option Nat
  | .rnd => some 0
  | .neg | .bnot | .lnot | .abs | .sgn | .sqrt | .int | .float | .asc | .chr | .str | .len => some 1
  | .mul | .div | .mod | .add | .sub | .asr | .lsr | .lsl | .le | .lt | .gt | .ge | .eq | .ne
  | .band | .bor | .beor | .land | .lor | .left | .right | .index => some 2
  | .substr | .slice => some 3
  | _ => none

/-- An operation has no operand bytes. -/
theorem Opcode.shape_of_arity {op : Opcode} {n : Nat} (h : op.arity? = some n) :
    op.shape = .none := by
  cases op <;> first | rfl | simp [Opcode.arity?] at h

/-! ### Operators -/

namespace Operator

theorem mem_of_match? {table : List Row} {input : List UInt8} {o : Operator} {n : Nat}
    (h : match? table input = some (o, n)) : o ∈ table.map Row.operator := by
  simp only [match?, Option.map_eq_some_iff] at h
  obtain ⟨r, hr, ho⟩ := h
  cases ho
  exact List.mem_map.2 ⟨r, List.mem_of_find?_eq_some hr, rfl⟩

theorem unary_rows : ∀ o ∈ unary.map Row.operator, o.prec = 11 ∧ o.op.arity? = some 1 := by
  decide

theorem binary_rows : ∀ o ∈ binary.map Row.operator, o.prec ≤ 10 ∧ o.op.arity? = some 2 := by
  decide

end Operator

namespace Cursor

variable {c c' : Cursor} {t : OperatorToken}

theorem mem_of_operator {table : List Operator.Row} (h : c.operator table = (some t, c')) :
    t.operator ∈ table.map Operator.Row.operator := by
  simp only [operator] at h
  split at h
  · rename_i o n ho
    cases h
    exact Operator.mem_of_match? ho
  · simp at h

theorem unaryOperator_some (h : c.unaryOperator = (some t, c')) :
    t.operator.prec = 11 ∧ t.operator.op.arity? = some 1 := by
  simp only [unaryOperator] at h
  split at h
  · simp at h
  · exact Operator.unary_rows _ (mem_of_operator h)

theorem binaryOperator_some (h : c.binaryOperator = (some t, c')) :
    t.operator.prec ≤ 10 ∧ t.operator.op.arity? = some 2 :=
  Operator.binary_rows _ (mem_of_operator h)

theorem operator_none {table : List Operator.Row} (h : (c.operator table).1 = none) :
    (c.operator table).2 = c.skipBlank := by
  simp only [operator] at h ⊢
  split at h <;> simp_all

end Cursor

/-! ### String literals -/

namespace StringLiteral

theorem unescape_cons {b : UInt8} (hb : b ≠ 92) (bs : List UInt8) :
    unescape (b :: bs) = b :: unescape bs := by
  cases bs with
  | nil => rfl
  | cons e bs => rw [unescape, if_neg hb]

theorem unescape_escape {e c : UInt8} (he : unescapeByte? e = some c) (bs : List UInt8) :
    unescape (92 :: e :: bs) = c :: unescape bs := by
  rw [unescape, if_pos rfl, he]

/-- The scanner counts the bytes that the raw text stands for. -/
theorem length_unescape_of_scan {n : Nat} {last : UInt8} {bs raw : List UInt8} {length : Nat}
    {c : UInt8} (h : scan n last bs = .closed raw length c) :
    n + (unescape raw).length = length := by
  fun_induction scan n last bs generalizing raw with
  | case1 | case3 | case5 => cases h
  | case2 =>
      cases h
      rfl
  | case4 n last e bs b he ih =>
      cases hs : scan (n + 1) b bs with
      | closed raw' length' c' =>
          rw [hs] at h
          cases h
          rw [List.cons_append, List.cons_append, List.nil_append, unescape_escape he,
            List.length_cons, ← ih hs]
          omega
      | unterminated k =>
          rw [hs] at h
          cases h
      | invalidEscape k e' =>
          rw [hs] at h
          cases h
  | case6 n last b bs hquote hend hesc ih =>
      have hb : b ≠ 92 := by
        rintro rfl
        cases bs with
        | nil => exact hend rfl rfl
        | cons e bs => exact hesc e bs rfl rfl
      cases hs : scan (n + 1) b bs with
      | closed raw' length' c' =>
          rw [hs] at h
          cases h
          rw [List.cons_append, List.nil_append, unescape_cons hb, List.length_cons, ← ih hs]
          omega
      | unterminated k =>
          rw [hs] at h
          cases h
      | invalidEscape k e' =>
          rw [hs] at h
          cases h

end StringLiteral

/-- A long literal stands for two bytes or more. -/
theorem Cursor.string_long {c c' : Cursor} {start length : Nat} {raw : List UInt8}
    (h : c.string = .ok (some (.long start raw length)) c') :
    2 ≤ (StringLiteral.unescape raw).length := by
  simp only [string] at h
  split at h
  · split at h
    · rename_i raw' length' last hs
      simp only [EStateM.Result.ok.injEq, Option.some.injEq] at h
      have hlen := StringLiteral.length_unescape_of_scan hs
      split at h
      · cases h.1
      · cases h.1
      · rename_i h₀ h₁
        cases h.1
        have : length ≠ 0 := h₀
        have : length ≠ 1 := h₁
        omega
    · cases h
    · cases h
  · cases h

/-! ### Reserved words -/

namespace Keyword

/-- The code of a word suits its class. -/
def coherent : Keyword → Bool
  | ⟨op, .function n⟩ => op.arity? == some n
  | ⟨op, .constant⟩ => op == .litTrue || op == .litFalse
  | ⟨op, .command⟩ => op == .stop
  | ⟨op, .listCommand⟩ => op == .print
  | ⟨op, .input⟩ => op == .input
  | ⟨op, .control⟩ =>
      [Opcode.wordIf, .wordElse, .wordEndif, .wordWhile, .wordWend, .wordRepeat, .wordUntil,
        .wordBreak, .wordFunc, .wordProc, .wordReturn, .wordEnd].contains op

/-- Rows in the order of their spellings. -/
def Sorted (rs : List Row) : Prop :=
  rs.Pairwise fun r r' => Ascii.bytes r.spelling < Ascii.bytes r'.spelling

theorem sorted_buckets : ∀ rs ∈ buckets.toList, Sorted rs := by
  unfold Sorted
  decide

theorem placed_rows : ∀ i : Fin buckets.size, ∀ r ∈ buckets[i],
    (Ascii.bytes r.spelling).head?.map (fun b => b.toNat % 8) = some i.val := by
  decide

/-- In a sorted list the scan stops early only where no later row can be the word. -/
theorem scan_eq_some_iff {word : List UInt8} {rs : List Row} {k : Keyword} (hs : Sorted rs) :
    scan word rs = some k ↔ ∃ r ∈ rs, Ascii.bytes r.spelling = word ∧ r.keyword = k := by
  induction rs with
  | nil => simp [scan]
  | cons r rs ih =>
      obtain ⟨hfirst, hrest⟩ := List.pairwise_cons.1 hs
      obtain ⟨hlt, h⟩ | ⟨hgt, h⟩ | ⟨rfl, h⟩ := compareBytes_cases (Ascii.bytes r.spelling) word
      · have hne : Ascii.bytes r.spelling ≠ word := fun heq => List.lt_irrefl word (heq ▸ hlt)
        simp [scan, h, ih hrest, hne]
      · -- This row and all behind it come after the word.
        have hlater : ∀ r' ∈ r :: rs, Ascii.bytes r'.spelling ≠ word := by
          rintro r' hr' rfl
          obtain rfl | hmem := List.mem_cons.1 hr'
          · exact List.lt_irrefl _ hgt
          · exact List.lt_irrefl _ (List.lt_trans hgt (hfirst r' hmem))
        simp only [scan, h, reduceCtorEq, false_iff]
        rintro ⟨r', hr', hspelling, -⟩
        exact hlater r' hr' hspelling
      · simp only [scan, h, Option.some.injEq]
        constructor
        · intro hk
          exact ⟨r, List.mem_cons_self, rfl, hk⟩
        · rintro ⟨r', hr', hspelling, hk⟩
          obtain rfl | hmem := List.mem_cons.1 hr'
          · exact hk
          · exact absurd (hspelling ▸ hfirst r' hmem) (List.lt_irrefl _)

/-- A row stands in the bucket in which its spelling is looked up. -/
theorem mem_rows_iff {r : Row} {b : UInt8} {bs : List UInt8}
    (h : Ascii.bytes r.spelling = b :: bs) : r ∈ rows ↔ r ∈ buckets.getD (b.toNat % 8) [] := by
  have hb : b.toNat % 8 < buckets.size := Nat.mod_lt _ (by decide)
  rw [Array.getD, dif_pos hb]
  constructor
  · intro hr
    obtain ⟨rs, hrs, hmem⟩ := List.mem_flatten.1 hr
    obtain ⟨i, hi, rfl⟩ := List.mem_iff_getElem.1 hrs
    have hplace := placed_rows ⟨i, hi⟩ r hmem
    rw [h, List.head?_cons, Option.map_some, Option.some.injEq] at hplace
    simpa [hplace] using hmem
  · intro hr
    exact List.mem_flatten.2 ⟨_, by simp, hr⟩

/-- The look-up finds a row exactly if some row of the table has the word as its spelling. -/
theorem lookup?_eq_some_iff {word : List UInt8} {k : Keyword} :
    lookup? word = some k ↔ ∃ r ∈ rows, Ascii.bytes r.spelling = word ∧ r.keyword = k := by
  cases word with
  | nil =>
      have hrows : ∀ r ∈ rows, Ascii.bytes r.spelling ≠ [] := by decide
      simp only [lookup?, reduceCtorEq, false_iff]
      rintro ⟨r, hr, hspelling, -⟩
      exact hrows r hr hspelling
  | cons b bs =>
      have hb : b.toNat % 8 < buckets.size := Nat.mod_lt _ (by decide)
      have hsorted : Sorted (buckets.getD (b.toNat % 8) []) :=
        sorted_buckets _ (by simp [Array.getD, hb])
      rw [lookup?, scan_eq_some_iff hsorted]
      constructor
      · rintro ⟨r, hr, hspelling, hk⟩
        exact ⟨r, (mem_rows_iff hspelling).2 hr, hspelling, hk⟩
      · rintro ⟨r, hr, hspelling, hk⟩
        exact ⟨r, (mem_rows_iff hspelling).1 hr, hspelling, hk⟩

theorem lookup?_eq_none_iff {word : List UInt8} :
    lookup? word = none ↔ ∀ r ∈ rows, Ascii.bytes r.spelling ≠ word := by
  rw [Option.eq_none_iff_forall_ne_some]
  constructor
  · intro h r hr hspelling
    exact h r.keyword (lookup?_eq_some_iff.2 ⟨r, hr, hspelling, rfl⟩)
  · intro h k hk
    obtain ⟨r, hr, hspelling, -⟩ := lookup?_eq_some_iff.1 hk
    exact h r hr hspelling

theorem coherent_rows : ∀ k ∈ rows.map Row.keyword, coherent k = true := by
  decide

theorem coherent_of_lookup? {word : List UInt8} {k : Keyword} (h : lookup? word = some k) :
    coherent k = true := by
  obtain ⟨r, hr, -, rfl⟩ := lookup?_eq_some_iff.1 h
  exact coherent_rows r.keyword (List.mem_map_of_mem hr)

end Keyword

end CellScript
