import CellScript.Proofs.Decoding
import CellScript.Proofs.Lookup
import CellScript.Report
import Mathlib.Data.List.Induction
import Mathlib.Data.Prod.Lex

/-!
Lines and columns are those of the text.

The table of line starts is built from bytes and searched by bisection. What comes out are the
line feeds before an offset and the bytes since the last of them. The lines cut out by the
table are the pieces of the text between its line feeds: no line feed and no carriage return
is part of the encoding of another character.
-/

namespace CellScript

/-- A list is one piece without separators, or begins with one. -/
theorem pieces_induction {α : Type} (sep : α) {motive : List α → Prop}
    (last : ∀ piece, sep ∉ piece → motive piece)
    (more : ∀ piece rest, sep ∉ piece → motive rest → motive (piece ++ sep :: rest))
    (xs : List α) : motive xs := by
  by_cases h : sep ∈ xs
  · obtain ⟨piece, rest, hxs, hpiece⟩ := List.eq_append_cons_of_mem h
    rw [hxs]
    exact more piece rest hpiece (pieces_induction sep last more rest)
  · exact last xs h
termination_by xs.length
decreasing_by
  rw [hxs, List.length_append, List.length_cons]
  omega

theorem length_splitOn {α : Type} [DecidableEq α] (sep : α) (xs : List α) :
    (xs.splitOn sep).length = xs.count sep + 1 := by
  induction xs using pieces_induction sep with
  | last piece h => rw [List.splitOn_eq_singleton h, List.count_eq_zero.2 h, List.length_singleton]
  | more piece rest h ih =>
      rw [List.splitOn_append_cons_self_of_not_mem h, List.length_cons, ih, List.count_append,
        List.count_eq_zero.2 h, List.count_cons_self, Nat.zero_add]

namespace Source

variable {name : String} {bs bs' : List UInt8} {offset n : Nat}

/-! ### Positions -/

/-- How many bytes stand behind the last line feed. -/
def sinceFeed (bs : List UInt8) : Nat := (bs.reverse.takeWhile (· != 10)).length

/-- The line and the column behind a text. -/
def place (bs : List UInt8) : Nat × Nat := (bs.count 10 + 1, sinceFeed bs + 1)

/-- The line and the column in thirty-two bits. -/
def place32 (bs : List UInt8) : UInt32 × UInt32 := (.ofNat (place bs).1, .ofNat (place bs).2)

/-- A text shorter than four gigabytes. One that is a byte shorter consists of neither a single
line nor line feeds alone: there, the end would have no column or no line. -/
structure Indexable (bs : List UInt8) : Prop where
  short : bs.length < 4294967296
  mixed : bs.length = 4294967295 → 10 ∈ bs ∧ ∃ b ∈ bs, b ≠ 10

theorem sinceFeed_concat (bs : List UInt8) (b : UInt8) :
    sinceFeed (bs ++ [b]) = if b = 10 then 0 else sinceFeed bs + 1 := by
  rw [sinceFeed, List.reverse_append, List.reverse_singleton, List.singleton_append,
    List.takeWhile_cons]
  by_cases hb : b = 10
  · simp [hb]
  · simp [hb, sinceFeed]

theorem sinceFeed_append (h : 10 ∉ bs') : sinceFeed (bs ++ bs') = sinceFeed bs + bs'.length := by
  induction bs' using List.reverseRecOn with
  | nil => rw [List.append_nil, List.length_nil, Nat.add_zero]
  | append_singleton bs' b ih =>
      obtain ⟨hbs', hb⟩ := not_or.1 (mt List.mem_append.2 h)
      rw [← List.append_assoc, sinceFeed_concat, if_neg (by simpa [eq_comm] using hb), ih hbs',
        List.length_append, List.length_singleton, Nat.add_assoc]

theorem sinceFeed_of_not_mem (h : 10 ∉ bs) : sinceFeed bs = bs.length := by
  rw [← List.nil_append bs, sinceFeed_append h, List.nil_append]
  exact Nat.zero_add _

/-- Every line feed takes a byte that no column counts. -/
theorem count_add_sinceFeed_le (bs : List UInt8) : bs.count 10 + sinceFeed bs ≤ bs.length := by
  induction bs using List.reverseRecOn with
  | nil => exact Nat.le_refl 0
  | append_singleton bs b ih =>
      rw [sinceFeed_concat, List.count_append, List.length_append, List.length_singleton]
      split
      · rename_i hb
        rw [hb, List.count_singleton_self]
        omega
      · rename_i hb
        rw [List.count_singleton, if_neg (by simpa using hb)]
        omega

theorem length_startsAfter (offset : Nat) (bs : List UInt8) :
    (startsAfter offset bs).length = bs.count 10 := by
  induction bs generalizing offset with
  | nil => rfl
  | cons b bs ih =>
      rw [startsAfter]
      split
      · rename_i hb
        rw [hb, List.length_cons, ih, List.count_cons_self]
      · rename_i hb
        rw [ih, List.count_cons_of_ne (by simpa using hb)]

theorem le_of_mem_startsAfter (h : n ∈ startsAfter offset bs) : n ≤ offset + bs.length := by
  induction bs generalizing offset with
  | nil => simp [startsAfter] at h
  | cons b bs ih =>
      have hrest (h : n ∈ startsAfter (offset + 1) bs) : n ≤ offset + (b :: bs).length := by
        have hn := ih h
        rw [List.length_cons]
        omega
      rw [startsAfter] at h
      split at h
      · obtain rfl | h := List.mem_cons.1 h
        · rw [List.length_cons]
          omega
        · exact hrest h
      · exact hrest h

/-- The last line of a text begins behind its last line feed. -/
theorem getLast_startsAfter (offset : Nat) (bs : List UInt8) :
    (offset :: startsAfter offset bs).getLast (List.cons_ne_nil _ _) + sinceFeed bs =
      offset + bs.length := by
  induction bs using List.reverseRecOn with
  | nil => rfl
  | append_singleton bs b ih =>
      simp only [startsAfter_append, sinceFeed_concat, startsAfter, List.length_append,
        List.length_singleton]
      split
      · simp only [← List.cons_append, List.getLast_concat]
        omega
      · simp only [List.append_nil]
        omega

/-- An offset is on the line and in the column behind the bytes before it. -/
theorem position_ofBytes (name : String) (bs : List UInt8) (offset : Nat) :
    (ofBytes name bs).position offset = place32 (bs.take offset) := by
  have hclamp : (ofBytes name bs).position offset =
      (ofBytes name bs).position (min offset bs.length) := by
    simp [position, ofBytes, size]
  have htake : bs.take offset = bs.take (min offset bs.length) := by
    rw [← List.take_take, List.take_length]
  rw [hclamp, htake]
  have hoffset : min offset bs.length ≤ bs.length := Nat.min_le_right _ _
  generalize min offset bs.length = offset at hoffset
  have hlength : (bs.take offset).length = offset := List.length_take_of_le hoffset
  -- The lines that begin at or before the offset are those of the text in front of it.
  have hstarts : (ofBytes name bs).lineStarts.toList =
      (0 :: startsAfter 0 (bs.take offset)) ++ startsAfter offset (bs.drop offset) := by
    have hsplit := startsAfter_append 0 (bs.take offset) (bs.drop offset)
    rw [List.take_append_drop, Nat.zero_add, hlength] at hsplit
    simp [ofBytes, hsplit]
  have hbefore : ∀ n ∈ 0 :: startsAfter 0 (bs.take offset), n ≤ offset := by
    intro n hn
    obtain rfl | hn := List.mem_cons.1 hn
    · exact Nat.zero_le _
    · have hle := le_of_mem_startsAfter hn
      omega
  have hlast := getLast_startsAfter 0 (bs.take offset)
  rw [position_eq hstarts (by simpa [ofBytes, size] using hoffset) hbefore
    (fun n hn => lt_of_mem_startsAfter hn) (List.cons_ne_nil _ _), place32, place,
    List.length_cons, length_startsAfter]
  congr 3
  omega

/-- Whatever is added, the line or else the column goes up. -/
theorem place_lt_append (hne : bs' ≠ []) : toLex (place bs) < toLex (place (bs ++ bs')) := by
  rw [Prod.Lex.toLex_lt_toLex]
  by_cases hfeed : 10 ∈ bs'
  · have hcount := List.count_pos_iff.2 hfeed
    left
    simp only [place, List.count_append]
    omega
  · have hlength := List.length_pos_iff.2 hne
    right
    simp only [place, List.count_append, List.count_eq_zero.2 hfeed, sinceFeed_append hfeed]
    exact ⟨trivial, by omega⟩

theorem place_take_lt {offset' : Nat} (hlt : offset < offset') (hle : offset' ≤ bs.length) :
    toLex (place (bs.take offset)) < toLex (place (bs.take offset')) := by
  have hsplit : bs.take offset' = bs.take offset ++ (bs.drop offset).take (offset' - offset) := by
    rw [← List.take_add, Nat.add_sub_cancel' (Nat.le_of_lt hlt)]
  rw [hsplit]
  refine place_lt_append (List.length_pos_iff.1 ?_)
  rw [List.length_take, List.length_drop]
  omega

theorem place_take_le {offset' : Nat} (h : offset ≤ offset') :
    toLex (place (bs.take offset)) ≤ toLex (place (bs.take offset')) := by
  by_cases hlt : min offset bs.length < min offset' bs.length
  · have hplace := place_take_lt hlt (Nat.min_le_right _ _)
    rw [← List.take_take, List.take_length, ← List.take_take, List.take_length] at hplace
    exact le_of_lt hplace
  · have heq : min offset bs.length = min offset' bs.length := by omega
    have htake (n : Nat) : bs.take n = bs.take (min n bs.length) := by
      rw [← List.take_take, List.take_length]
    rw [htake offset, htake offset', heq]

/-! ### Thirty-two bits -/

/-- Line and column are numbers of thirty-two bits. -/
def Fits (bs : List UInt8) : Prop := (place bs).1 < 4294967296 ∧ (place bs).2 < 4294967296

/-- The only position that could not be written down is the end of the text. -/
theorem Indexable.fits_take (h : Indexable bs) (offset : Nat) : Fits (bs.take offset) := by
  have hshort := h.short
  have hcount := (bs.take_sublist offset).count_le 10
  have hle : bs.count 10 ≤ bs.length := List.count_le_length
  have hsum := count_add_sinceFeed_le (bs.take offset)
  have hlength := List.length_take_le' offset bs
  rw [Fits, place]
  obtain hlt | heq := Nat.lt_or_eq_of_le (Nat.le_of_lt_succ hshort)
  · exact ⟨by omega, by omega⟩
  · obtain ⟨hfeed, b, hb, hne⟩ := h.mixed heq
    have hall : bs.count 10 ≠ bs.length := fun hall => hne (List.count_eq_length.1 hall b hb).symm
    refine ⟨by omega, ?_⟩
    obtain hoffset | hoffset := Nat.lt_or_ge offset bs.length
    · have hlength := List.length_take_le offset bs
      omega
    · rw [List.take_of_length_le hoffset] at hsum ⊢
      have hpos := List.count_pos_iff.2 hfeed
      omega

variable {as : List UInt8}

theorem Fits.toNat_place32 (h : Fits bs) :
    (place32 bs).1.toNat = (place bs).1 ∧ (place32 bs).2.toNat = (place bs).2 :=
  ⟨UInt32.toNat_ofNat_of_lt' h.1, UInt32.toNat_ofNat_of_lt' h.2⟩

theorem Fits.place32_lt (h : Fits as) (h' : Fits bs) (hlt : toLex (place as) < toLex (place bs)) :
    toLex (place32 as) < toLex (place32 bs) := by
  rw [Prod.Lex.toLex_lt_toLex] at hlt ⊢
  rwa [UInt32.lt_iff_toNat_lt, UInt32.lt_iff_toNat_lt, ← UInt32.toNat_inj, h.toNat_place32.1,
    h.toNat_place32.2, h'.toNat_place32.1, h'.toNat_place32.2]

theorem Fits.place32_le (h : Fits as) (h' : Fits bs) (hle : toLex (place as) ≤ toLex (place bs)) :
    toLex (place32 as) ≤ toLex (place32 bs) := by
  rw [Prod.Lex.toLex_le_toLex] at hle ⊢
  rwa [UInt32.lt_iff_toNat_lt, UInt32.le_iff_toNat_le, ← UInt32.toNat_inj, h.toNat_place32.1,
    h.toNat_place32.2, h'.toNat_place32.1, h'.toNat_place32.2]

/-! ### Lines -/

/-- A text with the table of the lines behind some of it. -/
def behind (name : String) (front bs : List UInt8) : Source :=
  ⟨name, (front ++ bs).toArray, (front.length :: startsAfter front.length bs).toArray⟩

theorem startsAfter_eq_nil (h : 10 ∉ bs) : startsAfter offset bs = [] := by
  rw [← List.length_eq_zero_iff, length_startsAfter, List.count_eq_zero.2 h]

theorem startsAfter_feed (h : 10 ∉ bs) : startsAfter offset (bs ++ 10 :: bs') =
    (offset + bs.length + 1) :: startsAfter (offset + bs.length + 1) bs' := by
  rw [startsAfter_append, startsAfter_eq_nil h, List.nil_append, startsAfter, if_pos rfl]

/-- The lines are what stands between the line feeds. -/
theorem lineBytes?_behind (front : List UInt8) (n : Nat) :
    (behind name front bs).lineBytes? (n + 1) = (bs.splitOn 10)[n]?.map dropReturn := by
  induction bs using pieces_induction (10 : UInt8) generalizing front n with
  | last piece h =>
      rw [List.splitOn_eq_singleton h]
      cases n with
      | zero => simp [lineBytes?, behind, startsAfter_eq_nil h, size]
      | succ n => simp [lineBytes?, behind, startsAfter_eq_nil h]
  | more piece rest h ih =>
      rw [List.splitOn_append_cons_self_of_not_mem h]
      cases n with
      | zero => simp [lineBytes?, behind, startsAfter_feed h]
      | succ n =>
          -- The lines that follow are those behind the piece and its line feed.
          rw [List.getElem?_cons_succ, ← ih (front ++ piece ++ [10]) n]
          simp [lineBytes?, behind, startsAfter_feed h, size, Nat.add_assoc]

theorem lineCount_ofBytes (name : String) (bs : List UInt8) :
    (ofBytes name bs).lineCount = (bs.splitOn 10).length := by
  rw [length_splitOn, ← length_startsAfter 0]
  rfl

/-! ### The lines of a text -/

variable {text : String} {cs : List Char}

theorem feed_mem_encode : (10 : UInt8) ∈ cs.flatMap String.utf8EncodeChar ↔ '\n' ∈ cs := by
  rw [List.mem_flatMap]
  constructor
  · rintro ⟨c, hc, hfeed⟩
    rwa [← Utf8.eq_of_mem_encode (c := '\n') (by decide) hfeed]
  · intro h
    exact ⟨'\n', h, by decide⟩

/-- Removes one carriage return from the end. -/
def withoutReturn (cs : List Char) : List Char :=
  if cs.getLast? = some '\r' then cs.dropLast else cs

/-- What stands between the line feeds of a text, with one carriage return removed from the end
of each piece. -/
def pieces (text : String) : List String :=
  (text.toList.splitOn '\n').map fun cs => String.ofList (withoutReturn cs)

/-- Splitting the bytes and splitting the characters is the same. -/
theorem splitOn_encode (cs : List Char) : (cs.flatMap String.utf8EncodeChar).splitOn 10 =
    (cs.splitOn '\n').map fun piece => piece.flatMap String.utf8EncodeChar := by
  induction cs using pieces_induction '\n' with
  | last piece h =>
      rw [List.splitOn_eq_singleton h, List.splitOn_eq_singleton (mt feed_mem_encode.1 h)]
      rfl
  | more piece rest h ih =>
      have hfeed : String.utf8EncodeChar '\n' = [10] := by decide
      rw [List.flatMap_append, List.flatMap_cons, hfeed, List.singleton_append,
        List.splitOn_append_cons_self_of_not_mem (mt feed_mem_encode.1 h),
        List.splitOn_append_cons_self_of_not_mem h, ih, List.map_cons]

theorem dropReturn_encode (cs : List Char) : dropReturn (cs.flatMap String.utf8EncodeChar) =
    (withoutReturn cs).flatMap String.utf8EncodeChar := by
  obtain rfl | ⟨cs, c, rfl⟩ := cs.eq_nil_or_concat
  · rfl
  · have hne : String.utf8EncodeChar c ≠ [] := by
      rw [← List.length_pos_iff, String.length_utf8EncodeChar]
      exact c.utf8Size_pos
    rw [List.concat_eq_append, List.flatMap_append, List.flatMap_singleton]
    by_cases hc : c = '\r'
    · subst hc
      have hreturn : String.utf8EncodeChar '\r' = [13] := by decide
      simp [dropReturn, withoutReturn, hreturn]
    · have hlast : (cs.flatMap String.utf8EncodeChar ++ String.utf8EncodeChar c).getLast? ≠
          some 13 := by
        intro h
        rw [List.getLast?_append, List.getLast?_eq_some_getLast hne, Option.some_or,
          ← List.getLast?_eq_some_getLast hne] at h
        exact hc (Utf8.eq_of_mem_encode (c := '\r') (by decide) (List.mem_of_getLast? h))
      rw [dropReturn, if_neg hlast, withoutReturn, if_neg (by simpa using hc), List.flatMap_append,
        List.flatMap_singleton]

theorem line?_eq (name text : String) (n : UInt32) :
    (ofText name text).line? n = if n.toNat = 0 then none else (pieces text)[n.toNat - 1]? := by
  rw [line?]
  generalize n.toNat = n
  cases n with
  | zero => rfl
  | succ n =>
      have hbytes : (ofText name text).lineBytes? (n + 1) =
          ((Ascii.bytes text).splitOn 10)[n]?.map dropReturn := lineBytes?_behind [] n
      rw [if_neg n.succ_ne_zero, hbytes, Ascii.bytes_eq, splitOn_encode, pieces]
      simp only [List.getElem?_map, Option.map_map, Nat.add_sub_cancel]
      congr 1
      funext piece
      rw [Function.comp_apply, Function.comp_apply, dropReturn_encode, Utf8.text_encode]

theorem length_pieces (name text : String) :
    (pieces text).length = (ofText name text).lineCount := by
  rw [ofText, lineCount_ofBytes, Ascii.bytes_eq, splitOn_encode, pieces, List.length_map,
    List.length_map]

theorem isSome_line? (name text : String) (n : UInt32) : ((ofText name text).line? n).isSome ↔
    1 ≤ n.toNat ∧ n.toNat ≤ (ofText name text).lineCount := by
  rw [line?_eq, ← length_pieces]
  split
  · rename_i hn
    exact ⟨nofun, fun h => absurd h.1 (by omega)⟩
  · rw [isSome_getElem?]
    exact ⟨fun h => ⟨by omega, by omega⟩, fun h => by omega⟩

/-- Every offset is on a line of the text. -/
theorem isSome_line?_position (name : String) {text : String} (h : Indexable (Ascii.bytes text))
    (offset : Nat) :
    ((ofText name text).line? ((ofText name text).position offset).1).isSome := by
  have hcount := ((Ascii.bytes text).take_sublist offset).count_le 10
  rw [isSome_line?, ofText, position_ofBytes, (h.fits_take offset).toNat_place32.1,
    lineCount_ofBytes, length_splitOn, place]
  exact ⟨by omega, by omega⟩

end Source

/-! ### Errors -/

namespace Diagnostic

/-- An error shows the line on which its span starts. -/
theorem line?_ofError (name : String) {text : String} (h : Source.Indexable (Ascii.bytes text))
    (e : CompileError) :
    (Source.ofText name text).line? (ofError (.ofText name text) e).span.startLine =
      some (ofError (.ofText name text) e).sourceLine := by
  obtain ⟨line, hline⟩ := Option.isSome_iff_exists.1
    (Source.isSome_line?_position name h e.start)
  simp only [ofError, locate, Source.span, hline, Option.getD_some]

end Diagnostic

/-- What stops the compiler is an error of the text. -/
theorem Program.build_compile {name text : String} {limits : Limits} {d : Diagnostic}
    (h : build name text limits = .error (.compile d)) :
    ∃ e, d = .ofError (.ofText name text) e := by
  unfold build ofSource at h
  split at h
  · cases h
  · split at h
    · cases h
    · rename_i hsource
      split at hsource
      · cases hsource
      · rename_i e _
        cases h
        cases hsource
        exact ⟨e, rfl⟩

namespace Source

/-- Positions and lines index the text. The line of an offset counts the line feeds before it, and
its column the bytes since the last of them; offsets up to the end have different positions, in
lexicographic order, and no span ends before it starts. There is a line for every number from one
to the count of lines, all of which have thirty-two bits, and it is the piece of that number. What
an error shows is the line its span starts on. -/
theorem positions_exact (name text : String) (h : Indexable (Ascii.bytes text)) :
    (∀ offset, ((ofText name text).position offset).1.toNat =
        ((Ascii.bytes text).take offset).count 10 + 1 ∧
      ((ofText name text).position offset).2.toNat =
        sinceFeed ((Ascii.bytes text).take offset) + 1) ∧
    (∀ offset offset', offset < offset' → offset' ≤ (Ascii.bytes text).length →
      toLex ((ofText name text).position offset) < toLex ((ofText name text).position offset')) ∧
    (∀ start stop, let span := (ofText name text).span start stop
      toLex (span.startLine, span.startCol) ≤ toLex (span.endLine, span.endCol)) ∧
    (∀ n, ((ofText name text).line? n).isSome ↔
      1 ≤ n.toNat ∧ n.toNat ≤ (ofText name text).lineCount) ∧
    (ofText name text).lineCount < 4294967296 ∧
    (∀ n, 1 ≤ n.toNat → (ofText name text).line? n = (pieces text)[n.toNat - 1]?) ∧
    (∀ e : CompileError, let d := Diagnostic.ofError (.ofText name text) e
      (ofText name text).line? d.span.startLine = some d.sourceLine) ∧
    (∀ (limits : Limits) (d : Diagnostic), Program.build name text limits = .error (.compile d) →
      (ofText name text).line? d.span.startLine = some d.sourceLine) := by
  refine ⟨fun offset => ?_, fun offset offset' hlt hle => ?_, fun start stop => ?_,
    isSome_line? name text, ?_, fun n hn => ?_, Diagnostic.line?_ofError name h,
    fun limits d hbuild => ?_⟩
  · rw [ofText, position_ofBytes]
    exact (h.fits_take offset).toNat_place32
  · rw [ofText, position_ofBytes, position_ofBytes]
    exact (h.fits_take offset).place32_lt (h.fits_take offset') (place_take_lt hlt hle)
  · simp only [span, ofText, position_ofBytes]
    exact (h.fits_take start).place32_le (h.fits_take _)
      (place_take_le (Nat.le_max_left start stop))
  · have hfits := (h.fits_take (Ascii.bytes text).length).1
    rw [List.take_length, place] at hfits
    rwa [ofText, lineCount_ofBytes, length_splitOn]
  · rw [line?_eq, if_neg (by omega)]
  · obtain ⟨e, rfl⟩ := Program.build_compile hbuild
    exact Diagnostic.line?_ofError name h e

/-- Across a line break of two bytes, and an error behind it. -/
theorem positions_exact_on_two_lines :
    let s := ofText "m" "a = 1;\r\nb = ;"
    Indexable (Ascii.bytes "a = 1;\r\nb = ;") ∧ toLex (s.position 7) < toLex (s.position 8) ∧
      s.line? 1 = some "a = 1;" ∧
      ∃ d, Program.build "m" "a = 1;\r\nb = ;" default = .error (.compile d) ∧
        d.span = ⟨2, 5, 2, 6⟩ ∧ s.line? d.span.startLine = some "b = ;" := by
  intro s
  have hbuild : (match Program.build "m" "a = 1;\r\nb = ;" default with
      | .error (.compile d) => some (d.span, d.sourceLine)
      | _ => none) = some (⟨2, 5, 2, 6⟩, "b = ;") := by decide +kernel
  have hlength : (Ascii.bytes "a = 1;\r\nb = ;").length = 13 := by decide +kernel
  have hindexable : Indexable (Ascii.bytes "a = 1;\r\nb = ;") := ⟨by omega, by omega⟩
  obtain ⟨-, horder, -, -, -, hline, -, herror⟩ := positions_exact "m" _ hindexable
  refine ⟨hindexable, horder 7 8 (by decide) (by omega),
    (hline 1 (by decide)).trans (by decide +kernel), ?_⟩
  split at hbuild
  · rename_i d hd
    obtain ⟨hspan, hsource⟩ := Prod.mk.inj (Option.some.inj hbuild)
    exact ⟨d, hd, hspan, (herror default d hd).trans (congrArg some hsource)⟩
  · cases hbuild

/-- The end of a single line that is a byte shorter than four gigabytes has no column: the number
starts over, and the span of the line ends before it starts. -/
theorem column_of_end_wraps :
    let text := String.ofList (List.replicate 4294967295 'a')
    let span := (ofText "m" text).span 0 4294967295
    (Ascii.bytes text).length = 4294967295 ∧ sinceFeed (Ascii.bytes text) = 4294967295 ∧
      (ofText "m" text).position 4294967295 = (1, 0) ∧ span = ⟨1, 1, 1, 0⟩ ∧
      ¬ toLex (span.startLine, span.startCol) ≤ toLex (span.endLine, span.endCol) := by
  intro text span
  have hbytes : Ascii.bytes text = List.replicate 4294967295 97 := by
    have hletter : String.utf8EncodeChar 'a' = [97] := by decide
    rw [Ascii.bytes_eq, String.toList_ofList, List.flatMap_replicate, hletter,
      List.flatten_replicate_singleton]
  have hlength : (Ascii.bytes text).length = 4294967295 := by rw [hbytes, List.length_replicate]
  have hfeed : 10 ∉ Ascii.bytes text := by
    rw [hbytes, List.mem_replicate]
    exact fun h => absurd h.2 (by decide)
  have hsince := (sinceFeed_of_not_mem hfeed).trans hlength
  have hstart : (ofText "m" text).position 0 = (1, 1) := position_ofBytes "m" _ 0
  have hstop : (ofText "m" text).position 4294967295 = (1, 0) := by
    rw [ofText, position_ofBytes, List.take_of_length_le (Nat.le_of_eq hlength), place32, place,
      List.count_eq_zero.2 hfeed, hsince]
    rfl
  have hspan : span = ⟨1, 1, 1, 0⟩ := by
    show Source.span _ 0 4294967295 = _
    simp only [Source.span, hstart, Nat.zero_max, hstop]
  refine ⟨hlength, hsince, hstop, hspan, ?_⟩
  rw [hspan, Prod.Lex.toLex_le_toLex]
  decide

end Source

end CellScript
