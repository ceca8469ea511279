import CellScript.Console
import CellScript.Digest
import CellScript.Machine.Step
import CellScript.Proofs.Edits
import CellScript.Proofs.Turns

/-!
What the image of a program says about its runs.

The digest is taken of an image: the code and the used part of the heap, each behind
its length. Nothing else of a program goes into it, but a run also starts from the
arena above the used part, and the store carries a table of buckets beside the
heap. Two facts close the gap. The lengths make the image readable, so that equal
images have equal parts. And compiling writes nothing past the top of the heap
(`Heap.Edited`), so that all that lies there is zero in every program (`Heap.Blank`),
and the used part and the size are the whole heap. The table and the source map are
not looked at by a run at all.
-/

namespace CellScript

/-! ### Lengths -/

namespace Sha256

theorem length_bigEndian (count n : Nat) : (bigEndian count n).length = count := by
  induction count with
  | zero => rfl
  | succ count ih => rw [bigEndian, List.length_cons, ih]

theorem mod_eq_of_bigEndian {count n m : Nat} (h : bigEndian count n = bigEndian count m) :
    n % 256 ^ count = m % 256 ^ count := by
  induction count with
  | zero => rw [Nat.pow_zero, Nat.mod_one, Nat.mod_one]
  | succ count ih =>
      simp only [bigEndian, List.cons.injEq] at h
      obtain ⟨hhead, htail⟩ := h
      have hdigit : n / 256 ^ count % 256 = m / 256 ^ count % 256 := by
        have hnat := congrArg UInt8.toNat hhead
        rwa [UInt8.toNat_ofNat', UInt8.toNat_ofNat'] at hnat
      rw [Nat.pow_succ, Nat.mod_mul, Nat.mod_mul, ih htail, hdigit]

end Sha256

namespace Program

/-- What stands behind its length can be told from what comes after it. -/
theorem measured_append_inj {a b c d : List UInt8} (ha : a.length < 256 ^ 4)
    (hb : b.length < 256 ^ 4) (h : measured a ++ c = measured b ++ d) : a = b ∧ c = d := by
  simp only [measured, List.append_assoc] at h
  obtain ⟨hlength, hrest⟩ := List.append_inj h (by rw [Sha256.length_bigEndian,
    Sha256.length_bigEndian])
  have hmod := Sha256.mod_eq_of_bigEndian hlength
  rw [Nat.mod_eq_of_lt ha, Nat.mod_eq_of_lt hb] at hmod
  exact List.append_inj hrest hmod

/-- Images can be read back. -/
theorem image_inj {p q : Program} (hp : p.code.size < 256 ^ 4) (hq : q.code.size < 256 ^ 4)
    (hp' : p.heap.usedBytes.length < 256 ^ 4) (hq' : q.heap.usedBytes.length < 256 ^ 4)
    (h : p.image = q.image) : p.code = q.code ∧ p.heap.usedBytes = q.heap.usedBytes := by
  obtain ⟨hcode, hheap⟩ := measured_append_inj (by rwa [Array.length_toList])
    (by rwa [Array.length_toList]) h
  refine ⟨Array.toList_inj.1 hcode, ?_⟩
  rw [← List.append_nil (measured _), ← List.append_nil (measured q.heap.usedBytes)] at hheap
  exact (measured_append_inj hp' hq' hheap).1

end Program

/-! ### Above the top -/

namespace Heap

variable {h h' : Heap}

/-- A heap of `n` bytes with nothing above its top. -/
structure Blank (h : Heap) (n : Nat) : Prop where
  size : h.bytes.size = n
  top : h.top ≤ n
  above : ∀ i, h.top ≤ i → h.byte i = 0

theorem length_usedBytes (h : Heap) : h.usedBytes.length = min h.top h.bytes.size := by
  rw [usedBytes, Array.length_toList, Array.size_extract, Nat.sub_zero]

theorem getD_usedBytes (h : Heap) {i : Nat} (hi : i < h.top) :
    h.usedBytes.getD i 0 = h.byte i := by
  rw [usedBytes, List.getD_eq_getElem?_getD, Array.getElem?_toList, Array.getElem?_extract, byte,
    Array.getD_eq_getD_getElem?, Nat.sub_zero, Nat.zero_add]
  split
  · rfl
  · rw [Array.getElem?_eq_none (by omega)]

theorem Blank.eq_of_usedBytes {n : Nat} (hb : h.Blank n) (hb' : h'.Blank n)
    (hused : h.usedBytes = h'.usedBytes) : h = h' := by
  have htop : h.top = h'.top := by
    have hlength := congrArg List.length hused
    rwa [length_usedBytes, length_usedBytes, hb.size, hb'.size, Nat.min_eq_left hb.top,
      Nat.min_eq_left hb'.top] at hlength
  have hbytes : h.bytes = h'.bytes := by
    refine Array.ext (hb.size.trans hb'.size.symm) fun i hi hi' => ?_
    have hbyte : h.byte i = h'.byte i := by
      by_cases hbelow : i < h.top
      · rw [← h.getD_usedBytes hbelow, ← h'.getD_usedBytes (htop ▸ hbelow), hused]
      · rw [hb.above i (by omega), hb'.above i (by omega)]
    simpa only [byte, Array.getD_eq_getD_getElem?, Array.getElem?_eq_getElem, hi, hi',
      Option.getD_some] using hbyte
  obtain ⟨bytes, top⟩ := h
  obtain ⟨bytes', top'⟩ := h'
  obtain rfl : bytes = bytes' := hbytes
  obtain rfl : top = top' := htop
  rfl

end Heap

namespace Program

variable {source source' : Source} {limits limits' : Limits} {p q : Program}

theorem heap_blank_of_compile (h : compile source limits = .ok p) :
    p.heap.Blank limits.heapSize := by
  obtain ⟨hv, -⟩ := compile_ok h
  obtain ⟨s, hst, -, -, hstore, -⟩ := exists_statements h
  have hsize : (Heap.ofSize limits.heapSize).bytes.size = limits.heapSize := by
    have := (Limits.valid_of_validate hv).heapSize.1
    simp only [Heap.ofSize, Array.size_replicate, Heap.reserved]
    omega
  have hsound := Compiler.sound_start source hv
  have hspares : Compiler.Spares [] (Compiler.statements (source.bytes.toList.length + 1)) :=
    Compiler.spares_statements _
  obtain ⟨rs, hkept⟩ := hspares _ _ _ _ hst hsound (by simp)
  have hheap : p.heap = s.front.store.heap := congrArg Store.heap hstore
  rw [hheap]
  refine ⟨hkept.edited.size.trans hsize, ?_, fun i hi => ?_⟩
  · rw [← hsize, show (Heap.ofSize limits.heapSize).bytes.size = s.front.store.heap.bytes.size from
      hkept.edited.size.symm]
    exact hkept.sound.store.ledger.top_le_size
  · rw [hkept.edited.beyond i hi]
    show (Heap.ofSize limits.heapSize).byte i = 0
    simp only [Heap.byte, Heap.ofSize, Array.getD_eq_getD_getElem?, Array.getElem?_replicate]
    split <;> rfl

/-- The image covers all that a run depends on: programs with the same image, compiled for heaps
of one size from whatever text, have the same code and the same used heap, and their runs take
the same steps on every console and under all limits. -/
theorem same_runs_of_image (hp : compile source limits = .ok p)
    (hq : compile source' limits' = .ok q) (hsize : limits.heapSize = limits'.heapSize)
    (himage : p.image = q.image) :
    p.code = q.code ∧ p.heap.usedBytes = q.heap.usedBytes ∧
      ∀ (κ : Type) [Console κ] (machineLimits : Limits) (console : κ) (fuel : Nat),
        Machine.run p.code fuel (.start p machineLimits console) =
          Machine.run q.code fuel (.start q machineLimits console) := by
  have hblank := heap_blank_of_compile hp
  have hblank' := heap_blank_of_compile hq
  have hcode {p : Program} {source : Source} {limits : Limits}
      (hp : compile source limits = .ok p) : p.code.size < 256 ^ 4 := by
    obtain ⟨hv, hle, -⟩ := compile_ok hp
    have := (Limits.valid_of_validate hv).codeSize.2
    omega
  have hused {p : Program} {source : Source} {limits : Limits}
      (hp : compile source limits = .ok p) : p.heap.usedBytes.length < 256 ^ 4 := by
    have := (Limits.valid_of_validate (compile_ok hp).1).heapSize.2
    have := (heap_blank_of_compile hp).top
    rw [Heap.length_usedBytes]
    omega
  obtain ⟨heq, heq'⟩ := image_inj (hcode hp) (hcode hq) (hused hp) (hused hq) himage
  have hheap : p.heap = q.heap := hblank.eq_of_usedBytes (hsize ▸ hblank') heq'
  refine ⟨heq, heq', fun κ _ machineLimits console fuel => ?_⟩
  rw [Machine.start, Machine.start, heq, hheap]

/-- Two texts with different blanks, compiled with different tables, have one image. -/
theorem same_runs_of_image_blanks : ∃ p q : Program,
    compile (.ofText "a" "x = 1; print x;") default = .ok p ∧
    compile (.ofText "b" "x=1 ;  print x ; ") { (default : Limits) with identBuckets := 4 } =
      .ok q ∧
    p.image = q.image ∧ p.store.buckets.size = 32 ∧ q.store.buckets.size = 4 ∧
    ∀ (machineLimits : Limits) (console : QueuedConsole) (fuel : Nat),
      Machine.run p.code fuel (.start p machineLimits console) =
        Machine.run q.code fuel (.start q machineLimits console) := by
  -- Twelve bytes of code and one record.
  let image : List UInt8 := [0, 0, 0, 12, 191, 0, 1, 188, 0, 2, 187, 0, 2, 167, 1, 175,
    0, 0, 0, 13, 0, 0, 0, 0, 0, 120, 0, 0, 0, 255, 0, 1, 120]
  obtain ⟨p, hp, htest⟩ := exists_of_compile (.ofText "a" "x = 1; print x;") default
    (fun p => p.image = image ∧ p.store.buckets.size = 32) (by decide +kernel)
  obtain ⟨q, hq, htest'⟩ := exists_of_compile (.ofText "b" "x=1 ;  print x ; ")
    { (default : Limits) with identBuckets := 4 }
    (fun q => q.image = image ∧ q.store.buckets.size = 4) (by decide +kernel)
  obtain ⟨himage, hbuckets⟩ := of_decide_eq_true htest
  obtain ⟨himage', hbuckets'⟩ := of_decide_eq_true htest'
  have hsame := himage.trans himage'.symm
  exact ⟨p, q, hp, hq, hsame, hbuckets, hbuckets',
    (same_runs_of_image hp hq rfl hsame).2.2 QueuedConsole⟩

end Program

end CellScript
