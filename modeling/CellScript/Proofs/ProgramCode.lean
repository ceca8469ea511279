import CellScript.Proofs.StatementCode

/-!
Compiled programs are the code of trees.

The last step from single statements to whole programs: every statement that the
compiler accepts continues the outline, so after the last one there is a tree, the
text reads as this tree, and the code is the code of the tree followed by `stop`.
The source map is followed too. Its entries are addresses at which statements of
the tree begin.
-/

namespace CellScript

namespace Outline

variable {fs fs' : List Frame} {cur cur' : Stmt}

/-- No address at which a statement begins gets lost, and the new statement begins where the
code ended. -/
theorem Step.mem_starts (h : Step fs cur fs' cur') {a : Nat}
    (ha : a ∈ starts fs cur ∨ a = size fs cur) : a ∈ starts fs' cur' := by
  cases h with
  | append hs =>
      rw [starts_seq, hs]
      simpa using ha
  | @begin _ k hk =>
      simp only [starts, hk, Stmt.starts]
      simpa using ha
  | divide =>
      simp only [starts, Frame.before, Frame.leadStarts, base, Frame.leadSize, size, Stmt.starts,
        ← Nat.add_assoc] at ha ⊢
      grind
  | @finish _ k _ s hk =>
      rw [starts_seq]
      cases k with
      | ifThen before c =>
          cases hk
          simp only [starts, Frame.before, Frame.leadStarts, base, Frame.leadSize, size,
            Stmt.starts, ← Nat.add_assoc] at ha ⊢
          grind
      | ifElse before c s =>
          cases hk
          simp only [starts, Frame.before, Frame.leadStarts, base, Frame.leadSize, size,
            Stmt.starts, ← Nat.add_assoc] at ha ⊢
          grind
      | whileDo before c =>
          cases hk
          simp only [starts, Frame.before, Frame.leadStarts, base, Frame.leadSize, size,
            Stmt.starts, ← Nat.add_assoc] at ha ⊢
          grind
      | repeatUntil before =>
          obtain ⟨c, rfl⟩ := hk
          simp only [starts, Frame.before, Frame.leadStarts, base, Frame.leadSize, size,
            Stmt.starts, Nat.add_zero] at ha ⊢
          grind
      | body before head =>
          obtain ⟨d, rfl⟩ := hk
          simp only [starts, Frame.before, Frame.leadStarts, base, Frame.leadSize, size,
            Stmt.starts] at ha ⊢
          grind

end Outline

theorem SourceMap.mem_push {m : SourceMap} {offset : Nat} {span : Span} {e : MapEntry}
    (h : e ∈ (m.push offset span).entries.toList) : e ∈ m.entries.toList ∨ e.offset = offset := by
  have hpush {es : Array MapEntry} (h : e ∈ (es.push ⟨offset, span⟩).toList) :
      e ∈ es.toList ∨ e.offset = offset := by
    simp only [Array.toList_push, List.mem_append, List.mem_singleton] at h
    obtain h | rfl := h
    · exact .inl h
    · exact .inr rfl
  unfold push at h
  split at h
  · split at h
    · obtain h | h := hpush h
      · rw [Array.toList_pop] at h
        exact .inl ((List.dropLast_sublist _).subset h)
      · exact .inr h
    · exact hpush h
  · exact hpush h

namespace Compiler

open Grammar

variable {f₀ f : Front} {fs : List Frame} {cur : Stmt} {s s' : Compiler}

/-- Entries of the source map are beginnings of statements. -/
def Mapped (fs : List Frame) (cur : Stmt) (s : Compiler) : Prop :=
  ∀ e ∈ s.sourceMap.entries.toList, e.offset ∈ Outline.starts fs cur

theorem Follows.advance (h : Follows fs cur s) (g : Front) : Follows fs cur (s.advance g []) where
  code := by rw [toList_advance, Code.bytes_nil, List.append_nil, h.code]
  blocks := h.blocks
  forward := h.forward
  loopStarts := h.loopStarts
  loopExits := h.loopExits
  exitCount := h.exitCount
  savedExits := h.savedExits
  fits := h.fits
  enclosed := h.enclosed

theorem Follows.withSourceMap (h : Follows fs cur s) (m : SourceMap) :
    Follows fs cur { s with sourceMap := m } :=
  { h with }

theorem controlStatement_ok {op : Opcode} {w : WordToken} {u : Unit} (h : Follows fs cur s)
    (hr : Reading f₀ fs cur f) (hw : Reserved ⟨op, .control⟩ f s.front)
    (hop : Keyword.coherent ⟨op, .control⟩ = true)
    (hok : controlStatement op w s = .ok u s') : Continues f₀ fs cur s s' := by
  unfold controlStatement at hok
  split at hok
  · exact ifStatement_ok h hr hw hok
  · exact elseStatement_ok h hr hw hok
  · exact endifStatement_ok h hr hw hok
  · exact whileStatement_ok h hr hw hok
  · exact wendStatement_ok h hr hw hok
  · exact repeatStatement_ok h hr hw hok
  · exact untilStatement_ok h hr hw hok
  · exact breakStatement_ok h hr hw hok
  · exact bodyStatement_ok true h hr hw hok
  · exact bodyStatement_ok false h hr hw hok
  · exact returnStatement_ok h hr hw hok
  · obtain rfl : op = .wordEnd := by
      simp only [Keyword.coherent, List.contains_eq_mem, List.mem_cons, List.not_mem_nil, or_false,
        decide_eq_true_eq] at hop
      grind
    exact endStatement_ok h hr hw hok

/-- A statement that begins with a word that is not reserved. -/
theorem namedStatement_ok {w : WordToken} {u : Unit} {c : Cursor} (h : Follows fs cur s)
    (hr : Reading f₀ fs cur f) (hw : f.cursor.word = (some w, c)) (hf : s.front = f.goto c)
    (hk : Keyword.lookup? w.bytes = none)
    (hok : (do
      let id ← intern w.bytes
      if ← symbol Symbol.equals then
        expression
        assign id w
      else
        let n ← arguments
        emitCall .callProc (← argumentCount n w) id : Compile Unit) s = .ok u s') :
    Continues f₀ fs cur s s' := by
  simp only [Action.bind_eq_ok, Action.ite_eq_ok, argumentCount_eq_ok] at hok
  obtain ⟨id, _, hi, equals, _, hsym, hok⟩ := hok
  obtain ⟨new, st, hst, rfl⟩ := intern_ok hi
  have hname : Name f id (s.front.withStore st) := by
    rw [hf]
    exact .mk hw hk ((congrArg (Store.intern w.bytes) (congrArg Front.store hf)).symm ▸ hst)
  obtain ⟨rfl, _, _, hexp, hassign⟩ | ⟨hne, n, _, hargs, _, _, ⟨hn, rfl, rfl⟩, hcall⟩ := hok
  · obtain ⟨g₁, hm, rfl⟩ := symbol_ok hsym
    obtain ⟨e, g₂, he, rfl⟩ := expression_ok hexp
    obtain ⟨p, g₃, ht, rfl⟩ := assign_ok hassign
    refine .append h hr (.assign hname hm he ht) ?_ (fun _ => trivial) (fun _ => rfl) trivial
      (fun _ => rfl)
    simp [Stmt.code]
  · obtain rfl : equals = false := by simpa using hne
    obtain ⟨g₁, hm, rfl⟩ := symbol_ok_false hsym
    obtain ⟨es, g₂, hes, rfl, rfl⟩ := arguments_ok hargs
    obtain rfl := emitCall_ok rfl hcall
    refine .append h hr (.perform hname hm hes hn) ?_ (fun _ => trivial) (fun _ => rfl) trivial
      (fun _ => rfl)
    simp [Stmt.code]

theorem statementAt_ok {w : WordToken} {u : Unit} {c : Cursor} (h : Follows fs cur s)
    (hr : Reading f₀ fs cur f) (hw : f.cursor.word = (some w, c)) (hf : s.front = f.goto c)
    (hok : statementAt w s = .ok u s') :
    Continues f₀ fs cur
      { s with sourceMap := s.sourceMap.push s.code.pos (s.source.span w.start w.stop) } s' := by
  simp only [statementAt, Action.bind_eq_ok, Action.modify_eq_ok] at hok
  obtain ⟨_, _, rfl, hok⟩ := hok
  replace h := h.withSourceMap (s.sourceMap.push s.code.pos (s.source.span w.start w.stop))
  cases hk : Keyword.lookup? w.bytes with
  | none =>
      rw [hk] at hok
      exact namedStatement_ok h hr hw hf hk hok
  | some k =>
      have hres : Reserved k f s.front := hf ▸ .mk hw hk
      have hcoh := Keyword.coherent_of_lookup? hk
      obtain ⟨op, cls⟩ := k
      rw [hk] at hok
      cases cls with
      | function n => simp [failAt_eq_ok] at hok
      | constant => simp [failAt_eq_ok] at hok
      | command =>
          obtain rfl : op = .stop := by simpa [Keyword.coherent] using hcoh
          exact .append h hr (.halt hres) (emitOp_ok rfl hok) (fun _ => trivial) (fun _ => rfl)
            trivial (fun _ => rfl)
      | listCommand =>
          obtain rfl : op = .print := by simpa [Keyword.coherent] using hcoh
          obtain ⟨es, g, hes, hlen, hs'⟩ := printStatement_ok hok
          exact .append h hr (.print hres hes hlen) hs' (fun _ => trivial) (fun _ => rfl) trivial
            (fun _ => rfl)
      | input =>
          obtain rfl : op = .input := by simpa [Keyword.coherent] using hcoh
          simp only [Action.bind_eq_ok, Action.get_eq_ok] at hok
          obtain ⟨_, _, ⟨rfl, rfl⟩, hok⟩ := hok
          obtain ⟨ps, g, hps, hs'⟩ := inputStatement_ok hok
          exact .append h hr (.input hres hps) hs' (fun _ => trivial) (fun _ => rfl) trivial
            (fun _ => rfl)
      | control => exact controlStatement_ok h hr hres hcoh hok

theorem Mapped.continue {s₁ : Compiler} {offset : Nat} {span : Span} {fs' : List Frame}
    {cur' : Stmt} (h : Follows fs cur s) (hm : Mapped fs cur s) (hoffset : offset = s.code.pos)
    (hstep : Outline.Step fs cur fs' cur') (hs : s₁.sourceMap = s.sourceMap.push offset span) :
    Mapped fs' cur' s₁ := by
  intro e he
  rw [hs] at he
  apply hstep.mem_starts
  obtain he | he := SourceMap.mem_push he
  · exact .inl (hm e he)
  · exact .inr (by rw [he, hoffset, ← h.size]; rfl)

/-- All the statements of a text. -/
theorem statements_ok {fuel : Nat} {u : Unit} (h : Follows fs cur s)
    (hr : Reading f₀ fs cur s.front) (hm : Mapped fs cur s)
    (hok : statements fuel s = .ok u s') :
    ∃ fs' cur' f', Follows fs' cur' s' ∧ Reading f₀ fs' cur' f' ∧ Mapped fs' cur' s' ∧
      f'.cursor.atEnd.1 = true ∧ f'.store = s'.store ∧ s'.code.capacity = s.code.capacity := by
  induction fuel generalizing fs cur s with
  | zero => simp [statements, failHere_eq_ok] at hok
  | succ fuel ih =>
      simp only [statements, Action.bind_eq_ok, Action.ite_eq_ok, Action.pure_eq_ok,
        failHere_eq_ok, and_false, exists_false, or_false] at hok
      obtain ⟨atEnd, _, hread, hok⟩ := hok
      obtain ⟨c, hc, rfl⟩ := read_ok hread
      obtain ⟨rfl, _, rfl⟩ | ⟨-, _, s₂, hst, semi, _, hsemi, rfl, hok⟩ := hok
      · exact ⟨fs, cur, s.front, h.advance _, hr, hm, congrArg Prod.fst hc, rfl, rfl⟩
      · obtain rfl : c = s.front.cursor.skipBlank := (congrArg Prod.snd hc).symm
        simp only [statement, Action.bind_eq_ok] at hst
        obtain ⟨word, _, hword, hst⟩ := hst
        obtain ⟨c, hc', rfl⟩ := read_ok hword
        cases word with
        | none => simp [failHere_eq_ok] at hst
        | some w =>
            rw [front_advance, Front.cursor_goto, Cursor.word_skipBlank] at hc'
            obtain ⟨fs', cur', hstep, hfollows, hreading, hmap, hcap⟩ :=
              statementAt_ok ((h.advance _).advance _) hr hc' rfl hst
            obtain ⟨g, hmark, rfl⟩ := symbol_ok hsemi
            have hpos : (s.code.code ++ Code.bytes [] ++ Code.bytes []).size = s.code.pos := by
              simp [CodeBuffer.pos]
            obtain ⟨fs'', cur'', f', h₁, h₂, h₃, h₄, h₅, h₆⟩ :=
              ih (hfollows.advance g) (hreading g hmark) (hm.continue h hpos hstep hmap) hok
            exact ⟨fs'', cur'', f', h₁, h₂, h₃, h₄, h₅, h₆.trans hcap⟩

end Compiler

/-! ### Programs -/

/-- The ranges that accepted limits keep. -/
structure Limits.Valid (l : Limits) : Prop where
  heapSize : 16 ≤ l.heapSize ∧ l.heapSize ≤ 65535
  codeSize : 1 ≤ l.codeSize ∧ l.codeSize ≤ 65535
  stackSize : 3 ≤ l.stackSize ∧ l.stackSize ≤ 65535
  identBuckets : Limits.isPowerOfTwo l.identBuckets = true
  maxSlots : 1 ≤ l.maxSlots ∧ l.maxSlots ≤ 255

theorem Limits.valid_of_validate {l : Limits} (h : l.validate = .ok ()) : l.Valid := by
  have range {field : String} {least most found : Nat}
      (h : checkRange field least most found = .ok ()) : least ≤ found ∧ found ≤ most := by
    unfold checkRange at h
    split at h
    · simp at h
    · simp_all
  have bind {x : Except Error Unit} {y : Unit → Except Error Unit} (h : (x >>= y) = .ok ()) :
      x = .ok () ∧ y () = .ok () := by
    cases x with
    | error e => simp [Bind.bind, Except.bind] at h
    | ok u => exact ⟨rfl, h⟩
  unfold validate at h
  obtain ⟨h₁, h⟩ := bind h
  obtain ⟨h₂, h⟩ := bind h
  obtain ⟨h₃, h⟩ := bind h
  by_cases hb : isPowerOfTwo l.identBuckets = true
  · simp only [hb, if_true] at h
    obtain ⟨h₄, h⟩ := bind h
    exact ⟨range h₁, range h₂, range h₃, hb, range h₄⟩
  · simp [hb, throw, throwThe, MonadExceptOf.throw, Bind.bind, Except.bind] at h

theorem Limits.buckets_pos {l : Limits} (h : l.validate = .ok ()) : 0 < l.identBuckets := by
  have hpower := (valid_of_validate h).identBuckets
  simp only [isPowerOfTwo, Bool.and_eq_true, bne_iff_ne] at hpower
  omega

/-- The code of a program is that of a tree, with `stop` behind it. -/
structure Program.IsCodeOf (p : Program) (t : Stmt) : Prop where
  code : p.code.toList = Code.bytes (t.code none 0 ++ [.plain .stop])
  size : p.code.size ≤ 65535
  fits : t.Fits none 0
  enclosed : t.Enclosed
  closed : t.breaks 0 = []
  starts : ∀ e ∈ p.sourceMap.entries.toList, e.offset ∈ t.starts 0

namespace Compiler

open Grammar

theorem follows_start (source : Source) (limits : Limits) :
    Follows [] .skip (start source limits) where
  code := rfl
  blocks := rfl
  forward := rfl
  loopStarts := rfl
  loopExits := rfl
  exitCount := rfl
  savedExits := rfl
  fits := trivial
  enclosed := ⟨trivial, rfl⟩

theorem program_ok {source : Source} {limits : Limits} {u : Unit} {s : Compiler}
    (h : program (start source limits) = .ok u s) :
    ∃ t, Reads source limits t s.store ∧
      s.code.code.toList = Code.bytes (t.code none 0 ++ [.plain .stop]) ∧
      s.code.code.size ≤ limits.codeSize ∧ t.Fits none 0 ∧ t.Enclosed ∧ t.breaks 0 = [] ∧
      ∀ e ∈ s.sourceMap.entries.toList, e.offset ∈ t.starts 0 := by
  simp only [program, Action.bind_eq_ok, Action.get_eq_ok] at h
  obtain ⟨_, _, ⟨rfl, rfl⟩, _, s₁, hst, _, _, ⟨rfl, rfl⟩, h⟩ := h
  have hnothing : Reading (Grammar.start source limits) [] .skip (Grammar.start source limits) :=
    .top .nil
  obtain ⟨fs, t, f, hfollows, hreading, hmapped, hend, hstore, hcap⟩ :=
    statements_ok (follows_start source limits) hnothing
      (by simp [Mapped, start, SourceMap.empty]) hst
  -- No block is left open: the outline is a tree.
  have hblocks : s₁.blocks.items = [] := by
    cases hb : s₁.blocks.items with
    | nil => rfl
    | cons b bs => simp [BoundedStack.top?, hb, Action.throw_eq_ok] at h
  obtain rfl : fs = [] := by simpa [hblocks] using hfollows.blocks.symm
  simp only [BoundedStack.top?, hblocks, List.head?_nil] at h
  have hsize := (emit_ok h).2
  obtain rfl := emitOp_ok rfl h
  cases hreading with
  | top hitems =>
      refine ⟨t, ⟨f, hitems, hend, hstore⟩, ?_, ?_, hfollows.fits, hfollows.enclosed.1,
        hfollows.enclosed.2, hmapped⟩
      · rw [toList_advance, hfollows.code, Code.bytes_append]
        rfl
      · rw [← show s₁.code.capacity = limits.codeSize from hcap]
        exact hsize

end Compiler

namespace Program

/-- Everything that compiles reads as a tree and is compiled to the code of that tree. -/
theorem compile_ok {source : Source} {limits : Limits} {p : Program}
    (h : compile source limits = .ok p) :
    limits.validate = .ok () ∧ p.code.size ≤ limits.codeSize ∧
      ∃ t, Grammar.Reads source limits t p.store ∧ p.IsCodeOf t := by
  unfold compile compileWith at h
  split at h
  · simp at h
  · rename_i hv
    split at h
    · simp at h
    · rename_i s hs
      split at h
      · simp at h
      · rename_i code hfinish
        cases h
        obtain ⟨t, hreads, hcode, hsize, hfits, henc, hclosed, hstarts⟩ := Compiler.program_ok hs
        obtain rfl : s.code.code = code := by
          unfold CodeBuffer.finish at hfinish
          split at hfinish
          · exact Except.ok.inj hfinish
          · simp at hfinish
        refine ⟨hv, hsize, t, hreads, hcode, ?_, hfits, henc, hclosed, hstarts⟩
        exact Nat.le_trans hsize (Limits.valid_of_validate hv).codeSize.2

end Program

/-- A text that compiles to a program with a property that can be tested. -/
theorem Program.exists_of_compile (source : Source) (limits : Limits) (test : Program → Bool)
    (h : (match compile source limits with
      | .ok p => test p
      | .error _ => false) = true) :
    ∃ p, compile source limits = .ok p ∧ test p = true := by
  cases hc : compile source limits with
  | ok p =>
      rw [hc] at h
      exact ⟨p, rfl, h⟩
  | error e =>
      rw [hc] at h
      cases h

end CellScript
