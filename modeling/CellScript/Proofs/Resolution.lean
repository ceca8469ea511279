import CellScript.Proofs.Chains
import CellScript.Proofs.Clauses
import CellScript.Proofs.Readings

/-!
What the names of an expression stand for.

A body has slots for its parameters and for the names that its statements give
values, and a name stands for its slot from the statement on that first does so.
Everywhere else it stands for the record of the store. `Place.IsFor` says this with
nothing but lists of names, and `Phrase.Compiles` gives the code of a phrase in these
terms.

The compiler has no such lists. It keeps the slot of a local in the record of its
name, which is the same record that all other bodies use for that name.
`Front.Knows` relates the two: the names that have been met have their records in the
table, and the locals of the open body are the names that its slots are for.
-/

namespace CellScript

/-! ### The code of a phrase -/

/-- Where a name is kept, if `slots` are the names of the slots in their order, and the names
`met` count as local. -/
inductive Place.IsFor (st : Store) (slots met : List (List UInt8)) (x : List UInt8) : Place → Prop
  | slot {k : UInt8} : x ∈ met → slots[k.toNat]? = some x → IsFor st slots met x (.slot k)
  | global {id : Ident} : (x ∈ met → x ∉ slots) → st.find? x = some id →
      IsFor st slots met x (.global id)

mutual

/-- The code of an expression: a variable is loaded from where it is kept, and a function is
called by its record. -/
inductive Phrase.Compiles (st : Store) (slots met : List (List UInt8)) : Phrase → Code → Prop
  | numeral {n : Phrase.Numeral} :
      Phrase.Compiles st slots met (.numeral n) [(Grammar.literalOfNumber n.value).instr]
  | quoted {q : Phrase.Quoted} {l : Literal} {s s' : Store} : q.resolve s = .ok l s' →
      Phrase.Compiles st slots met (.quoted q) [l.instr]
  | constant {w : Phrase.Constant} :
      Phrase.Compiles st slots met (.constant w) [.plain (if w.value then .litTrue else .litFalse)]
  | variable {x : Phrase.Name} {suffixes : Suffixes} {p : Place} {code : Code} :
      p.IsFor st slots met x.bytes → Suffixes.Compiles st slots met suffixes code →
      Phrase.Compiles st slots met (.variable x suffixes) (p.load :: code)
  | call {x : Phrase.Name} {args : List Phrase} {id : Ident} {code : Code} :
      st.find? x.bytes = some id → Phrase.AllCompile st slots met args code →
      Phrase.Compiles st slots met (.call x args)
        (code ++ [⟨.callFunc, UInt8.ofNat args.length, id.offset⟩])
  | builtin {g : Phrase.Function} {args : List Phrase} {code : Code} :
      Phrase.AllCompile st slots met args code →
      Phrase.Compiles st slots met (.builtin g args) (code ++ [.plain g.op])
  | group {e : Phrase} {code : Code} :
      Phrase.Compiles st slots met e code → Phrase.Compiles st slots met (.group e) code
  | array {elems : List Phrase} {code : Code} : Phrase.AllCompile st slots met elems code →
      Phrase.Compiles st slots met (.array elems)
        (code ++ [.withByte .array (UInt8.ofNat elems.length)])
  | unary {o : Phrase.Sign Operator.unary} {e : Phrase} {code : Code} :
      Phrase.Compiles st slots met e code →
      Phrase.Compiles st slots met (.unary o e) (code ++ [.plain o.operator.op])
  | binary {o : Phrase.Sign Operator.binary} {e e' : Phrase} {code code' : Code} :
      Phrase.Compiles st slots met e code → Phrase.Compiles st slots met e' code' →
      Phrase.Compiles st slots met (.binary o e e') (code ++ code' ++ [.plain o.operator.op])

/-- The code of indices and ranges. -/
inductive Suffixes.Compiles (st : Store) (slots met : List (List UInt8)) : Suffixes → Code → Prop
  | none : Suffixes.Compiles st slots met .none []
  | index {i : Phrase} {more : Suffixes} {code code' : Code} :
      Phrase.Compiles st slots met i code → Suffixes.Compiles st slots met more code' →
      Suffixes.Compiles st slots met (.index i more) (code ++ .plain .index :: code')
  | range {i j : Phrase} {more : Suffixes} {code code' code'' : Code} :
      Phrase.Compiles st slots met i code → Phrase.Compiles st slots met j code' →
      Suffixes.Compiles st slots met more code'' →
      Suffixes.Compiles st slots met (.range i j more)
        (code ++ code' ++ .plain .slice :: code'')

/-- The code of expressions one after the other. -/
inductive Phrase.AllCompile (st : Store) (slots met : List (List UInt8)) :
    List Phrase → Code → Prop
  | nil : Phrase.AllCompile st slots met [] []
  | cons {e : Phrase} {es : List Phrase} {code code' : Code} :
      Phrase.Compiles st slots met e code → Phrase.AllCompile st slots met es code' →
      Phrase.AllCompile st slots met (e :: es) (code ++ code')

end

/-! ### What is known at a place of the text -/

/-- The names are found, each with its record. -/
def Store.Finds (st : Store) (es : List Binding) : Prop := ∀ e ∈ es, st.find? e.name = some e.id

theorem Store.Finds.find? {st : Store} {es : List Binding} {x : List UInt8} {id : Ident}
    (h : st.Finds es) (he : ⟨x, id⟩ ∈ es) : st.find? x = some id := h _ he

theorem Store.Finds.mono {st : Store} {es es' : List Binding} (h : st.Finds es')
    (hes : ∀ e ∈ es, e ∈ es') : st.Finds es := fun e he => h e (hes e he)

/-- In a body, the names that have been met have the first slots. Outside there are no slots. -/
def Fits (inBody : Bool) (met slots : List (List UInt8)) : Prop :=
  if inBody then met.eraseDups <+: slots else slots = []

theorem List.eraseDups_prefix {α : Type} [BEq α] [LawfulBEq α] (xs ys : List α) :
    xs.eraseDups <+: (xs ++ ys).eraseDups := by
  rw [List.eraseDups_append]
  exact List.prefix_append _ _

theorem List.eraseDups_snoc {α : Type} [BEq α] [LawfulBEq α] {x : α} {xs : List α} :
    (xs ++ [x]).eraseDups = if x ∈ xs then xs.eraseDups else xs.eraseDups ++ [x] := by
  rw [List.eraseDups_append]
  split <;> simp_all [List.removeAll, List.eraseDups_cons]

theorem Fits.of_append {b : Bool} {met more slots : List (List UInt8)}
    (h : Fits b (met ++ more) slots) : Fits b met slots := by
  unfold Fits at *
  split
  · rename_i hb
    rw [if_pos hb] at h
    exact (List.eraseDups_prefix met more).trans h
  · rename_i hb
    rwa [if_neg hb] at h

namespace Front

/-- The names that have been met have their records, and some of them are the locals of the open
body, in the order in which they became local. -/
structure Knows (f : Front) (rs : List Record) (ds : List (Definition × Nat)) (a n : Nat)
    (es : List Binding) (inBody : Bool) (met : List (List UInt8)) : Prop where
  ok : f.Ok rs ds a n
  table : f.store.Table es
  records : ∀ e ∈ es, HasIdent rs e.id
  isSome : f.body.isSome = inBody
  opened : ∀ body, f.body = some body → ∃ x, ⟨x, body.id⟩ ∈ es
  locals : ∀ body, f.body = some body → ∃ ls : List Binding, (∀ e ∈ ls, e ∈ es) ∧
    ls.map Binding.id = body.locals ∧ ls.map Binding.name = met.eraseDups

variable {f f' : Front} {rs : List Record} {ds : List (Definition × Nat)} {a n : Nat}
  {es : List Binding} {b : Bool} {met : List (List UInt8)} {x : List UInt8} {id : Ident}

theorem Knows.congr (k : f.Knows rs ds a n es b met) (hstore : f'.store = f.store)
    (hbody : f'.body = f.body) (hmax : f'.maxSlots = f.maxSlots) :
    f'.Knows rs ds a n es b met := by
  have hf : f' = f.goto f'.cursor := by
    cases f
    cases f'
    cases hstore
    cases hbody
    cases hmax
    rfl
  rw [hf]
  exact ⟨k.ok.goto _, k.table, k.records, k.isSome, k.opened, k.locals⟩

/-- A name is one of the locals exactly if it has been met in the body. -/
theorem Knows.mem_locals (k : f.Knows rs ds a n es b met) (he : ⟨x, id⟩ ∈ es) {body : Body}
    (hb : f.body = some body) : id ∈ body.locals ↔ x ∈ met := by
  obtain ⟨ls, hls, hids, hnames⟩ := k.locals body hb
  rw [← hids, ← List.mem_eraseDups (a := x), ← hnames, List.mem_map, List.mem_map]
  constructor
  · rintro ⟨e, hmem, hid⟩
    exact ⟨e, hmem, congrArg Binding.name (k.table.eq_of_id (hls e hmem) he hid)⟩
  · rintro ⟨e, hmem, hname⟩
    exact ⟨e, hmem, congrArg Binding.id (k.table.eq_of_name (hls e hmem) he hname)⟩

/-- The slot in the record of a local is the one that its name has. -/
theorem Knows.slot (k : f.Knows rs ds a n es b met) (he : ⟨x, id⟩ ∈ es) {body : Body}
    (hb : f.body = some body) (hmem : id ∈ body.locals) :
    met.eraseDups[(f.store.heap.identSlot id).toNat]? = some x := by
  obtain ⟨ls, hls, hids, hnames⟩ := k.locals body hb
  obtain ⟨-, -, hlen, hlocals⟩ := k.ok.body body hb
  obtain ⟨hid, hne, hds⟩ := hlocals id hmem
  -- What is known of its record gives the slot as a position among the locals.
  have hentry := k.ok.others id hid hds
  simp only [expected, hb, if_neg hne, if_pos hmem] at hentry
  have hslot : f.store.heap.identSlot id = UInt8.ofNat (body.locals.idxOf id) :=
    congrArg Entry.slot hentry
  have hlt := List.idxOf_lt_length_iff.2 hmem
  have hmax := k.ok.maxSlots
  have hidx : (f.store.heap.identSlot id).toNat = body.locals.idxOf id := by
    rw [hslot, UInt8.toNat_ofNat']
    omega
  have hget := List.getElem_idxOf hlt
  rw [hidx, ← hnames]
  simp only [← hids, List.length_map, List.getElem_map] at hlt hget ⊢
  rw [List.getElem?_map, List.getElem?_eq_getElem hlt, Option.map_some,
    k.table.eq_of_id (hls _ (List.getElem_mem hlt)) he hget]

/-- A name that is read stands for the place that the lists of names give it. -/
theorem Knows.isFor (k : f.Knows rs ds a n es b met) (he : ⟨x, id⟩ ∈ es) {st : Store}
    {slots : List (List UInt8)} (hst : st.Finds es) (hfits : Fits b met slots) :
    (Place.ofName f.body f.store.heap id).IsFor st slots met x := by
  have hfind := hst.find? he
  have hb := k.isSome
  unfold Place.ofName
  cases hbody : f.body with
  | none =>
      rw [hbody] at hb
      obtain rfl : slots = [] := by simpa [Fits, ← hb] using hfits
      exact .global (by simp) hfind
  | some body =>
      rw [hbody] at hb
      have hprefix : met.eraseDups <+: slots := by simpa [Fits, ← hb] using hfits
      by_cases hmem : id ∈ body.locals
      · simp only [List.contains_eq_mem, hmem, decide_true, if_true]
        refine .slot ((k.mem_locals he hbody).1 hmem) ?_
        obtain ⟨more, rfl⟩ := hprefix
        have hslot := k.slot he hbody hmem
        rw [List.getElem?_append_left (List.getElem?_eq_some_iff.1 hslot).1]
        exact hslot
      · simp only [List.contains_eq_mem, hmem, decide_false]
        exact .global (fun hmet => absurd ((k.mem_locals he hbody).2 hmet) hmem) hfind

/-! ### From one place to a later one -/

/-- Between the two places the names `more` are met in the body. Whatever the final store and the
final list of slots are, the code of what stands between is the right one. -/
def Tells (f f' : Front) (more : List (List UInt8))
    (C : Store → List (List UInt8) → List (List UInt8) → Prop) : Prop :=
  ∀ ⦃rs ds a n es b met⦄, f.Knows rs ds a n es b met →
    ∃ rs' es', f'.Knows rs' ds a n es' b (met ++ more) ∧ (∀ e ∈ es, e ∈ es') ∧
      ∀ st slots, Store.Finds st es' → Fits b (met ++ more) slots → C st slots met

variable {g : Front} {more more' : List (List UInt8)}
  {C C' : Store → List (List UInt8) → List (List UInt8) → Prop}

theorem Tells.imp (h : f.Tells g more C) (hC : ∀ st slots met, C st slots met → C' st slots met) :
    f.Tells g more C' := by
  intro rs ds a n es b met k
  obtain ⟨rs', es', k', hes, hcode⟩ := h k
  exact ⟨rs', es', k', hes, fun st slots hst hfits => hC _ _ _ (hcode st slots hst hfits)⟩

theorem Tells.trans (h : f.Tells g more C) (h' : g.Tells f' more' C') :
    f.Tells f' (more ++ more') fun st slots met =>
      C st slots met ∧ C' st slots (met ++ more) := by
  intro rs ds a n es b met k
  obtain ⟨rs₁, es₁, k₁, hes₁, hcode₁⟩ := h k
  obtain ⟨rs₂, es₂, k₂, hes₂, hcode₂⟩ := h' k₁
  rw [List.append_assoc] at k₂ hcode₂
  refine ⟨rs₂, es₂, k₂, fun e he => hes₂ e (hes₁ e he), fun st slots hst hfits => ⟨?_, ?_⟩⟩
  · rw [← List.append_assoc] at hfits
    exact hcode₁ st slots (hst.mono hes₂) hfits.of_append
  · exact hcode₂ st slots hst hfits

/-- Nothing is met in the first part. -/
theorem Tells.andThen (h : f.Tells g [] C) (h' : g.Tells f' more C') :
    f.Tells f' more fun st slots met => C st slots met ∧ C' st slots met :=
  (h.trans h').imp fun st slots met hc => by rwa [List.append_nil] at hc

theorem tells_quiet (hstore : f'.store = f.store) (hbody : f'.body = f.body)
    (hmax : f'.maxSlots = f.maxSlots) : f.Tells f' [] fun _ _ _ => True := by
  intro rs ds a n es b met k
  rw [List.append_nil]
  exact ⟨rs, es, k.congr hstore hbody hmax, fun _ he => he, fun _ _ _ _ => trivial⟩

/-- A name is read. -/
theorem Knows.intern (k : f.Knows rs ds a n es b met) {new : Bool} {s : Store}
    (hi : Store.intern x f.store = .ok (id, new) s) :
    ∃ rs' es', (f.withStore s).Knows rs' ds a n es' b met ∧ (∀ e ∈ es, e ∈ es') ∧
      ⟨x, id⟩ ∈ es' := by
  obtain ⟨rs', hst, hr, hid, hold, hnew⟩ := k.ok.store.intern hi
  have hok := k.ok.withStore s hst hr hold hnew
  rcases k.table.interns x with ⟨he, hi'⟩ | ⟨-, -, -, hi', -, -, htable, -⟩ | ⟨-, -, hi'⟩ |
    ⟨-, -, -, hi'⟩ <;> rw [hi'] at hi <;> cases hi
  · exact ⟨rs', es, ⟨hok, k.table, fun e he => (k.records e he).mono hr, k.isSome, k.opened,
      k.locals⟩, fun _ he => he, he⟩
  · refine ⟨rs', _, ⟨hok, htable, fun e he => ?_, k.isSome, fun body hb => ?_, fun body hb => ?_⟩,
      fun e he => List.mem_append_left _ he, by simp⟩
    · obtain he | he := List.mem_append.1 he
      · exact (k.records e he).mono hr
      · rw [List.mem_singleton.1 he]
        exact hid
    · obtain ⟨y, hy⟩ := k.opened body hb
      exact ⟨y, List.mem_append_left _ hy⟩
    · obtain ⟨ls, hls, hlocals⟩ := k.locals body hb
      exact ⟨ls, fun e he => List.mem_append_left _ (hls e he), hlocals⟩

theorem tells_intern {new : Bool} {s : Store} (hi : Store.intern x f.store = .ok (id, new) s) :
    f.Tells (f.withStore s) [] fun st slots met => st.find? x = some id ∧
      (Place.ofName f.body s.heap id).IsFor st slots met x := by
  intro rs ds a n es b met k
  obtain ⟨rs', es', k', hes, he⟩ := k.intern hi
  rw [List.append_nil]
  exact ⟨rs', es', k', hes, fun st slots hst hfits => ⟨hst.find? he, k'.isFor he hst hfits⟩⟩

/-- A string literal is read. -/
theorem tells_quoted {q : Phrase.Quoted} {l : Literal} {s : Store}
    (h : q.resolve f.store = .ok l s) : f.Tells (f.withStore s) [] fun _ _ _ => True := by
  have hquiet : f.Tells (f.withStore f.store) [] fun _ _ _ => True := tells_quiet rfl rfl rfl
  unfold Phrase.Quoted.resolve at h
  generalize q.length = length at h
  -- The empty text and a single character need no block of the heap.
  rcases length with _ | _ | n
  · obtain ⟨rfl, rfl⟩ := Action.pure_eq_ok.1 h
    exact hquiet
  · obtain ⟨rfl, rfl⟩ := Action.pure_eq_ok.1 h
    exact hquiet
  · simp only [Action.bind_eq_ok, Action.pure_eq_ok, Store.onHeap] at h
    obtain ⟨o, s₁, halloc, rfl, rfl⟩ := h
    cases ha : Heap.allocStr (StringLiteral.unescape q.raw) f.store.heap with
    | error e heap =>
        rw [ha] at halloc
        cases halloc
    | ok o' heap =>
        rw [ha] at halloc
        cases halloc
        intro rs ds a n es b met k
        obtain ⟨hst, hr, hold, hnew⟩ := k.ok.store.allocStr ha
        have hmade := (Heap.allocStr_made ha).1
        rw [List.append_nil]
        exact ⟨_, es, ⟨k.ok.withStore _ hst hr hold fun id hid => .inl (hnew id hid),
          k.table.grows hmade.grows hmade.size hmade.reach,
          fun e he => (k.records e he).mono hr, k.isSome, k.opened, k.locals⟩, fun _ he => he,
          fun _ _ _ _ => trivial⟩

end Front

/-! ### Expressions -/

theorem Phrase.length_resolveAll {body : Option Body} : ∀ {ts : List Phrase} {es : List Expr}
    {s s' : Store}, Phrase.resolveAll body ts s = .ok es s' → es.length = ts.length
  | [], es, s, s', h => by
      obtain ⟨rfl, -⟩ := Action.pure_eq_ok.1 h
      rfl
  | t :: ts, es, s, s', h => by
      simp only [Phrase.resolveAll, Action.bind_eq_ok, Action.pure_eq_ok] at h
      obtain ⟨e, s₁, -, es', s₂, h, rfl, -⟩ := h
      rw [List.length_cons, List.length_cons, length_resolveAll h]

mutual

/-- The code of an expression is the one that its phrase has. -/
theorem Phrase.tells {f : Front} : ∀ {t : Phrase} {e : Expr} {s : Store},
    t.resolve f.body f.store = .ok e s →
    f.Tells (f.withStore s) [] fun st slots met => t.Compiles st slots met e.code
  | .numeral n, e, s, h => by
      obtain ⟨rfl, rfl⟩ := Action.pure_eq_ok.1 h
      exact (Front.tells_quiet rfl rfl rfl).imp fun _ _ _ _ => .numeral
  | .quoted q, e, s, h => by
      simp only [Phrase.resolve, Action.bind_eq_ok, Action.pure_eq_ok] at h
      obtain ⟨l, s₁, hq, rfl, rfl⟩ := h
      exact (Front.tells_quoted hq).imp fun _ _ _ _ => .quoted hq
  | .constant w, e, s, h => by
      obtain ⟨rfl, rfl⟩ := Action.pure_eq_ok.1 h
      exact (Front.tells_quiet rfl rfl rfl).imp fun _ _ _ _ => .constant
  | .variable x suffixes, e, s, h => by
      simp only [Phrase.resolve, Action.bind_eq_ok, Action.get_eq_ok] at h
      obtain ⟨⟨id, new⟩, s₁, hi, _, _, ⟨rfl, rfl⟩, h⟩ := h
      -- The place is settled where the name stands; its suffixes cannot change it.
      refine ((Front.tells_intern hi).andThen (Suffixes.tells (f := f.withStore s₁) h)).imp
        fun st slots met hc => ?_
      obtain ⟨⟨-, hp⟩, code, hcode, hsuffixes⟩ := hc
      rw [hcode]
      exact .variable hp hsuffixes
  | .call x args, e, s, h => by
      simp only [Phrase.resolve, Action.bind_eq_ok, Action.pure_eq_ok] at h
      obtain ⟨⟨id, new⟩, s₁, hi, es, s₂, h, rfl, rfl⟩ := h
      refine ((Front.tells_intern hi).andThen (Phrase.tellsAll (f := f.withStore s₁) h)).imp
        fun st slots met hc => ?_
      rw [Expr.code, Phrase.length_resolveAll h]
      exact .call hc.1.1 hc.2
  | .builtin g args, e, s, h => by
      simp only [Phrase.resolve, Action.bind_eq_ok, Action.pure_eq_ok] at h
      obtain ⟨es, s₁, h, rfl, rfl⟩ := h
      exact (Phrase.tellsAll h).imp fun st slots met hc => .builtin hc
  | .group t, e, s, h => (Phrase.tells (t := t) h).imp fun _ _ _ hc => .group hc
  | .array elems, e, s, h => by
      simp only [Phrase.resolve, Action.bind_eq_ok, Action.pure_eq_ok] at h
      obtain ⟨es, s₁, h, rfl, rfl⟩ := h
      refine (Phrase.tellsAll h).imp fun st slots met hc => ?_
      rw [Expr.code, Phrase.length_resolveAll h]
      exact .array hc
  | .unary o t, e, s, h => by
      simp only [Phrase.resolve, Action.bind_eq_ok, Action.pure_eq_ok] at h
      obtain ⟨e', s₁, h, rfl, rfl⟩ := h
      refine (Phrase.tells h).imp fun st slots met hc => ?_
      simp only [Expr.code, Expr.codeAll, List.append_nil]
      exact .unary hc
  | .binary o t t', e, s, h => by
      simp only [Phrase.resolve, Action.bind_eq_ok, Action.pure_eq_ok] at h
      obtain ⟨e₁, s₁, h, e₂, s₂, h', rfl, rfl⟩ := h
      refine ((Phrase.tells h).andThen (Phrase.tells (f := f.withStore s₁) h')).imp
        fun st slots met hc => ?_
      simp only [Expr.code, Expr.codeAll, List.append_nil]
      exact .binary hc.1 hc.2

theorem Suffixes.tells {f : Front} : ∀ {t : Suffixes} {e e' : Expr} {s : Store},
    t.resolve f.body e f.store = .ok e' s →
    f.Tells (f.withStore s) [] fun st slots met =>
      ∃ code, e'.code = e.code ++ code ∧ t.Compiles st slots met code
  | .none, e, e', s, h => by
      obtain ⟨rfl, rfl⟩ := Action.pure_eq_ok.1 h
      exact (Front.tells_quiet rfl rfl rfl).imp fun _ _ _ _ => ⟨[], by simp, .none⟩
  | .index i more, e, e', s, h => by
      simp only [Suffixes.resolve, Action.bind_eq_ok] at h
      obtain ⟨e₁, s₁, hi, h⟩ := h
      refine ((Phrase.tells hi).andThen (Suffixes.tells (f := f.withStore s₁) h)).imp
        fun st slots met hc => ?_
      obtain ⟨hindex, code, hcode, hmore⟩ := hc
      refine ⟨_, ?_, .index hindex hmore⟩
      rw [hcode]
      simp [Expr.code, Expr.codeAll]
  | .range i j more, e, e', s, h => by
      simp only [Suffixes.resolve, Action.bind_eq_ok] at h
      obtain ⟨e₁, s₁, hi, e₂, s₂, hj, h⟩ := h
      refine ((Phrase.tells hi).andThen ((Phrase.tells (f := f.withStore s₁) hj).andThen
        (Suffixes.tells (f := f.withStore s₂) h))).imp fun st slots met hc => ?_
      obtain ⟨hfrom, hto, code, hcode, hmore⟩ := hc
      refine ⟨_, ?_, .range hfrom hto hmore⟩
      rw [hcode]
      simp [Expr.code, Expr.codeAll]

theorem Phrase.tellsAll {f : Front} : ∀ {ts : List Phrase} {es : List Expr} {s : Store},
    Phrase.resolveAll f.body ts f.store = .ok es s →
    f.Tells (f.withStore s) [] fun st slots met =>
      Phrase.AllCompile st slots met ts (Expr.codeAll es)
  | [], es, s, h => by
      obtain ⟨rfl, rfl⟩ := Action.pure_eq_ok.1 h
      exact (Front.tells_quiet rfl rfl rfl).imp fun _ _ _ _ => .nil
  | t :: ts, es, s, h => by
      simp only [Phrase.resolveAll, Action.bind_eq_ok, Action.pure_eq_ok] at h
      obtain ⟨e, s₁, ht, es', s₂, hts, rfl, rfl⟩ := h
      exact ((Phrase.tells ht).andThen (Phrase.tellsAll (f := f.withStore s₁) hts)).imp
        fun st slots met hc => .cons hc.1 hc.2

end

end CellScript
