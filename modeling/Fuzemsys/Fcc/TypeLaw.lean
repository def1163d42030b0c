import Fuzemsys.Fcc.TypeRuns

/-!
# Codes are canonical

The invariant ties the stack of declarators to what the source text said. Each step
keeps it, and from it come the two parts of the law.
-/

open Fuzemsys.Lib

namespace Fuzemsys.Fcc.SymTab

attribute [local simp] stepTypes

/-! ## The invariant -/

/-- An entry of the stack is the level that was read. -/
def SpelledLevel (t : Table) (d : Declstack) : Level → Prop
  | .simple ptr => d.form = .simple ∧ d.ptr = ptr
  | .array ptr dim => d.form = .array ∧ d.ptr = ptr ∧ d.list = arrayIdx dim ∧ dim.length ≤ 7
  | .function ptr args =>
    d.form = .function ∧ d.ptr = ptr ∧ ∃ tplt, argList t args = some tplt ∧ tplt.length ≤ 32 ∧ d.list = argIdx tplt

def SpelledBy (t : Table) : List Declstack → Levels → Prop
  | [], .nil => True
  | d :: ds, .add inner level => SpelledLevel t d level ∧ SpelledBy t ds inner
  | _, _ => False

structure ParseOk (t : Table) (p : TypeParse) : Prop where
  ltop : p.ltop ≤ t.last_sym
  base : Valid t p.base
  decls : p.type = none → SpelledBy t p.decls p.spelled
  tplt : ∀ tplt, p.tplt = some tplt → tplt.length ≤ 32 ∧ argList t p.args = some tplt
  type : ∀ type, p.type = some type → Valid t type ∧ typeOf t p.spelled p.base = some type

structure MadeOk (t : Table) (m : Made) : Prop where
  class_ok : TypeClass m.storage
  sized : Sized m.list
  short : m.storage = S_ARRAY → m.list.length ≤ 8
  lookup : lookupType t m.storage m.rtype m.list = some m.code

structure TypesInv (s : Types) : Prop where
  types : TypesOk s.tab
  waits : WaitsOk s.tab s.decls
  parses : ∀ p ∈ s.parses, ParseOk s.tab p
  blocks : ∀ top ∈ s.blocks, top ≤ s.tab.last_sym
  made : ∀ m ∈ s.made, MadeOk s.tab m
  parsed : ∀ d ∈ s.parsed, typeOf s.tab d.levels d.base = some d.type

section Grows

variable {t t' : Table}

theorem SpelledBy.grows (h : Grows t t') {ds : List Declstack} {levels : Levels} (hs : SpelledBy t ds levels) :
    SpelledBy t' ds levels := by
  induction ds generalizing levels with
  | nil =>
    cases levels with
    | nil => trivial
    | add inner level => exact hs
  | cons d ds ih =>
    cases levels with
    | nil => exact hs
    | add inner level =>
      obtain ⟨hlevel, hrest⟩ := hs
      refine ⟨?_, ih hrest⟩
      cases level with
      | simple ptr => exact hlevel
      | array ptr dim => exact hlevel
      | function ptr args =>
        obtain ⟨hform, hptr, tplt, htplt, hrest⟩ := hlevel
        exact ⟨hform, hptr, tplt, h.argList args htplt, hrest⟩

theorem ParseOk.grows (h : Grows t t') {p : TypeParse} (hp : ParseOk t p) : ParseOk t' p where
  ltop := hp.ltop.trans h.last
  base := hp.base.grows h
  decls := fun hnone => (hp.decls hnone).grows h
  tplt := fun tplt htplt => ⟨(hp.tplt tplt htplt).1, h.argList p.args (hp.tplt tplt htplt).2⟩
  type := fun type htype => ⟨(hp.type type htype).1.grows h, h.typeOf p.spelled (hp.type type htype).2⟩

theorem MadeOk.grows (h : Grows t t') {m : Made} (hm : MadeOk t m) : MadeOk t' m :=
  ⟨hm.class_ok, hm.sized, hm.short, h.lookup _ _ _ _ hm.class_ok hm.sized hm.lookup⟩

end Grows

section Inv

variable {s : Types} {t' : Table}

theorem TypesInv.setTab (h : TypesInv s) (hok : TypesOk t') (hw : WaitsOk t' s.decls) (hg : Grows s.tab t') :
    TypesInv { s with tab := t' } where
  types := hok
  waits := hw
  parses := fun p hp => (h.parses p hp).grows hg
  blocks := fun top htop => (h.blocks top htop).trans hg.last
  made := fun m hm => (h.made m hm).grows hg
  parsed := fun d hd => hg.typeOf d.levels (h.parsed d hd)

theorem TypesInv.kept (h : TypesInv s) (hk : Kept s.tab t') : TypesInv { s with tab := t' } :=
  h.setTab (hk.typesOk h.types) (hk.waits h.types h.waits) (hk.grows h.types)

theorem TypesInv.setParses {parses : List TypeParse} (h : TypesInv s)
    (hw : WaitsOk s.tab (parses.flatMap TypeParse.decls)) (hp : ∀ p ∈ parses, ParseOk s.tab p) :
    TypesInv { s with parses := parses } :=
  ⟨h.types, hw, hp, h.blocks, h.made, h.parsed⟩

/-- A change of the innermost parse that leaves its stack alone. -/
theorem TypesInv.setParse {p : TypeParse} {rest : List TypeParse} (h : TypesInv s) (p' : TypeParse)
    (hparses : s.parses = p :: rest)
    (hdecls : p'.decls = p.decls) (hp : ParseOk s.tab p → ParseOk s.tab p') :
    TypesInv { s with parses := p' :: rest } := by
  apply h.setParses
  · have hw := h.waits
    unfold Types.decls at hw
    rw [hparses, List.flatMap_cons] at hw
    rwa [List.flatMap_cons, hdecls]
  · intro q hq
    rcases List.mem_cons.mp hq with rfl | hq
    · exact hp (h.parses p (by rw [hparses]; exact List.mem_cons_self))
    · exact h.parses q (by rw [hparses]; exact List.mem_cons_of_mem _ hq)

/-- A new parse, with an empty stack. -/
theorem TypesInv.push {base : Word} (h : TypesInv s) (hbase : Valid s.tab base) :
    TypesInv { s with
      parses := { ltop := markLocalSymbols s.tab, base := base, decls := [], tplt := none, type := none,
                  spelled := .nil, args := .nil } :: s.parses } := by
  apply h.setParses
  · exact h.waits
  · intro q hq
    rcases List.mem_cons.mp hq with rfl | hq
    · refine ⟨h.types.top_le, hbase, fun _ => trivial, ?_, ?_⟩
      · rintro _ ⟨⟩
      · rintro _ ⟨⟩
    · exact h.parses q hq

end Inv

/-! ## Levels -/

/-- A level joins the stack of the innermost parse. -/
theorem declaratorAdd_inv {s s' : Types} {p : TypeParse} {rest : List TypeParse} {d : Declstack} {l : Level}
    (h : TypesInv s) (p' : TypeParse) (hparses : s.parses = p :: rest) (hsame : p'.decls = p.decls ∧ p'.type = p.type)
    (hp : ParseOk s.tab p → ParseOk s.tab p') (hlevel : SpelledLevel s.tab d l)
    (hcan : d.form ≠ .simple → Canonical s.tab s.decls d.form.storage d.list d.idx)
    (hstep : declaratorAdd s p' rest d l = some s') : TypesInv s' := by
  unfold declaratorAdd at hstep
  split_ifs at hstep with hfatal
  obtain rfl := Option.some.inj hstep
  have hmem : p ∈ s.parses := by
    rw [hparses]
    exact List.mem_cons_self
  have hok := hp (h.parses p hmem)
  have hnone : p'.type = none := by
    cases htype : p'.type with
    | none => rfl
    | some type => exact absurd (.inl (by rw [htype]; rfl)) hfatal
  apply h.setParses
  · have hw := h.waits.cons hcan
    unfold Types.decls at hw
    rw [hparses, List.flatMap_cons] at hw
    rw [List.flatMap_cons, hsame.1]
    exact hw
  · intro q hq
    rcases List.mem_cons.mp hq with rfl | hq
    · refine ⟨hok.ltop, hok.base, fun _ => ⟨hlevel, hok.decls hnone⟩, hok.tplt, ?_⟩
      intro type htype
      have htype : p'.type = some type := htype
      rw [hnone] at htype
      cases htype
    · exact h.parses q (by rw [hparses]; exact List.mem_cons_of_mem _ hq)

/-- The condition on what is interned, without existentials. -/
theorem InternGood.cases {s : Types} {storage : Word} {idx : List Word} (h : InternGood s storage idx) :
    (∃ i, HasIdx s.tab storage idx i) ∨ ∀ d ∈ s.decls, d.form.storage = storage → d.list ≠ idx := by
  rcases h with hhas | hnot
  · exact .inl hhas
  · exact .inr fun d hd hstor hlist => hnot ⟨d, hd, hstor, hlist⟩

/-! ## Unwinding -/

/-- One turn makes the type of its level. -/
theorem unwindLevel_inv {t t' : Table} {decls : List Declstack} {d : Declstack} {l : Level} {type code : Word}
    (hok : TypesOk t) (hw : WaitsOk t decls) (hd : d ∈ decls) (hlevel : SpelledLevel t d l) (hvalid : Valid t type)
    (h : unwindLevel t type d = .ok (code, t')) :
    TypesOk t' ∧ WaitsOk t' decls ∧ Grows t t' ∧ Valid t' code ∧ levelType t' l type = some code ∧
      ∀ m ∈ madeBy type d code, MadeOk t' m := by
  have hkept : Kept t (if 7 < PTR type + d.ptr then indirections t else t) := by
    split_ifs
    · exact kept_error hok.toTabOk _
    · exact Kept.refl hok.toTabOk
  have hok1 := hkept.typesOk hok
  have hw1 := hkept.waits hok hw
  have hg1 := hkept.grows hok
  unfold unwindLevel at h
  simp only at h
  cases l with
  | simple ptr =>
    obtain ⟨hform, rfl⟩ := hlevel
    simp only [hform] at h
    obtain ⟨rfl, rfl⟩ := Prod.mk.inj (Except.ok.inj h)
    refine ⟨hok1, hw1, hg1, (hvalid.addpointer d.ptr).grows hg1, rfl, ?_⟩
    intro m hm
    simp [madeBy, hform] at hm
  | array ptr dim =>
    obtain ⟨hform, rfl, hlist, hlen⟩ := hlevel
    have hne : d.form ≠ .simple := by
      rw [hform]
      decide
    have hcan := hw1.canonical hd hne
    simp only [hform, Form.storage] at h hcan
    have hmade := makeArray_made hok1 hw1 hcan h
    refine ⟨hmade.types, hmade.waits, hg1.trans hmade.grows, hmade.valid, ?_, ?_⟩
    · simp only [levelType, hlen, if_true]
      rw [← hlist]
      exact hmade.lookup
    · intro m hm
      simp only [madeBy, hform, List.mem_singleton, Form.storage] at hm
      subst hm
      exact ⟨.inr rfl, hcan.block.1, hcan.short, hmade.lookup⟩
  | function ptr args =>
    obtain ⟨hform, rfl, tplt, htplt, hlen, hlist⟩ := hlevel
    have hne : d.form ≠ .simple := by
      rw [hform]
      decide
    have hcan := hw1.canonical hd hne
    simp only [hform, Form.storage] at h hcan
    have hmade := makeFunction_made hok1 hw1 hcan h
    have hg := hg1.trans hmade.grows
    refine ⟨hmade.types, hmade.waits, hg, hmade.valid, ?_, ?_⟩
    · simp only [levelType, hg.argList args htplt, Option.bind_some, hlen, if_true]
      rw [← hlist]
      exact hmade.lookup
    · intro m hm
      simp only [madeBy, hform, List.mem_singleton, Form.storage] at hm
      subst hm
      exact ⟨.inl rfl, hcan.block.1, hcan.short, hmade.lookup⟩

/-- The loop makes the type of the declarator. -/
theorem unwindLoop_inv {decls ds : List Declstack} {levels : Levels} {t t' : Table} {type code : Word}
    {made made' : List Made} (hok : TypesOk t) (hw : WaitsOk t decls) (hsub : ds ⊆ decls)
    (hspell : SpelledBy t ds levels) (hvalid : Valid t type) (hmade : ∀ m ∈ made, MadeOk t m)
    (h : unwindLoop t type made ds = .ok (code, t', made')) :
    TypesOk t' ∧ WaitsOk t' decls ∧ Grows t t' ∧ Valid t' code ∧ typeOf t' levels type = some code ∧
      ∀ m ∈ made', MadeOk t' m := by
  induction ds generalizing levels t type made with
  | nil =>
    cases levels with
    | add inner level => exact hspell.elim
    | nil =>
      simp only [unwindLoop] at h
      obtain ⟨rfl, hrest⟩ := Prod.mk.inj (Except.ok.inj h)
      obtain ⟨rfl, rfl⟩ := Prod.mk.inj hrest
      exact ⟨hok, hw, Grows.refl t, hvalid, rfl, hmade⟩
  | cons d ds ih =>
    cases levels with
    | nil => exact hspell.elim
    | add inner level =>
      obtain ⟨hlevel, hinner⟩ := hspell
      simp only [unwindLoop] at h
      split at h
      · cases h
      · next code1 t1 hunwind =>
        obtain ⟨hok1, hw1, hg1, hvalid1, htype1, hmade1⟩ :=
          unwindLevel_inv hok hw (hsub List.mem_cons_self) hlevel hvalid hunwind
        have hall : ∀ m ∈ madeBy type d code1 ++ made, MadeOk t1 m := by
          intro m hm
          rcases List.mem_append.mp hm with hm | hm
          · exact hmade1 m hm
          · exact (hmade m hm).grows hg1
        obtain ⟨hok2, hw2, hg2, hvalid2, htype2, hmade2⟩ :=
          ih hok1 hw1 (fun x hx => hsub (List.mem_cons_of_mem _ hx)) (hinner.grows hg1) hvalid1 hall h
        refine ⟨hok2, hw2, hg1.trans hg2, hvalid2, ?_, hmade2⟩
        simp only [typeOf, hg2.levelType level htype1, Option.bind_some]
        exact htype2

/-! ## Each step -/

section Steps

variable {s s' : Types}

theorem passedType_eq {t : Table} {type : Word} (h : Valid t type) :
    passedType t type = some (argumentType t type).1 := by
  unfold passedType argumentType
  split_ifs with hvoid hobject harr
  · rfl
  · have hcint : functionPointer CINT = CINT := by decide
    have hnot : ¬ IS_ARRAY CINT := by decide
    unfold typeCanonical
    rw [if_neg hnot, hcint]
  · unfold elemType typeCanonical
    rw [if_pos (h harr), if_pos harr, Option.map_some]
  · unfold typeCanonical
    rw [if_neg harr]

theorem array_inv {ptr : Nat} {dim : List Word} (h : TypesInv s) (hgood : TypeGood s (.array ptr dim))
    (hstep : stepTypes s (.array ptr dim) = some s') : TypesInv s' := by
  obtain ⟨hlen, hintern⟩ := hgood
  have hnot : ¬ 8 < dim.length := by omega
  have htake : dim.take 8 = dim := List.take_of_length_le (by omega)
  simp only [stepTypes] at hstep
  split at hstep
  · next p rest hparses =>
    rw [if_neg hnot, htake] at hstep
    split at hstep
    · cases hstep
    · next idx t hfind =>
      have hshort : S_ARRAY = S_ARRAY → (arrayIdx dim).length ≤ 8 := by
        intro _
        simp only [arrayIdx, List.length_cons]
        omega
      obtain ⟨hkept, hcan⟩ := symFindIdx_inv h.types (.inr rfl) h.waits (sized_arrayIdx hlen) hshort
        hintern.cases hfind
      have hlevel : SpelledLevel t { form := .array, ptr := ptr, idx := idx, list := arrayIdx dim }
          (.array ptr dim) := ⟨rfl, rfl, rfl, hlen⟩
      exact declaratorAdd_inv (h.kept hkept) p hparses ⟨rfl, rfl⟩ id hlevel (fun _ => hcan) hstep
  · cases hstep

theorem endArgs_inv {ptr : Nat} (h : TypesInv s) (hgood : TypeGood s (.endArgs ptr))
    (hstep : stepTypes s (.endArgs ptr) = some s') : TypesInv s' := by
  simp only [stepTypes] at hstep
  split at hstep
  · next p rest hparses =>
    have hp := h.parses p (by rw [hparses]; exact List.mem_cons_self)
    split at hstep
    · next tplt htplt =>
      obtain ⟨hlen, hargs⟩ := hp.tplt tplt htplt
      have hintern := hgood p rest tplt hparses htplt
      have hshort : S_FUNCDEF = S_ARRAY → (argIdx tplt).length ≤ 8 := fun heq => absurd heq (by decide)
      split at hstep
      · cases hstep
      · next idx t hfind =>
        obtain ⟨hkept, hcan⟩ := symFindIdx_inv h.types (.inl rfl) h.waits (sized_argIdx hlen) hshort
          hintern.cases hfind
        have hargs' := (hkept.grows h.types).argList p.args hargs
        have hlevel : SpelledLevel t { form := .function, ptr := ptr, idx := idx, list := argIdx tplt }
            (.function ptr p.args) := ⟨rfl, rfl, tplt, hargs', hlen, rfl⟩
        refine declaratorAdd_inv (h.kept hkept) { p with tplt := none } hparses ⟨rfl, rfl⟩ ?_ hlevel
          (fun _ => hcan) hstep
        intro hold
        refine ⟨hold.ltop, hold.base, hold.decls, ?_, hold.type⟩
        rintro _ ⟨⟩
    · cases hstep
  · cases hstep

theorem endArgument_inv {name : Word} {register : Bool} {offset : Nat} (h : TypesInv s)
    (hstep : stepTypes s (.endArgument name register offset) = some s') : TypesInv s' := by
  simp only [stepTypes] at hstep
  split at hstep
  · next p q rest hparses =>
    split at hstep
    · next type tplt htype htplt =>
      by_cases hfull : tplt.length = 32
      · rw [if_pos hfull] at hstep
        cases hstep
      rw [if_neg hfull] at hstep
      generalize (if type = VOID then 0 else name) = declared at hstep
      split at hstep
      · cases hstep
      · next t hdeclare =>
        obtain rfl := Option.some.inj hstep
        have hp := h.parses p (by rw [hparses]; exact List.mem_cons_self)
        have hpop := kept_pop h.types.toTabOk hp.ltop
        have harg := argumentType_kept hpop.ok type
        have hkept1 := hpop.trans harg
        have hkept := hkept1.trans (declareArgument_kept hkept1.ok hdeclare)
        have hg1 := hpop.grows h.types
        have hg := hkept.grows h.types
        obtain ⟨hvalid, hspelled⟩ := hp.type type htype
        have hpassed := passedType_eq (hvalid.grows hg1)
        have hgrest : Grows (popLocalSymbols s.tab p.ltop) t :=
          (harg.trans (declareArgument_kept harg.ok hdeclare)).grows (hpop.typesOk h.types)
        have hkeep := h.kept hkept
        apply hkeep.setParses
        · have hw := hkeep.waits
          unfold Types.decls at hw
          simp only [hparses, List.flatMap_cons] at hw
          exact hw.mono fun d hd => List.mem_append_right _ hd
        · intro r hr
          rcases List.mem_cons.mp hr with rfl | hr
          · have hq := hkeep.parses q (by simp [hparses])
            refine ⟨hq.ltop, hq.base, hq.decls, ?_, hq.type⟩
            intro tplt' htplt'
            obtain rfl := Option.some.inj htplt'
            obtain ⟨hlen, hargs⟩ := hq.tplt tplt htplt
            refine ⟨by simp only [List.length_append, List.length_singleton]; omega, ?_⟩
            simp only [argList, hargs, Option.bind_some, hg.typeOf p.spelled hspelled]
            rw [hgrest.passedType hpassed, Option.map_some]
          · exact hkeep.parses r (by simp [hparses, hr])
    · cases hstep
  · cases hstep

theorem unwind_inv (h : TypesInv s) (hstep : stepTypes s .unwind = some s') : TypesInv s' := by
  simp only [stepTypes] at hstep
  split at hstep
  · next p rest hparses =>
    split_ifs at hstep with hdone
    split at hstep
    · cases hstep
    · next type t made hloop =>
      obtain rfl := Option.some.inj hstep
      have hp := h.parses p (by rw [hparses]; exact List.mem_cons_self)
      have hnone : p.type = none := by
        cases htype : p.type with
        | none => rfl
        | some type => exact absurd (by rw [htype]; rfl) hdone
      have hsub : p.decls ⊆ s.decls := by
        unfold Types.decls
        rw [hparses, List.flatMap_cons]
        exact List.subset_append_left _ _
      obtain ⟨hok, hw, hg, hvalid, htype, hmade⟩ :=
        unwindLoop_inv h.types h.waits hsub (hp.decls hnone) hp.base h.made hloop
      have hset := h.setTab hok hw hg
      refine ⟨hok, ?_, ?_, hset.blocks, hmade, ?_⟩
      · apply hw.mono
        unfold Types.decls
        rw [hparses, List.flatMap_cons, List.flatMap_cons, List.nil_append]
        exact List.subset_append_right _ _
      · intro q hq
        rcases List.mem_cons.mp hq with rfl | hq
        · have hp' := hp.grows hg
          refine ⟨hp'.ltop, hp'.base, ?_, hp'.tplt, ?_⟩
          · rintro ⟨⟩
          · intro type' htype'
            obtain rfl := Option.some.inj htype'
            exact ⟨hvalid, htype⟩
        · exact hset.parses q (by simp [hparses, hq])
      · intro d hd
        rcases List.mem_cons.mp hd with rfl | hd
        · exact htype
        · exact hset.parsed d hd
  · cases hstep

theorem endType_inv (h : TypesInv s) (hstep : stepTypes s .endType = some s') : TypesInv s' := by
  simp only [stepTypes] at hstep
  split at hstep
  · next p rest hparses =>
    obtain rfl := Option.some.inj hstep
    have hp := h.parses p (by rw [hparses]; exact List.mem_cons_self)
    have hkeep := h.kept (kept_pop h.types.toTabOk hp.ltop)
    apply hkeep.setParses
    · have hw := hkeep.waits
      unfold Types.decls at hw
      simp only [hparses, List.flatMap_cons] at hw
      exact hw.mono fun d hd => List.mem_append_right _ hd
    · intro q hq
      exact hkeep.parses q (by simp [hparses, hq])
  · cases hstep

/-- The vector with another first size is as long as the one it comes from. -/
theorem resized_sized {t : Table} {type : Word} (size : Word) (hok : TypesOk t) (hentry : ArrayEntry t type) :
    Sized (resized t type size) ∧ (resized t type size).length ≤ 8 := by
  obtain ⟨hlt, hstor⟩ := hentry
  obtain ⟨idx, hblock, hlen⟩ := hok.block _ hlt (isType_of_storage (.inr rfl) hstor)
  have hlen := hlen hstor
  have hcell := cell_block hblock
  obtain ⟨⟨items, hitems, rfl⟩, _⟩ := hblock
  rw [List.length_cons] at hlen
  rw [List.headD_cons] at hcell
  have hcount : (BitVec.ofNat 16 items.length).toNat = items.length := by
    rw [BitVec.toNat_ofNat, Nat.mod_eq_of_lt hitems]
  simp only [resized, hcell, hcount, List.take_succ_cons]
  have htake : ∀ l : List Word, items.length ≤ l.length →
      Sized (BitVec.ofNat 16 items.length :: l.take items.length) := by
    intro l hl
    have hlength : (l.take items.length).length = items.length := by
      rw [List.length_take]
      omega
    exact ⟨l.take items.length, by omega, by rw [hlength]⟩
  refine ⟨htake _ ?_, ?_⟩
  · simp only [List.length_cons, List.length_map, List.length_range]
    omega
  · simp only [List.length_cons, List.length_take, List.length_map, List.length_range]
    omega

theorem arrayWithSize_inv {type size : Word} (h : TypesInv s) (hgood : TypeGood s (.arrayWithSize type size))
    (hstep : stepTypes s (.arrayWithSize type size) = some s') : TypesInv s' := by
  obtain ⟨hentry, hintern⟩ := hgood
  obtain ⟨hsized, hlen⟩ := resized_sized size h.types hentry
  simp only [stepTypes] at hstep
  split at hstep
  · cases hstep
  · next idx t hfind =>
    split at hstep
    · cases hstep
    · next code t' hmake =>
      obtain rfl := Option.some.inj hstep
      obtain ⟨hkept, hcan⟩ := symFindIdx_inv h.types (.inr rfl) h.waits hsized (fun _ => hlen) hintern.cases hfind
      have hkeep := h.kept hkept
      have hmade := makeArray_made hkeep.types hkeep.waits hcan hmake
      have hset := hkeep.setTab hmade.types hmade.waits hmade.grows
      refine ⟨hset.types, hset.waits, hset.parses, hset.blocks, ?_, hset.parsed⟩
      intro m hm
      rcases List.mem_cons.mp hm with rfl | hm
      · exact ⟨.inr rfl, hsized, fun _ => hlen, hmade.lookup⟩
      · exact hset.made m hm

/-- The type of a string does not hide the types with the same vector. -/
theorem sizeofString_inv {type len : Word} (h : TypesInv s) (hgood : TypeGood s (.sizeofString type len))
    (hstep : stepTypes s (.sizeofString type len) = some s') : TypesInv s' := by
  have hsized : Sized [1, len] := ⟨[len], by simp, rfl⟩
  simp only [stepTypes] at hstep
  split at hstep
  · cases hstep
  · next idx t hcopy =>
    split at hstep
    · cases hstep
    · next code t' hmake =>
      obtain rfl := Option.some.inj hstep
      obtain ⟨hkept, rfl, hpool, hsym, htop⟩ := idxCopy_kept h.types.toTabOk hcopy
      have hok := hkept.typesOk h.types
      have hw := hkept.waits h.types h.waits
      have hblock : Block t.idxmem s.tab.idxmem.length [1, len] := by
        rw [hpool]
        exact block_copy hsized
      have hfound : findIdx t S_ARRAY [1, len] = findIdx s.tab S_ARRAY [1, len] :=
        hkept.findIdx h.types (.inr rfl) hsized
      unfold makeArray at hmake
      split at hmake
      · cases hmake
      · next e t1 hmatch =>
        obtain ⟨_, rfl⟩ := Prod.mk.inj (Except.ok.inj hmake)
        rcases doTypeMatch_cases hok.toTabOk hmatch with ⟨rfl, _⟩ | ⟨hnone, hnew⟩
        · exact h.kept hkept
        · have hok' := hnew.typesOk hok (.inr rfl) hblock (fun _ => by simp) hnone
          have hkeep : (∀ q, findIdx t S_ARRAY [1, len] = some q → findIdx t1 S_ARRAY [1, len] = some q) ∧
              ∀ q, findIdx t1 S_ARRAY [1, len] = some q →
                ∀ d ∈ s.decls, d.form.storage = S_ARRAY → d.list = [1, len] → d.idx = q := by
            rcases hgood with ⟨i, hi, hfull⟩ | ⟨hnot, hwaits⟩
            · -- The entry that has the vector lies below the new one.
              have hit := (hkept.hasIdx h.types (.inr rfl) hsized).mpr hi
              have hbelow : i < e := by
                by_contra hge
                have hne : e ≠ i := by
                  rintro rfl
                  exact hnew.not_hasIdx (.inr rfl) hit
                have hfree := hnew.free
                have hle := hnew.top_le
                rw [hsym] at hfree
                rw [htop] at hle
                exact hfull e (by omega) hle hfree
              rcases hnew.findIdx_self (.inr rfl) hblock with ⟨_, hfirst⟩ | ⟨q, hq, hq', _⟩
              · exact absurd hit (hfirst i hbelow)
              · refine ⟨fun r hr => by rw [hq', ← hq, hr], ?_⟩
                intro r hr d hd hform hlist
                have hne : d.form ≠ .simple := by
                  intro hsimple
                  rw [hsimple] at hform
                  exact absurd hform (by decide)
                rw [hq', ← hq, ← hform, ← hlist] at hr
                exact hw.found d hd hne r hr
            · constructor
              · intro q hq
                rw [hfound] at hq
                obtain ⟨i, hi, _⟩ := findIdx_some hq
                exact absurd ⟨i, hi⟩ hnot
              · intro q _ d hd hform hlist
                exact absurd ⟨d, hd, hform, hlist⟩ hwaits
          have hg := (hkept.grows h.types).trans (hnew.grows hok hok' (.inr rfl) hblock hkeep.1)
          exact h.setTab hok' (hnew.waits (.inr rfl) hblock hw hkeep.2) hg

theorem step_types_inv {op : TypeOp} (h : TypesInv s) (hgood : TypeGood s op) (hstep : stepTypes s op = some s') :
    TypesInv s' := by
  cases op with
  | beginType type =>
    simp only [stepTypes] at hstep
    split_ifs at hstep
    obtain rfl := Option.some.inj hstep
    exact h.push hgood
  | simple ptr =>
    simp only [stepTypes] at hstep
    split at hstep
    · next p rest hparses =>
      have hlevel : SpelledLevel s.tab { form := .simple, ptr := ptr, idx := 0, list := [] } (.simple ptr) :=
        ⟨rfl, rfl⟩
      exact declaratorAdd_inv h p hparses ⟨rfl, rfl⟩ id hlevel (fun hne => absurd rfl hne) hstep
    · cases hstep
  | array ptr dim => exact array_inv h hgood hstep
  | beginArgs =>
    simp only [stepTypes] at hstep
    split at hstep
    · next p rest hparses =>
      obtain rfl := Option.some.inj hstep
      refine h.setParse { p with tplt := some [], args := .nil } hparses rfl ?_
      intro hp
      refine ⟨hp.ltop, hp.base, hp.decls, ?_, hp.type⟩
      intro tplt htplt
      obtain rfl := Option.some.inj htplt
      exact ⟨by simp, rfl⟩
    · cases hstep
  | ellipsis =>
    simp only [stepTypes] at hstep
    split at hstep
    · next p rest hparses =>
      split at hstep
      · next tplt htplt =>
        split_ifs at hstep with hfull
        obtain rfl := Option.some.inj hstep
        refine h.setParse { p with tplt := some (tplt ++ [ELLIPSIS]), args := .ellipsis p.args } hparses rfl ?_
        intro hp
        refine ⟨hp.ltop, hp.base, hp.decls, ?_, hp.type⟩
        intro tplt' htplt'
        obtain rfl := Option.some.inj htplt'
        obtain ⟨hlen, hargs⟩ := hp.tplt tplt htplt
        refine ⟨by simp only [List.length_append, List.length_singleton]; omega, ?_⟩
        simp only [argList, hargs, Option.map_some]
      · cases hstep
    · cases hstep
  | beginArgument type =>
    simp only [stepTypes] at hstep
    split at hstep
    · next p rest hparses =>
      split at hstep
      · split_ifs at hstep
        obtain rfl := Option.some.inj hstep
        rw [← hparses]
        exact h.push hgood
      · cases hstep
    · cases hstep
  | endArgument name register offset => exact endArgument_inv h hstep
  | endArgs ptr => exact endArgs_inv h hgood hstep
  | unwind => exact unwind_inv h hstep
  | endType => exact endType_inv h hstep
  | arrayWithSize type size => exact arrayWithSize_inv h hgood hstep
  | sizeofString type len => exact sizeofString_inv h hgood hstep
  | declare name storage type init offset =>
    simp only [stepTypes] at hstep
    split at hstep
    · cases hstep
    · next i t hupdate =>
      obtain rfl := Option.some.inj hstep
      obtain ⟨hkept, hplain⟩ := updateSymbolByName_kept h.types.toTabOk hgood hupdate
      exact h.kept (hkept.trans (finishDecl_kept hkept.ok hplain init offset))
  | struct name isstruct =>
    simp only [stepTypes] at hstep
    split at hstep
    · cases hstep
    · next i t hupdate =>
      obtain rfl := Option.some.inj hstep
      exact h.kept (updateStruct_kept h.types.toTabOk hupdate)
  | fields tags =>
    simp only [stepTypes] at hstep
    split at hstep
    · cases hstep
    · next i t hcopy =>
      obtain rfl := Option.some.inj hstep
      exact h.kept (idxCopy_kept h.types.toTabOk hcopy).1
  | enter =>
    obtain rfl := Option.some.inj hstep
    refine ⟨h.types, h.waits, h.parses, ?_, h.made, h.parsed⟩
    intro top htop
    rcases List.mem_cons.mp htop with rfl | htop
    · exact h.types.top_le
    · exact h.blocks top htop
  | leave =>
    simp only [stepTypes] at hstep
    split at hstep
    · next top blocks hblocks =>
      obtain rfl := Option.some.inj hstep
      have hkeep := h.kept (kept_pop h.types.toTabOk (h.blocks top (by rw [hblocks]; exact List.mem_cons_self)))
      refine ⟨hkeep.types, hkeep.waits, hkeep.parses, ?_, hkeep.made, hkeep.parsed⟩
      intro b hb
      exact hkeep.blocks b (by simp [hblocks, hb])
    · cases hstep

end Steps

/-! ## Every run -/

theorem TypesInv.law {s : Types} (h : TypesInv s) : CodeLaw s where
  canonical := by
    intro m hm m' hm' hstor
    have hok := h.made m hm
    have hok' := h.made m' hm'
    have hlook := hok.lookup
    have hlook' := hok'.lookup
    have hsized' := hok'.sized
    have hshort' := hok'.short
    rw [← hstor] at hlook' hshort'
    constructor
    · intro hcode
      rw [hcode] at hlook
      exact h.types.lookup_inj hok.class_ok hok.sized hsized' hok.short hshort' hlook hlook'
    · rintro ⟨hrtype, hlist⟩
      rw [hrtype, hlist, hlook'] at hlook
      exact (Option.some.inj hlook).symm
  repeated := by
    intro d hd d' hd' hbase hlevels
    have htype := h.parsed d hd
    rw [hbase, hlevels, h.parsed d' hd'] at htype
    exact (Option.some.inj htype).symm

theorem start_types_inv (behind : Nat → Symbol) : TypesInv (startTypes behind) := by
  have hentry : ∀ i < (startTable behind).last_sym, i = 0 := by
    intro i hi
    have hi : i < 1 := hi
    omega
  have hok : TypesOk (startTable behind) := by
    refine ⟨⟨by simp [startTable, Table.setSym, emptyTable], by simp [startTable, MAXSYM], ?_⟩, ?_, ?_⟩
    · intro i hi hmax
      have hi : 1 ≤ i := hi
      have hne : i ≠ 0 := by omega
      simp [startTable, Table.setSym, emptyTable, hne, hmax, S_FREE]
    · intro i hi _
      obtain rfl := hentry i hi
      refine ⟨[1, ELLIPSIS], ⟨⟨[ELLIPSIS], by simp, rfl⟩, rfl⟩, fun _ => by simp⟩
    · intro i j hi hj _ _ _ _
      rw [hentry i hi, hentry j hj]
  refine ⟨hok, ⟨?_, ?_, ?_⟩, ?_, ?_, ?_, ?_⟩
  all_goals simp [startTypes, Types.decls]

def TypesInvAt (o : Option Types) : Prop := ∀ s, o = some s → TypesInv s

theorem typeStep_inv (o : Option Types) (op : TypeOp) (h : TypesInvAt o) (hgood : TypeGoodAt o op) :
    TypesInvAt (typeStep o op) := by
  intro s' hs'
  obtain ⟨s, hs, hstep⟩ := Option.bind_eq_some_iff.mp hs'
  exact step_types_inv (h s hs) (hgood s hs) hstep

/-- In a run whose lists do not wait twice, whose arrays have at most seven dimensions and
whose strings do not hide a type, types have one code each and declarators one type. -/
theorem codes_canonical (behind : Nat → Symbol) {ops : List TypeOp}
    (hgood : AllSteps typeStep TypeGoodAt (some (startTypes behind)) ops) :
    AllSteps typeStep CodeLawAt (some (startTypes behind)) ops := by
  have hstart : TypesInvAt (some (startTypes behind)) := by
    intro s hs
    obtain rfl := Option.some.inj hs
    exact start_types_inv behind
  apply AllSteps.of_inv typeStep_inv _ hstart hgood
  intro o op hinv hop s' hs'
  exact (typeStep_inv o op hinv hop s' hs').law

/-- One argument without a name. -/
def argument (type : Word) : List TypeOp :=
  [.beginArgument type, .simple 0, .unwind, .endArgument 0 false 0]

/-- `int f(int)` -/
theorem codes_canonical_function :
    AllSteps typeStep CodeLawAt (some (startTypes fun _ => zeroSymbol))
      ([.beginType CINT, .beginArgs] ++ argument CINT ++ [.endArgs 0, .unwind, .endType]) := by
  have hint : ¬ IS_ARRAY CINT := by decide
  apply codes_canonical
  refine ⟨fun _ _ harr => absurd harr hint, fun _ _ => trivial, fun _ _ harr => absurd harr hint,
    fun _ _ => trivial, fun _ _ => trivial, fun _ _ => trivial, ?_, fun _ _ => trivial, fun _ _ => trivial, trivial⟩
  intro s hs p rest tplt _ _
  have hdecls : some [] = some s.decls := congrArg (Option.map Types.decls) hs
  right
  rintro ⟨d, hd, _⟩
  rw [← Option.some.inj hdecls] at hd
  cases hd

/-! ## Two lists that wait -/

/-- `int (*f(int))(int)`, before its types are made. -/
def functionReturning : List TypeOp :=
  [.beginType CINT, .beginArgs] ++ argument CINT ++ [.endArgs 1, .beginArgs] ++ argument CINT ++ [.endArgs 0]

/-- The list of the inner function is interned twice, and found at one place the next time. -/
theorem repeated_differs :
    ¬ AllSteps typeStep CodeLawAt (some (startTypes fun _ => zeroSymbol))
      ((functionReturning ++ [.unwind, .endType] ++ functionReturning) ++ [.unwind]) := by
  intro hlaw
  rw [allSteps_append] at hlaw
  obtain ⟨_, hlast, _⟩ := hlaw
  have hmade : (typeStep (runState typeStep (some (startTypes fun _ => zeroSymbol))
      (functionReturning ++ [.unwind, .endType] ++ functionReturning)) .unwind).map Types.made =
        some [⟨S_FUNCDEF, 0x8009, [1, CINT], 0x8018⟩, ⟨S_FUNCDEF, CINT, [1, CINT], 0x8008⟩,
          ⟨S_FUNCDEF, 0x8009, [1, CINT], 0x8010⟩, ⟨S_FUNCDEF, CINT, [1, CINT], 0x8008⟩] := by
    decide
  obtain ⟨s, hs, hmade⟩ := Option.map_eq_some_iff.mp hmade
  have hcode := (hlast s hs).canonical ⟨S_FUNCDEF, 0x8009, [1, CINT], 0x8018⟩ (by rw [hmade]; decide)
    ⟨S_FUNCDEF, 0x8009, [1, CINT], 0x8010⟩ (by rw [hmade]; decide) rfl
  exact absurd (hcode.mpr ⟨rfl, rfl⟩) (by decide)

end Fuzemsys.Fcc.SymTab
