import Fuzemsys.Fcc.TypeTable

/-!
# Making types

A new type gets a free entry. The vector that the search finds for a list of types
stays the same, so what was found before is found again.
-/

open Fuzemsys.Lib

namespace Fuzemsys.Fcc.SymTab

/-! ## Allocation -/

/-- What `alloc_symbol` does: the first free entry from `local_top` on is given out. -/
structure Alloced (t t' : Table) (s : Nat) : Prop where
  top_le : t.local_top ≤ s
  free : (t.symtab s).infonext = S_FREE
  le_max : s ≤ MAXSYM
  le_last : s ≤ t.last_sym
  first : ∀ j < s, t.local_top ≤ j → (t.symtab j).infonext ≠ S_FREE
  same : ∀ i ≠ s, t'.symtab i = t.symtab i
  still_free : (t'.symtab s).infonext = S_FREE
  last : t'.last_sym = max t.last_sym (s + 1)
  top : t'.local_top ≤ t'.last_sym
  pool : t'.idxmem = t.idxmem

theorem allocLoop_lt {symtab : Nat → Symbol} {n s i : Nat} (h : allocLoop symtab n s = some i) : i < s + n := by
  induction n generalizing s with
  | zero => cases h
  | succ n ih =>
    unfold allocLoop at h
    split_ifs at h
    · obtain rfl := Option.some.inj h
      omega
    · have := ih h
      omega

theorem allocSymbol_alloced {t t' : Table} {name : Word} {lcl : Bool} {s : Nat} (h : TabOk t)
    (hok : allocSymbol t name lcl = .ok (s, t')) : Alloced t t' s := by
  unfold allocSymbol at hok
  split at hok
  · cases hok
  · next i halloc =>
    obtain ⟨hle, hfree, hfirst⟩ := allocLoop_some halloc
    have hlt := allocLoop_lt halloc
    obtain ⟨rfl, rfl⟩ := Prod.mk.inj (Except.ok.inj hok)
    have htop := h.top_le
    have hlast : i ≤ t.last_sym := by
      by_contra hgt
      exact hfirst t.last_sym htop (by omega) (h.free t.last_sym (Nat.le_refl _) (by omega))
    refine ⟨hle, hfree, by omega, hlast, fun j hj hjtop => hfirst j hjtop hj, ?_, ?_, ?_, ?_, rfl⟩
    · intro j hj
      simp only [Table.setSym, Function.update_of_ne hj]
    · simpa [Table.setSym] using hfree
    · simp only
      split_ifs <;> omega
    · simp only
      split_ifs <;> omega

theorem not_isType_free {sym : Symbol} (h : sym.infonext = S_FREE) : ¬ IsType sym := by
  unfold IsType TypeClass
  rw [h]
  decide

section Alloced

variable {t t' : Table} {s : Nat}

theorem Alloced.tabOk_set (h : Alloced t t' s) (hok : TabOk t) (sym : Symbol) : TabOk (t'.setSym s sym) where
  top_le := h.top
  last_le := by
    have h1 := hok.last_le
    have h2 := h.le_max
    have h3 := h.last
    simp only [Table.setSym]
    omega
  free := by
    intro i hi hmax
    have hlast := h.last
    have hne : i ≠ s := by
      simp only [Table.setSym] at hi
      omega
    simp only [Table.setSym, Function.update_of_ne hne]
    rw [h.same i hne]
    apply hok.free i _ hmax
    simp only [Table.setSym] at hi
    omega

/-- A new entry that is no type. -/
theorem Alloced.kept_set (h : Alloced t t' s) (hok : TabOk t) {sym : Symbol} (hsym : ¬ IsType sym) :
    Kept t (t'.setSym s sym) where
  pool := ⟨[], by simp [Table.setSym, h.pool]⟩
  last := by
    have := h.last
    simp only [Table.setSym]
    omega
  same := by
    intro i _ htype
    have hne : i ≠ s := by
      rintro rfl
      exact not_isType_free h.free htype
    simp only [Table.setSym, Function.update_of_ne hne, h.same i hne]
  none_new := by
    intro i hi htype
    have hne : i ≠ s := by
      rintro rfl
      simp only [Table.setSym, Function.update_self] at htype
      exact hsym htype
    have hlast := h.last
    have hle := h.le_last
    simp only [Table.setSym, Function.update_of_ne hne, h.same i hne] at hi htype
    exact ⟨by omega, htype⟩
  ok := h.tabOk_set hok sym

end Alloced

/-! ## A new type -/

/-- The entry `s` becomes the type. -/
structure NewType (t t' : Table) (s : Nat) (storage rtype : Word) (p : Nat) : Prop where
  top_le : t.local_top ≤ s
  free : (t.symtab s).infonext = S_FREE
  le_max : s ≤ MAXSYM
  first : ∀ j < s, t.local_top ≤ j → (t.symtab j).infonext ≠ S_FREE
  le_last : s ≤ t.last_sym
  same : ∀ i ≠ s, t'.symtab i = t.symtab i
  infonext : (t'.symtab s).infonext = storage
  type : (t'.symtab s).type = rtype
  data : (t'.symtab s).data = p
  last : t'.last_sym = max t.last_sym (s + 1)
  pool : t'.idxmem = t.idxmem
  ok : TabOk t'

theorem doTypeMatch_cases {t t' : Table} {storage rtype : Word} {p s : Nat} (hok : TabOk t)
    (h : doTypeMatch t storage rtype p = .ok (s, t')) :
    (t' = t ∧ doTypeMatchLoop t.symtab storage rtype p t.last_sym 0 = some s) ∨
      (doTypeMatchLoop t.symtab storage rtype p t.last_sym 0 = none ∧ NewType t t' s storage rtype p) := by
  unfold doTypeMatch at h
  split at h
  · next i hmatch =>
    obtain ⟨rfl, rfl⟩ := Prod.mk.inj (Except.ok.inj h)
    exact .inl ⟨rfl, hmatch⟩
  · next hmatch =>
    split at h
    · cases h
    · next i t1 halloc =>
      obtain ⟨rfl, rfl⟩ := Prod.mk.inj (Except.ok.inj h)
      have hall := allocSymbol_alloced hok halloc
      refine .inr ⟨hmatch, hall.top_le, hall.free, hall.le_max, hall.first, hall.le_last, ?_, ?_, ?_, ?_, hall.last, hall.pool,
        hall.tabOk_set hok _⟩
      · intro j hj
        simp only [Table.setSym, Function.update_of_ne hj, hall.same j hj]
      · simp [Table.setSym]
      · simp [Table.setSym]
      · simp [Table.setSym]

section NewType

variable {t t' : Table} {s p : Nat} {storage rtype : Word} {idx : List Word}

theorem typeClass_storage {st : Word} (hst : TypeClass st) : S_STORAGE st = st := by
  rcases hst with rfl | rfl
  · decide
  · decide

theorem NewType.hasIdx_self (h : NewType t t' s storage rtype p) (hst : TypeClass storage)
    (hblock : Block t.idxmem p idx) : HasIdx t' storage idx s := by
  have hlast := h.last
  refine ⟨by omega, ?_, ?_⟩
  · rw [h.infonext, typeClass_storage hst]
  · rw [h.data, h.pool]
    exact hblock.2

/-- The other entries have the vectors that they had. -/
theorem NewType.hasIdx_of_ne (h : NewType t t' s storage rtype p) {st : Word} {l : List Word} {i : Nat}
    (hne : i ≠ s) : HasIdx t' st l i ↔ HasIdx t st l i := by
  have hlast := h.last
  have hle := h.le_last
  unfold HasIdx
  rw [h.same i hne, h.pool]
  constructor
  · rintro ⟨hi, hrest⟩
    exact ⟨by omega, hrest⟩
  · rintro ⟨hi, hrest⟩
    exact ⟨by omega, hrest⟩

theorem NewType.not_hasIdx (h : NewType t t' s storage rtype p) {st : Word} {l : List Word} (hst : TypeClass st) :
    ¬ HasIdx t st l s := by
  rintro ⟨_, hstor, _⟩
  exact not_isType_free h.free (isType_of_storage hst hstor)

/-- Another list of types is found where it was. -/
theorem NewType.findIdx_other (h : NewType t t' s storage rtype p) (hst : TypeClass storage)
    (hblock : Block t.idxmem p idx) {st : Word} {l : List Word} (hst' : TypeClass st) (hsized : Sized l)
    (hother : ¬ (st = storage ∧ l = idx)) : findIdx t' st l = findIdx t st l := by
  apply findIdx_congr
  · intro i
    by_cases hi : i = s
    · subst hi
      constructor
      · rintro ⟨_, hstor, htake⟩
        rw [h.infonext, typeClass_storage hst] at hstor
        rw [h.data, h.pool] at htake
        exact absurd ⟨hstor.symm, Block.unique ⟨hsized, htake⟩ hblock⟩ hother
      · intro hhas
        exact absurd hhas (h.not_hasIdx hst')
    · exact h.hasIdx_of_ne hi
  · intro i hhas
    by_cases hi : i = s
    · subst hi
      exact absurd hhas (h.not_hasIdx hst')
    · rw [h.same i hi]

/-- The vector of the new type itself is found at the new entry or at one that had it. -/
theorem NewType.findIdx_self (h : NewType t t' s storage rtype p) (hst : TypeClass storage)
    (hblock : Block t.idxmem p idx) :
    (findIdx t' storage idx = some p ∧ ∀ i < s, ¬ HasIdx t storage idx i) ∨
      ∃ q, findIdx t storage idx = some q ∧ findIdx t' storage idx = some q ∧ ∃ i < s, HasIdx t storage idx i := by
  have hself := h.hasIdx_self hst hblock
  cases hfind : findIdx t storage idx with
  | none =>
    left
    rw [findIdx_eq_some hself, h.data]
    · exact ⟨rfl, fun i _ => findIdx_none hfind⟩
    · intro j hj hhas
      have hne : j ≠ s := by omega
      exact findIdx_none hfind ((h.hasIdx_of_ne hne).mp hhas)
  | some q =>
    obtain ⟨i, hi, hq, hfirst⟩ := findIdx_some hfind
    have hne : i ≠ s := by
      rintro rfl
      exact h.not_hasIdx hst hi
    by_cases hlt : i < s
    · right
      refine ⟨q, rfl, ?_, i, hlt, hi⟩
      have hi' := (h.hasIdx_of_ne hne).mpr hi
      rw [findIdx_eq_some hi', h.same i hne, hq]
      intro j hj hhas
      have hne' : j ≠ s := by omega
      exact hfirst j hj ((h.hasIdx_of_ne hne').mp hhas)
    · left
      rw [findIdx_eq_some hself, h.data]
      · exact ⟨rfl, fun j hj => hfirst j (by omega)⟩
      · intro j hj hhas
        have hne' : j ≠ s := by omega
        exact hfirst j (by omega) ((h.hasIdx_of_ne hne').mp hhas)

theorem NewType.typesOk (h : NewType t t' s storage rtype p) (hok : TypesOk t) (hst : TypeClass storage)
    (hblock : Block t.idxmem p idx) (harr : storage = S_ARRAY → idx.length ≤ 8)
    (hnone : doTypeMatchLoop t.symtab storage rtype p t.last_sym 0 = none) : TypesOk t' where
  toTabOk := h.ok
  block := by
    intro i hi htype
    rw [h.pool]
    by_cases his : i = s
    · subst his
      refine ⟨idx, by rwa [h.data], fun hstor => harr ?_⟩
      rwa [h.infonext, typeClass_storage hst] at hstor
    · have hlast := h.last
      have hle := h.le_last
      rw [h.same i his] at htype ⊢
      exact hok.block i (by omega) htype
  unique := by
    have hlast := h.last
    have hle := h.le_last
    -- No old entry is the type of the new one.
    have hnew : ∀ i, i ≠ s → i < t'.last_sym → S_STORAGE (t.symtab i).infonext = storage →
        (t.symtab i).type = rtype → (t.symtab i).data ≠ p := by
      intro i his hi hstor htype hdata
      exact doTypeMatchLoop_none hnone (Nat.zero_le i) (by omega) ⟨hstor, htype, hdata⟩
    intro i j hi hj htype hstor htyp hdata
    by_cases his : i = s
    · by_cases hjs : j = s
      · rw [his, hjs]
      · subst his
        rw [h.same j hjs, h.infonext, typeClass_storage hst] at hstor
        rw [h.same j hjs, h.type] at htyp
        rw [h.same j hjs, h.data] at hdata
        exact absurd hdata.symm (hnew j hjs hj hstor.symm htyp.symm)
    · by_cases hjs : j = s
      · subst hjs
        rw [h.same i his, h.infonext, typeClass_storage hst] at hstor
        rw [h.same i his, h.type] at htyp
        rw [h.same i his, h.data] at hdata
        exact absurd hdata (hnew i his hi hstor htyp)
      · rw [h.same i his] at htype
        rw [h.same i his, h.same j hjs] at hstor htyp hdata
        exact hok.unique i j (by omega) (by omega) htype hstor htyp hdata

/-- A new type whose vector is found where it was keeps what was found. -/
theorem NewType.grows (h : NewType t t' s storage rtype p) (hok : TypesOk t) (hok' : TypesOk t')
    (hst : TypeClass storage) (hblock : Block t.idxmem p idx)
    (hkeep : ∀ q, findIdx t storage idx = some q → findIdx t' storage idx = some q) : Grows t t' where
  last := by
    have := h.last
    omega
  lookup := by
    intro st r l c hst' hsized hlook
    rw [hok.lookup_iff hst'] at hlook
    rw [hok'.lookup_iff hst']
    obtain ⟨i, hi, hstor, htype, hfind, hcode⟩ := hlook
    have hne : i ≠ s := by
      rintro rfl
      exact not_isType_free h.free (isType_of_storage hst' hstor)
    have hlast := h.last
    rw [← h.same i hne] at hstor htype hfind
    refine ⟨i, by omega, hstor, htype, ?_, hcode⟩
    by_cases hself : st = storage ∧ l = idx
    · obtain ⟨rfl, rfl⟩ := hself
      exact hkeep _ hfind
    · rw [h.findIdx_other hst hblock hst' hsized hself, hfind]
  elem := by
    intro type e he
    unfold elemType at he ⊢
    split_ifs at he with hentry
    obtain ⟨hi, hstor⟩ := hentry
    have hne : INFO type ≠ s := by
      intro heq
      rw [heq] at hstor
      exact not_isType_free h.free (isType_of_storage (.inr rfl) hstor)
    have hlast := h.last
    have hentry' : ArrayEntry t' type := ⟨by omega, by rwa [h.same _ hne]⟩
    rw [if_pos hentry', h.same _ hne]
    exact he

theorem form_class {d : Declstack} (h : d.form ≠ .simple) : TypeClass d.form.storage := by
  cases hf : d.form with
  | simple => exact absurd hf h
  | array => exact .inr rfl
  | function => exact .inl rfl

/-- What waits stays right where the vector of the new type is found at its waiting place. -/
theorem NewType.waits {decls : List Declstack} (h : NewType t t' s storage rtype p) (hst : TypeClass storage)
    (hblock : Block t.idxmem p idx) (hw : WaitsOk t decls)
    (hself : ∀ q, findIdx t' storage idx = some q → ∀ d ∈ decls, d.form.storage = storage → d.list = idx →
      d.idx = q) : WaitsOk t' decls where
  block := by
    rw [h.pool]
    exact hw.block
  found := by
    intro d hd hform q hfind
    by_cases hthis : d.form.storage = storage ∧ d.list = idx
    · obtain ⟨hstor, hlist⟩ := hthis
      rw [hstor, hlist] at hfind
      exact hself q hfind d hd hstor hlist
    · rw [h.findIdx_other hst hblock (form_class hform) (hw.block d hd hform).1.1 hthis] at hfind
      exact hw.found d hd hform q hfind
  shared := hw.shared

end NewType

/-! ## `do_type_match` and `sym_find_idx` -/

section Making

variable {t t' : Table} {decls : List Declstack} {s p : Nat} {storage rtype : Word} {idx : List Word}

/-- A vector that is the only one of its list: the search finds it, and what waits waits there. -/
structure Canonical (t : Table) (decls : List Declstack) (storage : Word) (idx : List Word) (p : Nat) : Prop where
  block : Block t.idxmem p idx
  short : storage = S_ARRAY → idx.length ≤ 8
  found : ∀ q, findIdx t storage idx = some q → q = p
  waits : ∀ d ∈ decls, d.form.storage = storage → d.list = idx → d.idx = p

theorem doTypeMatch_inv (hok : TypesOk t) (hst : TypeClass storage) (hw : WaitsOk t decls)
    (hcan : Canonical t decls storage idx p) (h : doTypeMatch t storage rtype p = .ok (s, t')) :
    TypesOk t' ∧ WaitsOk t' decls ∧ Grows t t' ∧ s < t'.last_sym ∧ S_STORAGE (t'.symtab s).infonext = storage ∧
      lookupType t' storage rtype idx = some (typeCode storage s idx) ∧ t'.idxmem = t.idxmem := by
  rcases doTypeMatch_cases hok.toTabOk h with ⟨rfl, hmatch⟩ | ⟨hnone, hnew⟩
  · obtain ⟨_, hs, hstor, htype, hdata⟩ := doTypeMatchLoop_some hmatch
    have hlook : lookupType t' storage rtype idx = some (typeCode storage s idx) := by
      refine (hok.lookup_iff hst).mpr ⟨s, by omega, hstor, htype, ?_, rfl⟩
      rw [hdata]
      cases hfind : findIdx t' storage idx with
      | none => exact absurd ⟨by omega, hstor, by rw [hdata]; exact hcan.block.2⟩ (findIdx_none (i := s) hfind)
      | some q => rw [hcan.found q hfind]
    exact ⟨hok, hw, Grows.refl t', by omega, hstor, hlook, rfl⟩
  · have hok' := hnew.typesOk hok hst hcan.block hcan.short hnone
    have hself : findIdx t' storage idx = some p := by
      rcases hnew.findIdx_self hst hcan.block with ⟨hp, _⟩ | ⟨q, hq, hq', _⟩
      · exact hp
      · rw [hq', hcan.found q hq]
    have hlast := hnew.last
    have hstor : S_STORAGE (t'.symtab s).infonext = storage := by
      rw [hnew.infonext, typeClass_storage hst]
    refine ⟨hok', hnew.waits hst hcan.block hw ?_, hnew.grows hok hok' hst hcan.block ?_, by omega, hstor, ?_,
      hnew.pool⟩
    · intro q hq d hd hform hlist
      rw [hself] at hq
      rw [hcan.waits d hd hform hlist, Option.some.inj hq]
    · intro q hq
      rw [hself, hcan.found q hq]
    · refine (hok'.lookup_iff hst).mpr ⟨s, by omega, hstor, hnew.type, ?_, rfl⟩
      rw [hself, hnew.data]

theorem kept_pool (hok : TabOk t) (more : List Word) (n : Nat) :
    Kept t { t with idxmem := t.idxmem ++ more, idxptr := n } where
  pool := ⟨more, rfl⟩
  last := Nat.le_refl _
  same := fun _ _ _ => rfl
  none_new := fun _ hi htype => ⟨hi, htype⟩
  ok := ⟨hok.top_le, hok.last_le, hok.free⟩

theorem idxCopy_kept (hok : TabOk t) (h : idxCopy t idx = .ok (p, t')) :
    Kept t t' ∧ p = t.idxmem.length ∧ t'.idxmem = t.idxmem ++ idx ∧ t'.symtab = t.symtab ∧
      t'.local_top = t.local_top := by
  unfold idxCopy at h
  split_ifs at h
  obtain ⟨rfl, rfl⟩ := Prod.mk.inj (Except.ok.inj h)
  exact ⟨kept_pool hok idx _, rfl, rfl, rfl, rfl⟩

/-- `sym_find_idx` returns the only vector of a list, unless the list waits and no type has it. -/
theorem symFindIdx_inv (hok : TypesOk t) (hst : TypeClass storage) (hw : WaitsOk t decls) (hsized : Sized idx)
    (hshort : storage = S_ARRAY → idx.length ≤ 8)
    (hgood : (∃ i, HasIdx t storage idx i) ∨ ∀ d ∈ decls, d.form.storage = storage → d.list ≠ idx)
    (h : symFindIdx t storage idx = .ok (p, t')) : Kept t t' ∧ Canonical t' decls storage idx p := by
  unfold symFindIdx at h
  split at h
  · next q hfind =>
    obtain ⟨rfl, rfl⟩ := Prod.mk.inj (Except.ok.inj h)
    have hfind : findIdx t storage idx = some q := hfind
    obtain ⟨i, ⟨_, _, htake⟩, hdata, _⟩ := findIdx_some hfind
    rw [hdata] at htake
    refine ⟨Kept.refl hok.toTabOk, ⟨hsized, htake⟩, hshort, ?_, ?_⟩
    · intro r hr
      rw [hfind] at hr
      exact (Option.some.inj hr).symm
    · intro d hd hform hlist
      have hne : d.form ≠ .simple := by
        intro hsimple
        rw [hsimple] at hform
        rw [← hform] at hst
        exact absurd hst (by unfold TypeClass; decide)
      exact hw.found d hd hne q (by rw [hform, hlist, hfind])
  · next hfind =>
    have hfind : findIdx t storage idx = none := hfind
    obtain ⟨hkept, rfl, hpool, _⟩ := idxCopy_kept hok.toTabOk h
    refine ⟨hkept, ?_, hshort, ?_, ?_⟩
    · rw [hpool]
      exact block_copy hsized
    · intro q hq
      rw [hkept.findIdx hok hst hsized, hfind] at hq
      cases hq
    · intro d hd hform hlist
      rcases hgood with ⟨i, hi⟩ | hnot
      · exact absurd hi (findIdx_none hfind)
      · exact absurd hlist (hnot d hd hform)

/-- A level of such a vector joins the stack. -/
theorem WaitsOk.cons {d : Declstack} (hw : WaitsOk t decls)
    (hcan : d.form ≠ .simple → Canonical t decls d.form.storage d.list d.idx) : WaitsOk t (d :: decls) where
  block := by
    intro d' hd' hform
    rcases List.mem_cons.mp hd' with rfl | hd'
    · refine ⟨(hcan hform).block, fun harr => (hcan hform).short ?_⟩
      rw [harr]
      rfl
    · exact hw.block d' hd' hform
  found := by
    intro d' hd' hform q hq
    rcases List.mem_cons.mp hd' with rfl | hd'
    · exact ((hcan hform).found q hq).symm
    · exact hw.found d' hd' hform q hq
  shared := by
    intro d1 hd1 d2 hd2 hform hsame hlist
    rcases List.mem_cons.mp hd1 with rfl | hold1
    · rcases List.mem_cons.mp hd2 with rfl | hold2
      · rfl
      · exact ((hcan hform).waits d2 hold2 (by rw [hsame]) hlist.symm).symm
    · rcases List.mem_cons.mp hd2 with rfl | hold2
      · exact (hcan (hsame ▸ hform)).waits d1 hold1 (by rw [hsame]) hlist
      · exact hw.shared d1 hold1 d2 hold2 hform hsame hlist

/-- The vector of a waiting level is the only one. -/
theorem WaitsOk.canonical {d : Declstack} (hw : WaitsOk t decls) (hd : d ∈ decls) (hform : d.form ≠ .simple) :
    Canonical t decls d.form.storage d.list d.idx where
  block := (hw.block d hd hform).1
  short := by
    intro harr
    apply (hw.block d hd hform).2
    cases hf : d.form with
    | simple => exact absurd hf hform
    | array => rfl
    | function =>
      rw [hf] at harr
      exact absurd harr (by decide)
  found := fun q hq => (hw.found d hd hform q hq).symm
  waits := by
    intro d' hd' hstor hlist
    have hne : d'.form ≠ .simple := by
      intro hsimple
      rw [hsimple] at hstor
      have hclass := form_class hform
      rw [← hstor] at hclass
      exact absurd hclass (by unfold TypeClass; decide)
    have hsame : d'.form = d.form := by
      cases hf : d.form <;> cases hf' : d'.form <;> simp_all [Form.storage, S_ARRAY, S_FUNCDEF]
    exact hw.shared d' hd' d hd hne hsame hlist

end Making

/-! ## Codes -/

theorem INFO_or_shift {top s low : Word} {k : Nat} (htop : top.toNat = k * 1024 * 8) (hs : s.toNat < 1024)
    (hlow : low.toNat < 8) : INFO (top ||| (s <<< 3) ||| low) = s.toNat := by
  have hshift : (s <<< 3).toNat = s.toNat * 8 := by
    rw [BitVec.toNat_shiftLeft, Nat.shiftLeft_eq]
    omega
  have hmask : (1023 : Nat) = 2 ^ 10 - 1 := rfl
  have hzero : low.toNat / 2 ^ 3 = 0 := by omega
  unfold INFO
  rw [BitVec.toNat_and, BitVec.toNat_ushiftRight, BitVec.toNat_or, BitVec.toNat_or, hshift, htop]
  change ((k * 1024 * 8 ||| s.toNat * 8 ||| low.toNat) >>> 3) &&& 1023 = s.toNat
  rw [hmask, Nat.and_two_pow_sub_one_eq_mod, Nat.shiftRight_or_distrib, Nat.shiftRight_or_distrib,
    Nat.shiftRight_eq_div_pow, Nat.shiftRight_eq_div_pow, Nat.shiftRight_eq_div_pow, hzero, Nat.or_zero,
    Nat.or_mod_two_pow]
  have h1 : k * 1024 * 8 / 2 ^ 3 % 2 ^ 10 = 0 := by omega
  have h2 : s.toNat * 8 / 2 ^ 3 % 2 ^ 10 = s.toNat := by omega
  rw [h1, h2, Nat.zero_or]

/-- A code tells which entry it is of. -/
theorem INFO_typeCode {storage : Word} {s : Nat} {idx : List Word} (hs : s ≤ MAXSYM) (hsized : Sized idx)
    (hshort : storage = S_ARRAY → idx.length ≤ 8) : INFO (typeCode storage s idx) = s := by
  unfold MAXSYM at hs
  have hs' : (BitVec.ofNat 16 s).toNat = s := by
    rw [BitVec.toNat_ofNat]
    omega
  unfold typeCode
  split_ifs with harr
  · obtain ⟨items, hlt, rfl⟩ := hsized
    have hlen := hshort harr
    rw [List.length_cons] at hlen
    rw [List.headD_cons, INFO_or_shift (k := 6) rfl (by omega), hs']
    rw [BitVec.toNat_ofNat]
    omega
  · have hzero : C_FUNCTION ||| BitVec.ofNat 16 s <<< 3 = C_FUNCTION ||| BitVec.ofNat 16 s <<< 3 ||| (0 : Word) := by
      simp
    rw [hzero, INFO_or_shift (k := 4) rfl (by omega) (by decide), hs']

/-- Different types have different codes. -/
theorem TypesOk.lookup_inj {t : Table} (hok : TypesOk t) {storage rtype rtype' code : Word} {idx idx' : List Word}
    (hst : TypeClass storage) (hsized : Sized idx) (hsized' : Sized idx')
    (hshort : storage = S_ARRAY → idx.length ≤ 8) (hshort' : storage = S_ARRAY → idx'.length ≤ 8)
    (hlook : lookupType t storage rtype idx = some code) (hlook' : lookupType t storage rtype' idx' = some code) :
    rtype = rtype' ∧ idx = idx' := by
  obtain ⟨s, hs, _, htype, hfind, hcode⟩ := (hok.lookup_iff hst).mp hlook
  obtain ⟨s', hs', _, htype', hfind', hcode'⟩ := (hok.lookup_iff hst).mp hlook'
  have hlast := hok.last_le
  have hinfo : INFO (typeCode storage s idx) = s := INFO_typeCode (by omega) hsized hshort
  have hinfo' : INFO (typeCode storage s' idx') = s' := INFO_typeCode (by omega) hsized' hshort'
  rw [hcode] at hinfo
  rw [hcode', hinfo] at hinfo'
  subst hinfo'
  obtain ⟨i, ⟨_, _, htake⟩, hdata, _⟩ := findIdx_some hfind
  obtain ⟨j, ⟨_, _, htake'⟩, hdata', _⟩ := findIdx_some hfind'
  rw [hdata] at htake
  rw [hdata'] at htake'
  exact ⟨htype.symm.trans htype', Block.unique ⟨hsized, htake⟩ ⟨hsized', htake'⟩⟩

end Fuzemsys.Fcc.SymTab
