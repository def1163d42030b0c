import Fuzemsys.Fcc.ScopeProofs
import Fuzemsys.Fcc.TypeCode

/-!
# Types in the table

The entries of types are never changed or freed. What finds them depends on them and
on the pool alone, so every step of the parser keeps it, but for those that add a type.
-/

open Fuzemsys.Lib

namespace Fuzemsys.Fcc.SymTab

/-! ## Vectors in the pool -/

/-- A vector starts with its length. -/
def Sized (idx : List Word) : Prop :=
  ∃ items : List Word, items.length < 2 ^ 16 ∧ idx = BitVec.ofNat 16 items.length :: items

/-- The pool has the vector at `p`. -/
def Block (pool : List Word) (p : Nat) (idx : List Word) : Prop :=
  Sized idx ∧ (pool.drop p).take idx.length = idx

theorem sized_arrayIdx {dim : List Word} (h : dim.length ≤ 7) : Sized (arrayIdx dim) :=
  ⟨dim, by omega, rfl⟩

theorem sized_argIdx {tplt : List Word} (h : tplt.length ≤ 32) : Sized (argIdx tplt) := by
  unfold argIdx
  by_cases hnil : tplt = []
  · rw [if_pos hnil]
    exact ⟨[ELLIPSIS], by decide, rfl⟩
  · rw [if_neg hnil]
    exact ⟨tplt, by omega, rfl⟩

section Pool

variable {pool more : List Word} {p : Nat} {idx idx' : List Word}

theorem Block.append (h : Block pool p idx) (more : List Word) : Block (pool ++ more) p idx := by
  obtain ⟨hsized, htake⟩ := h
  have hlen : idx.length ≤ (pool.drop p).length := by
    have := congrArg List.length htake
    rw [List.length_take] at this
    omega
  have hp : p ≤ pool.length := by
    obtain ⟨items, _, rfl⟩ := hsized
    simp only [List.length_cons, List.length_drop] at hlen
    omega
  refine ⟨hsized, ?_⟩
  rw [List.drop_append_of_le_length hp, List.take_append_of_le_length hlen, htake]

/-- One place of the pool holds one vector. -/
theorem Block.unique (h : Block pool p idx) (h' : Block pool p idx') : idx = idx' := by
  obtain ⟨⟨items, hlt, rfl⟩, htake⟩ := h
  obtain ⟨⟨items', hlt', rfl⟩, htake'⟩ := h'
  cases hpool : pool.drop p with
  | nil => simp [hpool] at htake
  | cons x rest =>
    rw [hpool, List.length_cons, List.take_succ_cons] at htake htake'
    obtain ⟨hx, hitems⟩ := List.cons.inj htake
    obtain ⟨hx', hitems'⟩ := List.cons.inj htake'
    have hcount := congrArg BitVec.toNat (hx.symm.trans hx')
    rw [BitVec.toNat_ofNat, BitVec.toNat_ofNat, Nat.mod_eq_of_lt hlt, Nat.mod_eq_of_lt hlt'] at hcount
    rw [← hitems, ← hitems', hcount]

theorem Block.of_append (h : Block pool p idx) (h' : Block (pool ++ more) p idx') : Block pool p idx' := by
  rwa [h'.unique (h.append more)]

/-- A copy at the end of the pool. -/
theorem block_copy (h : Sized idx) : Block (pool ++ idx) pool.length idx := by
  refine ⟨h, ?_⟩
  rw [List.drop_left, List.take_length]

end Pool

/-! ## What finds a type -/

/-- The two classes of types that have an entry with a vector. -/
def TypeClass (storage : Word) : Prop := storage = S_FUNCDEF ∨ storage = S_ARRAY

def IsType (sym : Symbol) : Prop := TypeClass (S_STORAGE sym.infonext)

/-- The vector that `sym_find_idx` finds. -/
def findIdx (t : Table) (storage : Word) (idx : List Word) : Option Nat :=
  symFindIdxLoop t storage idx t.last_sym 0

/-- The code of the entry `s`. -/
def typeCode (storage : Word) (s : Nat) (idx : List Word) : Word :=
  if storage = S_ARRAY then C_ARRAY ||| (BitVec.ofNat 16 s <<< 3) ||| idx.headD 0
  else C_FUNCTION ||| (BitVec.ofNat 16 s <<< 3)

/-- The code of a type that is in the table. -/
def lookupType (t : Table) (storage rtype : Word) (idx : List Word) : Option Word :=
  (findIdx t storage idx).bind fun p =>
    (doTypeMatchLoop t.symtab storage rtype p t.last_sym 0).map fun s => typeCode storage s idx

/-- The type of the elements of an array. -/
def elemType (t : Table) (type : Word) : Option Word :=
  if ArrayEntry t type then some (t.symtab (INFO type)).type else none

section Searches

variable {t : Table} {storage rtype : Word} {idx : List Word} {p s n i : Nat}

theorem symFindIdxLoop_some (h : symFindIdxLoop t storage idx n s = some p) :
    ∃ i, s ≤ i ∧ i < s + n ∧ S_STORAGE (t.symtab i).infonext = storage ∧
      (t.idxmem.drop (t.symtab i).data).take idx.length = idx ∧ (t.symtab i).data = p ∧
      ∀ j, s ≤ j → j < i → ¬ (S_STORAGE (t.symtab j).infonext = storage ∧
        (t.idxmem.drop (t.symtab j).data).take idx.length = idx) := by
  induction n generalizing s with
  | zero => cases h
  | succ n ih =>
    unfold symFindIdxLoop at h
    split_ifs at h with hmatch
    · exact ⟨s, Nat.le_refl s, by omega, hmatch.1, hmatch.2, Option.some.inj h, fun j hsj hjs => by omega⟩
    · obtain ⟨i, hle, hlt, hst, htake, hdata, hfirst⟩ := ih h
      refine ⟨i, by omega, by omega, hst, htake, hdata, fun j hsj hji => ?_⟩
      by_cases hj : j = s
      · rwa [hj]
      · exact hfirst j (by omega) hji

theorem symFindIdxLoop_none (h : symFindIdxLoop t storage idx n s = none) (hle : s ≤ i) (hlt : i < s + n) :
    ¬ (S_STORAGE (t.symtab i).infonext = storage ∧
      (t.idxmem.drop (t.symtab i).data).take idx.length = idx) := by
  induction n generalizing s with
  | zero => omega
  | succ n ih =>
    unfold symFindIdxLoop at h
    split_ifs at h with hmatch
    by_cases hi : i = s
    · rwa [hi]
    · exact ih h (by omega) (by omega)

/-- The search finds the vector of the first entry that has it. -/
theorem findIdx_some (h : findIdx t storage idx = some p) :
    ∃ i, HasIdx t storage idx i ∧ (t.symtab i).data = p ∧ ∀ j < i, ¬ HasIdx t storage idx j := by
  obtain ⟨i, _, hlt, hst, htake, hdata, hfirst⟩ := symFindIdxLoop_some h
  refine ⟨i, ⟨by omega, hst, htake⟩, hdata, ?_⟩
  rintro j hj ⟨_, hhas⟩
  exact hfirst j (Nat.zero_le j) hj hhas

theorem findIdx_none (h : findIdx t storage idx = none) : ¬ HasIdx t storage idx i := by
  rintro ⟨hlt, hhas⟩
  exact symFindIdxLoop_none h (Nat.zero_le i) (by omega) hhas

theorem findIdx_eq_some (hhas : HasIdx t storage idx i) (hfirst : ∀ j < i, ¬ HasIdx t storage idx j) :
    findIdx t storage idx = some (t.symtab i).data := by
  cases hfind : findIdx t storage idx with
  | none => exact absurd hhas (findIdx_none hfind)
  | some p =>
    obtain ⟨j, hj, rfl, hjfirst⟩ := findIdx_some hfind
    rcases Nat.lt_trichotomy i j with hlt | rfl | hlt
    · exact absurd hhas (hjfirst i hlt)
    · rfl
    · exact absurd hj (hfirst j hlt)

theorem doTypeMatchLoop_none (h : doTypeMatchLoop t.symtab storage rtype p n s = none) (hle : s ≤ i)
    (hlt : i < s + n) :
    ¬ (S_STORAGE (t.symtab i).infonext = storage ∧ (t.symtab i).type = rtype ∧ (t.symtab i).data = p) := by
  induction n generalizing s with
  | zero => omega
  | succ n ih =>
    unfold doTypeMatchLoop at h
    split_ifs at h with hmatch
    by_cases hi : i = s
    · rwa [hi]
    · exact ih h (by omega) (by omega)

end Searches

/-! ## The invariant of types -/

/-- The table is free above its last entry. -/
structure TabOk (t : Table) : Prop where
  top_le : t.local_top ≤ t.last_sym
  last_le : t.last_sym ≤ MAXSYM + 1
  free : ∀ i, t.last_sym ≤ i → i < MAXSYM → (t.symtab i).infonext = S_FREE

/-- Types have vectors and no two entries are the same type. -/
structure TypesOk (t : Table) : Prop extends TabOk t where
  block : ∀ i < t.last_sym, IsType (t.symtab i) →
    ∃ idx, Block t.idxmem (t.symtab i).data idx ∧ (S_STORAGE (t.symtab i).infonext = S_ARRAY → idx.length ≤ 8)
  unique : ∀ i j, i < t.last_sym → j < t.last_sym → IsType (t.symtab i) →
    S_STORAGE (t.symtab i).infonext = S_STORAGE (t.symtab j).infonext → (t.symtab i).type = (t.symtab j).type →
    (t.symtab i).data = (t.symtab j).data → i = j

/-- What waits on the stack is in the pool, where the search would find it, and what waits
twice is there once. -/
structure WaitsOk (t : Table) (decls : List Declstack) : Prop where
  block : ∀ d ∈ decls, d.form ≠ .simple → Block t.idxmem d.idx d.list ∧ (d.form = .array → d.list.length ≤ 8)
  found : ∀ d ∈ decls, d.form ≠ .simple → ∀ p, findIdx t d.form.storage d.list = some p → d.idx = p
  shared : ∀ d ∈ decls, ∀ d' ∈ decls, d.form ≠ .simple → d.form = d'.form → d.list = d'.list → d.idx = d'.idx

theorem WaitsOk.mono {t : Table} {decls decls' : List Declstack} (h : WaitsOk t decls) (hsub : decls' ⊆ decls) :
    WaitsOk t decls' :=
  ⟨fun d hd => h.block d (hsub hd), fun d hd => h.found d (hsub hd),
    fun d hd d' hd' => h.shared d (hsub hd) d' (hsub hd')⟩

/-- What is in the table is found there again. -/
structure Grows (t t' : Table) : Prop where
  last : t.last_sym ≤ t'.last_sym
  lookup : ∀ storage rtype idx code, TypeClass storage → Sized idx →
    lookupType t storage rtype idx = some code → lookupType t' storage rtype idx = some code
  elem : ∀ type elem, elemType t type = some elem → elemType t' type = some elem

theorem Grows.refl (t : Table) : Grows t t := ⟨Nat.le_refl _, fun _ _ _ _ _ _ h => h, fun _ _ h => h⟩

theorem Grows.trans {t t' t'' : Table} (h : Grows t t') (h' : Grows t' t'') : Grows t t'' where
  last := h.last.trans h'.last
  lookup := fun st r idx c hst hsized hlook => h'.lookup st r idx c hst hsized (h.lookup st r idx c hst hsized hlook)
  elem := fun type e he => h'.elem type e (h.elem type e he)

/-! ## Steps that make no type -/

/-- The types stay as they are. -/
structure Kept (t t' : Table) : Prop where
  pool : ∃ more, t'.idxmem = t.idxmem ++ more
  last : t.last_sym ≤ t'.last_sym
  same : ∀ i < t.last_sym, IsType (t.symtab i) → t'.symtab i = t.symtab i
  none_new : ∀ i < t'.last_sym, IsType (t'.symtab i) → i < t.last_sym ∧ IsType (t.symtab i)
  ok : TabOk t'

theorem Kept.refl {t : Table} (h : TabOk t) : Kept t t :=
  ⟨⟨[], by simp⟩, Nat.le_refl _, fun _ _ _ => rfl, fun _ hi ht => ⟨hi, ht⟩, h⟩

theorem Kept.trans {t t' t'' : Table} (h : Kept t t') (h' : Kept t' t'') : Kept t t'' where
  pool := by
    obtain ⟨more, hmore⟩ := h.pool
    obtain ⟨more', hmore'⟩ := h'.pool
    exact ⟨more ++ more', by rw [hmore', hmore, List.append_assoc]⟩
  last := h.last.trans h'.last
  same := by
    intro i hi htype
    have heq := h.same i hi htype
    have htype' : IsType (t'.symtab i) := by rwa [heq]
    rw [h'.same i (by have := h.last; omega) htype', heq]
  none_new := by
    intro i hi htype
    obtain ⟨hi', htype'⟩ := h'.none_new i hi htype
    exact h.none_new i hi' htype'
  ok := h'.ok

section Kept

variable {t t' : Table} {storage rtype : Word} {idx : List Word} {i : Nat}

theorem isType_of_storage (hst : TypeClass storage) (h : S_STORAGE (t.symtab i).infonext = storage) :
    IsType (t.symtab i) := by
  unfold IsType
  rwa [h]

theorem Kept.hasIdx (h : Kept t t') (hok : TypesOk t) (hst : TypeClass storage) (hsized : Sized idx) :
    HasIdx t' storage idx i ↔ HasIdx t storage idx i := by
  obtain ⟨more, hmore⟩ := h.pool
  constructor
  · rintro ⟨hi, hstor, htake⟩
    obtain ⟨hi', htype⟩ := h.none_new i hi (isType_of_storage hst hstor)
    have heq := h.same i hi' htype
    obtain ⟨b, hb, _⟩ := hok.block i hi' htype
    rw [heq] at hstor htake
    rw [hmore] at htake
    exact ⟨hi', hstor, (hb.of_append ⟨hsized, htake⟩).2⟩
  · rintro ⟨hi, hstor, htake⟩
    have heq := h.same i hi (isType_of_storage hst hstor)
    have hlast := h.last
    refine ⟨by omega, by rwa [heq], ?_⟩
    rw [heq, hmore]
    exact (Block.append ⟨hsized, htake⟩ more).2

theorem findIdx_congr (hhas : ∀ i, HasIdx t' storage idx i ↔ HasIdx t storage idx i)
    (hdata : ∀ i, HasIdx t storage idx i → (t'.symtab i).data = (t.symtab i).data) :
    findIdx t' storage idx = findIdx t storage idx := by
  cases hfind : findIdx t storage idx with
  | none =>
    cases hfind' : findIdx t' storage idx with
    | none => rfl
    | some p =>
      obtain ⟨i, hi, _⟩ := findIdx_some hfind'
      exact absurd ((hhas i).mp hi) (findIdx_none hfind)
  | some p =>
    obtain ⟨i, hi, rfl, hfirst⟩ := findIdx_some hfind
    rw [findIdx_eq_some ((hhas i).mpr hi) fun j hj h => hfirst j hj ((hhas j).mp h), hdata i hi]

theorem Kept.findIdx (h : Kept t t') (hok : TypesOk t) (hst : TypeClass storage) (hsized : Sized idx) :
    findIdx t' storage idx = findIdx t storage idx := by
  apply findIdx_congr
  · intro i
    exact h.hasIdx hok hst hsized
  · rintro i ⟨hi, hstor, _⟩
    rw [h.same i hi (isType_of_storage hst hstor)]

/-- An entry of a type is the one that `do_type_match` finds. -/
theorem TypesOk.match_eq (hok : TypesOk t) (hst : TypeClass storage) {p : Nat} (hi : i < t.last_sym)
    (hstor : S_STORAGE (t.symtab i).infonext = storage) (htype : (t.symtab i).type = rtype)
    (hdata : (t.symtab i).data = p) : doTypeMatchLoop t.symtab storage rtype p t.last_sym 0 = some i := by
  cases hmatch : doTypeMatchLoop t.symtab storage rtype p t.last_sym 0 with
  | none => exact absurd ⟨hstor, htype, hdata⟩ (doTypeMatchLoop_none hmatch (Nat.zero_le i) (by omega))
  | some j =>
    obtain ⟨_, hj, hjstor, hjtype, hjdata⟩ := doTypeMatchLoop_some hmatch
    rw [hok.unique i j hi (by omega) (isType_of_storage hst hstor) (hstor.trans hjstor.symm)
      (htype.trans hjtype.symm) (hdata.trans hjdata.symm)]

/-- A type is in the table as an entry with the vector that the search finds. -/
theorem TypesOk.lookup_iff (hok : TypesOk t) (hst : TypeClass storage) {code : Word} :
    lookupType t storage rtype idx = some code ↔
      ∃ s, s < t.last_sym ∧ S_STORAGE (t.symtab s).infonext = storage ∧ (t.symtab s).type = rtype ∧
        SymTab.findIdx t storage idx = some (t.symtab s).data ∧ typeCode storage s idx = code := by
  unfold lookupType
  constructor
  · intro h
    obtain ⟨p, hfind, hmap⟩ := Option.bind_eq_some_iff.mp h
    obtain ⟨s, hmatch, hcode⟩ := Option.map_eq_some_iff.mp hmap
    obtain ⟨_, hs, hstor, htype, rfl⟩ := doTypeMatchLoop_some hmatch
    exact ⟨s, by omega, hstor, htype, hfind, hcode⟩
  · rintro ⟨s, hs, hstor, htype, hfind, hcode⟩
    rw [hfind, Option.bind_some, hok.match_eq hst hs hstor htype rfl, Option.map_some, hcode]

theorem Kept.typesOk (h : Kept t t') (hok : TypesOk t) : TypesOk t' where
  toTabOk := h.ok
  block := by
    intro i hi htype
    obtain ⟨hi', htype'⟩ := h.none_new i hi htype
    obtain ⟨more, hmore⟩ := h.pool
    obtain ⟨idx, hblock, harr⟩ := hok.block i hi' htype'
    rw [h.same i hi' htype', hmore]
    exact ⟨idx, hblock.append more, harr⟩
  unique := by
    intro i j hi hj htype hstor htyp hdata
    have hjtype : IsType (t'.symtab j) := by
      unfold IsType
      rwa [← hstor]
    obtain ⟨hi', htype'⟩ := h.none_new i hi htype
    obtain ⟨hj', hjtype'⟩ := h.none_new j hj hjtype
    rw [h.same i hi' htype', h.same j hj' hjtype'] at hstor htyp hdata
    exact hok.unique i j hi' hj' htype' hstor htyp hdata

theorem Kept.grows (h : Kept t t') (hok : TypesOk t) : Grows t t' where
  last := h.last
  lookup := by
    intro st r idx c hst hsized hlook
    rw [hok.lookup_iff hst] at hlook
    rw [(h.typesOk hok).lookup_iff hst]
    obtain ⟨s, hs, hstor, htype, hfind, hcode⟩ := hlook
    have heq := h.same s hs (isType_of_storage hst hstor)
    have hlast := h.last
    refine ⟨s, by omega, by rwa [heq], by rwa [heq], ?_, hcode⟩
    rw [h.findIdx hok hst hsized, hfind, heq]
  elem := by
    intro type e he
    unfold elemType at he ⊢
    split_ifs at he with hentry
    obtain ⟨hi, hstor⟩ := hentry
    have heq := h.same _ hi (isType_of_storage (.inr rfl) hstor)
    have hlast := h.last
    have hentry' : ArrayEntry t' type := ⟨by omega, by rwa [heq]⟩
    rw [if_pos hentry', heq]
    exact he

theorem Kept.waits {decls : List Declstack} (h : Kept t t') (hok : TypesOk t) (hw : WaitsOk t decls) :
    WaitsOk t' decls where
  block := by
    intro d hd hform
    obtain ⟨more, hmore⟩ := h.pool
    obtain ⟨hblock, harr⟩ := hw.block d hd hform
    rw [hmore]
    exact ⟨hblock.append more, harr⟩
  found := by
    intro d hd hform p hfind
    have hst : TypeClass d.form.storage := by
      cases hf : d.form with
      | simple => exact absurd hf hform
      | array => exact .inr rfl
      | function => exact .inl rfl
    rw [h.findIdx hok hst (hw.block d hd hform).1.1] at hfind
    exact hw.found d hd hform p hfind
  shared := hw.shared

end Kept

end Fuzemsys.Fcc.SymTab
