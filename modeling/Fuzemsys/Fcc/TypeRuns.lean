import Fuzemsys.Fcc.TypeSymbols

/-!
# Runs of the type parser

What a declarator says has a type in the table, built from the types that were made for
its parts. Steps keep what was made, so the same words have the same type again.
-/

open Fuzemsys.Lib

namespace Fuzemsys.Fcc.SymTab

/-! ## The type of a declarator -/

/-- `argument_type` on what is in the table. -/
def passedType (t : Table) (type : Word) : Option Word :=
  if type = VOID then some VOID
  else if PTR type = 0 ∧ (IS_STRUCT type ∨ IS_FUNCTION type) then some CINT
  else if IS_ARRAY type then (elemType t type).map fun elem => functionPointer (decayed elem type)
  else some (functionPointer type)

mutual

/-- The type of a declarator whose types are all in the table. -/
def typeOf (t : Table) : Levels → Word → Option Word
  | .nil, type => some type
  | .add inner level, type => (levelType t level type).bind (typeOf t inner)

def levelType (t : Table) : Level → Word → Option Word
  | .simple ptr, type => some (typeAddpointer type ptr)
  | .array ptr dim, type =>
    if dim.length ≤ 7 then lookupType t S_ARRAY (typeAddpointer type ptr) (arrayIdx dim) else none
  | .function ptr args, type =>
    (argList t args).bind fun tplt =>
      if tplt.length ≤ 32 then lookupType t S_FUNCDEF (typeAddpointer type ptr) (argIdx tplt) else none

def argList (t : Table) : Args → Option (List Word)
  | .nil => some []
  | .ellipsis before => (argList t before).map fun tplt => tplt ++ [ELLIPSIS]
  | .type before base levels =>
    (argList t before).bind fun tplt =>
      ((typeOf t levels base).bind (passedType t)).map fun type => tplt ++ [type]

end

section Grows

variable {t t' : Table}

theorem Grows.passedType (h : Grows t t') {type a : Word} (ha : passedType t type = some a) :
    passedType t' type = some a := by
  unfold SymTab.passedType at ha ⊢
  split_ifs at ha ⊢
  · exact ha
  · exact ha
  · obtain ⟨e, he, rfl⟩ := Option.map_eq_some_iff.mp ha
    rw [h.elem type e he, Option.map_some]
  · exact ha

mutual

/-- Types in the table stay the types of what they are for. -/
theorem Grows.typeOf (h : Grows t t') : ∀ (levels : Levels) {type code : Word},
    typeOf t levels type = some code → typeOf t' levels type = some code
  | .nil, _, _, hcode => by
    simpa only [SymTab.typeOf] using hcode
  | .add inner level, type, code, hcode => by
    simp only [SymTab.typeOf] at hcode ⊢
    obtain ⟨mid, hmid, hrest⟩ := Option.bind_eq_some_iff.mp hcode
    rw [h.levelType level hmid, Option.bind_some]
    exact h.typeOf inner hrest

theorem Grows.levelType (h : Grows t t') : ∀ (level : Level) {type code : Word},
    levelType t level type = some code → levelType t' level type = some code
  | .simple ptr, _, _, hcode => by
    simpa only [SymTab.levelType] using hcode
  | .array ptr dim, type, code, hcode => by
    simp only [SymTab.levelType] at hcode ⊢
    split_ifs at hcode ⊢ with hlen
    exact h.lookup _ _ _ _ (.inr rfl) (sized_arrayIdx hlen) hcode
  | .function ptr args, type, code, hcode => by
    simp only [SymTab.levelType] at hcode ⊢
    obtain ⟨tplt, htplt, hlook⟩ := Option.bind_eq_some_iff.mp hcode
    rw [h.argList args htplt, Option.bind_some]
    split_ifs at hlook ⊢ with hlen
    exact h.lookup _ _ _ _ (.inl rfl) (sized_argIdx hlen) hlook

theorem Grows.argList (h : Grows t t') : ∀ (args : Args) {tplt : List Word},
    argList t args = some tplt → argList t' args = some tplt
  | .nil, _, htplt => by
    simpa only [SymTab.argList] using htplt
  | .ellipsis before, _, htplt => by
    simp only [SymTab.argList] at htplt ⊢
    obtain ⟨l, hl, rfl⟩ := Option.map_eq_some_iff.mp htplt
    rw [h.argList before hl, Option.map_some]
  | .type before base levels, _, htplt => by
    simp only [SymTab.argList] at htplt ⊢
    obtain ⟨l, hl, hrest⟩ := Option.bind_eq_some_iff.mp htplt
    obtain ⟨a, ha, rfl⟩ := Option.map_eq_some_iff.mp hrest
    obtain ⟨type, htype, hpassed⟩ := Option.bind_eq_some_iff.mp ha
    rw [h.argList before hl, Option.bind_some, h.typeOf levels htype, Option.bind_some, h.passedType hpassed,
      Option.map_some]

end

end Grows

/-! ## Codes and pointers -/

theorem class_mask_low {i : Nat} (hi : i < 14) : Nat.testBit 49152 i = false := by
  have hmask : (49152 : Nat) = 3 * 2 ^ 14 := rfl
  have hnot : ¬ 14 ≤ i := by omega
  rw [hmask, Nat.testBit_mul_two_pow, decide_eq_false hnot, Bool.false_and]

/-- What lies above the pointers of a type. -/
theorem CLASS_of_div {a b : Word} (h : a.toNat / 8 = b.toNat / 8) : CLASS a = CLASS b := by
  apply BitVec.eq_of_toNat_eq
  unfold CLASS
  rw [BitVec.toNat_and, BitVec.toNat_and]
  change a.toNat &&& 49152 = b.toNat &&& 49152
  apply Nat.eq_of_testBit_eq
  intro i
  rw [Nat.testBit_and, Nat.testBit_and]
  by_cases hi : i < 3
  · rw [class_mask_low (by omega), Bool.and_false, Bool.and_false]
  · have hbit : ∀ x : Nat, x.testBit i = (x / 2 ^ 3).testBit (i - 3) := by
      intro x
      rw [← Nat.shiftRight_eq_div_pow, Nat.testBit_shiftRight]
      congr 1
      omega
    rw [hbit a.toNat, hbit b.toNat]
    have hdiv : a.toNat / 2 ^ 3 = b.toNat / 2 ^ 3 := h
    rw [hdiv]

theorem INFO_of_div {a b : Word} (h : a.toNat / 8 = b.toNat / 8) : INFO a = INFO b := by
  unfold INFO
  rw [BitVec.toNat_and, BitVec.toNat_and, BitVec.toNat_ushiftRight, BitVec.toNat_ushiftRight,
    Nat.shiftRight_eq_div_pow, Nat.shiftRight_eq_div_pow]
  change (a.toNat / 8) &&& _ = (b.toNat / 8) &&& _
  rw [h]

/-- A pointer to an array refers to the entry of the array. -/
theorem typeAddpointer_div (type : Word) (ptr : Nat) :
    (typeAddpointer type ptr).toNat / 8 = type.toNat / 8 := by
  have hptr : PTR type = type.toNat % 8 := by
    unfold PTR
    rw [BitVec.toNat_and]
    exact Nat.and_two_pow_sub_one_eq_mod type.toNat 3
  have hlt := type.isLt
  unfold typeAddpointer
  split_ifs with h
  · rfl
  · rw [BitVec.toNat_add, BitVec.toNat_ofNat]
    omega

/-- The type of an array has its entry in the table. -/
def Valid (t : Table) (type : Word) : Prop := IS_ARRAY type → ArrayEntry t type

theorem Valid.addpointer {t : Table} {type : Word} (h : Valid t type) (ptr : Nat) :
    Valid t (typeAddpointer type ptr) := by
  have hdiv := typeAddpointer_div type ptr
  unfold Valid IS_ARRAY ArrayEntry at h ⊢
  rw [CLASS_of_div hdiv, INFO_of_div hdiv]
  exact h

theorem Valid.grows {t t' : Table} (h : Grows t t') {type : Word} (hvalid : Valid t type) : Valid t' type := by
  intro harr
  have hentry := hvalid harr
  have helem : elemType t type = some (t.symtab (INFO type)).type := by
    unfold elemType
    rw [if_pos hentry]
  have helem' := h.elem type _ helem
  unfold elemType at helem'
  by_contra hnot
  rw [if_neg hnot] at helem'
  cases helem'

theorem CLASS_function {s : Word} (hs : s.toNat < 1024) : CLASS (C_FUNCTION ||| (s <<< 3)) = C_FUNCTION := by
  have hshift : (s <<< 3).toNat = s.toNat * 8 := by
    rw [BitVec.toNat_shiftLeft, Nat.shiftLeft_eq]
    omega
  have hand : (s <<< 3) &&& 0xC000 = 0 := by
    apply BitVec.eq_of_toNat_eq
    rw [BitVec.toNat_and, hshift]
    apply Nat.eq_of_testBit_eq
    intro i
    rw [Nat.testBit_and]
    by_cases hi : i < 14
    · change ((s.toNat * 8).testBit i && Nat.testBit 49152 i) = _
      rw [class_mask_low hi, Bool.and_false]
      simp
    · have hpow : 2 ^ 14 ≤ 2 ^ i := Nat.pow_le_pow_right (by decide) (by omega)
      rw [Nat.testBit_lt_two_pow (by omega), Bool.false_and]
      simp
  unfold CLASS
  rw [BitVec.and_or_distrib_right, hand]
  decide

theorem cell_block {t : Table} {p : Nat} {idx : List Word} (h : Block t.idxmem p idx) :
    t.cell p 0 = idx.headD 0 := by
  obtain ⟨⟨items, _, rfl⟩, htake⟩ := h
  unfold Table.cell
  rw [Nat.add_zero]
  cases hpool : t.idxmem.drop p with
  | nil => simp [hpool] at htake
  | cons x rest =>
    rw [hpool, List.length_cons, List.take_succ_cons] at htake
    rw [List.headD_cons, List.headD_cons, (List.cons.inj htake).1]

section Making

variable {t t' : Table} {decls : List Declstack} {p : Nat} {type code : Word} {idx : List Word}

/-- What a new or old type is good for. -/
structure MadeType (t t' : Table) (decls : List Declstack) (storage rtype : Word) (idx : List Word)
    (code : Word) : Prop where
  types : TypesOk t'
  waits : WaitsOk t' decls
  grows : Grows t t'
  lookup : lookupType t' storage rtype idx = some code
  valid : Valid t' code

theorem makeFunction_made (hok : TypesOk t) (hw : WaitsOk t decls) (hcan : Canonical t decls S_FUNCDEF idx p)
    (h : makeFunction t type p = .ok (code, t')) : MadeType t t' decls S_FUNCDEF type idx code := by
  unfold makeFunction at h
  split at h
  · cases h
  · next s t1 hmatch =>
    obtain ⟨rfl, rfl⟩ := Prod.mk.inj (Except.ok.inj h)
    obtain ⟨hok', hw', hgrows, hs, _, hlook, _⟩ := doTypeMatch_inv hok (.inl rfl) hw hcan hmatch
    refine ⟨hok', hw', hgrows, hlook, ?_⟩
    have hlast := hok'.last_le
    have hs' : (BitVec.ofNat 16 s).toNat < 1024 := by
      rw [BitVec.toNat_ofNat]
      unfold MAXSYM at hlast
      omega
    intro harr
    unfold IS_ARRAY at harr
    rw [CLASS_function hs'] at harr
    exact absurd harr (by decide)

theorem makeArray_made (hok : TypesOk t) (hw : WaitsOk t decls) (hcan : Canonical t decls S_ARRAY idx p)
    (h : makeArray t type p = .ok (code, t')) : MadeType t t' decls S_ARRAY type idx code := by
  unfold makeArray at h
  split at h
  · cases h
  · next s t1 hmatch =>
    obtain ⟨rfl, rfl⟩ := Prod.mk.inj (Except.ok.inj h)
    obtain ⟨hok', hw', hgrows, hs, hstor, hlook, hpool⟩ := doTypeMatch_inv hok (.inr rfl) hw hcan hmatch
    have hcell : t1.cell p 0 = idx.headD 0 := by
      apply cell_block
      rw [hpool]
      exact hcan.block
    have hlast := hok'.last_le
    have hinfo : INFO (typeCode S_ARRAY s idx) = s := INFO_typeCode (by omega) hcan.block.1 hcan.short
    rw [hcell]
    refine ⟨hok', hw', hgrows, hlook, fun _ => ?_⟩
    unfold ArrayEntry
    change INFO (typeCode S_ARRAY s idx) < _ ∧ S_STORAGE (t1.symtab (INFO (typeCode S_ARRAY s idx))).infonext = _
    rw [hinfo]
    exact ⟨hs, hstor⟩

end Making

end Fuzemsys.Fcc.SymTab
