import Fuzemsys.Fcc.TypeMake

/-!
# Symbols and types

Declaring, updating and freeing symbols leaves the entries of types alone.
-/

open Fuzemsys.Lib

namespace Fuzemsys.Fcc.SymTab

variable {t t' : Table} {name storage type : Word} {s : Nat}

/-! ## Kinds -/

theorem isType_kind {sym : Symbol} (h : IsType sym) : kind sym.infonext = 11 ∨ kind sym.infonext = 12 := by
  rcases h with h | h
  · right
    rw [kind_of_storage_eq h]
    decide
  · left
    rw [kind_of_storage_eq h]
    decide

theorem not_isType_of_lt {sym : Symbol} (h : sym.infonext < S_TYPEDEF) : ¬ IsType sym := by
  intro htype
  have hkind := isType_kind htype
  rw [lt_typedef_iff] at h
  omega

theorem declClasses_storage (h : storage ∈ S_NONE :: declClasses) :
    S_STORAGE storage = storage ∧ ¬ TypeClass storage := by
  simp only [declClasses, List.mem_cons, List.not_mem_nil, or_false] at h
  unfold TypeClass
  rcases h with rfl | rfl | rfl | rfl | rfl | rfl | rfl | rfl | rfl | rfl <;> decide

theorem declClasses_not_type (h : storage ∈ S_NONE :: declClasses) : ¬ TypeClass (S_STORAGE storage) := by
  obtain ⟨hstor, hnot⟩ := declClasses_storage h
  rwa [hstor]

/-! ## Single stores -/

theorem kept_error (hok : TabOk t) (msg : String) : Kept t (t.error msg) where
  pool := ⟨[], by simp [Table.error]⟩
  last := Nat.le_refl _
  same := fun _ _ _ => rfl
  none_new := fun _ hi htype => ⟨hi, htype⟩
  ok := ⟨hok.top_le, hok.last_le, hok.free⟩

/-- A store to a symbol that is no type, and does not become one. -/
theorem kept_setSym (hok : TabOk t) (hs : s < t.last_sym) (hold : ¬ IsType (t.symtab s)) {sym : Symbol}
    (hnew : ¬ IsType sym) : Kept t (t.setSym s sym) where
  pool := ⟨[], by simp [Table.setSym]⟩
  last := Nat.le_refl _
  same := by
    intro i _ htype
    have hne : i ≠ s := by
      rintro rfl
      exact hold htype
    simp only [Table.setSym, Function.update_of_ne hne]
  none_new := by
    intro i hi htype
    have hne : i ≠ s := by
      rintro rfl
      simp only [Table.setSym, Function.update_self] at htype
      exact hnew htype
    simp only [Table.setSym, Function.update_of_ne hne] at htype
    exact ⟨hi, htype⟩
  ok := by
    refine ⟨hok.top_le, hok.last_le, ?_⟩
    intro i hi hmax
    have hne : i ≠ s := by
      simp only [Table.setSym] at hi
      omega
    simp only [Table.setSym, Function.update_of_ne hne]
    exact hok.free i hi hmax

theorem kept_pop (hok : TabOk t) {top : Nat} (htop : top ≤ t.last_sym) : Kept t (popLocalSymbols t top) where
  pool := ⟨[], by simp [popLocalSymbols]⟩
  last := Nat.le_refl _
  same := by
    intro i hi htype
    have hkind := isType_kind htype
    have hnot : ¬ (top < i ∧ i < t.last_sym ∧ S_STORAGE (t.symtab i).infonext < S_STATIC) := by
      rintro ⟨_, _, hlt⟩
      rw [lt_static_iff, kind_storage] at hlt
      omega
    simp only [popLocalSymbols, hnot, if_false]
  none_new := by
    intro i hi htype
    refine ⟨hi, ?_⟩
    simp only [popLocalSymbols] at htype
    split_ifs at htype
    · exact absurd htype (not_isType_free rfl)
    · exact htype
  ok := by
    refine ⟨htop, hok.last_le, ?_⟩
    intro i hi hmax
    have hi' : t.last_sym ≤ i := hi
    have hnot : ¬ (top < i ∧ i < t.last_sym ∧ S_STORAGE (t.symtab i).infonext < S_STATIC) := by omega
    simp only [popLocalSymbols, hnot, if_false]
    exact hok.free i hi' hmax

/-- A symbol in use that is no type. -/
def Plain (t : Table) (s : Nat) : Prop := s < t.last_sym ∧ ¬ IsType (t.symtab s)

theorem plain_setSym (h : Plain t s) {sym : Symbol} (hnew : ¬ IsType sym) : Plain (t.setSym s sym) s := by
  refine ⟨h.1, ?_⟩
  simpa [Table.setSym] using hnew

theorem not_isType_infonext {sym sym' : Symbol} (h : ¬ IsType sym) (heq : sym'.infonext = sym.infonext) :
    ¬ IsType sym' := by
  unfold IsType at h ⊢
  rwa [heq]

/-! ## `update_symbol` -/

theorem findLoop_some {symtab : Nat → Symbol} {global : Bool} {n r : Nat} {g : Option Nat}
    (h : findLoop symtab name global n g = some r) :
    g = some r ∨ (r < n ∧ (symtab r).infonext < S_TYPEDEF) := by
  induction n generalizing g with
  | zero => exact .inl h
  | succ n ih =>
    simp only [findLoop] at h
    have hrest : ∀ g', findLoop symtab name global n g' = some r →
        g' = some r ∨ (r < n + 1 ∧ (symtab r).infonext < S_TYPEDEF) := by
      intro g' hg'
      rcases ih hg' with hg | ⟨hlt, htd⟩
      · exact .inl hg
      · exact .inr ⟨by omega, htd⟩
    split_ifs at h with hmatch hstatic hglob
    · obtain rfl := Option.some.inj h
      exact .inr ⟨Nat.lt_succ_self _, hmatch.2⟩
    · exact hrest g h
    · rcases hrest _ h with hn | hr
      · obtain rfl := Option.some.inj hn
        exact .inr ⟨Nat.lt_succ_self _, hmatch.2⟩
      · exact .inr hr
    · exact hrest g h

theorem findForUpdate_plain (hst : storage ∈ S_NONE :: declClasses) (h : findForUpdate t name storage = some s) :
    Plain t s := by
  simp only [findForUpdate] at h
  split at h
  · next r hr =>
    split_ifs at h
    obtain rfl := Option.some.inj h
    split_ifs at hr with htd
    · rcases findLoop_some hr with hnone | ⟨hlt, htd'⟩
      · cases hnone
      · exact ⟨hlt, not_isType_of_lt htd'⟩
    · rcases findClassLoop_some hr with hnone | ⟨hlt, _, hcls⟩
      · cases hnone
      · refine ⟨hlt, ?_⟩
        unfold IsType
        rw [hcls]
        exact (declClasses_storage hst).2
  · cases h

theorem fillSymbol_kept (type : Word) (hok : TabOk t) (hs : Plain t s) (hst : storage ∈ S_NONE :: declClasses) :
    Kept t (fillSymbol t s storage type) ∧ Plain (fillSymbol t s storage type) s := by
  have hnew : ¬ IsType { t.symtab s with type := type, infonext := storage, data := 0 } :=
    declClasses_not_type hst
  exact ⟨kept_setSym hok hs.1 hs.2 hnew, plain_setSym hs hnew⟩

theorem retype_kept (type : Word) (hok : TabOk t) (hs : Plain t s) : Kept t (retype t s type) ∧ Plain (retype t s type) s := by
  have herr := fun msg => kept_error hok msg
  unfold retype
  split_ifs with hne harr
  · have hcompat : Kept t (arrayCompatible t type (t.symtab s).type).2 ∧
        Plain (arrayCompatible t type (t.symtab s).type).2 s := by
      unfold arrayCompatible
      simp only
      split_ifs
      · exact ⟨herr _, hs⟩
      · exact ⟨Kept.refl hok, hs⟩
    obtain ⟨hkept, hplain⟩ := hcompat
    have hnew : ¬ IsType { (arrayCompatible t type (t.symtab s).type).2.symtab s with
        type := (arrayCompatible t type (t.symtab s).type).1 } := not_isType_infonext hplain.2 rfl
    exact ⟨hkept.trans (kept_setSym hkept.ok hplain.1 hplain.2 hnew), plain_setSym hplain hnew⟩
  · exact ⟨herr _, hs⟩
  · exact ⟨Kept.refl hok, hs⟩

theorem restore_kept (storage : Word) (hok : TabOk t) (hs : Plain t s) :
    Kept t (restore t s storage) ∧ Plain (restore t s storage) s := by
  unfold restore
  simp only
  split_ifs with hsame hext hdef
  · exact ⟨Kept.refl hok, hs⟩
  · have hnew : ¬ IsType { t.symtab s with infonext := S_INDEX (t.symtab s).infonext ||| S_EXTDEF } := by
      intro htype
      have hkind := isType_kind htype
      rw [kind_extdef] at hkind
      omega
    exact ⟨kept_setSym hok hs.1 hs.2 hnew, plain_setSym hs hnew⟩
  · exact ⟨Kept.refl hok, hs⟩
  · exact ⟨kept_error hok _, hs⟩

theorem updateSymbol_kept (hok : TabOk t) {sym : Option Nat} (hsym : ∀ r, sym = some r → Plain t r)
    (hst : storage ∈ S_NONE :: declClasses) (h : updateSymbol t sym name storage type = .ok (s, t')) :
    Kept t t' ∧ Plain t' s := by
  cases sym with
  | some r =>
    have hr := hsym r rfl
    simp only [updateSymbol] at h
    split_ifs at h
    · obtain ⟨rfl, rfl⟩ := Prod.mk.inj (Except.ok.inj h)
      exact ⟨Kept.refl hok, hr⟩
    · obtain ⟨rfl, rfl⟩ := Prod.mk.inj (Except.ok.inj h)
      have herr := kept_error hok "invalid name"
      obtain ⟨hkept, hplain⟩ := fillSymbol_kept (t := t.error "invalid name") type herr.ok hr hst
      exact ⟨herr.trans hkept, hplain⟩
    · obtain ⟨rfl, rfl⟩ := Prod.mk.inj (Except.ok.inj h)
      obtain ⟨hkept, hplain⟩ := retype_kept type hok hr
      obtain ⟨hkept', hplain'⟩ := restore_kept storage hkept.ok hplain
      exact ⟨hkept.trans hkept', hplain'⟩
    · obtain ⟨rfl, rfl⟩ := Prod.mk.inj (Except.ok.inj h)
      exact fillSymbol_kept type hok hr hst
    · obtain ⟨rfl, rfl⟩ := Prod.mk.inj (Except.ok.inj h)
      exact fillSymbol_kept type hok hr hst
  | none =>
    simp only [updateSymbol] at h
    split at h
    · cases h
    · next r t1 halloc =>
      obtain ⟨rfl, rfl⟩ := Prod.mk.inj (Except.ok.inj h)
      have hall := allocSymbol_alloced hok halloc
      have hnew : ¬ IsType { t1.symtab r with type := type, infonext := storage, data := 0 } :=
        declClasses_not_type hst
      refine ⟨hall.kept_set hok hnew, ?_, ?_⟩
      · have hlast := hall.last
        change r < t1.last_sym
        omega
      · simpa [fillSymbol, Table.setSym] using hnew

theorem updateSymbolByName_kept (hok : TabOk t) (hst : storage ∈ S_NONE :: declClasses)
    (h : updateSymbolByName t name storage type = .ok (s, t')) : Kept t t' ∧ Plain t' s := by
  have hfound : ∀ r, findForUpdate t name storage = some r → Plain t r := fun r hr => findForUpdate_plain hst hr
  simp only [updateSymbolByName] at h
  split_ifs at h
  · have herr := kept_error hok "duplicate name"
    obtain ⟨hkept, hplain⟩ := updateSymbol_kept herr.ok (t := t.error "duplicate name") hfound hst h
    exact ⟨herr.trans hkept, hplain⟩
  · exact updateSymbol_kept hok hfound hst h

/-! ## The other stores -/

theorem finishDecl_kept (hok : TabOk t) (hs : Plain t s) (init : Bool) (offset : Option Nat) :
    Kept t (finishDecl t s init offset) := by
  apply kept_setSym hok hs.1 hs.2
  intro htype
  have hkind := isType_kind htype
  apply hs.2
  simp only at hkind
  split_ifs at hkind htype
  · rw [kind_initialized] at hkind
    unfold IsType TypeClass at htype ⊢
    have hstor : S_STORAGE ((t.symtab s).infonext ||| INITIALIZED) = S_STORAGE (t.symtab s).infonext := by
      unfold S_STORAGE INITIALIZED
      rw [BitVec.and_or_distrib_right]
      simp
    rwa [hstor] at htype
  · exact htype

theorem updateStruct_kept (hok : TabOk t) {isstruct : Bool} (h : updateStruct t name isstruct = .ok (s, t')) :
    Kept t t' := by
  have hclass : ¬ TypeClass (S_STORAGE (if isstruct then S_STRUCT else S_UNION)) := by
    unfold TypeClass
    cases isstruct <;> decide
  unfold updateStruct at h
  simp only at h
  split at h
  · split at h
    · cases h
    · next r t1 halloc =>
      obtain ⟨rfl, rfl⟩ := Prod.mk.inj (Except.ok.inj h)
      exact (allocSymbol_alloced hok halloc).kept_set hok hclass
  · obtain ⟨_, rfl⟩ := Prod.mk.inj (Except.ok.inj h)
    split_ifs
    · exact kept_error hok _
    · exact Kept.refl hok
    · exact kept_error hok _
    · exact Kept.refl hok

theorem declareArgument_kept (hok : TabOk t) {register : Bool} {offset : Nat}
    (h : declareArgument t name type register offset = .ok t') : Kept t t' := by
  have hst : (if register then S_REGISTER else S_ARGUMENT) ∈ S_NONE :: declClasses := by
    cases register <;> simp [declClasses]
  unfold declareArgument at h
  by_cases hname : name = 0
  · rw [if_pos hname] at h
    obtain rfl := Except.ok.inj h
    exact Kept.refl hok
  · rw [if_neg hname] at h
    split at h
    · cases h
    · next sym t1 hupdate =>
      obtain rfl := Except.ok.inj h
      obtain ⟨hkept, hplain⟩ := updateSymbolByName_kept hok hst hupdate
      exact hkept.trans (kept_setSym hkept.ok hplain.1 hplain.2 (not_isType_infonext hplain.2 rfl))

theorem typeCanonical_kept (hok : TabOk t) (type : Word) : Kept t (typeCanonical t type).2 := by
  unfold typeCanonical indirections
  simp only
  split_ifs
  · exact kept_error hok _
  · exact Kept.refl hok
  · exact Kept.refl hok

theorem argumentType_kept (hok : TabOk t) (type : Word) : Kept t (argumentType t type).2 := by
  unfold argumentType
  split_ifs
  · exact Kept.refl hok
  · have herr := kept_error hok "cannot pass objects"
    exact herr.trans (typeCanonical_kept herr.ok CINT)
  · exact typeCanonical_kept hok type

end Fuzemsys.Fcc.SymTab
