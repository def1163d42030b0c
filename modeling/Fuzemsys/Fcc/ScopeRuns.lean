import Fuzemsys.Fcc.ScopeProofs

/-!
# Runs of scopes

Each step of the parser keeps the table and the open scopes in order, so a name
stands for its innermost live local at every point of a run.
-/

open Fuzemsys.Lib

namespace Fuzemsys.Fcc.SymTab

/-! ## Open scopes -/

/-- A scope whose enclosing locals are `outer`: its own locals lie above its mark, the others
do not, and it remembers what names stood for. -/
structure ScopeOk (outer globals : Names) (others : List Nat) (sc : Scope) : Prop where
  inner : ∀ e ∈ sc.locals, sc.mark < e.2
  outer_le : ∀ e ∈ outer, e.2 ≤ sc.mark
  mark_used : sc.mark ∈ usedBy outer globals others
  before : ∃ gs, gs <:+ globals ∧
    ∀ name ≠ 0, sc.before name = (lookupName outer name).or (lookupName gs name)

/-- The scopes from the inside out; each mark is at or below the one inside it, and `top`. -/
def Nested (outside globals : Names) (others : List Nat) : Nat → List Scope → Prop
  | _, [] => True
  | top, sc :: rest =>
    sc.mark ≤ top ∧ ScopeOk (liveLocals rest outside) globals others sc ∧
      Nested outside globals others sc.mark rest

structure ScopeInv (s : Scopes) : Prop where
  table : TableInv s.tab s.live s.globals s.others
  nested : Nested s.outside s.globals s.others s.tab.local_top s.opened

theorem usedBy_mono {live live' globals globals' : Names} {others others' : List Nat} {i : Nat}
    (hlive : live ⊆ live') (hglobals : globals ⊆ globals') (hothers : others ⊆ others')
    (hi : i ∈ usedBy live globals others) : i ∈ usedBy live' globals' others' := by
  rw [mem_usedBy] at hi ⊢
  rcases hi with ⟨e, he, rfl⟩ | ⟨e, he, rfl⟩ | hi
  · exact .inl ⟨e, hlive he, rfl⟩
  · exact .inr (.inl ⟨e, hglobals he, rfl⟩)
  · exact .inr (.inr (hothers hi))

/-- New file-scope symbols and types do not disturb the open scopes. -/
theorem Nested.mono {outside globals globals' : Names} {others others' : List Nat} {opened : List Scope}
    {top top' : Nat} (hglobals : globals <:+ globals') (hothers : others ⊆ others') (htop : top ≤ top')
    (h : Nested outside globals others top opened) : Nested outside globals' others' top' opened := by
  induction opened generalizing top top' with
  | nil => trivial
  | cons sc rest ih =>
    obtain ⟨hmark, hsc, hrest⟩ := h
    obtain ⟨gs, hgs, hbefore⟩ := hsc.before
    refine ⟨by omega, ⟨hsc.inner, hsc.outer_le, ?_, gs, hgs.trans hglobals, hbefore⟩, ih (Nat.le_refl _) hrest⟩
    exact usedBy_mono (List.Subset.refl _) hglobals.subset hothers hsc.mark_used

/-! ## Declarations -/

section Declare

variable {t t' : Table} {live globals : Names} {others : List Nat} {name storage type : Word} {i : Nat}

theorem TableInv.error (h : TableInv t live globals others) (msg : String) :
    TableInv (t.error msg) live globals others :=
  ⟨h.local_entry, h.global_entry, h.other_entry, h.free, h.last, h.last_le, h.top_used, h.top_le,
    h.live_names, h.global_names, h.nonzero⟩

/-- A local declaration looks for a live local of the name. -/
theorem TableInv.findForUpdate_local (h : TableInv t live globals others) (hname : name ≠ 0)
    (hst : storage < S_STATIC) : findForUpdate t name storage = lookupName live name := by
  have hkind := lt_static_iff.mp hst
  have htd : storage < S_TYPEDEF := lt_typedef_iff.mpr (by omega)
  simp only [findForUpdate, hst, htd, not_true_eq_false, decide_false, if_false]
  rw [h.find hname]
  cases hlive : lookupName live name with
  | some i =>
    have hloc := (h.local_entry _ (mem_of_lookupName hlive)).2.2
    simp only [Option.some_or, lt_static_iff.mpr hloc]
    rfl
  | none =>
    rw [Option.none_or]
    cases hglob : lookupName globals name with
    | none => rfl
    | some i =>
      have hge := (h.global_entry _ (mem_of_lookupName hglob)).2.1
      have hnot : ¬ (t.symtab i).infonext < S_STATIC := by
        rw [lt_static_iff]
        simp only at hge
        omega
      simp [hnot]

/-- A file-scope declaration looks for a file-scope symbol. -/
theorem TableInv.findForUpdate_global (h : TableInv t live globals others) (hname : name ≠ 0)
    (hst : ¬ storage < S_STATIC) (htd : storage < S_TYPEDEF) :
    findForUpdate t name storage = lookupName globals name := by
  simp only [findForUpdate, hst, htd, not_true_eq_false, not_false_eq_true, decide_true, if_false]
  rw [h.find_global hname (.inr rfl)]
  cases lookupName globals name with
  | none => rfl
  | some i => simp

/-- A typedef or a tag is looked for by its class. -/
theorem TableInv.findForUpdate_other (h : TableInv t live globals others) (htd : ¬ storage < S_TYPEDEF)
    (hfind : findForUpdate t name storage = some i) :
    i ∈ others ∧ kind (t.symtab i).infonext = kind storage := by
  have h8 : 8 ≤ kind storage := by
    rw [lt_typedef_iff] at htd
    omega
  have hst : ¬ storage < S_STATIC := by
    rw [lt_static_iff]
    omega
  simp only [findForUpdate, hst, htd, not_false_eq_true, decide_true, if_true] at hfind
  split at hfind
  · next s hs =>
    obtain rfl : s = i := by simpa using hfind
    rcases findClassLoop_some hs with hnone | ⟨hlt, _, hcls⟩
    · cases hnone
    · have hkind := kind_of_storage_eq hcls
      refine ⟨?_, hkind⟩
      by_cases hused : s ∈ usedBy live globals others
      · rcases mem_usedBy.mp hused with ⟨e, he, rfl⟩ | ⟨e, he, rfl⟩ | hother
        · have hloc := (h.local_entry e he).2.2
          omega
        · have hglob := (h.global_entry e he).2.2
          omega
        · exact hother
      · have hfree := (h.free s (Nat.lt_of_lt_of_le hlt h.last_le) hused).1
        rw [hfree] at hkind
        have h0 : kind S_FREE = 0 := by decide
        omega
  · cases hfind

/-- What a declaration finds is in use, and of the class that is declared. -/
theorem TableInv.found (h : TableInv t live globals others) (hname : name ≠ 0) (hst : 1 ≤ kind storage)
    (hfind : findForUpdate t name storage = some i) :
    i ∈ usedBy live globals others ∧ SameClass (t.symtab i).infonext storage := by
  rw [mem_usedBy]
  by_cases hstatic : storage < S_STATIC
  · rw [h.findForUpdate_local hname hstatic] at hfind
    have hmem := mem_of_lookupName hfind
    have hloc := (h.local_entry _ hmem).2
    rw [lt_static_iff] at hstatic
    refine ⟨.inl ⟨_, hmem, rfl⟩, ?_⟩
    simp only [SameClass, IsLocal, IsGlobal, IsOther] at hloc ⊢
    omega
  · by_cases htd : storage < S_TYPEDEF
    · rw [h.findForUpdate_global hname hstatic htd] at hfind
      have hmem := mem_of_lookupName hfind
      have hglob := (h.global_entry _ hmem).2
      rw [lt_static_iff] at hstatic
      rw [lt_typedef_iff] at htd
      refine ⟨.inr (.inl ⟨_, hmem, rfl⟩), ?_⟩
      simp only [SameClass, IsLocal, IsGlobal, IsOther] at hglob ⊢
      omega
    · obtain ⟨hmem, hkind⟩ := h.findForUpdate_other htd hfind
      exact ⟨.inr (.inr hmem), sameClass_of_kind hkind⟩

end Declare

/-! ## Bookkeeping -/

theorem live_addLocal (s : Scopes) (name : Word) (i : Nat) : (s.addLocal name i).live = (name, i) :: s.live := by
  unfold Scopes.addLocal Scopes.live
  split
  · next sc rest h => simp [h, liveLocals]
  · next h => simp [h, liveLocals]

/-- A new local goes to the innermost scope, above its mark. -/
theorem ScopeInv.addLocal {s : Scopes} {t' : Table} {name : Word} {i : Nat} (h : ScopeInv s)
    (htop : s.tab.local_top < i) (hltop : t'.local_top = i)
    (ht : TableInv t' ((name, i) :: s.live) s.globals s.others) :
    ScopeInv ({ s with tab := t' }.addLocal name i) := by
  have hnested := h.nested
  refine ⟨?_, ?_⟩
  · rw [live_addLocal]
    unfold Scopes.addLocal
    split
    · exact ht
    · exact ht
  · unfold Scopes.addLocal
    simp only
    split
    · next sc rest hopened =>
      rw [hopened] at hnested
      obtain ⟨hmark, hsc, hrest⟩ := hnested
      refine ⟨?_, ⟨?_, hsc.outer_le, hsc.mark_used, hsc.before⟩, hrest⟩
      · change sc.mark ≤ t'.local_top
        omega
      · intro e he
        rcases List.mem_cons.mp he with rfl | he
        · change sc.mark < i
          omega
        · exact hsc.inner e he
    · next hopened =>
      simp only [hopened]
      trivial

theorem ScopeInv.setTab {s : Scopes} {t' : Table} (h : ScopeInv s)
    (hltop : t'.local_top = s.tab.local_top) (ht : TableInv t' s.live s.globals s.others) :
    ScopeInv { s with tab := t' } :=
  ⟨ht, h.nested.mono (List.suffix_refl _) (List.Subset.refl _) (Nat.le_of_eq hltop.symm)⟩

/-- The start is what `main` leaves after its first call of `make_function`. -/
theorem start_makeFunction (behind : Nat → Symbol) :
    makeFunction (emptyTable behind) CINT 1 = .ok (C_FUNCTION, startTable behind) := by
  have hsearch : doTypeMatchLoop (emptyTable behind).symtab S_FUNCDEF CINT 1 0 0 = none := rfl
  have halloc : allocLoop (emptyTable behind).symtab (MAXSYM + 1) 0 = some 0 := by
    simp [MAXSYM, allocLoop, emptyTable, S_FREE]
  have hlast : (emptyTable behind).last_sym = 0 := rfl
  have htop : (emptyTable behind).local_top = 0 := rfl
  have hcode : C_FUNCTION ||| (BitVec.ofNat 16 0 <<< 3) = C_FUNCTION := by decide
  simp only [makeFunction, doTypeMatch, allocSymbol, hlast, htop, hsearch, Nat.sub_zero, halloc, hcode]
  simp [Table.setSym, startTable, emptyTable]

/-- The table after `k` definitions of file scope, with names from `0x8001` on. -/
def filled (k : Nat) : Nat → Symbol := fun i =>
  if i = 0 then { name := 0xFFFF, infonext := S_FUNCDEF, type := CINT, data := 1 }
  else if i ≤ k then { name := BitVec.ofNat 16 (0x8000 + i), infonext := S_STATIC, type := CINT, data := 0 }
  else zeroSymbol

end Fuzemsys.Fcc.SymTab
