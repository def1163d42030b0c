import Mathlib.Data.List.Nodup
import Fuzemsys.Fcc.Scopes

/-!
# Scopes are right

The top four bits of a symbol say whether it is free, a local, a file-scope symbol or
something else. The invariant ties each kind to the names and entries that a run
keeps beside the table.
-/

open Fuzemsys.Lib

namespace Fuzemsys.Fcc.SymTab

/-! ## Kinds of symbols -/

/-- The storage class of a symbol, as a number below 16. -/
def kind (x : Word) : Nat := x.toNat / 4096

theorem lt_iff_kind {x : Word} {k : Nat} (hk : k < 16) : x < BitVec.ofNat 16 (k * 4096) ↔ kind x < k := by
  have hmod : k * 4096 % 2 ^ 16 = k * 4096 := Nat.mod_eq_of_lt (by omega)
  rw [BitVec.lt_def, BitVec.toNat_ofNat, hmod, kind, Nat.div_lt_iff_lt_mul (by decide)]

theorem lt_static_iff {x : Word} : x < S_STATIC ↔ kind x < 5 := lt_iff_kind (k := 5) (by decide)

theorem lt_typedef_iff {x : Word} : x < S_TYPEDEF ↔ kind x < 8 := lt_iff_kind (k := 8) (by decide)

@[simp]
theorem kind_storage (x : Word) : kind (S_STORAGE x) = kind x := by
  have hmask : (61440 : Nat) = (2 ^ 4 - 1) <<< 12 := by decide
  unfold kind S_STORAGE
  rw [BitVec.toNat_and]
  change (x.toNat &&& 61440) / 2 ^ 12 = x.toNat / 2 ^ 12
  rw [← Nat.shiftRight_eq_div_pow, ← Nat.shiftRight_eq_div_pow, Nat.shiftRight_and_distrib, hmask,
    Nat.shiftLeft_shiftRight, Nat.and_two_pow_sub_one_eq_mod]
  have hx := x.isLt
  rw [Nat.shiftRight_eq_div_pow]
  omega

@[simp]
theorem kind_initialized (x : Word) : kind (x ||| INITIALIZED) = kind x := by
  unfold kind INITIALIZED
  rw [BitVec.toNat_or]
  change (x.toNat ||| 2048) / 2 ^ 12 = x.toNat / 2 ^ 12
  rw [← Nat.shiftRight_eq_div_pow, ← Nat.shiftRight_eq_div_pow, Nat.shiftRight_or_distrib]
  simp

@[simp]
theorem kind_extdef (x : Word) : kind (S_INDEX x ||| S_EXTDEF) = 7 := by
  unfold kind S_INDEX S_EXTDEF
  rw [BitVec.toNat_or, BitVec.toNat_and]
  change ((x.toNat &&& 2047) ||| 28672) / 2 ^ 12 = 7
  rw [← Nat.shiftRight_eq_div_pow, Nat.shiftRight_or_distrib, Nat.shiftRight_and_distrib]
  simp

theorem kind_of_storage_eq {x st : Word} (h : S_STORAGE x = st) : kind x = kind st := by
  rw [← h, kind_storage]

/-- A symbol is a live local, a file-scope symbol, or something else. -/
def IsLocal (x : Word) : Prop := 1 ≤ kind x ∧ kind x < 5
def IsGlobal (x : Word) : Prop := 5 ≤ kind x ∧ kind x < 8
def IsOther (x : Word) : Prop := 8 ≤ kind x

instance (x : Word) : Decidable (IsGlobal x) := inferInstanceAs (Decidable (_ ∧ _))

section Searches

variable {symtab : Nat → Symbol} {name cls : Word} {global : Bool} {g : Option Nat} {n i s : Nat}

/-- A local that `find_symbol` stops at. -/
def LocalAt (symtab : Nat → Symbol) (name : Word) (i : Nat) : Prop :=
  (symtab i).name = name ∧ kind (symtab i).infonext < 5

/-- A file-scope symbol that it remembers. -/
def GlobalAt (symtab : Nat → Symbol) (name : Word) (i : Nat) : Prop :=
  (symtab i).name = name ∧ IsGlobal (symtab i).infonext

instance : Decidable (LocalAt symtab name i) := inferInstanceAs (Decidable (_ ∧ _))

instance : Decidable (GlobalAt symtab name i) := inferInstanceAs (Decidable (_ ∧ _))

/-- One step down of `find_symbol`, by kinds. -/
theorem findLoop_succ :
    findLoop symtab name global (n + 1) g =
      if LocalAt symtab name n ∧ global = false then some n
      else if GlobalAt symtab name n then findLoop symtab name global n (some n)
      else findLoop symtab name global n g := by
  rw [findLoop]
  simp only [lt_typedef_iff, lt_static_iff, LocalAt, GlobalAt, IsGlobal]
  by_cases hname : (symtab n).name = name
  · by_cases h5 : kind (symtab n).infonext < 5
    · have h8 : kind (symtab n).infonext < 8 := by omega
      have hnot : ¬ 5 ≤ kind (symtab n).infonext := by omega
      cases global with
      | false => simp [hname, h5, h8]
      | true => simp [hname, h5, h8, hnot]
    · have hge : 5 ≤ kind (symtab n).infonext := by omega
      simp [hname, h5, hge]
  · simp [hname]

theorem findLoop_local (hi : i < n) (hloc : LocalAt symtab name i)
    (hunique : ∀ j < n, LocalAt symtab name j → j = i) : findLoop symtab name false n g = some i := by
  induction n generalizing g with
  | zero => omega
  | succ n ih =>
    rw [findLoop_succ]
    by_cases hn : i = n
    · subst hn
      rw [if_pos ⟨hloc, rfl⟩]
    · have hnot : ¬ (LocalAt symtab name n ∧ false = false) := by
        rintro ⟨h, _⟩
        exact hn (hunique n (Nat.lt_succ_self n) h).symm
      have hrec := fun g => ih (g := g) (by omega) fun j hj => hunique j (by omega)
      rw [if_neg hnot, hrec, hrec, ite_self]

theorem findLoop_none (hloc : ∀ j < n, LocalAt symtab name j → global = true)
    (hglob : ∀ j < n, ¬ GlobalAt symtab name j) : findLoop symtab name global n g = g := by
  induction n generalizing g with
  | zero => rfl
  | succ n ih =>
    have hnot : ¬ (LocalAt symtab name n ∧ global = false) := by
      rintro ⟨h, hg⟩
      simp [hloc n (Nat.lt_succ_self n) h] at hg
    rw [findLoop_succ, if_neg hnot, if_neg (hglob n (Nat.lt_succ_self n))]
    exact ih (fun j hj => hloc j (by omega)) fun j hj => hglob j (by omega)

theorem findLoop_global (hi : i < n) (hat : GlobalAt symtab name i)
    (hloc : ∀ j < n, LocalAt symtab name j → global = true)
    (hunique : ∀ j < n, GlobalAt symtab name j → j = i) :
    findLoop symtab name global n g = some i := by
  induction n generalizing g with
  | zero => omega
  | succ n ih =>
    have hnot : ¬ (LocalAt symtab name n ∧ global = false) := by
      rintro ⟨h, hg⟩
      simp [hloc n (Nat.lt_succ_self n) h] at hg
    have hloc' : ∀ j < n, LocalAt symtab name j → global = true := fun j hj => hloc j (by omega)
    rw [findLoop_succ, if_neg hnot]
    by_cases hn : i = n
    · subst hn
      rw [if_pos hat]
      apply findLoop_none hloc'
      intro j hj hjat
      have heq := hunique j (by omega) hjat
      omega
    · have hnat : ¬ GlobalAt symtab name n := fun h => hn (hunique n (Nat.lt_succ_self n) h).symm
      rw [if_neg hnat]
      exact ih (by omega) hloc' fun j hj => hunique j (by omega)

/-- The search by class returns an entry of that class. -/
theorem findClassLoop_some {r : Nat} (h : findClassLoop symtab name cls n g = some r) :
    g = some r ∨ (r < n ∧ (symtab r).name = name ∧ S_STORAGE (symtab r).infonext = cls) := by
  induction n generalizing g with
  | zero => exact .inl h
  | succ n ih =>
    simp only [findClassLoop] at h
    split_ifs at h with hmatch hstatic
    · obtain rfl : n = r := by simpa using h
      exact .inr ⟨Nat.lt_succ_self n, hmatch⟩
    · rcases ih h with hg | ⟨hlt, hrest⟩
      · obtain rfl : n = r := by simpa using hg
        exact .inr ⟨Nat.lt_succ_self n, hmatch⟩
      · exact .inr ⟨by omega, hrest⟩
    · rcases ih h with hg | ⟨hlt, hrest⟩
      · exact .inl hg
      · exact .inr ⟨by omega, hrest⟩

/-- What `alloc_symbol` finds is the first free entry. -/
theorem allocLoop_some (h : allocLoop symtab n s = some i) :
    s ≤ i ∧ (symtab i).infonext = S_FREE ∧ ∀ j, s ≤ j → j < i → (symtab j).infonext ≠ S_FREE := by
  induction n generalizing s with
  | zero => cases h
  | succ n ih =>
    simp only [allocLoop] at h
    split_ifs at h with hfree
    · obtain rfl : s = i := by simpa using h
      exact ⟨Nat.le_refl s, hfree, fun j hsj hjs => by omega⟩
    · obtain ⟨hle, hi, hfirst⟩ := ih h
      refine ⟨by omega, hi, fun j hsj hji => ?_⟩
      by_cases hj : j = s
      · rwa [hj]
      · exact hfirst j (by omega) hji

theorem doTypeMatchLoop_some {symtab : Nat → Symbol} {st rtype : Word} {idx n s i : Nat}
    (h : doTypeMatchLoop symtab st rtype idx n s = some i) :
    s ≤ i ∧ i < s + n ∧ S_STORAGE (symtab i).infonext = st ∧ (symtab i).type = rtype ∧ (symtab i).data = idx := by
  induction n generalizing s with
  | zero => cases h
  | succ n ih =>
    simp only [doTypeMatchLoop] at h
    split_ifs at h with hmatch
    · obtain rfl : s = i := by simpa using h
      exact ⟨Nat.le_refl s, by omega, hmatch⟩
    · obtain ⟨hle, hlt, hrest⟩ := ih h
      exact ⟨by omega, by omega, hrest⟩

end Searches

/-! ## Names -/

section Names

variable {l : Names} {name : Word} {i : Nat}

theorem lookupName_cons (e : Word × Nat) :
    lookupName (e :: l) name = if e.1 = name then some e.2 else lookupName l name := by
  unfold lookupName
  by_cases h : e.1 = name
  · simp [h]
  · simp [h]

theorem lookupName_eq_none : lookupName l name = none ↔ name ∉ l.map Prod.fst := by
  induction l with
  | nil => simp [lookupName]
  | cons e l ih =>
    rw [lookupName_cons]
    by_cases h : e.1 = name
    · simp [h]
    · have hne : name ≠ e.1 := Ne.symm h
      simp only [h, if_false, ih, List.map_cons, List.mem_cons, hne, false_or]

theorem mem_of_lookupName (h : lookupName l name = some i) : (name, i) ∈ l := by
  induction l with
  | nil => simp [lookupName] at h
  | cons e l ih =>
    rw [lookupName_cons] at h
    split_ifs at h with hname
    · obtain rfl : e.2 = i := by simpa using h
      simp [← hname]
    · exact List.mem_cons_of_mem _ (ih h)

/-- Where no name is repeated, looking up finds every entry. -/
theorem lookupName_eq_some (hnodup : (l.map Prod.fst).Nodup) : lookupName l name = some i ↔ (name, i) ∈ l := by
  refine ⟨mem_of_lookupName, fun hmem => ?_⟩
  cases h : lookupName l name with
  | none =>
    rw [lookupName_eq_none] at h
    exact absurd (List.mem_map_of_mem (f := Prod.fst) hmem) h
  | some j =>
    have heq := List.inj_on_of_nodup_map hnodup (mem_of_lookupName h) hmem rfl
    exact congrArg some (congrArg Prod.snd heq)

end Names

/-! ## The table and what it holds -/

def usedBy (live globals : Names) (others : List Nat) : List Nat :=
  live.map Prod.snd ++ globals.map Prod.snd ++ others

/-- Each entry in use is what the lists say, and each other one is free. -/
structure TableInv (t : Table) (live globals : Names) (others : List Nat) : Prop where
  local_entry : ∀ e ∈ live, (t.symtab e.2).name = e.1 ∧ IsLocal (t.symtab e.2).infonext
  global_entry : ∀ e ∈ globals, (t.symtab e.2).name = e.1 ∧ IsGlobal (t.symtab e.2).infonext
  other_entry : ∀ i ∈ others, IsOther (t.symtab i).infonext
  free : ∀ i < MAXSYM, i ∉ usedBy live globals others →
    (t.symtab i).infonext = S_FREE ∧ (t.symtab i).name = 0
  last : ∀ i ∈ usedBy live globals others, i < t.last_sym
  last_le : t.last_sym ≤ MAXSYM
  top_used : t.local_top ∈ usedBy live globals others
  top_le : ∀ e ∈ live, e.2 ≤ t.local_top
  live_names : (live.map Prod.fst).Nodup
  global_names : (globals.map Prod.fst).Nodup
  nonzero : ∀ e ∈ live ++ globals, e.1 ≠ 0

section Table

variable {t : Table} {live globals : Names} {others : List Nat} {name : Word} {i : Nat}

theorem mem_usedBy : i ∈ usedBy live globals others ↔
    (∃ e ∈ live, e.2 = i) ∨ (∃ e ∈ globals, e.2 = i) ∨ i ∈ others := by
  simp only [usedBy, List.mem_append, List.mem_map, or_assoc]

theorem TableInv.local_iff (h : TableInv t live globals others) (hname : name ≠ 0) (hi : i < t.last_sym) :
    LocalAt t.symtab name i ↔ (name, i) ∈ live := by
  constructor
  · rintro ⟨heq, hkind⟩
    by_cases hused : i ∈ usedBy live globals others
    · rcases mem_usedBy.mp hused with ⟨e, he, rfl⟩ | ⟨e, he, rfl⟩ | hother
      · have hsame := (h.local_entry e he).1
        rw [heq] at hsame
        rwa [hsame]
      · have hglob := (h.global_entry e he).2.1
        omega
      · have hbig := h.other_entry i hother
        unfold IsOther at hbig
        omega
    · have hfree := (h.free i (Nat.lt_of_lt_of_le hi h.last_le) hused).2
      exact absurd (heq.symm.trans hfree) hname
  · intro hmem
    have hloc := h.local_entry _ hmem
    exact ⟨hloc.1, hloc.2.2⟩

theorem TableInv.global_iff (h : TableInv t live globals others) (hname : name ≠ 0) (hi : i < t.last_sym) :
    GlobalAt t.symtab name i ↔ (name, i) ∈ globals := by
  constructor
  · rintro ⟨heq, hkind⟩
    by_cases hused : i ∈ usedBy live globals others
    · rcases mem_usedBy.mp hused with ⟨e, he, rfl⟩ | ⟨e, he, rfl⟩ | hother
      · have hloc := (h.local_entry e he).2.2
        have hglob := hkind.1
        omega
      · have hsame := (h.global_entry e he).1
        rw [heq] at hsame
        rwa [hsame]
      · have hbig := h.other_entry i hother
        have hglob := hkind.2
        unfold IsOther at hbig
        omega
    · have hfree := (h.free i (Nat.lt_of_lt_of_le hi h.last_le) hused).2
      exact absurd (heq.symm.trans hfree) hname
  · exact h.global_entry _

theorem TableInv.mem_last (h : TableInv t live globals others) {e : Word × Nat} (he : e ∈ live ∨ e ∈ globals) :
    e.2 < t.last_sym := by
  apply h.last
  rw [mem_usedBy]
  rcases he with he | he
  · exact .inl ⟨e, he, rfl⟩
  · exact .inr (.inl ⟨e, he, rfl⟩)

/-- The file-scope search. -/
theorem TableInv.find_global (h : TableInv t live globals others) (hname : name ≠ 0) {global : Bool}
    (hlive : lookupName live name = none ∨ global = true) :
    findSymbol t name global = lookupName globals name := by
  have hloc : ∀ j < t.last_sym, LocalAt t.symtab name j → global = true := by
    intro j hj hat
    rcases hlive with hnone | hg
    · rw [lookupName_eq_none] at hnone
      exact absurd (List.mem_map_of_mem (f := Prod.fst) ((h.local_iff hname hj).mp hat)) hnone
    · exact hg
  unfold findSymbol
  cases hglob : lookupName globals name with
  | none =>
    apply findLoop_none hloc
    intro j hj hat
    rw [lookupName_eq_none] at hglob
    exact hglob (List.mem_map_of_mem (f := Prod.fst) ((h.global_iff hname hj).mp hat))
  | some i =>
    have hmem := mem_of_lookupName hglob
    have hi := h.mem_last (.inr hmem)
    apply findLoop_global hi ((h.global_iff hname hi).mpr hmem) hloc
    intro j hj hat
    have hj' := (lookupName_eq_some h.global_names).mpr ((h.global_iff hname hj).mp hat)
    rw [hglob] at hj'
    exact (Option.some.inj hj').symm

/-- A name stands for its live local, or else for its file-scope symbol. -/
theorem TableInv.find (h : TableInv t live globals others) (hname : name ≠ 0) :
    findSymbol t name false = (lookupName live name).or (lookupName globals name) := by
  cases hlive : lookupName live name with
  | none =>
    rw [Option.none_or]
    exact h.find_global hname (.inl hlive)
  | some i =>
    have hmem := mem_of_lookupName hlive
    have hi := h.mem_last (.inl hmem)
    rw [Option.some_or]
    apply findLoop_local hi ((h.local_iff hname hi).mpr hmem)
    intro j hj hat
    have hj' := (lookupName_eq_some h.live_names).mpr ((h.local_iff hname hj).mp hat)
    rw [hlive] at hj'
    exact (Option.some.inj hj').symm

end Table

/-! ## Changes of one symbol -/

/-- A symbol keeps its class. -/
def SameClass (x y : Word) : Prop :=
  (IsLocal x → IsLocal y) ∧ (IsGlobal x → IsGlobal y) ∧ (IsOther x → IsOther y)

theorem sameClass_of_kind {x y : Word} (h : kind x = kind y) : SameClass x y := by
  simp only [SameClass, IsLocal, IsGlobal, IsOther, h]
  exact ⟨id, id, id⟩

theorem SameClass.trans {x y z : Word} (h : SameClass x y) (h' : SameClass y z) : SameClass x z :=
  ⟨h'.1 ∘ h.1, h'.2.1 ∘ h.2.1, h'.2.2 ∘ h.2.2⟩

/-- Only entry `s` changes, and keeps its name and its class. -/
structure Touched (s : Nat) (t t' : Table) : Prop where
  last : t'.last_sym = t.last_sym
  top : t'.local_top = t.local_top
  same : ∀ j ≠ s, t'.symtab j = t.symtab j
  name : (t'.symtab s).name = (t.symtab s).name
  cls : SameClass (t.symtab s).infonext (t'.symtab s).infonext

theorem Touched.trans {s : Nat} {t t' t'' : Table} (h : Touched s t t') (h' : Touched s t' t'') :
    Touched s t t'' where
  last := h'.last.trans h.last
  top := h'.top.trans h.top
  same := fun j hj => (h'.same j hj).trans (h.same j hj)
  name := h'.name.trans h.name
  cls := h.cls.trans h'.cls

section Keep

variable {t t' : Table} {live globals : Names} {others : List Nat} {s : Nat}

end Keep

/-! ## New symbols -/

section Add

variable {t t' : Table} {live globals : Names} {others : List Nat} {name : Word} {i : Nat} {lcl : Bool}

end Add

/-! ## Closing a scope -/

theorem TableInv.pop {t : Table} {locals outer globals : Names} {others : List Nat} {mark : Nat}
    (h : TableInv t (locals ++ outer) globals others) (hinner : ∀ e ∈ locals, mark < e.2)
    (houter : ∀ e ∈ outer, e.2 ≤ mark) (hmark : mark ∈ usedBy outer globals others) :
    TableInv (popLocalSymbols t mark) outer globals others := by
  have hpop : ∀ j, (popLocalSymbols t mark).symtab j =
      if mark < j ∧ j < t.last_sym ∧ kind (t.symtab j).infonext < 5 then
        { t.symtab j with infonext := S_FREE, name := 0 }
      else t.symtab j := by
    intro j
    simp only [popLocalSymbols, lt_static_iff, kind_storage]
  have hsub : ∀ j, j ∈ usedBy outer globals others → j ∈ usedBy (locals ++ outer) globals others := by
    intro j hj
    simp only [usedBy, List.map_append, List.mem_append] at hj ⊢
    rcases hj with (hj | hj) | hj
    · exact .inl (.inl (.inr hj))
    · exact .inl (.inr hj)
    · exact .inr hj
  refine ⟨?_, ?_, ?_, ?_, ?_, h.last_le, hmark, houter, ?_, h.global_names, ?_⟩
  · intro e he
    have hle := houter e he
    rw [hpop, if_neg (by omega)]
    exact h.local_entry e (List.mem_append_right _ he)
  · intro e he
    obtain ⟨hname, hglob⟩ := h.global_entry e he
    have hge := hglob.1
    rw [hpop, if_neg (by omega)]
    exact ⟨hname, hglob⟩
  · intro j hj
    have hother := h.other_entry j hj
    have hge : 8 ≤ kind (t.symtab j).infonext := hother
    rw [hpop, if_neg (by omega)]
    exact hother
  · intro j hj hfree
    rw [hpop]
    split_ifs with hcut
    · exact ⟨rfl, rfl⟩
    · apply h.free j hj
      intro hused
      -- What is in use and no longer listed was a local of the scope, and was cut.
      rcases mem_usedBy.mp hused with ⟨e, he, rfl⟩ | hrest
      · rcases List.mem_append.mp he with he | he
        · have hlt := hinner e he
          have hlast := h.last _ hused
          have hkind := (h.local_entry e (List.mem_append_left _ he)).2.2
          exact hcut ⟨hlt, hlast, hkind⟩
        · exact hfree (mem_usedBy.mpr (.inl ⟨e, he, rfl⟩))
      · exact hfree (mem_usedBy.mpr (.inr hrest))
  · exact fun j hj => h.last j (hsub j hj)
  · have hnames := h.live_names
    rw [List.map_append] at hnames
    exact hnames.of_append_right
  · intro e he
    apply h.nonzero
    rcases List.mem_append.mp he with he | he
    · exact List.mem_append_left _ (List.mem_append_right _ he)
    · exact List.mem_append_right _ he

end Fuzemsys.Fcc.SymTab
