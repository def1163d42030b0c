import Mathlib.Data.List.TakeWhile
import Fuzemsys.Libs.Environ

/-!
# The environment is a map

What the search finds decides what a variable is. Each call changes the entries of
one name only, so the vector stays the map that the calls have built.
-/

open Fuzemsys.Lib

namespace Fuzemsys.Libs

/-! ## Entries of one name -/

theorem isEntry_iff {name : Str} {p : EnvStr} :
    isEntry name p = true ↔ ∃ value, p.bytes = makeVar name value := by
  unfold isEntry makeVar
  rw [List.isPrefixOf_iff_prefix]
  constructor
  · rintro ⟨value, h⟩
    exact ⟨value, by rw [← h, List.append_assoc, List.singleton_append]⟩
  · rintro ⟨value, h⟩
    exact ⟨value, by rw [h, List.append_assoc, List.singleton_append]⟩

theorem takeWhile_makeVar {name : Str} (hname : '=' ∉ name) (value : Str) :
    (makeVar name value).takeWhile (· ≠ '=') = name := by
  have hall : ∀ c ∈ name, (decide (c ≠ '=')) = true := by
    intro c hc
    simp only [decide_eq_true_eq]
    rintro rfl
    exact hname hc
  rw [makeVar, List.takeWhile_append_of_pos hall]
  simp

/-- An entry belongs to one name. -/
theorem isEntry_unique {name name' : Str} {p : EnvStr} (hname : '=' ∉ name) (hname' : '=' ∉ name')
    (h : isEntry name p = true) (h' : isEntry name' p = true) : name = name' := by
  obtain ⟨v, hv⟩ := isEntry_iff.mp h
  obtain ⟨v', hv'⟩ := isEntry_iff.mp h'
  rw [← takeWhile_makeVar hname v, ← takeWhile_makeVar hname' v', ← hv, hv']

theorem isEntry_other {name name' : Str} {p : EnvStr} (hname : '=' ∉ name) (hname' : '=' ∉ name')
    (h : isEntry name p = true) (hne : name' ≠ name) : isEntry name' p = false := by
  rw [Bool.eq_false_iff]
  exact fun h' => hne (isEntry_unique hname' hname h' h)

theorem varName_no_eq (var : Str) : '=' ∉ varName var := by
  intro hmem
  have h := List.mem_takeWhile_imp hmem
  simp at h

/-- A string with an equals sign is its name, the sign and its value. -/
theorem makeVar_varName {var : Str} (h : '=' ∈ var) :
    makeVar (varName var) (var.drop ((varName var).length + 1)) = var := by
  induction var with
  | nil => simp at h
  | cons c cs ih =>
    by_cases hc : c = '='
    · simp [hc, varName, makeVar]
    · have hcs : '=' ∈ cs := by simpa [Ne.symm hc] using h
      have hrec := ih hcs
      unfold makeVar varName at hrec ⊢
      simp only [ne_eq, hc, not_false_eq_true, decide_true, List.takeWhile_cons_of_pos, List.length_cons,
        List.drop_succ_cons, List.cons_append, List.cons.injEq, true_and]
      exact hrec

/-! ## The search -/

theorem findEntry_eq_none {name : Str} {ps : List EnvStr} :
    findEntry name ps = none ↔ ∀ p ∈ ps, isEntry name p = false := by
  induction ps with
  | nil => simp [findEntry]
  | cons p ps ih =>
    unfold findEntry
    by_cases hp : isEntry name p = true
    · simp [hp]
    · cases hrec : findEntry name ps with
      | none => simpa [hp, hrec] using ih.mp hrec
      | some e =>
        have hsome : ¬ ∀ q ∈ ps, isEntry name q = false := fun h => by simp [ih.mpr h] at hrec
        simpa [hp, hrec] using hsome

theorem findEntry_eq_some {name : Str} {ps pre post : List EnvStr} {p : EnvStr}
    (h : findEntry name ps = some (pre, p, post)) :
    ps = pre ++ p :: post ∧ isEntry name p = true ∧ ∀ q ∈ pre, isEntry name q = false := by
  induction ps generalizing pre with
  | nil => simp [findEntry] at h
  | cons q ps ih =>
    unfold findEntry at h
    split at h
    · next hq =>
      obtain ⟨rfl, rfl, rfl⟩ : [] = pre ∧ q = p ∧ ps = post := by simpa using h
      simp [hq]
    · next hq =>
      split at h
      · next pre' p' post' hrec =>
        obtain ⟨rfl, rfl, rfl⟩ : q :: pre' = pre ∧ p' = p ∧ post' = post := by simpa using h
        obtain ⟨rfl, hp, hpre⟩ := ih hrec
        refine ⟨rfl, hp, ?_⟩
        simpa [hq] using hpre
      · cases h

/-- The value that a search finds: that of the first entry. -/
theorem varsOf_eq (ps : List EnvStr) (name : Str) :
    varsOf ps name = (ps.find? (isEntry name)).map fun p => p.bytes.drop (name.length + 1) := by
  unfold varsOf
  cases h : findEntry name ps with
  | none =>
    have hnone : ps.find? (isEntry name) = none := by
      rw [List.find?_eq_none]
      intro p hp
      simp [findEntry_eq_none.mp h p hp]
    rw [hnone]
    rfl
  | some e =>
    obtain ⟨pre, p, post⟩ := e
    obtain ⟨rfl, hp, hpre⟩ := findEntry_eq_some h
    have hnone : pre.find? (isEntry name) = none := by
      rw [List.find?_eq_none]
      intro q hq
      simp [hpre q hq]
    rw [List.find?_append, hnone, Option.none_or, List.find?_cons_of_pos hp]
    rfl

/-! ## Changes of the entries of one name -/

section Changes

variable {name key value : Str} {p q : EnvStr} {pre post ps : List EnvStr}

theorem drop_makeVar (key value : Str) : (makeVar key value).drop (key.length + 1) = value := by
  unfold makeVar
  rw [← List.drop_drop, List.drop_left]
  rfl

/-- An entry of another name does not matter. -/
theorem varsOf_other (hp : isEntry name p = false) : varsOf (pre ++ p :: post) name = varsOf (pre ++ post) name := by
  rw [varsOf_eq, varsOf_eq, List.find?_append, List.find?_append, List.find?_cons_of_neg (by simp [hp])]

theorem varsOf_first (hpre : ∀ r ∈ pre, isEntry name r = false) (hp : p.bytes = makeVar name value) :
    varsOf (pre ++ p :: post) name = some value := by
  have hnone : pre.find? (isEntry name) = none := by
    rw [List.find?_eq_none]
    intro r hr
    simp [hpre r hr]
  rw [varsOf_eq, List.find?_append, hnone, Option.none_or,
    List.find?_cons_of_pos (isEntry_iff.mpr ⟨value, hp⟩), Option.map_some, hp, drop_makeVar]

theorem varsOf_none (hps : ps.countP (isEntry name) = 0) : varsOf ps name = none := by
  have hnone : ps.find? (isEntry name) = none := by
    rw [List.find?_eq_none]
    intro r hr
    simpa using List.countP_eq_zero.mp hps r hr
  rw [varsOf_eq, hnone]
  rfl

/-- Setting a variable in place of an old entry, or at the end. -/
theorem varsOf_set (hname : '=' ∉ name) (hkey : '=' ∉ key)
    (hpre : ∀ r ∈ pre, isEntry key r = false) (hq : q.bytes = makeVar key value)
    (hps : ps = pre ++ post ∨ ∃ p, isEntry key p = true ∧ ps = pre ++ p :: post) :
    varsOf (pre ++ q :: post) name = Function.update (varsOf ps) key (some value) name := by
  by_cases hne : name = key
  · subst hne
    rw [Function.update_self]
    exact varsOf_first hpre hq
  · have hqother := isEntry_other hkey hname (isEntry_iff.mpr ⟨value, hq⟩) hne
    rw [Function.update_of_ne hne, varsOf_other hqother]
    rcases hps with rfl | ⟨p, hp, rfl⟩
    · rfl
    · rw [varsOf_other (isEntry_other hkey hname hp hne)]

theorem varsOf_erase (hname : '=' ∉ name) (hkey : '=' ∉ key) (hp : isEntry key p = true)
    (hunique : (pre ++ p :: post).countP (isEntry key) ≤ 1) :
    varsOf (pre ++ post) name = Function.update (varsOf (pre ++ p :: post)) key none name := by
  by_cases hne : name = key
  · subst hne
    rw [Function.update_self]
    apply varsOf_none
    rw [List.countP_append, List.countP_cons_of_pos hp] at hunique
    rw [List.countP_append]
    omega
  · rw [Function.update_of_ne hne, varsOf_other (isEntry_other hkey hname hp hne)]

theorem varsOf_filter (hname : '=' ∉ name) (hkey : '=' ∉ key) :
    varsOf (ps.filter fun r => !isEntry key r) name = Function.update (varsOf ps) key none name := by
  by_cases hne : name = key
  · subst hne
    rw [Function.update_self]
    apply varsOf_none
    rw [List.countP_eq_zero]
    intro r hr
    simpa using (List.mem_filter.mp hr).2
  · have hsame : (fun r => !isEntry key r && isEntry name r) = isEntry name := by
      funext r
      by_cases hr : isEntry name r = true
      · simp [hr, isEntry_other hname hkey hr (Ne.symm hne)]
      · simp [hr]
    rw [Function.update_of_ne hne, varsOf_eq, varsOf_eq, List.find?_filter]
    simp only [Bool.decide_and, Bool.decide_eq_true, hsame]

/-- The number of entries of a name after a change. -/
theorem countP_set (hname : '=' ∉ name) (hkey : '=' ∉ key) (hq : q.bytes = makeVar key value)
    (hps : (ps = pre ++ post ∧ ∀ r ∈ ps, isEntry key r = false) ∨
      ∃ p, isEntry key p = true ∧ ps = pre ++ p :: post)
    (hunique : ps.countP (isEntry name) ≤ 1) : (pre ++ q :: post).countP (isEntry name) ≤ 1 := by
  have hqkey : isEntry key q = true := isEntry_iff.mpr ⟨value, hq⟩
  rcases hps with ⟨rfl, hnone⟩ | ⟨p, hp, rfl⟩
  · rw [List.countP_append] at hunique
    rw [List.countP_append]
    by_cases hne : name = key
    · subst hne
      have hzero : (pre ++ post).countP (isEntry name) = 0 := by
        rw [List.countP_eq_zero]
        intro r hr
        simp [hnone r hr]
      rw [List.countP_append] at hzero
      rw [List.countP_cons_of_pos hqkey]
      omega
    · rw [List.countP_cons_of_neg (by simp [isEntry_other hkey hname hqkey hne])]
      exact hunique
  · have hsame : isEntry name q = isEntry name p := by
      by_cases hne : name = key
      · rw [hne, hqkey, hp]
      · rw [isEntry_other hkey hname hqkey hne, isEntry_other hkey hname hp hne]
    simpa [List.countP_append, List.countP_cons, hsame] using hunique

end Changes

/-! ## The invariant -/

/-- The vector in use and the two noted ones are allocated, and the noted ones differ. -/
structure Vectors (st : Environ) : Prop where
  vec : st.vec < st.next ∧ st.vec ∉ st.freed
  last_environ : ∀ v, st.last_environ = some v → v < st.next ∧ v ∉ st.freed ∧ st.mall_env ≠ some v
  mall_env : ∀ v, st.mall_env = some v → v < st.next ∧ v ∉ st.freed
  freed : ∀ v ∈ st.freed, v < st.next

/-- The strings and their slots, with the variables `m` that they stand for. -/
structure Holds (st : Environ) (m : Vars) : Prop where
  vars : ∀ name, '=' ∉ name → varsOf st.entries name = m name
  unique : ∀ name, '=' ∉ name → st.entries.countP (isEntry name) ≤ 1
  terminated : st.entries.length + 1 ≤ st.slots
  rooms : ∀ p ∈ st.entries, p.bytes.length + 1 ≤ p.room

structure EnvInv (s : Environ × Vars) : Prop where
  vectors : Vectors s.1
  holds : Holds s.1 s.2

theorem EnvStart.inv {st : Environ} (hstart : EnvStart st) : EnvInv (st, varsOf st.entries) := by
  refine ⟨⟨⟨hstart.vec, by simp [hstart.freed]⟩, ?_, ?_, by simp [hstart.freed]⟩,
    ⟨fun _ _ => rfl, hstart.unique, hstart.terminated, hstart.rooms⟩⟩
  · intro v hv
    simp [hstart.last_environ] at hv
  · intro v hv
    simp [hstart.mall_env] at hv

/-! ### Vectors -/

theorem mem_freeVec {v : Nat} {o : Option Nat} {freed : List Nat} :
    v ∈ freeVec o freed ↔ o = some v ∨ v ∈ freed := by
  cases o with
  | none => simp [freeVec]
  | some w => simp [freeVec, eq_comm]

/-- `setenv` installs a vector and frees the last one that it installed. -/
theorem Vectors.setenv {st : Environ} (h : Vectors st) (entries : List EnvStr) (slots : Nat) :
    Vectors { st with
      entries := entries, vec := st.next, slots := slots, last_environ := some st.next,
      freed := freeVec st.last_environ st.freed, next := st.next + 1 } := by
  have hfresh : st.next ∉ freeVec st.last_environ st.freed := by
    rw [mem_freeVec]
    rintro (hlast | hfreed)
    · exact absurd (h.last_environ _ hlast).1 (Nat.lt_irrefl _)
    · exact absurd (h.freed _ hfreed) (Nat.lt_irrefl _)
  refine ⟨⟨Nat.lt_succ_self _, hfresh⟩, ?_, ?_, ?_⟩
  · rintro v hv
    obtain rfl : st.next = v := by simpa using hv
    exact ⟨Nat.lt_succ_self _, hfresh, fun hmall => absurd (h.mall_env _ hmall).1 (Nat.lt_irrefl _)⟩
  · intro v hv
    obtain ⟨hlt, hlive⟩ := h.mall_env v hv
    refine ⟨Nat.lt_succ_of_lt hlt, ?_⟩
    rw [mem_freeVec, not_or]
    exact ⟨fun hlast => (h.last_environ v hlast).2.2 hv, hlive⟩
  · intro v hv
    rcases mem_freeVec.mp hv with hlast | hfreed
    · exact Nat.lt_succ_of_lt (h.last_environ v hlast).1
    · exact Nat.lt_succ_of_lt (h.freed v hfreed)

/-- So does `putenv`, with its own note. -/
theorem Vectors.putenv {st : Environ} (h : Vectors st) (entries : List EnvStr) (slots : Nat) (extras : Int) :
    Vectors { st with
      entries := entries, vec := st.next, slots := slots, mall_env := some st.next, extras := extras,
      freed := freeVec st.mall_env st.freed, next := st.next + 1 } := by
  have hfresh : st.next ∉ freeVec st.mall_env st.freed := by
    rw [mem_freeVec]
    rintro (hmall | hfreed)
    · exact absurd (h.mall_env _ hmall).1 (Nat.lt_irrefl _)
    · exact absurd (h.freed _ hfreed) (Nat.lt_irrefl _)
  refine ⟨⟨Nat.lt_succ_self _, hfresh⟩, ?_, ?_, ?_⟩
  · intro v hv
    obtain ⟨hlt, hlive, hne⟩ := h.last_environ v hv
    refine ⟨Nat.lt_succ_of_lt hlt, ?_, ?_⟩
    · rw [mem_freeVec, not_or]
      exact ⟨hne, hlive⟩
    · intro heq
      have hv' : st.next = v := by simpa using heq
      omega
  · rintro v hv
    obtain rfl : st.next = v := by simpa using hv
    exact ⟨Nat.lt_succ_self _, hfresh⟩
  · intro v hv
    rcases mem_freeVec.mp hv with hmall | hfreed
    · exact Nat.lt_succ_of_lt (h.mall_env v hmall).1
    · exact Nat.lt_succ_of_lt (h.freed v hfreed)

/-- Nothing else looks at the vectors. -/
theorem Vectors.entries {st : Environ} (h : Vectors st) (entries : List EnvStr) (extras : Int) :
    Vectors { st with entries := entries, extras := extras } :=
  ⟨h.vec, h.last_environ, h.mall_env, h.freed⟩

theorem Vectors.next_not_freed {st : Environ} (h : Vectors st) : st.next ∉ st.freed :=
  fun hmem => absurd (h.freed _ hmem) (Nat.lt_irrefl _)

/-! ### Entries -/

section Entries

variable {st st' : Environ} {m : Vars} {key value : Str} {p q : EnvStr} {pre post : List EnvStr}

theorem Holds.set (h : Holds st m) (hkey : '=' ∉ key) (hpre : ∀ r ∈ pre, isEntry key r = false)
    (hq : q.bytes = makeVar key value) (hroom : q.bytes.length + 1 ≤ q.room)
    (hps : (st.entries = pre ++ post ∧ ∀ r ∈ st.entries, isEntry key r = false) ∨
      ∃ p, isEntry key p = true ∧ st.entries = pre ++ p :: post)
    (hentries : st'.entries = pre ++ q :: post) (hslots : st'.entries.length + 1 ≤ st'.slots) :
    Holds st' (Function.update m key (some value)) where
  vars := by
    intro name hname
    rw [hentries, varsOf_set hname hkey hpre hq (hps.imp_left And.left)]
    by_cases hne : name = key
    · rw [hne, Function.update_self, Function.update_self]
    · rw [Function.update_of_ne hne, Function.update_of_ne hne, h.vars name hname]
  unique := by
    intro name hname
    rw [hentries]
    exact countP_set hname hkey hq hps (h.unique name hname)
  terminated := hslots
  rooms := by
    have hold : ∀ r, r ∈ pre ∨ r ∈ post → r ∈ st.entries := by
      intro r hr
      rcases hps with ⟨heq, _⟩ | ⟨p, _, heq⟩
      · simpa [heq] using hr
      · rcases hr with hr | hr
        · simp [heq, hr]
        · simp [heq, hr]
    intro r hr
    rw [hentries, List.mem_append, List.mem_cons] at hr
    rcases hr with hr | rfl | hr
    · exact h.rooms r (hold r (.inl hr))
    · exact hroom
    · exact h.rooms r (hold r (.inr hr))

/-- Taking entries of one name out leaves the others. -/
theorem Holds.remove (h : Holds st m) (hsub : st'.entries.Sublist st.entries) (hslots : st'.slots = st.slots)
    (hvars : ∀ name, '=' ∉ name → varsOf st'.entries name = Function.update (varsOf st.entries) key none name) :
    Holds st' (Function.update m key none) where
  vars := by
    intro name hname
    rw [hvars name hname]
    by_cases hne : name = key
    · rw [hne, Function.update_self, Function.update_self]
    · rw [Function.update_of_ne hne, Function.update_of_ne hne, h.vars name hname]
  unique := fun name hname => Nat.le_trans hsub.countP_le (h.unique name hname)
  terminated := by
    have hlen := hsub.length_le
    have hterm := h.terminated
    omega
  rooms := fun r hr => h.rooms r (hsub.subset hr)

end Entries

/-! ## Each call -/

/-- What a call on `st` has to leave behind, when the variables are then `m`. -/
structure Right (st : Environ) (m : Vars) (r : Result) : Prop where
  inv : EnvInv (r.st, m)
  stores : ∀ t ∈ r.stores, t.Inside st.freed

section Calls

variable {st : Environ} {m : Vars} {name value var : Str}

theorem vars_of_found {pre post : List EnvStr} {p : EnvStr} (h : EnvInv (st, m)) (hname : '=' ∉ name)
    (hfind : findEntry name st.entries = some (pre, p, post)) : m name ≠ none := by
  have hvars := h.holds.vars name hname
  simp only [varsOf, hfind, Option.map_some] at hvars
  simp [← hvars]

theorem vars_of_not_found (h : EnvInv (st, m)) (hname : '=' ∉ name)
    (hfind : findEntry name st.entries = none) : m name = none := by
  have hvars := h.holds.vars name hname
  simpa [varsOf, hfind] using hvars.symm

theorem length_makeVar : (makeVar name value).length = name.length + 1 + value.length := by
  simp only [makeVar, List.length_append, List.length_cons]
  omega

theorem setenv_right (replace : Bool) (h : EnvInv (st, m)) (hname : '=' ∉ name) :
    Right st (m.step (.setenv name value replace)) (setenv (fun _ => true) st name value replace) := by
  unfold setenv
  cases hfind : findEntry name st.entries with
  | none =>
    have hnone := findEntry_eq_none.mp hfind
    have hstep : m.step (.setenv name value replace) = Function.update m name (some value) := by
      simp [Vars.step, vars_of_not_found h hname hfind]
    rw [hstep]
    refine ⟨⟨h.vectors.setenv _ _, ?_⟩, ?_⟩
    · apply h.holds.set hname hnone (q := { bytes := makeVar name value, room := _ }) rfl _ (.inl ⟨_, hnone⟩) rfl
      · simp
      · simp [length_makeVar]
      · simp
    · simp [Store.Inside, h.vectors.next_not_freed]
  | some e =>
    obtain ⟨pre, p, post⟩ := e
    obtain ⟨heq, hp, hpre⟩ := findEntry_eq_some hfind
    obtain ⟨old, hold⟩ := isEntry_iff.mp hp
    have hterm : st.entries.length + 1 ≤ st.slots := h.holds.terminated
    have hroom := h.holds.rooms p (by simp [heq])
    cases replace with
    | false =>
      have hstep : m.step (.setenv name value false) = m := by
        simp [Vars.step, vars_of_found h hname hfind]
      rw [hstep]
      exact ⟨h, by simp⟩
    | true =>
      have hstep : m.step (.setenv name value true) = Function.update m name (some value) := by
        simp [Vars.step]
      rw [hstep]
      simp only [Bool.not_true, Bool.false_eq_true, if_false]
      rw [heq, List.length_append, List.length_cons] at hterm
      split_ifs with hlen
      · refine ⟨⟨h.vectors.entries _ _, ?_⟩, ?_⟩
        · apply h.holds.set hname hpre (q := { bytes := makeVar name value, room := _ }) rfl _
            (.inr ⟨p, hp, heq⟩) rfl
          · simpa using hterm
          · simp [length_makeVar]
        · have hslot : pre.length + 1 ≤ st.slots := by omega
          simp [Store.Inside, h.vectors.vec.2, hslot]
      · have hbytes : p.bytes.take (name.length + 1) ++ value = makeVar name value := by
          rw [hold, makeVar, makeVar, List.take_length_add_append]
          simp
        have hfits : name.length + 1 + (value.length + 1) ≤ p.room := by omega
        refine ⟨⟨h.vectors.entries _ _, ?_⟩, ?_⟩
        · apply h.holds.set hname hpre (q := { p with bytes := p.bytes.take (name.length + 1) ++ value })
            hbytes _ (.inr ⟨p, hp, heq⟩) rfl
          · simpa using hterm
          · simp only [hbytes, length_makeVar]
            omega
        · simpa [Store.Inside] using hfits

theorem unsetenv_right (h : EnvInv (st, m)) (hname : '=' ∉ name) :
    Right st (m.step (.unsetenv name)) (unsetenv st name) := by
  refine ⟨⟨h.vectors.entries _ st.extras, ?_⟩, ?_⟩
  · refine Holds.remove h.holds ?_ ?_ ?_
    · exact List.filter_sublist
    · rfl
    · intro name' hname'
      exact varsOf_filter hname' hname
  · have hterm : st.entries.length + 1 ≤ st.slots := h.holds.terminated
    have hlen := List.length_filter_le (fun p => !isEntry name p) st.entries
    have hslots : (st.entries.filter fun p => !isEntry name p).length + 1 ≤ st.slots := by omega
    simpa [unsetenv, Store.Inside, h.vectors.vec.2] using hslots

/-- The old entry is gone, and there is room where it was. -/
theorem dropOld_right (var : Str) (h : EnvInv (st, m)) :
    Right st (Function.update m (varName var) none) (dropOld st var) ∧
      (∀ r ∈ (dropOld st var).st.entries, isEntry (varName var) r = false) := by
  have hkey := varName_no_eq var
  unfold dropOld
  cases hfind : findEntry (varName var) st.entries with
  | none =>
    have hsame : Function.update m (varName var) none = m := by
      rw [← vars_of_not_found h hkey hfind, Function.update_eq_self]
    rw [hsame]
    exact ⟨⟨h, by simp⟩, findEntry_eq_none.mp hfind⟩
  | some e =>
    obtain ⟨pre, p, post⟩ := e
    obtain ⟨heq, hp, hpre⟩ := findEntry_eq_some hfind
    have hterm : st.entries.length + 1 ≤ st.slots := h.holds.terminated
    have hunique : (pre ++ p :: post).countP (isEntry (varName var)) ≤ 1 := heq ▸ h.holds.unique _ hkey
    refine ⟨⟨⟨h.vectors.entries _ _, ?_⟩, ?_⟩, ?_⟩
    · refine Holds.remove h.holds ?_ ?_ ?_
      · simp [heq]
      · rfl
      · intro name hname
        simp only [heq]
        exact varsOf_erase hname hkey hp hunique
    · rw [heq, List.length_append, List.length_cons] at hterm
      have hslots : pre.length + (post.length + 1) ≤ st.slots := by omega
      simpa [Store.Inside, h.vectors.vec.2] using hslots
    · have hzero : (pre ++ post).countP (isEntry (varName var)) = 0 := by
        rw [List.countP_append, List.countP_cons_of_pos hp] at hunique
        rw [List.countP_append]
        omega
      intro r hr
      simpa using List.countP_eq_zero.mp hzero r hr

theorem appendVar_right (h : EnvInv (st, m)) (heq : '=' ∈ var)
    (hnone : ∀ r ∈ st.entries, isEntry (varName var) r = false)
    (hroom : 0 < st.extras → st.entries.length + 2 ≤ st.slots) :
    Right st (Function.update m (varName var) (some (var.drop ((varName var).length + 1))))
      (appendVar (fun _ => true) st var) := by
  have hvar := makeVar_varName heq
  simp only [appendVar, Bool.not_true, Bool.false_eq_true, if_false]
  split_ifs with hextras
  · refine ⟨⟨h.vectors.putenv _ _ _, ?_⟩, ?_⟩
    · apply h.holds.set (varName_no_eq var) hnone (q := { bytes := var, room := _ }) hvar.symm _
        (.inl ⟨(List.append_nil _).symm, hnone⟩) rfl
      · simp [ADD_NUM]
      · simp
    · simp [Store.Inside, h.vectors.next_not_freed, ADD_NUM]
  · have hslots := hroom (by omega)
    refine ⟨⟨h.vectors.entries _ _, ?_⟩, ?_⟩
    · apply h.holds.set (varName_no_eq var) hnone (q := { bytes := var, room := _ }) hvar.symm _
        (.inl ⟨(List.append_nil _).symm, hnone⟩) rfl
      · simp only [List.length_append, List.length_cons, List.length_nil]
        omega
      · simp
    · simpa [Store.Inside, h.vectors.vec.2] using hslots

/-- Taking an entry out makes room for the new one. -/
theorem dropOld_room (h : EnvInv (st, m))
    (hroom : findEntry (varName var) st.entries = none → 0 < st.extras → st.entries.length + 2 ≤ st.slots) :
    0 < (dropOld st var).st.extras →
      (dropOld st var).st.entries.length + 2 ≤ (dropOld st var).st.slots := by
  unfold dropOld
  cases hfind : findEntry (varName var) st.entries with
  | none => exact hroom hfind
  | some e =>
    obtain ⟨pre, p, post⟩ := e
    obtain ⟨heq, _, _⟩ := findEntry_eq_some hfind
    have hterm : st.entries.length + 1 ≤ st.slots := h.holds.terminated
    rw [heq, List.length_append, List.length_cons] at hterm
    intro _
    simp only [List.length_append]
    omega

theorem dropOld_freed (st : Environ) (var : Str) : (dropOld st var).st.freed = st.freed := by
  unfold dropOld
  split
  · rfl
  · rfl

theorem putenv_right (h : EnvInv (st, m)) (hgood : EnvGood (st, m) (.putenv var)) :
    Right st (m.step (.putenv var)) (putenv (fun _ => true) st var) := by
  obtain ⟨hdrop, hnone⟩ := dropOld_right var h
  unfold putenv
  by_cases heq : '=' ∈ var
  · have happ := appendVar_right hdrop.inv heq hnone (dropOld_room h (hgood heq))
    have hstep : m.step (.putenv var) = Function.update (Function.update m (varName var) none) (varName var)
        (some (var.drop ((varName var).length + 1))) := by
      simp [Vars.step, heq]
    rw [hstep]
    simp only [heq, not_true_eq_false, if_false]
    refine ⟨happ.inv, ?_⟩
    intro t ht
    rcases List.mem_append.mp ht with ht | ht
    · exact hdrop.stores t ht
    · have hinside := happ.stores t ht
      rwa [dropOld_freed] at hinside
  · have hstep : m.step (.putenv var) = Function.update m (varName var) none := by
      simp [Vars.step, heq]
    rw [hstep]
    simpa [heq] using hdrop

end Calls

/-! ## Every run -/

theorem call_right {s : Environ × Vars} {c : Call} (h : EnvInv s) (hgood : EnvGood s c) :
    Right s.1 (s.2.step c) (call s.1 c) := by
  cases c with
  | setenv name value replace => exact setenv_right replace h hgood
  | putenv var => exact putenv_right h hgood
  | unsetenv name => exact unsetenv_right h hgood
  | getenv name => exact ⟨h, by simp [call]⟩

theorem getenv_eq {s : Environ × Vars} {name : Str} (h : EnvInv s) (hgood : EnvGood s (.getenv name)) :
    getenv s.1 name = s.2 name := by
  obtain ⟨hname, hempty⟩ := hgood
  unfold getenv
  by_cases hnil : name = []
  · rw [if_pos hnil, hempty hnil]
  · rw [if_neg hnil, ← h.holds.vars name hname]
    rfl

/-- In a run that keeps to the condition, the environment is the map that the calls build, a
NULL-terminated vector with one entry for a name, and no store leaves its memory. -/
theorem environ_is_map {st : Environ} (hstart : EnvStart st) {calls : List Call}
    (hgood : AllSteps envStep EnvGood (st, varsOf st.entries) calls) :
    AllSteps envStep EnvLaw (st, varsOf st.entries) calls := by
  apply AllSteps.of_inv _ _ hstart.inv hgood
  · intro s c hs hc
    exact (call_right hs hc).inv
  · intro s c hs hc
    obtain ⟨hinv, hstores⟩ := call_right hs hc
    refine ⟨?_, hinv.holds.terminated, hinv.vectors.vec.2, hinv.holds.unique, hstores⟩
    rintro name rfl
    exact getenv_eq hs hc

/-! ## Two runs -/

/-- A program that inherits one variable. -/
def inherited : Environ where
  entries := [{ bytes := ['H', '=', '/'], room := 4 }]
  vec := 0
  slots := 2
  last_environ := none
  mall_env := none
  extras := 0
  freed := []
  next := 1

theorem inherited_start : EnvStart inherited where
  terminated := by decide
  unique := fun name _ => List.countP_le_length
  rooms := by decide
  last_environ := rfl
  mall_env := rfl
  extras := rfl
  freed := rfl
  vec := by decide

theorem environ_is_map_after_setenv :
    AllSteps envStep EnvLaw (inherited, varsOf inherited.entries)
      [.setenv ['H'] ['b'] true, .putenv ['A', '=', '1'], .unsetenv ['H'], .getenv ['A']] := by
  apply environ_is_map inherited_start
  have hname : '=' ∉ ['H'] := by decide
  refine ⟨hname, fun _ _ h => absurd h (by decide), hname, ⟨by decide, ?_⟩, trivial⟩
  intro h
  cases h

/-- The slot that `putenv` counted is not there in the vector of `setenv`. -/
theorem putenv_past_end :
    ¬ AllSteps envStep EnvLaw (inherited, varsOf inherited.entries)
      [.putenv ['A', '=', '1'], .setenv ['B'] ['2'] true, .putenv ['C', '=', '3']] := by
  rintro ⟨_, _, hlaw, _⟩
  have hinside := hlaw.stores { vec := some 2, off := 3, len := 2, size := 4 } (by decide)
  exact absurd hinside.1 (by decide)

end Fuzemsys.Libs
