import Mathlib.Data.List.Nodup

/-!
# Code with labels

A list of instructions over any labels, actions and tests. The place in a program is the
code that is still to be run: a jump goes on with the code from its label on.
-/

namespace Fuzemsys.Lib

universe u v w x

variable {L : Type u} {A : Type v} {T : Type w} {σ : Type x}

inductive Instr (L : Type u) (A : Type v) (T : Type w) where
  | label (l : L)
  | jump (l : L)
  | jfalse (t : T) (l : L)
  | jtrue (t : T) (l : L)
  | act (a : A)
  deriving DecidableEq

/-- What actions and tests do to a state. A test may change it. -/
structure Meaning (A : Type v) (T : Type w) (σ : Type x) where
  act : A → σ → σ
  test : T → σ → σ × Bool

/-! ## Labels -/

def labels : List (Instr L A T) → List L
  | [] => []
  | .label l :: k => l :: labels k
  | _ :: k => labels k

/-- The labels that are jumped to. -/
def targets : List (Instr L A T) → List L
  | [] => []
  | .jump l :: k => l :: targets k
  | .jfalse _ l :: k => l :: targets k
  | .jtrue _ l :: k => l :: targets k
  | _ :: k => targets k

@[simp]
theorem labels_append (code code' : List (Instr L A T)) : labels (code ++ code') = labels code ++ labels code' := by
  induction code with
  | nil => rfl
  | cons i code ih => cases i <;> simp [labels, ih]

@[simp]
theorem targets_append (code code' : List (Instr L A T)) : targets (code ++ code') = targets code ++ targets code' := by
  induction code with
  | nil => rfl
  | cons i code ih => cases i <;> simp [targets, ih]

@[simp]
theorem labels_ite (p : Prop) [Decidable p] (code code' : List (Instr L A T)) :
    labels (if p then code else code') = if p then labels code else labels code' := by
  split <;> rfl

@[simp]
theorem targets_ite (p : Prop) [Decidable p] (code code' : List (Instr L A T)) :
    targets (if p then code else code') = if p then targets code else targets code' := by
  split <;> rfl

section
variable [DecidableEq L]

/-- The code from a label on. -/
def goto (l : L) : List (Instr L A T) → Option (List (Instr L A T))
  | [] => none
  | .label l' :: k => if l' = l then some (.label l' :: k) else goto l k
  | _ :: k => goto l k

theorem goto_of_notMem {l : L} {pre : List (Instr L A T)} (hl : l ∉ labels pre) (k : List (Instr L A T)) :
    goto l (pre ++ .label l :: k) = some (.label l :: k) := by
  induction pre with
  | nil => exact if_pos rfl
  | cons i pre ih =>
    cases i with
    | label l' =>
      simp only [labels, List.mem_cons, not_or] at hl
      rw [List.cons_append, goto, if_neg (Ne.symm hl.1)]
      exact ih hl.2
    | _ => exact ih hl

/-- Where a label is the only one of its name, jumps to it arrive there. -/
theorem goto_of_nodup {l : L} {pre k : List (Instr L A T)} (hnodup : (labels (pre ++ .label l :: k)).Nodup) :
    goto l (pre ++ .label l :: k) = some (.label l :: k) := by
  apply goto_of_notMem
  rw [labels_append, List.nodup_append] at hnodup
  exact fun hl => hnodup.2.2 l hl l List.mem_cons_self rfl

theorem goto_of_suffix {l : L} {prog k : List (Instr L A T)} (hnodup : (labels prog).Nodup)
    (hsuffix : .label l :: k <:+ prog) : goto l prog = some (.label l :: k) := by
  obtain ⟨pre, rfl⟩ := hsuffix
  exact goto_of_nodup hnodup

/-! ## Runs -/

/-- At most `n` steps. A jump without a label does not end. -/
def run (prog : List (Instr L A T)) (M : Meaning A T σ) : Nat → List (Instr L A T) → σ → Option σ
  | _, [], s => some s
  | 0, _ :: _, _ => none
  | n + 1, .label _ :: k, s => run prog M n k s
  | n + 1, .act a :: k, s => run prog M n k (M.act a s)
  | n + 1, .jump l :: _, s =>
    match goto l prog with
    | some k => run prog M n k s
    | none => none
  | n + 1, .jfalse t l :: k, s =>
    if (M.test t s).2 then run prog M n k (M.test t s).1
    else
      match goto l prog with
      | some k => run prog M n k (M.test t s).1
      | none => none
  | n + 1, .jtrue t l :: k, s =>
    if (M.test t s).2 then
      match goto l prog with
      | some k => run prog M n k (M.test t s).1
      | none => none
    else run prog M n k (M.test t s).1

/-- From the start to the end. -/
def Halts (prog : List (Instr L A T)) (M : Meaning A T σ) (s s' : σ) : Prop := ∃ n, run prog M n prog s = some s'

attribute [local simp] run

variable {prog k : List (Instr L A T)} {M : Meaning A T σ} {n : Nat} {l : L} {t : T} {a : A} {s s' : σ}

/-- More steps do not change the end. -/
theorem run_succ (hrun : run prog M n k s = some s') : run prog M (n + 1) k s = some s' := by
  induction n generalizing k s with
  | zero =>
    cases k with
    | nil => exact hrun
    | cons i k => cases hrun
  | succ n ih =>
    cases k with
    | nil => exact hrun
    | cons i k =>
      cases i with
      | label l => exact ih hrun
      | act a => exact ih hrun
      | jump l =>
        simp only [run] at hrun ⊢
        cases hgoto : goto l prog <;> simp only [hgoto] at hrun ⊢
        · cases hrun
        · exact ih hrun
      | jfalse t l =>
        simp only [run] at hrun ⊢
        cases htest : (M.test t s).2 <;> simp only [htest, Bool.false_eq_true, if_true, if_false] at hrun ⊢
        · cases hgoto : goto l prog <;> simp only [hgoto] at hrun ⊢
          · cases hrun
          · exact ih hrun
        · exact ih hrun
      | jtrue t l =>
        simp only [run] at hrun ⊢
        cases htest : (M.test t s).2 <;> simp only [htest, Bool.false_eq_true, if_true, if_false] at hrun ⊢
        · exact ih hrun
        · cases hgoto : goto l prog <;> simp only [hgoto] at hrun ⊢
          · cases hrun
          · exact ih hrun

theorem run_label : run prog M n (.label l :: k) s = some s' ↔ ∃ m, n = m + 1 ∧ run prog M m k s = some s' := by
  cases n <;> simp [run]

theorem run_act : run prog M n (.act a :: k) s = some s' ↔ ∃ m, n = m + 1 ∧ run prog M m k (M.act a s) = some s' := by
  cases n <;> simp [run]

theorem run_jump : run prog M n (.jump l :: k) s = some s' ↔
    ∃ m k', n = m + 1 ∧ goto l prog = some k' ∧ run prog M m k' s = some s' := by
  cases n with
  | zero => simp [run]
  | succ n => cases hgoto : goto l prog <;> simp [run, hgoto]

theorem run_jfalse : run prog M n (.jfalse t l :: k) s = some s' ↔
    ∃ m k', n = m + 1 ∧ (if (M.test t s).2 then k' = k else goto l prog = some k') ∧
      run prog M m k' (M.test t s).1 = some s' := by
  cases n with
  | zero => simp [run]
  | succ n =>
    cases htest : (M.test t s).2
    · cases hgoto : goto l prog <;> simp [run, htest, hgoto]
    · simp [run, htest]

theorem run_jtrue : run prog M n (.jtrue t l :: k) s = some s' ↔
    ∃ m k', n = m + 1 ∧ (if (M.test t s).2 then goto l prog = some k' else k' = k) ∧
      run prog M m k' (M.test t s).1 = some s' := by
  cases n with
  | zero => simp [run]
  | succ n =>
    cases htest : (M.test t s).2
    · simp [run, htest]
    · cases hgoto : goto l prog <;> simp [run, htest, hgoto]

end

end Fuzemsys.Lib
