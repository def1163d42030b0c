import Mathlib.Logic.Relation
import Mathlib.Algebra.Order.Group.Nat

/-!
# Loops that may not end

A loop runs on fuel. It ends if some amount of fuel is enough, and more fuel then
changes nothing. A loop that takes a measure down ends unless it gets stuck.
-/

namespace Fuzemsys.Lib

universe u v w

/-- Where a run with limited fuel got to. -/
inductive Outcome (α : Type u) where
  | running
  | fatal
  | done (x : α)
  deriving DecidableEq, Repr

namespace Outcome

variable {α : Type u} {β : Type v}

def bind (f : Outcome α) (g : α → Outcome β) : Outcome β :=
  match f with
  | running => running
  | fatal => fatal
  | done x => g x

@[simp] theorem bind_running (g : α → Outcome β) : bind running g = running := rfl
@[simp] theorem bind_fatal (g : α → Outcome β) : bind fatal g = fatal := rfl
@[simp] theorem bind_done (x : α) (g : α → Outcome β) : bind (done x) g = g x := rfl

def ofOption : Option α → Outcome α
  | none => fatal
  | some x => done x

@[simp] theorem ofOption_none : ofOption (none : Option α) = fatal := rfl
@[simp] theorem ofOption_some (x : α) : ofOption (some x) = done x := rfl

theorem ofOption_ne_running (x : Option α) : ofOption x ≠ running := by
  cases x <;> simp

theorem bind_eq_done {f : Outcome α} {g : α → Outcome β} {y : β} :
    bind f g = done y ↔ ∃ x, f = done x ∧ g x = done y := by
  cases f <;> simp

theorem ofOption_eq_done {x : Option α} {y : α} : ofOption x = done y ↔ x = some y := by
  cases x <;> simp

end Outcome

variable {α : Type u} {β : Type v} {σ : Type u} {ρ : Type v}

/-! ## Fuel -/

/-- What was done with some fuel is done the same with more. -/
def Steady (f : Nat → Outcome α) : Prop := ∀ n m, n ≤ m → f n ≠ .running → f m = f n

def Terminates (f : Nat → Outcome α) : Prop := ∃ n, f n ≠ .running

theorem steady_const (x : Outcome α) : Steady fun _ => x := fun _ _ _ _ => rfl

theorem Steady.bind {f : Nat → Outcome α} {g : α → Nat → Outcome β} (hf : Steady f) (hg : ∀ x, Steady (g x)) :
    Steady fun n => (f n).bind fun x => g x n := by
  intro n m hle hrun
  have hne : f n ≠ .running := by
    intro hrunning
    simp [hrunning] at hrun
  simp only [hf n m hle hne]
  cases hfn : f n with
  | running => exact absurd hfn hne
  | fatal => rfl
  | done x =>
    simp only [hfn, Outcome.bind_done] at hrun ⊢
    exact hg x n m hle hrun

theorem terminates_const {x : Outcome α} (hx : x ≠ .running) : Terminates fun _ => x := ⟨0, hx⟩

/-- A sequence ends if its first part does, and then the second. -/
theorem terminates_bind_iff {f : Nat → Outcome α} {g : α → Nat → Outcome β} (hf : Steady f) (hg : ∀ x, Steady (g x)) :
    (Terminates fun n => (f n).bind fun x => g x n) ↔ Terminates f ∧ ∀ n x, f n = .done x → Terminates (g x) := by
  constructor
  · rintro ⟨n, hrun⟩
    have hne : f n ≠ .running := by
      intro hrunning
      simp [hrunning] at hrun
    refine ⟨⟨n, hne⟩, fun m x hx => ⟨max n m, ?_⟩⟩
    have hmax : f (max n m) = .done x := (hf m _ (le_max_right n m) (by simp [hx])).trans hx
    have hsame := (hf.bind hg) n (max n m) (le_max_left n m) hrun
    simp only [hmax, Outcome.bind_done] at hsame
    rw [hsame]
    exact hrun
  · rintro ⟨⟨n, hne⟩, hterm⟩
    cases hfn : f n with
    | running => exact absurd hfn hne
    | fatal => exact ⟨n, by simp [hfn]⟩
    | done x =>
      obtain ⟨m, hm⟩ := hterm n x hfn
      refine ⟨max n m, ?_⟩
      have hmax : f (max n m) = .done x := (hf n _ (le_max_left n m) (by simp [hfn])).trans hfn
      simp only [hmax, Outcome.bind_done]
      rw [hg x m _ (le_max_right n m) hm]
      exact hm

theorem terminates_bind_ofOption_iff {x : Option α} {g : α → Nat → Outcome β} :
    (Terminates fun n => (Outcome.ofOption x).bind fun x => g x n) ↔ ∀ y, x = some y → Terminates (g y) := by
  cases x with
  | none => exact iff_of_true (terminates_const (by simp)) (by simp)
  | some x => simp

/-! ## Loops -/

/-- One turn goes on with a new state, or ends the loop. `none` is fatal. -/
def loop (step : σ → Option (σ ⊕ ρ)) : Nat → σ → Outcome ρ
  | 0, _ => .running
  | n + 1, s =>
    match step s with
    | none => .fatal
    | some (.inl s') => loop step n s'
    | some (.inr r) => .done r

variable {step : σ → Option (σ ⊕ ρ)} {s s' : σ}

theorem loop_step (hstep : step s = some (.inl s')) (n : Nat) : loop step (n + 1) s = loop step n s' := by
  simp [loop, hstep]

theorem steady_loop (s : σ) : Steady fun n => loop step n s := by
  intro n
  induction n generalizing s with
  | zero =>
    intro m _ hrun
    exact absurd rfl hrun
  | succ n ih =>
    intro m hle hrun
    obtain ⟨m, rfl⟩ : ∃ k, m = k + 1 := ⟨m - 1, by omega⟩
    cases hstep : step s with
    | none => simp [loop, hstep]
    | some next =>
      cases next with
      | inl s' =>
        simp only [loop_step hstep] at hrun ⊢
        exact ih s' m (by omega) hrun
      | inr r => simp [loop, hstep]

theorem terminates_loop_step (hstep : step s = some (.inl s')) :
    (Terminates fun n => loop step n s) ↔ Terminates fun n => loop step n s' := by
  constructor
  · rintro ⟨n, hn⟩
    cases n with
    | zero => exact absurd rfl hn
    | succ n =>
      refine ⟨n, ?_⟩
      simpa only [loop_step hstep] using hn
  · rintro ⟨n, hn⟩
    refine ⟨n + 1, ?_⟩
    simpa only [loop_step hstep] using hn

/-- The turns that do not end the loop. -/
def Turns (step : σ → Option (σ ⊕ ρ)) : σ → σ → Prop := Relation.ReflTransGen fun s s' => step s = some (.inl s')

theorem loop_done {n : Nat} {r : ρ} (hdone : loop step n s = .done r) : ∃ s', Turns step s s' ∧ step s' = some (.inr r) := by
  induction n generalizing s with
  | zero => cases hdone
  | succ n ih =>
    cases hstep : step s with
    | none => simp [loop, hstep] at hdone
    | some next =>
      cases next with
      | inl s1 =>
        rw [loop_step hstep] at hdone
        obtain ⟨s', hturns, hend⟩ := ih hdone
        exact ⟨s', .head hstep hturns, hend⟩
      | inr r' =>
        simp only [loop, hstep, Outcome.done.injEq] at hdone
        exact ⟨s, .refl, hdone ▸ hstep⟩

section
variable {Stuck : σ → Prop}

theorem not_terminates_of_stuck (hstuck : ∀ s, Stuck s → ∃ s', step s = some (.inl s') ∧ Stuck s') (hs : Stuck s) :
    ¬ Terminates fun n => loop step n s := by
  rintro ⟨n, hn⟩
  induction n generalizing s with
  | zero => exact hn rfl
  | succ n ih =>
    obtain ⟨s', hstep, hs'⟩ := hstuck s hs
    simp only [loop_step hstep] at hn
    exact ih hs' hn

/-- A loop ends if it never gets stuck, where every other turn takes the measure down. -/
theorem terminates_loop_iff (Stuck : σ → Prop) (measure : σ → Nat)
    (hstuck : ∀ s, Stuck s → ∃ s', step s = some (.inl s') ∧ Stuck s')
    (hless : ∀ s s', ¬ Stuck s → step s = some (.inl s') → measure s' < measure s) :
    (Terminates fun n => loop step n s) ↔ ∀ s', Turns step s s' → ¬ Stuck s' := by
  constructor
  · intro hterm s' hturns hs'
    induction hturns using Relation.ReflTransGen.head_induction_on with
    | refl => exact not_terminates_of_stuck hstuck hs' hterm
    | head hstep _ ih => exact ih ((terminates_loop_step hstep).mp hterm)
  · induction hm : measure s using Nat.strongRecOn generalizing s with
    | ind k ih =>
      intro hnever
      cases hstep : step s with
      | none => exact ⟨1, by simp [loop, hstep]⟩
      | some next =>
        cases next with
        | inl s1 =>
          have hlt := hless s s1 (hnever s .refl) hstep
          refine (terminates_loop_step hstep).mpr (ih _ (hm ▸ hlt) rfl fun s' hturns => hnever s' ?_)
          exact .head hstep hturns
        | inr r => exact ⟨1, by simp [loop, hstep]⟩

/-- A loop that is not stuck where it starts ends, if no turn gets it stuck. -/
theorem terminates_loop_iff_start (Stuck : σ → Prop) (measure : σ → Nat)
    (hstuck : ∀ s, Stuck s → ∃ s', step s = some (.inl s') ∧ Stuck s')
    (hless : ∀ s s', ¬ Stuck s → step s = some (.inl s') → measure s' < measure s)
    (hkeep : ∀ s s', ¬ Stuck s → step s = some (.inl s') → ¬ Stuck s') :
    (Terminates fun n => loop step n s) ↔ ¬ Stuck s := by
  rw [terminates_loop_iff Stuck measure hstuck hless]
  constructor
  · exact fun hnever => hnever s .refl
  · intro hs s' hturns
    induction hturns with
    | refl => exact hs
    | tail _ hstep ih => exact hkeep _ _ ih hstep

end

end Fuzemsys.Lib
