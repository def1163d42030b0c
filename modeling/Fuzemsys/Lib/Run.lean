import Mathlib.Init

/-!
# Runs of a step function

A run feeds a list of inputs to a step function, one after the other. `AllSteps`
says that a property holds at every step. The rules here turn facts about one
step into facts about all steps and about the last state.
-/

namespace Fuzemsys.Lib

universe u v

variable {σ : Type u} {α : Type v} {step : σ → α → σ}

/-- The state after all inputs. -/
def runState (step : σ → α → σ) (s : σ) (inputs : List α) : σ := inputs.foldl step s

@[simp]
theorem runState_nil (s : σ) : runState step s [] = s := rfl

@[simp]
theorem runState_cons (s : σ) (a : α) (inputs : List α) :
    runState step s (a :: inputs) = runState step (step s a) inputs := rfl

/-- `P` holds at each step, of the state before it and its input. -/
def AllSteps (step : σ → α → σ) (P : σ → α → Prop) : σ → List α → Prop
  | _, [] => True
  | s, a :: inputs => P s a ∧ AllSteps step P (step s a) inputs

/-- An invariant that every good step keeps holds at the end of a good run. -/
theorem inv_runState {Inv : σ → Prop} {Good : σ → α → Prop}
    (hkeep : ∀ s a, Inv s → Good s a → Inv (step s a)) {s : σ} {inputs : List α}
    (hs : Inv s) (hgood : AllSteps step Good s inputs) : Inv (runState step s inputs) := by
  induction inputs generalizing s with
  | nil => exact hs
  | cons a inputs ih =>
    obtain ⟨ha, hrest⟩ := hgood
    exact ih (hkeep s a hs ha) hrest

/-- Under an invariant, two step properties that agree at each step agree over the run. -/
theorem allSteps_iff {Inv : σ → Prop} {P Q : σ → α → Prop}
    (hkeep : ∀ s a, Inv s → Inv (step s a)) (hiff : ∀ s a, Inv s → (P s a ↔ Q s a))
    {s : σ} (hs : Inv s) (inputs : List α) :
    AllSteps step P s inputs ↔ AllSteps step Q s inputs := by
  induction inputs generalizing s with
  | nil => exact Iff.rfl
  | cons a inputs ih => exact and_congr (hiff s a hs) (ih (hkeep s a hs))

/-- The same where a third property holds at every step. -/
theorem allSteps_iff_under {Inv : σ → Prop} {G P Q : σ → α → Prop}
    (hkeep : ∀ s a, Inv s → Inv (step s a)) (hiff : ∀ s a, Inv s → G s a → (P s a ↔ Q s a))
    {s : σ} (hs : Inv s) {inputs : List α} (hgood : AllSteps step G s inputs) :
    AllSteps step P s inputs ↔ AllSteps step Q s inputs := by
  induction inputs generalizing s with
  | nil => exact Iff.rfl
  | cons a inputs ih =>
    obtain ⟨ha, hrest⟩ := hgood
    exact and_congr (hiff s a hs ha) (ih (hkeep s a hs) hrest)

theorem AllSteps.imp {P Q : σ → α → Prop} (himp : ∀ s a, P s a → Q s a) {s : σ} {inputs : List α}
    (hall : AllSteps step P s inputs) : AllSteps step Q s inputs := by
  induction inputs generalizing s with
  | nil => trivial
  | cons a inputs ih =>
    obtain ⟨ha, hrest⟩ := hall
    exact ⟨himp s a ha, ih hrest⟩

/-- Under an invariant that good steps keep, good steps obey a law. -/
theorem AllSteps.of_inv {Inv : σ → Prop} {Good Law : σ → α → Prop}
    (hkeep : ∀ s a, Inv s → Good s a → Inv (step s a)) (hlaw : ∀ s a, Inv s → Good s a → Law s a)
    {s : σ} {inputs : List α} (hs : Inv s) (hgood : AllSteps step Good s inputs) :
    AllSteps step Law s inputs := by
  induction inputs generalizing s with
  | nil => trivial
  | cons a inputs ih =>
    obtain ⟨ha, hrest⟩ := hgood
    exact ⟨hlaw s a hs ha, ih (hkeep s a hs ha) hrest⟩

theorem allSteps_of_mem {P : σ → α → Prop} {inputs : List α} (h : ∀ s, ∀ a ∈ inputs, P s a) (s : σ) :
    AllSteps step P s inputs := by
  induction inputs generalizing s with
  | nil => trivial
  | cons a inputs ih =>
    refine ⟨h s a (by simp), ih (fun s b hb => h s b (by simp [hb])) _⟩

theorem allSteps_append {P : σ → α → Prop} (s : σ) (xs ys : List α) :
    AllSteps step P s (xs ++ ys) ↔
      AllSteps step P s xs ∧ AllSteps step P (runState step s xs) ys := by
  induction xs generalizing s with
  | nil => simp [AllSteps]
  | cons a xs ih => simp [AllSteps, ih, and_assoc]

end Fuzemsys.Lib
