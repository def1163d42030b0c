import Mathlib.Logic.Basic

/-!
# What a program ensures

A program over a state returns a value or ends early. `Ensures p Q R s` says
which of the two happens from `s`, and with what. Each rule is an equivalence, so
a program is taken apart without losing anything.
-/

namespace Fuzemsys.Lib

universe u

variable {ε σ α β : Type u}

/-- From `s` the program returns as in `Q`, or ends as in `R`. -/
def Ensures (p : EStateM ε σ α) (Q : α → σ → Prop) (R : ε → σ → Prop) (s : σ) : Prop :=
  match p s with
  | .ok a s' => Q a s'
  | .error e s' => R e s'

variable {p : EStateM ε σ α} {f : α → EStateM ε σ β} {Q Q' : α → σ → Prop} {R R' : ε → σ → Prop} {s : σ}

theorem ensures_ok {a : α} {s' : σ} (hp : p s = .ok a s') : Ensures p Q R s ↔ Q a s' := by
  unfold Ensures
  rw [hp]

/-! ## The rules -/

@[simp]
theorem ensures_pure {a : α} : Ensures (pure a) Q R s ↔ Q a s := Iff.rfl

@[simp]
theorem ensures_throw {e : ε} : Ensures (throw e : EStateM ε σ α) Q R s ↔ R e s := Iff.rfl

@[simp]
theorem ensures_bind {Q : β → σ → Prop} :
    Ensures (p >>= f) Q R s ↔ Ensures p (fun a s' => Ensures (f a) Q R s') R s := by
  unfold Ensures
  cases hp : p s <;> simp [bind, EStateM.bind, hp]

@[simp]
theorem ensures_map {g : α → β} {Q : β → σ → Prop} :
    Ensures (g <$> p) Q R s ↔ Ensures p (fun a s' => Q (g a) s') R s := by
  unfold Ensures
  cases hp : p s <;> simp [Functor.map, EStateM.map, hp]

@[simp]
theorem ensures_get {Q : σ → σ → Prop} : Ensures get Q R s ↔ Q s s := Iff.rfl

@[simp]
theorem ensures_modify {g : σ → σ} {Q : PUnit → σ → Prop} :
    Ensures (modify g : EStateM ε σ PUnit) Q R s ↔ Q ⟨⟩ (g s) := Iff.rfl

theorem ensures_ite {c : Prop} [Decidable c] {q : EStateM ε σ α} :
    Ensures (if c then p else q) Q R s ↔ if c then Ensures p Q R s else Ensures q Q R s := by
  split <;> rfl

/-! ## Weakening -/

theorem Ensures.mono (hp : Ensures p Q R s) (hQ : ∀ a s', Q a s' → Q' a s') (hR : ∀ e s', R e s' → R' e s') :
    Ensures p Q' R' s := by
  unfold Ensures at hp ⊢
  cases hrun : p s with
  | ok a s' =>
    rw [hrun] at hp
    exact hQ a s' hp
  | error e s' =>
    rw [hrun] at hp
    exact hR e s' hp

theorem Ensures.exists_ok (hp : Ensures p Q (fun _ _ => False) s) : ∃ a s', p s = .ok a s' ∧ Q a s' := by
  unfold Ensures at hp
  cases hrun : p s with
  | ok a s' =>
    rw [hrun] at hp
    exact ⟨a, s', rfl, hp⟩
  | error e s' =>
    rw [hrun] at hp
    exact hp.elim

end Fuzemsys.Lib
