import Fuzemsys.Lib.TwoRun

/-!
# What a program leaves alone

`Keeps f c` says that `c` leaves the part `f` of the state as it was, whether it
returns or stops.
-/

namespace Fuzemsys.Lib

universe u v

variable {E σ α β : Type u} {μ : Type v} {f : σ → μ}

def Keeps (f : σ → μ) (c : EStateM E σ α) : Prop := ∀ s, f (endState (c.run s)) = f s

@[simp]
theorem keeps_pure (a : α) : Keeps (E := E) f (pure a) := fun _ => rfl

/-- What comes last and leaves `f` alone does not matter for `f`. -/
theorem endState_bind {k : α → EStateM E σ β} (c : EStateM E σ α) (hk : ∀ a, Keeps f (k a)) (s : σ) :
    f (endState ((c >>= k).run s)) = f (endState (c.run s)) := by
  simp only [EStateM.run, bind, EStateM.bind]
  cases c s with
  | ok a s1 => exact hk a s1
  | error e s1 => rfl

@[simp]
theorem keeps_bind {c : EStateM E σ α} {k : α → EStateM E σ β} (hc : Keeps f c)
    (hk : ∀ a, Keeps f (k a)) : Keeps f (c >>= k) :=
  fun s => (endState_bind c hk s).trans (hc s)

@[simp]
theorem keeps_gets {g : σ → α} : Keeps (E := E) f (fun s => .ok (g s) s) := fun _ => rfl

theorem keeps_modify {g : σ → σ} (h : ∀ s, f (g s) = f s) :
    Keeps (E := E) f (fun s => .ok PUnit.unit (g s)) := h

@[simp]
theorem keeps_throw (e : E) : Keeps f (throw e : EStateM E σ α) := fun _ => rfl

@[simp]
theorem keeps_ite {p : Prop} [Decidable p] {c d : EStateM E σ α} (hc : Keeps f c) (hd : Keeps f d) :
    Keeps f (if p then c else d) := by
  split
  · exact hc
  · exact hd

end Fuzemsys.Lib
