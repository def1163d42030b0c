import Mathlib.Order.Defs.Unbundled

/-!
# What a program does to the state

`Moves R c` says that `R` leads from the state before `c` to the state after it,
if `c` returns. For a relation that is reflexive and transitive it is enough to
look at the parts of a program.
-/

namespace Fuzemsys.Lib

universe u

variable {E σ α β : Type u} {R : σ → σ → Prop}

def Moves (R : σ → σ → Prop) (c : EStateM E σ α) : Prop := ∀ s a s', c.run s = .ok a s' → R s s'

theorem moves_gets [Std.Refl R] (g : σ → α) : Moves (E := E) R (fun s => .ok (g s) s) := by
  intro s a s' h
  cases h
  exact Std.Refl.refl s

theorem moves_pure [Std.Refl R] (a : α) : Moves (E := E) R (pure a) := moves_gets fun _ => a

theorem moves_modify {g : σ → σ} (h : ∀ s, R s (g s)) : Moves (E := E) R (fun s => .ok PUnit.unit (g s)) := by
  intro s a s' hrun
  cases hrun
  exact h s

theorem moves_throw (e : E) : Moves R (throw e : EStateM E σ α) := by
  intro s a s' h
  cases h

theorem moves_bind [IsTrans σ R] {c : EStateM E σ α} {k : α → EStateM E σ β} (hc : Moves R c)
    (hk : ∀ a, Moves R (k a)) : Moves R (c >>= k) := by
  intro s b s' h
  simp only [EStateM.run, bind, EStateM.bind] at h
  split at h
  · exact Trans.trans (hc _ _ _ ‹_›) (hk _ _ _ _ h)
  · cases h

theorem moves_ite {p : Prop} [Decidable p] {c d : EStateM E σ α} (hc : Moves R c) (hd : Moves R d) :
    Moves R (if p then c else d) := by
  split
  · exact hc
  · exact hd

end Fuzemsys.Lib
