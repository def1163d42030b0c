import Mathlib.Init

/-!
# Two runs of stateful programs

`Agree` relates two programs of the state and error monad. Started in related
states, both return related values or both stop with the same error, and the
states they end in are related again.
-/

namespace Fuzemsys.Lib

universe u

variable {E σ : Type u} {α β γ δ : Type u} {S : σ → σ → Prop} {Q : α → β → Prop} {R : γ → δ → Prop}

def AgreeResult (S : σ → σ → Prop) (Q : α → β → Prop) :
    EStateM.Result E σ α → EStateM.Result E σ β → Prop
  | .ok a s, .ok b t => Q a b ∧ S s t
  | .error e s, .error f t => e = f ∧ S s t
  | _, _ => False

/-- The state a run ends in, returned or stopped. -/
def endState : EStateM.Result E σ α → σ
  | .ok _ s => s
  | .error _ s => s

theorem run_bind_ok {c : EStateM E σ α} {k : α → EStateM E σ β} {s t : σ} {a : α}
    (h : c.run s = .ok a t) : (c >>= k).run s = (k a).run t := by
  simp only [EStateM.run, bind, EStateM.bind] at h ⊢
  rw [h]

theorem run_bind_error {c : EStateM E σ α} {k : α → EStateM E σ β} {s t : σ} {e : E}
    (h : c.run s = .error e t) : (c >>= k).run s = .error e t := by
  simp only [EStateM.run, bind, EStateM.bind] at h ⊢
  rw [h]

theorem AgreeResult.endState {r : EStateM.Result E σ α} {r' : EStateM.Result E σ β}
    (h : AgreeResult S Q r r') : S (endState r) (Lib.endState r') := by
  match r, r', h with
  | .ok _ _, .ok _ _, h => exact h.2
  | .error _ _, .error _ _, h => exact h.2

def Agree (S : σ → σ → Prop) (Q : α → β → Prop) (c : EStateM E σ α) (d : EStateM E σ β) : Prop :=
  ∀ s t, S s t → AgreeResult S Q (c.run s) (d.run t)

theorem agree_pure {a : α} {b : β} (h : Q a b) : Agree (E := E) S Q (pure a) (pure b) :=
  fun _ _ hs => ⟨h, hs⟩

/-- Two runs that agree so far go on with agreeing programs. -/
theorem AgreeResult.bind {c : EStateM E σ α} {d : EStateM E σ β} {k : α → EStateM E σ γ}
    {l : β → EStateM E σ δ} {s t : σ} (h : AgreeResult S Q (c.run s) (d.run t))
    (hk : ∀ a b, Q a b → Agree S R (k a) (l b)) :
    AgreeResult S R ((c >>= k).run s) ((d >>= l).run t) := by
  simp only [EStateM.run, Bind.bind, EStateM.bind] at h ⊢
  generalize c s = rc at h ⊢
  generalize d t = rd at h ⊢
  match rc, rd, h with
  | .ok a s', .ok b t', ⟨hq, hs'⟩ => exact hk a b hq s' t' hs'
  | .error e s', .error f t', h => exact h

theorem agree_bind {c : EStateM E σ α} {d : EStateM E σ β} {k : α → EStateM E σ γ}
    {l : β → EStateM E σ δ} (hc : Agree S Q c d) (hk : ∀ a b, Q a b → Agree S R (k a) (l b)) :
    Agree S R (c >>= k) (d >>= l) :=
  fun s t hs => (hc s t hs).bind hk

/-- The bind rule for two equal values. -/
theorem agree_bind_eq {c d : EStateM E σ α} {k : α → EStateM E σ γ} {l : α → EStateM E σ δ}
    (hc : Agree S Eq c d) (hk : ∀ a, Agree S R (k a) (l a)) : Agree S R (c >>= k) (d >>= l) :=
  agree_bind hc fun a _ hab => hab ▸ hk a

/-- The bind rule for two commands. -/
theorem agree_seq {c d : EStateM E σ PUnit} {k : EStateM E σ γ} {l : EStateM E σ δ}
    (hc : Agree S Eq c d) (hk : Agree S R k l) : Agree S R (c >>= fun _ => k) (d >>= fun _ => l) :=
  agree_bind_eq hc fun _ => hk

theorem agree_mono {Q' : α → β → Prop} {c : EStateM E σ α} {d : EStateM E σ β}
    (hc : Agree S Q c d) (hq : ∀ a b, Q a b → Q' a b) : Agree S Q' c d := by
  intro s t hs
  have h := hc s t hs
  generalize c.run s = rc at h ⊢
  generalize d.run t = rd at h ⊢
  match rc, rd, h with
  | .ok a s', .ok b t', ⟨hab, hs'⟩ => exact ⟨hq a b hab, hs'⟩
  | .error e s', .error f t', h => exact h

/-- Both runs read a part of the state. -/
theorem agree_gets {f : σ → α} {g : σ → β} (h : ∀ s t, S s t → Q (f s) (g t)) :
    Agree (E := E) S Q (fun s => .ok (f s) s) (fun t => .ok (g t) t) :=
  fun s t hs => ⟨h s t hs, hs⟩

/-- Both runs change the state. -/
theorem agree_modify {f g : σ → σ} (h : ∀ s t, S s t → S (f s) (g t)) :
    Agree (E := E) S Eq (fun s => .ok PUnit.unit (f s)) (fun t => .ok PUnit.unit (g t)) :=
  fun s t hs => ⟨rfl, h s t hs⟩

theorem agree_throw (e : E) : Agree S Q (throw e : EStateM E σ α) (throw e : EStateM E σ β) :=
  fun _ _ hs => ⟨rfl, hs⟩

theorem agree_ite {p : Prop} [Decidable p] {c c' : EStateM E σ α} {d d' : EStateM E σ β}
    (ht : Agree S Q c d) (hf : Agree S Q c' d') :
    Agree S Q (if p then c else c') (if p then d else d') := by
  split
  · exact ht
  · exact hf

end Fuzemsys.Lib
