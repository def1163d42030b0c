import Fuzemsys.Cpp.IfMeaning
import Mathlib.Order.Filter.AtTopBot.Basic

/-!
# Reading tokens and values

What counts as read comes back with every fuel from some amount on. Macros are replaced as they are
met, and each function has a rule for each of its ways.
-/

namespace Fuzemsys.Cpp

open Filter

section
attribute [local simp] get_onetok pop Source.next Source.push Source.inUse
end

variable {M : Macros} {signedChar : Bool}

/-! ## Tokens -/

def Gets (M : Macros) (subst : Bool) (s : Source) (t : Tok) (s' : Source) : Prop :=
  ∀ᶠ fuel in atTop, get_onetok M subst fuel s = some (t, s')

/-- The items are read one after the other. -/
inductive Yields (M : Macros) : Source → List Item → Source → Prop
  | nil {s} : Yields M s [] s
  | tok {s t s₁ is s'} : Gets M true s t s₁ → Yields M s₁ is s' → Yields M s (.tok t :: is) s'
  | defined {s s₁ x s₂ is s'} : Gets M true s (.TK_WORD "defined") s₁ → Gets M false s₁ (.TK_WORD x) s₂ →
      Yields M s₂ is s' → Yields M s (.defined x :: is) s'
  | definedIn {s s₁ s₂ x s₃ s₄ is s'} : Gets M true s (.TK_WORD "defined") s₁ → Gets M false s₁ .LPAREN s₂ →
      Gets M false s₂ (.TK_WORD x) s₃ → Gets M false s₃ .RPAREN s₄ → Yields M s₄ is s' →
      Yields M s (.definedIn x :: is) s'

theorem eventually_succ {p : Nat → Prop} (h : ∀ᶠ fuel in atTop, p (fuel + 1)) : ∀ᶠ fuel in atTop, p fuel := by
  rw [eventually_atTop] at h ⊢
  obtain ⟨least, h⟩ := h
  refine ⟨least + 1, fun fuel hf => ?_⟩
  obtain ⟨d, rfl⟩ := Nat.exists_eq_add_of_le' (Nat.lt_of_lt_of_le (Nat.succ_pos least) hf)
  exact h d (Nat.le_of_succ_le_succ hf)

theorem Yields.append {s s' : Source} {is js : List Item} (h : Yields M s (is ++ js) s') :
    ∃ s₁, Yields M s is s₁ ∧ Yields M s₁ js s' := by
  induction is generalizing s with
  | nil => exact ⟨s, .nil, h⟩
  | cons i is ih =>
    cases h with
    | tok ht h =>
      obtain ⟨s₁, h₁, h₂⟩ := ih h
      exact ⟨s₁, .tok ht h₁, h₂⟩
    | defined hd hx h =>
      obtain ⟨s₁, h₁, h₂⟩ := ih h
      exact ⟨s₁, .defined hd hx h₁, h₂⟩
    | definedIn hd hl hx hr h =>
      obtain ⟨s₁, h₁, h₂⟩ := ih h
      exact ⟨s₁, .definedIn hd hl hx hr h₁, h₂⟩

/-- The first token is found the same from another place. -/
theorem Yields.from {s s' s₀ : Source} {is : List Item} (hne : is ≠ []) (h : Yields M s₀ is s')
    (hsame : ∀ t s₁, Gets M true s₀ t s₁ → Gets M true s t s₁) : Yields M s is s' := by
  cases h with
  | nil => exact absurd rfl hne
  | tok ht h => exact .tok (hsame _ _ ht) h
  | defined hd hx h => exact .defined (hsame _ _ hd) hx h
  | definedIn hd hl hx hr h => exact .definedIn (hsame _ _ hd) hl hx hr h

section
variable {s s' : Source} {t : Tok} {w : String} {subst : Bool}

end

/-! ## Macros -/

/-- The macros whose texts are being read, one for each text that waits. -/
def Using (used : List String) (s : Source) : Prop :=
  (∀ w, s.inUse w = true ↔ w ∈ used) ∧ s.saved.length = used.length

theorem Using.at {used : List String} {s : Source} (h : Using used s) (text : List Tok) :
    Using used { s with def_ptr := text } := h

theorem Using.push {used : List String} {s : Source} {w : String} (h : Using used s) (text : List Tok) :
    Using (w :: used) (s.push w text) := by
  constructor
  · intro x
    have hx := h.1 x
    simp only [Source.inUse, Bool.or_eq_true, decide_eq_true_eq] at hx
    simp only [Source.inUse, Source.push, List.any_cons, Bool.or_eq_true, decide_eq_true_eq, Option.some.injEq,
      List.mem_cons, ← hx]
    rw [eq_comm]
  · exact congrArg (· + 1) h.2

end Fuzemsys.Cpp
