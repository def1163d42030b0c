import Mathlib.Data.List.Chain
import Mathlib.Data.List.Pairwise

/-!
# A path through successors

A ring of addresses that go up is a path from its first one back to it.
-/

namespace Fuzemsys.Lib.Ring

/-- The successors of the first one are these, in order. -/
def Path (next : Nat → Nat) : Nat → List Nat → Prop
  | _, [] => True
  | x, a :: l => next x = a ∧ Path next a l

/-- Where a path ends. -/
def last : Nat → List Nat → Nat
  | x, [] => x
  | _, a :: l => last a l

variable {next next' : Nat → Nat}

theorem path_append {x : Nat} {l r : List Nat} : Path next x (l ++ r) ↔ Path next x l ∧ Path next (last x l) r := by
  induction l generalizing x with
  | nil => simp [Path, last]
  | cons a l ih => simp only [List.cons_append, Path, last, ih, and_assoc]

theorem last_append (x : Nat) (l r : List Nat) : last x (l ++ r) = last (last x l) r := by
  induction l generalizing x with
  | nil => rfl
  | cons a l ih => exact ih a

theorem last_mem (x : Nat) (l : List Nat) : last x l ∈ x :: l := by
  induction l generalizing x with
  | nil => simp [last]
  | cons a l ih => exact List.mem_cons_of_mem _ (ih a)

/-- A path from each of its points goes on to the same end. -/
theorem path_from {x z : Nat} {l : List Nat} (hpath : Path next x l) (hz : z ∈ x :: l) :
    ∃ u v, x :: l = u ++ z :: v ∧ Path next z v ∧ last z v = last x l := by
  induction l generalizing x with
  | nil =>
    rw [List.mem_singleton] at hz
    exact ⟨[], [], by rw [hz]; rfl, trivial, by rw [hz]⟩
  | cons a l ih =>
    rcases List.mem_cons.1 hz with rfl | hz
    · exact ⟨[], a :: l, rfl, hpath, rfl⟩
    · obtain ⟨u, v, heq, hrest, hlast⟩ := ih hpath.2 hz
      exact ⟨x :: u, v, by rw [heq]; rfl, hrest, hlast⟩

/-- Only the successors of what comes before the end matter. -/
theorem path_congr {x : Nat} {l : List Nat} (h : ∀ z ∈ (x :: l).dropLast, next' z = next z)
    (hpath : Path next x l) : Path next' x l := by
  induction l generalizing x with
  | nil => trivial
  | cons a l ih =>
    refine ⟨?_, ih (fun z hz => h z ?_) hpath.2⟩
    · rw [h x (by simp), hpath.1]
    · rw [List.dropLast_cons_of_ne_nil (by simp)]
      exact List.mem_cons_of_mem _ hz

theorem before_last {x z : Nat} {l : List Nat} (hsorted : (x :: l).Pairwise (· < ·))
    (hz : z ∈ (x :: l).dropLast) : z < last x l := by
  induction l generalizing x with
  | nil => simp at hz
  | cons a l ih =>
    rw [List.pairwise_cons] at hsorted
    rw [List.dropLast_cons_of_ne_nil (by simp)] at hz
    rcases List.mem_cons.1 hz with rfl | hz
    · exact hsorted.1 _ (last_mem a l)
    · exact ih hsorted.2 hz

/-- A successor on the way goes up, and is on the way. -/
theorem next_up {x z : Nat} {l : List Nat} (hpath : Path next x l) (hsorted : (x :: l).Pairwise (· < ·))
    (hz : z ∈ (x :: l).dropLast) : next z ∈ l ∧ z < next z := by
  induction l generalizing x with
  | nil => simp at hz
  | cons a l ih =>
    rw [List.pairwise_cons] at hsorted
    rw [List.dropLast_cons_of_ne_nil (by simp)] at hz
    rcases List.mem_cons.1 hz with rfl | hz
    · rw [hpath.1]
      exact ⟨by simp, hsorted.1 a (by simp)⟩
    · obtain ⟨hmem, hlt⟩ := ih hpath.2 hsorted.2 hz
      exact ⟨List.mem_cons_of_mem _ hmem, hlt⟩

theorem mem_dropLast_or {x z : Nat} {l : List Nat} (hz : z ∈ x :: l) : z ∈ (x :: l).dropLast ∨ z = last x l := by
  induction l generalizing x with
  | nil => exact .inr (List.mem_singleton.1 hz)
  | cons a l ih =>
    rw [List.dropLast_cons_of_ne_nil (by simp)]
    rcases List.mem_cons.1 hz with rfl | hz
    · exact .inl (by simp)
    · exact (ih hz).imp (List.mem_cons_of_mem _) id

/-- A successor on a path back to its first point goes up, or the path is at its end. -/
theorem next_round {x y z : Nat} {l : List Nat} (hpath : Path next x (l ++ [y])) (hsorted : (x :: l).Pairwise (· < ·))
    (hz : z ∈ x :: l) : (next z ∈ l ∧ z < next z) ∨ (z = last x l ∧ next z = y) := by
  obtain ⟨hup, hend⟩ := path_append.1 hpath
  rcases mem_dropLast_or hz with hz | rfl
  · exact .inl (next_up hup hsorted hz)
  · exact .inr ⟨rfl, hend.1⟩

/-- On a ring that goes up, what has this successor is what comes before it. -/
theorem before_unique {x u z : Nat} {l r : List Nat} (hpath : Path next x (l ++ z :: r ++ [x]))
    (hsorted : (x :: (l ++ z :: r)).Pairwise (· < ·)) (hu : u ∈ x :: (l ++ z :: r)) (hnext : next u = z) :
    u = last x l := by
  have hzx : x < z := (List.pairwise_cons.1 hsorted).1 z (by simp)
  rw [List.append_assoc] at hpath
  obtain ⟨hleft, hright⟩ := path_append.1 hpath
  have hsplit : (x :: l ++ z :: r).Pairwise (· < ·) := hsorted
  obtain ⟨hl, hr, hlr⟩ := List.pairwise_append.1 hsplit
  have hmem : u ∈ x :: l ++ z :: r := hu
  rcases List.mem_append.1 hmem with hu | hu
  · rcases mem_dropLast_or hu with hu | hu
    · have hin := (next_up hleft hl hu).1
      rw [hnext] at hin
      exact absurd (hlr z (List.mem_cons_of_mem _ hin) z (by simp)) (Nat.lt_irrefl z)
    · exact hu
  · have hpath' : Path next z (r ++ [x]) := hright.2
    rcases next_round hpath' hr hu with ⟨hin, -⟩ | ⟨-, hx⟩
    · rw [hnext] at hin
      exact absurd ((List.pairwise_cons.1 hr).1 z hin) (Nat.lt_irrefl z)
    · omega

end Fuzemsys.Lib.Ring
