import Fuzemsys.Lib.Ring
import Fuzemsys.Libs.Malloc

/-!
# What the memory of the allocator is made of

Memory is laid out as tiles, each of them free or used. The headers in it say how long each tile is, and the ring
goes through the free ones.
-/

namespace Fuzemsys.Libs.Malloc

open Fuzemsys.Lib.Ring

/-- The bytes that a used tile was asked for. -/
inductive Owner where
  | free
  | used (bytes : Nat)
  deriving DecidableEq

structure Tile where
  size : Nat
  owner : Owner

/-- Each tile with its address. -/
def placed : Nat → List Tile → List (Nat × Tile)
  | _, [] => []
  | a, t :: ts => (a, t) :: placed (a + t.size) ts

def width : List Tile → Nat
  | [] => 0
  | t :: ts => t.size + width ts

/-- Where the free tiles are. -/
def frees : Nat → List Tile → List Nat
  | _, [] => []
  | a, t :: ts => if t.owner = .free then a :: frees (a + t.size) ts else frees (a + t.size) ts

theorem width_append (ts us : List Tile) : width (ts ++ us) = width ts + width us := by
  induction ts with
  | nil => simp [width]
  | cons t ts ih => simp only [List.cons_append, width, ih, Nat.add_assoc]

theorem placed_append (a : Nat) (ts us : List Tile) :
    placed a (ts ++ us) = placed a ts ++ placed (a + width ts) us := by
  induction ts generalizing a with
  | nil => simp [placed, width]
  | cons t ts ih => simp only [List.cons_append, placed, width, ih, Nat.add_assoc]

theorem frees_append (a : Nat) (ts us : List Tile) : frees a (ts ++ us) = frees a ts ++ frees (a + width ts) us := by
  induction ts generalizing a with
  | nil => simp [frees, width]
  | cons t ts ih =>
    simp only [List.cons_append, frees, width, ih, ← Nat.add_assoc]
    split <;> rfl

/-- A tile that is placed splits the rest. -/
theorem placed_split {a : Nat} {ts : List Tile} {x : Nat × Tile} (hx : x ∈ placed a ts) :
    ∃ us vs, ts = us ++ x.2 :: vs ∧ x.1 = a + width us := by
  induction ts generalizing a with
  | nil => simp [placed] at hx
  | cons t ts ih =>
    rcases List.mem_cons.1 hx with rfl | hx
    · exact ⟨[], ts, rfl, rfl⟩
    · obtain ⟨us, vs, heq, hat⟩ := ih hx
      refine ⟨t :: us, vs, by rw [heq]; rfl, ?_⟩
      rw [hat, width, Nat.add_assoc]

theorem placed_mem (a : Nat) (us vs : List Tile) (t : Tile) : (a + width us, t) ∈ placed a (us ++ t :: vs) := by
  rw [placed_append]
  exact List.mem_append_right _ (by simp [placed])

theorem placed_bounds {a : Nat} {ts : List Tile} {x : Nat × Tile} (hx : x ∈ placed a ts) :
    a ≤ x.1 ∧ x.1 + x.2.size ≤ a + width ts ∧ x.2 ∈ ts := by
  obtain ⟨us, vs, rfl, hat⟩ := placed_split hx
  rw [hat, width_append, width]
  exact ⟨by omega, by omega, by simp⟩

theorem mem_frees {a p : Nat} {ts : List Tile} :
    p ∈ frees a ts ↔ ∃ t, (p, t) ∈ placed a ts ∧ t.owner = .free := by
  induction ts generalizing a with
  | nil => simp [frees, placed]
  | cons t ts ih =>
    rw [frees]
    constructor
    · intro hp
      split at hp
      · rename_i hfree
        rcases List.mem_cons.1 hp with rfl | hp
        · exact ⟨t, by simp [placed], hfree⟩
        · obtain ⟨u, hu, hown⟩ := ih.1 hp
          exact ⟨u, List.mem_cons_of_mem _ hu, hown⟩
      · obtain ⟨u, hu, hown⟩ := ih.1 hp
        exact ⟨u, List.mem_cons_of_mem _ hu, hown⟩
    · rintro ⟨u, hu, hown⟩
      rcases List.mem_cons.1 hu with heq | hu
      · cases heq
        rw [if_pos hown]
        simp
      · have := ih.2 ⟨u, hu, hown⟩
        split
        · exact List.mem_cons_of_mem _ this
        · exact this

theorem frees_bounds {a p : Nat} {ts : List Tile} (hp : p ∈ frees a ts) : a ≤ p ∧ p ≤ a + width ts := by
  obtain ⟨t, ht, -⟩ := mem_frees.1 hp
  have := placed_bounds ht
  simp only at this
  omega

/-- Each tile has a header. -/
def Proper (ts : List Tile) : Prop := ∀ t ∈ ts, 0 < t.size

theorem frees_sorted {a : Nat} {ts : List Tile} (hproper : Proper ts) : (frees a ts).Pairwise (· < ·) := by
  induction ts generalizing a with
  | nil => simp [frees]
  | cons t ts ih =>
    have hpos := hproper t (by simp)
    have hrest : (frees (a + t.size) ts).Pairwise (· < ·) := ih fun u hu => hproper u (by simp [hu])
    rw [frees]
    split
    · refine List.pairwise_cons.2 ⟨fun p hp => ?_, hrest⟩
      have := (frees_bounds hp).1
      omega
    · exact hrest

/-- Tiles at different addresses have nothing in common. -/
theorem placed_disjoint {a : Nat} {ts : List Tile} (hproper : Proper ts) {x y : Nat × Tile} (hx : x ∈ placed a ts)
    (hy : y ∈ placed a ts) : x = y ∨ x.1 + x.2.size ≤ y.1 ∨ y.1 + y.2.size ≤ x.1 := by
  induction ts generalizing a with
  | nil => simp [placed] at hx
  | cons t ts ih =>
    rcases List.mem_cons.1 hx with rfl | hx <;> rcases List.mem_cons.1 hy with rfl | hy
    · exact .inl rfl
    · exact .inr (.inl (placed_bounds hy).1)
    · exact .inr (.inr (placed_bounds hx).1)
    · exact ih (fun u hu => hproper u (by simp [hu])) hx hy

theorem placed_same {a : Nat} {ts : List Tile} (hproper : Proper ts) {x y : Nat × Tile} (hx : x ∈ placed a ts)
    (hy : y ∈ placed a ts) (hat : x.1 = y.1) : x = y := by
  have hxpos := hproper _ (placed_bounds hx).2.2
  have hypos := hproper _ (placed_bounds hy).2.2
  rcases placed_disjoint hproper hx hy with heq | hle | hle
  · exact heq
  · omega
  · omega

/-- Between the header and the end of a tile, no tile starts. -/
theorem inside_no_start {base : Nat} {ts : List Tile} (hproper : Proper ts) {x y : Nat × Tile}
    (hx : x ∈ placed base ts) (hy : y ∈ placed base ts) {a : Nat} (hlow : x.1 < a)
    (hhigh : a < x.1 + x.2.size) : a ≠ y.1 := by
  rintro rfl
  have hypos := hproper y.2 (placed_bounds hy).2.2
  rcases placed_disjoint hproper hx hy with heq | hle | hle
  · rw [heq] at hlow
    omega
  · omega
  · omega

/-- Every address is in a tile. -/
theorem placed_covers {a q : Nat} {ts : List Tile} (hlow : a ≤ q) (hhigh : q < a + width ts) :
    ∃ x ∈ placed a ts, x.1 ≤ q ∧ q < x.1 + x.2.size := by
  induction ts generalizing a with
  | nil => simp [width] at hhigh; omega
  | cons t ts ih =>
    by_cases hin : q < a + t.size
    · exact ⟨(a, t), by simp [placed], hlow, hin⟩
    · rw [width] at hhigh
      obtain ⟨x, hx, hle, hlt⟩ := ih (a := a + t.size) (by omega) (by omega)
      exact ⟨x, List.mem_cons_of_mem _ hx, hle, hlt⟩

/-- The last free tile of some, if there is one. -/
theorem last_free (ts : List Tile) (a : Nat) :
    frees a ts = [] ∨ ∃ us f vs, ts = us ++ f :: vs ∧ f.owner = .free ∧ ∀ b, frees b vs = [] := by
  have hnone : ∀ ts : List Tile, (∀ t ∈ ts, t.owner ≠ .free) → ∀ b, frees b ts = [] := by
    intro ts hts b
    rw [List.eq_nil_iff_forall_not_mem]
    intro p hp
    obtain ⟨t, ht, hown⟩ := mem_frees.1 hp
    exact hts t (placed_bounds ht).2.2 hown
  induction ts using List.reverseRecOn generalizing a with
  | nil => exact .inl rfl
  | append_singleton ts t ih =>
    by_cases hfree : t.owner = .free
    · exact .inr ⟨ts, t, [], rfl, hfree, fun _ => rfl⟩
    · have hlast : ∀ b, frees b [t] = [] := fun b => by simp [frees, hfree]
      rcases ih a with hnil | ⟨us, f, vs, rfl, hown, hvs⟩
      · left
        rw [frees_append, hnil, hlast, List.append_nil]
      · refine .inr ⟨us, f, vs ++ [t], by simp, hown, fun b => ?_⟩
        rw [frees_append, hvs, hlast, List.append_nil]

/-! ## The invariant -/

/-- Two free tiles are never side by side. -/
def Apart (s t : Tile) : Prop := ¬(s.owner = .free ∧ t.owner = .free)

/-- The headers are those of these tiles, and the ring goes through the free ones. -/
structure Right (h : Heap) (base : Nat) (ts : List Tile) : Prop where
  base_pos : 0 < base
  proper : Proper ts
  brk : base + width ts = h.brk
  root : h.size mroot = 0
  sized : ∀ x ∈ placed base ts, h.size x.1 = x.2.size
  ring : Path h.next mroot (frees base ts ++ [mroot])
  apart : ts.IsChain Apart
  freeptr : h.freeptr ∈ mroot :: frees base ts

variable {h : Heap} {base : Nat} {ts : List Tile}

/-- The ring goes up from the root. -/
theorem ring_sorted (hbase : 0 < base) (hproper : Proper ts) : (mroot :: frees base ts).Pairwise (· < ·) := by
  refine List.pairwise_cons.2 ⟨fun p hp => ?_, frees_sorted hproper⟩
  have := (frees_bounds hp).1
  simp only [mroot]
  omega

end Fuzemsys.Libs.Malloc
