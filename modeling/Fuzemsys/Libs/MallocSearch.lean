import Fuzemsys.Libs.MallocFree

/-!
# Allocating a block

A hole that is large enough is found, or memory is had from the end of memory and the search goes round again.
-/

namespace Fuzemsys.Libs.Malloc

open Fuzemsys.Lib.Ring

variable {h : Heap} {base : Nat} {ts below behind : List Tile} {t : Tile}

/-! ## Handing out -/

/-- The used tiles are the same, with one more. -/
def Handed (q n bytes base : Nat) (ts us : List Tile) : Prop :=
  ∀ x : Nat × Tile, x.2.owner ≠ .free → (x ∈ placed base us ↔ x ∈ placed base ts ∨ x = (q, ⟨n, .used bytes⟩))

/-- No used tile is there. -/
def Fresh (q base : Nat) (ts : List Tile) : Prop :=
  ∀ x ∈ placed base ts, x.2.owner ≠ .free → x.1 ≠ q

theorem unlinked_right (hr : Right h base (below ++ t :: behind)) (ht : t.owner = .free) (bytes : Nat) :
    Right { h.setNext (last mroot (frees base below)) (h.next (base + width below)) with
      freeptr := last mroot (frees base below) } base (below ++ ⟨t.size, .used bytes⟩ :: behind) := by
  obtain ⟨p, hp⟩ : ∃ p, p = base + width below := ⟨_, rfl⟩
  have hfrees : frees base (below ++ t :: behind) = frees base below ++ p :: frees (p + t.size) behind := by
    rw [frees_append, frees, if_pos ht, hp]
  have hfnew : frees base (below ++ ⟨t.size, .used bytes⟩ :: behind) =
      frees base below ++ frees (p + t.size) behind := by
    rw [frees_append, frees, if_neg (by simp), hp]
  have hring := hr.ring
  have hsorted := ring_sorted hr.base_pos hr.proper
  rw [hfrees] at hring hsorted
  rw [List.append_assoc] at hring
  obtain ⟨hdown, -, hup⟩ := path_append.1 hring
  have hsbelow : (mroot :: frees base below).Pairwise (· < ·) := by
    rw [← List.cons_append] at hsorted
    exact (List.pairwise_append.1 hsorted).1
  have hcross : ∀ z ∈ frees (p + t.size) behind, last mroot (frees base below) < z := by
    intro z hz
    rw [← List.cons_append] at hsorted
    exact (List.pairwise_append.1 hsorted).2.2 _ (last_mem _ _) z (by simp [hz])
  have hchain := List.isChain_append.1 hr.apart
  rw [← hp]
  refine ⟨hr.base_pos, ?_, ?_, ?_, ?_, ?_, ?_, ?_⟩
  · intro u hu
    rcases List.mem_append.1 hu with hu | hu
    · exact hr.proper u (by simp [hu])
    · rcases List.mem_cons.1 hu with rfl | hu
      · exact hr.proper t (by simp)
      · exact hr.proper u (by simp [hu])
  · have := hr.brk
    rw [width_append, width] at this ⊢
    exact this
  · change (h.setNext _ _).size mroot = 0
    rw [setNext_size]
    exact hr.root
  · intro x hx
    change (h.setNext _ _).size x.1 = x.2.size
    rw [setNext_size]
    rw [placed_append, placed] at hx
    rcases List.mem_append.1 hx with hx | hx
    · exact hr.sized x (by rw [placed_append]; exact List.mem_append_left _ hx)
    · rcases List.mem_cons.1 hx with rfl | hx
      · exact hr.sized (base + width below, t) (placed_mem base below behind t)
      · exact hr.sized x (by
          rw [placed_append, placed]
          exact List.mem_append_right _ (List.mem_cons_of_mem _ hx))
  · change Path (h.setNext _ _).next _ _
    rw [hfnew, List.append_assoc]
    refine path_append.2 ⟨path_congr (fun z hz => ?_) hdown, path_head hup (by rw [setNext_next, if_pos rfl])
      fun z hz => ?_⟩
    · have := before_last hsbelow hz
      rw [setNext_next, if_neg (by omega)]
    · rw [List.dropLast_concat] at hz
      have := hcross z hz
      rw [setNext_next, if_neg (by omega)]
  · refine List.isChain_append.2 ⟨hchain.1, List.isChain_cons.2 ⟨fun y _ => ?_, hchain.2.1.tail⟩, fun x _ y hy => ?_⟩
    · rintro ⟨hown, -⟩
      cases hown
    · cases hy
      rintro ⟨-, hown⟩
      cases hown
  · rw [hfnew, ← List.cons_append]
    exact List.mem_append_left _ (last_mem _ _)

theorem split_right (hr : Right h base (below ++ t :: behind)) (ht : t.owner = .free) {n : Nat} (hn : 0 < n)
    (hlt : n < t.size) (bytes : Nat) {prev : Nat} (hprev : prev ∈ mroot :: frees base (below ++ t :: behind)) :
    Right { (h.setSize (base + width below) (t.size - n)).setSize (base + width below + (t.size - n)) n with
      freeptr := prev } base (below ++ ⟨t.size - n, .free⟩ :: ⟨n, .used bytes⟩ :: behind) := by
  obtain ⟨p, hp⟩ : ∃ p, p = base + width below := ⟨_, rfl⟩
  have hsum : t.size - n + n = t.size := Nat.sub_add_cancel (Nat.le_of_lt hlt)
  have hfnew : frees base (below ++ ⟨t.size - n, .free⟩ :: ⟨n, .used bytes⟩ :: behind) =
      frees base (below ++ t :: behind) := by
    rw [frees_append, frees_append, frees, frees, frees, if_pos rfl, if_neg (by simp), if_pos ht, Nat.add_assoc,
      hsum]
  have hchain := List.isChain_append.1 hr.apart
  have hproper : Proper (below ++ ⟨t.size - n, .free⟩ :: ⟨n, .used bytes⟩ :: behind) := by
    intro u hu
    rcases List.mem_append.1 hu with hu | hu
    · exact hr.proper u (by simp [hu])
    · rcases List.mem_cons.1 hu with rfl | hu
      · simp only
        omega
      · rcases List.mem_cons.1 hu with rfl | hu
        · exact hn
        · exact hr.proper u (by simp [hu])
  rw [← hp]
  have hlow := hr.base_pos
  refine ⟨hr.base_pos, hproper, ?_, ?_, ?_, ?_, ?_, ?_⟩
  · have := hr.brk
    rw [width_append, width] at this
    rw [width_append, width, width]
    change _ = h.brk
    simp only
    omega
  · change ((h.setSize _ _).setSize _ _).size mroot = 0
    rw [setSize_size, setSize_size, if_neg (by simp only [mroot]; omega), if_neg (by simp only [mroot]; omega)]
    exact hr.root
  · intro x hx
    change ((h.setSize _ _).setSize _ _).size x.1 = x.2.size
    rw [setSize_size, setSize_size]
    rw [placed_append, placed, placed, ← hp, Nat.add_assoc, hsum] at hx
    rcases List.mem_append.1 hx with hx | hx
    · obtain ⟨-, hend, hin⟩ := placed_bounds hx
      have := hr.proper x.2 (by simp [hin])
      rw [if_neg (by omega), if_neg (by omega)]
      exact hr.sized x (by rw [placed_append]; exact List.mem_append_left _ hx)
    · rcases List.mem_cons.1 hx with rfl | hx
      · simp only
        rw [if_neg (by omega), if_pos trivial]
      · rcases List.mem_cons.1 hx with rfl | hx
        · exact if_pos rfl
        · have := (placed_bounds hx).1
          rw [if_neg (by omega), if_neg (by omega)]
          exact hr.sized x (by
            rw [placed_append, placed, ← hp]
            exact List.mem_append_right _ (List.mem_cons_of_mem _ hx))
  · change Path ((h.setSize _ _).setSize _ _).next _ _
    rw [hfnew]
    exact path_congr (fun z _ => by rw [setSize_next, setSize_next]) hr.ring
  · refine List.isChain_append.2 ⟨hchain.1, List.isChain_cons.2 ⟨fun y hy => ?_, List.isChain_cons.2
      ⟨fun y _ => ?_, hchain.2.1.tail⟩⟩, fun x hx y hy => ?_⟩
    · cases hy
      rintro ⟨-, hown⟩
      cases hown
    · rintro ⟨hown, -⟩
      cases hown
    · cases hy
      rintro ⟨hown, -⟩
      exact hchain.2.2 x hx t rfl ⟨hown, ht⟩
  · rw [hfnew]
    exact hprev

theorem hand_right (hr : Right h base ts) {prev p n : Nat} (hp : p ∈ frees base ts)
    (hprev : prev ∈ mroot :: frees base ts) (hnext : h.next prev = p) (hn : 0 < n) (hle : n ≤ h.size p)
    (bytes : Nat) :
    ∃ us, Right (h.hand n prev p).1 base us ∧
      ((h.hand n prev p).2, (⟨n, .used bytes⟩ : Tile)) ∈ placed base us ∧
      Handed (h.hand n prev p).2 n bytes base ts us ∧ Fresh (h.hand n prev p).2 base ts ∧
      ∀ a, a ≠ (h.hand n prev p).2 → a ∉ mroot :: frees base ts → (h.hand n prev p).1.mem a = h.mem a := by
  obtain ⟨t, hin, ht⟩ := mem_frees.1 hp
  have hsize := hr.sized _ hin
  obtain ⟨below, behind, rfl, hat⟩ := placed_split hin
  simp only at hat hsize ht
  by_cases heq : h.size p = n
  · have hring := hr.ring
    have hsorted := ring_sorted hr.base_pos hr.proper
    have hu := hprev
    rw [frees_append, frees, if_pos ht, ← hat] at hring hsorted hu
    have hlast := before_unique hring hsorted hu hnext
    have hn' : n = t.size := by rw [← heq, hsize]
    rw [Heap.hand, if_pos heq]
    refine ⟨below ++ ⟨t.size, .used bytes⟩ :: behind, ?_, ?_, ?_, fun x hx hown heqp => ?_, ?_⟩
    · rw [hlast, hat]
      exact unlinked_right hr ht bytes
    · rw [hn', hat]
      exact placed_mem _ _ _ _
    · intro x hown
      simp only [placed_append, placed, List.mem_append, List.mem_cons, ← hat, ← hn']
      constructor
      · rintro (hx | hx | hx)
        · exact .inl (.inl hx)
        · exact .inr hx
        · exact .inl (.inr (.inr hx))
      · rintro ((hx | hx | hx) | hx)
        · exact .inl hx
        · rw [hx] at hown
          exact absurd ht hown
        · exact .inr (.inr hx)
        · exact .inr (.inl hx)
    · rw [placed_same hr.proper hx hin heqp] at hown
      exact hown ht
    · intro a _ hnot
      exact setNext_mem (fun ha => hnot (ha ▸ hprev))
  · have hlt : n < t.size := by omega
    have hsum : t.size - n + n = t.size := Nat.sub_add_cancel (Nat.le_of_lt hlt)
    rw [Heap.hand, if_neg heq, hsize]
    have hnew : placed base (below ++ ⟨t.size - n, .free⟩ :: ⟨n, .used bytes⟩ :: behind) =
        placed base below ++ (p, ⟨t.size - n, .free⟩) :: (p + (t.size - n), ⟨n, .used bytes⟩) ::
          placed (p + t.size) behind := by
      rw [placed_append, placed, placed, ← hat, Nat.add_assoc p, hsum]
    refine ⟨below ++ ⟨t.size - n, .free⟩ :: ⟨n, .used bytes⟩ :: behind, ?_, ?_, ?_, fun x hx _ heqp => ?_, ?_⟩
    · simp only [hat]
      exact split_right hr ht hn hlt bytes hprev
    · rw [hnew]
      simp
    · intro x hown
      rw [hnew]
      simp only [placed_append, placed, List.mem_append, List.mem_cons, ← hat]
      constructor
      · rintro (hx | hx | hx | hx)
        · exact .inl (.inl hx)
        · rw [hx] at hown
          exact absurd rfl hown
        · exact .inr hx
        · exact .inl (.inr (.inr hx))
      · rintro ((hx | hx | hx) | hx)
        · exact .inl hx
        · rw [hx] at hown
          exact absurd ht hown
        · exact .inr (.inr (.inr hx))
        · exact .inr (.inr (.inl hx))
    · exact inside_no_start hr.proper hin hx (by simp only; omega) (by simp only; omega) heqp.symm
    · intro a ha hnot
      have hap : a ≠ p := by
        rintro rfl
        exact hnot (List.mem_cons_of_mem _ hp)
      exact (setSize_mem ha).trans (setSize_mem hap)

/-! ## The search -/

variable {n : Nat}

/-- The ring from any of its blocks on. -/
theorem ring_from (hr : Right h base ts) {x : Nat} (hx : x ∈ mroot :: frees base ts) :
    ∃ l, Path h.next x (l ++ [x]) ∧ x ∉ l ∧ l.length = (frees base ts).length ∧
      ∀ z, z ∈ x :: l ↔ z ∈ mroot :: frees base ts := by
  have hsorted := ring_sorted hr.base_pos hr.proper
  have hnodup : (mroot :: frees base ts).Nodup := hsorted.imp fun h => Nat.ne_of_lt h
  rcases List.mem_cons.1 hx with rfl | hin
  · exact ⟨frees base ts, hr.ring, (List.nodup_cons.1 hnodup).1, rfl, fun z => Iff.rfl⟩
  · obtain ⟨u, v, huv⟩ := List.append_of_mem hin
    have hring := hr.ring
    rw [huv] at hring hnodup ⊢
    rw [List.append_assoc] at hring
    obtain ⟨hu, hto, hv⟩ := path_append.1 hring
    obtain ⟨hv, hback⟩ := path_append.1 hv
    refine ⟨v ++ mroot :: u, ?_, ?_, ?_, ?_⟩
    · rw [List.append_assoc]
      refine path_append.2 ⟨hv, hback.1, ?_⟩
      exact path_append.2 ⟨hu, hto, trivial⟩
    · intro hmem
      rw [← List.cons_append, List.nodup_append] at hnodup
      obtain ⟨-, hxv, hdis⟩ := hnodup
      rcases List.mem_append.1 hmem with hmem | hmem
      · exact (List.nodup_cons.1 hxv).1 hmem
      · exact hdis x hmem x (by simp) rfl
    · simp only [List.length_append, List.length_cons]
      omega
    · intro z
      simp only [List.mem_cons, List.mem_append]
      tauto

/-- When the search has gone round, memory is had from the end of memory. -/
def afterOrbit (tg : Target) (agrees : Bool) (n fuel : Nat) (h : Heap) : Option (Heap × Option Nat) :=
  match h.brkmore tg fuel agrees n with
  | none => none
  | some none => some (h, none)
  | some (some k) => Heap.search tg agrees n fuel k k.freeptr (k.next k.freeptr)

theorem search_walk (tg : Target) (agrees : Bool) (n : Nat) {x : Nat} {l : List Nat}
    (hpath : Path h.next x (l ++ [h.freeptr])) (hnot : h.freeptr ∉ l) :
    (∃ prev ∈ x :: l, h.next prev ∈ l ++ [h.freeptr] ∧ n ≤ h.size (h.next prev) ∧
      ∀ fuel, l.length < fuel → Heap.search tg agrees n fuel h x (h.next x) =
        some ((h.hand n prev (h.next prev)).1, some (h.hand n prev (h.next prev)).2)) ∨
    ((∀ p ∈ l ++ [h.freeptr], h.size p < n) ∧ ∀ fuel, l.length < fuel →
      Heap.search tg agrees n fuel h x (h.next x) = afterOrbit tg agrees n (fuel - l.length - 1) h) := by
  induction l generalizing x with
  | nil =>
    have hnext : h.next x = h.freeptr := hpath.1
    by_cases hle : n ≤ h.size (h.next x)
    · refine .inl ⟨x, by simp, by simp [hnext], hle, fun fuel hfuel => ?_⟩
      obtain ⟨fuel, rfl⟩ : ∃ f, fuel = f + 1 := ⟨fuel - 1, by simp only [List.length_nil] at hfuel; omega⟩
      rw [Heap.search, if_pos hle]
    · refine .inr ⟨by simpa [hnext] using hle, fun fuel hfuel => ?_⟩
      obtain ⟨fuel, rfl⟩ : ∃ f, fuel = f + 1 := ⟨fuel - 1, by simp only [List.length_nil] at hfuel; omega⟩
      rw [Heap.search, if_neg hle, if_pos hnext]
      rfl
  | cons a l ih =>
    have hnext : h.next x = a := hpath.1
    have hne : ¬a = h.freeptr := fun ha => hnot (by simp [ha])
    by_cases hle : n ≤ h.size a
    · refine .inl ⟨x, by simp, by simp [hnext], by rwa [hnext], fun fuel hfuel => ?_⟩
      obtain ⟨fuel, rfl⟩ : ∃ f, fuel = f + 1 := ⟨fuel - 1, by simp only [List.length_cons] at hfuel; omega⟩
      rw [hnext, Heap.search, if_pos hle]
    · -- One step of the search, and then the rest of the ring.
      have hstep : ∀ fuel, l.length + 1 < fuel →
          Heap.search tg agrees n fuel h x (h.next x) = Heap.search tg agrees n (fuel - 1) h a (h.next a) := by
        intro fuel hfuel
        obtain ⟨fuel, rfl⟩ : ∃ f, fuel = f + 1 := ⟨fuel - 1, by omega⟩
        rw [hnext, Heap.search, if_neg hle, if_neg hne, Nat.add_sub_cancel]
      rcases ih hpath.2 (fun hin => hnot (List.mem_cons_of_mem _ hin)) with
        ⟨prev, hprev, hin, hbig, heq⟩ | ⟨hall, heq⟩
      · refine .inl ⟨prev, List.mem_cons_of_mem _ hprev, List.mem_cons_of_mem _ hin, hbig, fun fuel hfuel => ?_⟩
        rw [List.length_cons] at hfuel
        rw [hstep fuel hfuel, heq _ (by omega)]
      · refine .inr ⟨fun p hp => ?_, fun fuel hfuel => ?_⟩
        · rcases List.mem_cons.1 hp with rfl | hp
          · omega
          · exact hall p hp
        · rw [List.length_cons] at hfuel ⊢
          rw [hstep fuel hfuel, heq _ (by omega)]
          congr 1
          omega

/-- Where there is a hole that is large enough, the search finds one. -/
theorem search_right (tg : Target) (agrees : Bool) (hr : Right h base ts) (hn : 0 < n) (bytes : Nat) :
    (∃ q k us, (∀ fuel, (frees base ts).length < fuel →
        Heap.search tg agrees n fuel h h.freeptr (h.next h.freeptr) = some (k, some q)) ∧ Right k base us ∧
      (q, (⟨n, .used bytes⟩ : Tile)) ∈ placed base us ∧ Handed q n bytes base ts us ∧ Fresh q base ts ∧
      ∀ a, a ≠ q → a ∉ mroot :: frees base ts → k.mem a = h.mem a) ∨
    ((∀ x ∈ placed base ts, x.2.owner = .free → x.2.size < n) ∧ ∀ fuel, (frees base ts).length < fuel →
      Heap.search tg agrees n fuel h h.freeptr (h.next h.freeptr) =
        afterOrbit tg agrees n (fuel - (frees base ts).length - 1) h) := by
  obtain ⟨l, hpath, hnot, hlen, hmem⟩ := ring_from hr hr.freeptr
  have hmem' : ∀ z, z ∈ l ++ [h.freeptr] ↔ z ∈ mroot :: frees base ts := by
    intro z
    rw [← hmem z]
    simp only [List.mem_append, List.mem_cons, List.not_mem_nil, or_false]
    tauto
  rw [← hlen]
  rcases search_walk tg agrees n hpath hnot with ⟨prev, hprev, hin, hbig, heq⟩ | ⟨hall, heq⟩
  · left
    have hfree : h.next prev ∈ frees base ts := by
      rcases List.mem_cons.1 ((hmem' _).1 hin) with hroot | hfree
      · rw [hroot, hr.root] at hbig
        omega
      · exact hfree
    obtain ⟨us, hright, hat, hhanded, hfresh, hframe⟩ := hand_right hr hfree ((hmem prev).1 hprev) rfl hn hbig bytes
    exact ⟨_, _, us, heq, hright, hat, hhanded, hfresh, hframe⟩
  · right
    refine ⟨fun x hx hown => ?_, heq⟩
    rw [← hr.sized x hx]
    exact hall _ ((hmem' _).2 (List.mem_cons_of_mem _ (mem_frees.2 ⟨x.2, hx, hown⟩)))

/-- Memory is faked as a used block. -/
theorem extended_right (hr : Right h base ts) {m : Nat} (hm : 0 < m) :
    Right ({ h with brk := h.brk + m }.setSize h.brk m) base (ts ++ [⟨m, .used 0⟩]) where
  base_pos := hr.base_pos
  proper := by
    intro u hu
    rcases List.mem_append.1 hu with hu | hu
    · exact hr.proper u hu
    · rw [List.mem_singleton.1 hu]
      exact hm
  brk := by
    have := hr.brk
    rw [width_append, width, width, ← Nat.add_assoc, this]
    rfl
  root := by
    have := hr.brk
    have := hr.base_pos
    rw [setSize_size, if_neg (by simp only [mroot]; omega)]
    exact hr.root
  sized := by
    intro x hx
    have hbrk := hr.brk
    rw [placed_append, placed, placed, hbrk] at hx
    rw [setSize_size]
    rcases List.mem_append.1 hx with hx | hx
    · obtain ⟨-, hend, hin⟩ := placed_bounds hx
      have := hr.proper x.2 hin
      rw [if_neg (by omega)]
      exact hr.sized x hx
    · rw [List.mem_singleton.1 hx]
      exact if_pos rfl
  ring := by
    rw [frees_append, frees, if_neg (by simp), frees, List.append_nil]
    exact path_congr (fun z _ => by rw [setSize_next]; rfl) hr.ring
  apart := by
    refine List.isChain_append.2 ⟨hr.apart, List.isChain_singleton _, fun x _ y hy => ?_⟩
    cases hy
    rintro ⟨-, hown⟩
    cases hown
  freeptr := by
    rw [frees_append, frees, if_neg (by simp), frees, List.append_nil]
    exact hr.freeptr

end Fuzemsys.Libs.Malloc
