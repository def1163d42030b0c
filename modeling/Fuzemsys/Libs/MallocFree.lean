import Fuzemsys.Libs.MallocTiles

/-!
# Freeing a block

The block becomes a free tile, and takes in the free tiles on either side of it.
-/

namespace Fuzemsys.Libs.Malloc

open Fuzemsys.Lib.Ring

variable {h : Heap} {base : Nat}

@[simp] theorem setNext_next (p q a : Nat) : (h.setNext p q).next a = if a = p then q else h.next a := by
  simp only [Heap.setNext, Heap.next]
  split <;> rfl

@[simp] theorem setNext_size (p q a : Nat) : (h.setNext p q).size a = h.size a := by
  simp only [Heap.setNext, Heap.size]
  split <;> simp_all

@[simp] theorem setSize_size (p n a : Nat) : (h.setSize p n).size a = if a = p then n else h.size a := by
  simp only [Heap.setSize, Heap.size]
  split <;> rfl

@[simp] theorem setSize_next (p n a : Nat) : (h.setSize p n).next a = h.next a := by
  simp only [Heap.setSize, Heap.next]
  split <;> simp_all

theorem setNext_mem {p q a : Nat} (ha : a ≠ p) : (h.setNext p q).mem a = h.mem a := if_neg ha

theorem setSize_mem {p n a : Nat} (ha : a ≠ p) : (h.setSize p n).mem a = h.mem a := if_neg ha

theorem mem_next {k : Heap} {a : Nat} (heq : k.mem a = h.mem a) : k.next a = h.next a := congrArg Memh.next heq

theorem mem_size {k : Heap} {a : Nat} (heq : k.mem a = h.mem a) : k.size a = h.size a := congrArg Memh.size heq

/-! ## The search -/

/-- The search goes on to the first block that it is for. -/
theorem before_walk {mh x : Nat} {l : List Nat} (hpath : Path h.next x l)
    (hnot : ∀ z ∈ (x :: l).dropLast, ¬h.Between mh z) (hlast : h.Between mh (last x l)) {fuel : Nat}
    (hfuel : l.length < fuel) : h.before mh fuel x = some (last x l) := by
  induction l generalizing x fuel with
  | nil =>
    obtain ⟨fuel, rfl⟩ := Nat.exists_eq_add_of_lt hfuel
    simp only [last] at hlast ⊢
    rw [Heap.before, if_pos hlast]
  | cons a l ih =>
    obtain ⟨fuel, rfl⟩ : ∃ f, fuel = f + 1 := ⟨fuel - 1, by simp only [List.length_cons] at hfuel; omega⟩
    rw [List.dropLast_cons_of_ne_nil (by simp)] at hnot
    rw [Heap.before, if_neg (hnot x (by simp)), hpath.1]
    exact ih hpath.2 (fun z hz => hnot z (List.mem_cons_of_mem _ hz)) hlast
      (by simp only [List.length_cons] at hfuel; omega)

/-- From anywhere in the ring, the search finds the last free block below this one. -/
theorem before_found {mh : Nat} {below above : List Nat} (hring : Path h.next mroot (below ++ above ++ [mroot]))
    (hsorted : (mroot :: (below ++ above)).Pairwise (· < ·)) (hbelow : ∀ p ∈ below, p < mh) (hmh : mroot < mh)
    (habove : ∀ p ∈ above, mh < p) {x : Nat} (hx : x ∈ mroot :: (below ++ above)) {fuel : Nat}
    (hfuel : below.length + above.length + 2 < fuel) :
    h.before mh fuel x = some (last mroot below) := by
  rw [List.append_assoc] at hring
  obtain ⟨hdown, hup⟩ := path_append.1 hring
  have hsplit : (mroot :: below ++ above).Pairwise (· < ·) := hsorted
  obtain ⟨hsbelow, hsabove, hcross⟩ := List.pairwise_append.1 hsplit
  have hlastlow : last mroot below < mh := by
    rcases List.mem_cons.1 (last_mem mroot below) with heq | hmem
    · rw [heq]; exact hmh
    · exact hbelow _ hmem
  have hsup : (last mroot below :: above).Pairwise (· < ·) :=
    List.pairwise_cons.2 ⟨fun p hp => hcross _ (last_mem mroot below) p hp, hsabove⟩
  -- Below the last one, the next block is still below.
  have hnotbelow : ∀ z ∈ (mroot :: below).dropLast, ¬h.Between mh z := by
    intro z hz
    obtain ⟨hin, hlt⟩ := next_up hdown hsbelow hz
    have := hbelow _ hin
    rw [Heap.Between]
    omega
  have hnotabove : ∀ z ∈ above, ¬h.Between mh z := by
    intro z hz
    have hlow := habove z hz
    rw [Heap.Between]
    rcases next_round hup hsup (List.mem_cons_of_mem _ hz) with ⟨-, hlt⟩ | ⟨-, heq⟩
    · omega
    · simp only [mroot] at heq hmh
      omega
  have hfound : h.Between mh (last mroot below) := by
    rw [Heap.Between]
    rcases next_round hup hsup List.mem_cons_self with ⟨hin, -⟩ | ⟨-, heq⟩
    · exact .inl ⟨hlastlow, habove _ hin⟩
    · rw [heq]
      exact .inr ⟨Nat.zero_le _, .inl hlastlow⟩
  have hmem : x ∈ mroot :: below ++ above := hx
  rcases List.mem_append.1 hmem with hx | hx
  · obtain ⟨u, v, heq, hpath, hend⟩ := path_from hdown hx
    rw [← hend] at hfound ⊢
    refine before_walk hpath (fun z hz => hnotbelow z ?_) hfound ?_
    · rw [heq, List.dropLast_append_of_ne_nil (by simp)]
      exact List.mem_append_right _ hz
    · have := congrArg List.length heq
      simp only [List.length_cons, List.length_append] at this
      omega
  · obtain ⟨u, v, rfl⟩ := List.append_of_mem hx
    have hpath : Path h.next x (v ++ [mroot]) := by
      rw [List.append_assoc] at hup
      exact (path_append.1 hup).2.2
    have hround : Path h.next x (v ++ mroot :: below) := by
      obtain ⟨hv, hend⟩ := path_append.1 hpath
      exact path_append.2 ⟨hv, hend.1, hdown⟩
    have hgoal : last x (v ++ mroot :: below) = last mroot below := by
      rw [last_append]
      rfl
    rw [← hgoal] at hfound ⊢
    refine before_walk hround (fun z hz => ?_) hfound ?_
    · rw [← List.cons_append, List.dropLast_append_of_ne_nil (by simp)] at hz
      rcases List.mem_append.1 hz with hz | hz
      · exact hnotabove z (List.mem_append_right _ hz)
      · exact hnotbelow z hz
    · simp only [List.length_append, List.length_cons] at hfuel ⊢
      omega

/-! ## Merging -/

/-- The successor of one block becomes that of another. -/
theorem path_head {next next' : Nat → Nat} {x y : Nat} {l : List Nat} (hpath : Path next x l) (hy : next' y = next x)
    (hrest : ∀ z ∈ l.dropLast, next' z = next z) : Path next' y l := by
  cases l with
  | nil => trivial
  | cons a l => exact ⟨hy.trans hpath.1, path_congr hrest hpath.2⟩

theorem frees_above {a : Nat} {ts : List Tile} (hproper : Proper ts) (hhead : ∀ t ∈ ts.head?, t.owner ≠ .free) :
    ∀ p ∈ frees a ts, a < p := by
  intro p hp
  cases ts with
  | nil => simp [frees] at hp
  | cons t ts =>
    rw [frees, if_neg (hhead t rfl)] at hp
    have := (frees_bounds hp).1
    have := hproper t (by simp)
    omega

/-- What is behind a block, when what was free there is part of the block. -/
structure Merged (h k : Heap) (mh : Nat) (sz : Nat) (behind : List Tile) (n : Nat) (rest : List Tile) : Prop where
  mem : ∀ a, a ≠ mh → k.mem a = h.mem a
  brk : k.brk = h.brk
  size : k.size mh = n
  path : Path k.next mh (frees (mh + n) rest ++ [mroot])
  same_width : n + width rest = sz + width behind
  grown : sz ≤ n
  proper : Proper rest
  left : ∀ x ∈ placed (mh + n) rest, x ∈ placed (mh + sz) behind
  used : ∀ x ∈ placed (mh + sz) behind, x.2.owner ≠ .free → x ∈ placed (mh + n) rest
  apart : rest.IsChain Apart
  head : ∀ t ∈ rest.head?, t.owner ≠ .free

variable {below behind : List Tile} {t : Tile}

/-- A free tile right behind the block becomes part of it. -/
theorem forward_joined {p mh sz : Nat} {g : Tile} {rest : List Tile}
    (hup : Path h.next p (frees (mh + sz) (g :: rest) ++ [mroot])) (hg : g.owner = .free) (hproper : Proper (g :: rest))
    (hmhsize : h.size mh = sz) (hsized : ∀ x ∈ placed (mh + sz) (g :: rest), h.size x.1 = x.2.size)
    (hchain : (g :: rest).IsChain Apart) (htpos : 0 < sz) :
    ∃ n rest', Merged h (h.forward mh p) mh sz (g :: rest) n rest' := by
  rw [frees, if_pos hg] at hup
  obtain ⟨hnext, hgpath⟩ := hup
  have hgsize : h.size (mh + sz) = g.size := hsized (mh + sz, g) List.mem_cons_self
  have hforward : h.forward mh p =
      (h.setSize mh (sz + g.size)).setNext mh (h.next (mh + sz)) := by
    rw [Heap.forward, if_pos (by rw [hnext, hmhsize]), hnext, hmhsize, hgsize]
  have hrestproper : Proper rest := fun u hu => hproper u (by simp [hu])
  refine ⟨sz + g.size, rest, ?_, by rw [hforward]; rfl, ?_, ?_, ?_, by omega, hrestproper, ?_, ?_,
    hchain.tail, ?_⟩
  · intro a ha
    rw [hforward, setNext_mem ha, setSize_mem ha]
  · rw [hforward]
    simp
  · rw [← Nat.add_assoc, hforward]
    refine path_head hgpath (by simp) fun z hz => ?_
    rw [List.dropLast_concat] at hz
    have := (frees_bounds hz).1
    simp only [setNext_next, setSize_next]
    rw [if_neg (by omega)]
  · simp only [width]
    omega
  · intro x hx
    rw [← Nat.add_assoc] at hx
    exact List.mem_cons_of_mem _ hx
  · intro x hx hown
    rw [← Nat.add_assoc]
    rcases List.mem_cons.1 hx with rfl | hx
    · exact absurd hg hown
    · exact hx
  · intro u hu hown
    cases rest with
    | nil => simp at hu
    | cons r rest =>
      cases hu
      exact (List.isChain_cons_cons.1 hchain).1 ⟨hg, hown⟩

/-- Otherwise the block only takes the link. -/
theorem forward_alone {p mh sz : Nat} (hup : Path h.next p (frees (mh + sz) behind ++ [mroot]))
    (hfree : ¬∃ g rest, behind = g :: rest ∧ g.owner = .free) (hproper : Proper behind) (hmhsize : h.size mh = sz)
    (hchain : behind.IsChain Apart) (hmhpos : mroot < mh) (htpos : 0 < sz) :
    ∃ n rest, Merged h (h.forward mh p) mh sz behind n rest := by
  have hhead : ∀ u ∈ behind.head?, u.owner ≠ .free := by
    intro u hu hown
    cases behind with
    | nil => simp at hu
    | cons r rest =>
      cases hu
      exact hfree ⟨u, rest, rfl, hown⟩
  have hne : ¬mh + h.size mh = h.next p := by
    rw [hmhsize]
    cases hb : frees (mh + sz) behind with
    | nil =>
      rw [hb] at hup
      rw [hup.1]
      simp only [mroot] at hmhpos ⊢
      omega
    | cons b l =>
      have := frees_above hproper hhead b (by rw [hb]; simp)
      rw [hb] at hup
      rw [hup.1]
      omega
  have hforward : h.forward mh p = h.setNext mh (h.next p) := by rw [Heap.forward, if_neg hne]
  refine ⟨sz, behind, fun a ha => by rw [hforward, setNext_mem ha], by rw [hforward]; rfl,
    by rw [hforward]; simpa using hmhsize, ?_, rfl, le_refl _, hproper, fun x hx => hx, fun x hx _ => hx, hchain,
    hhead⟩
  rw [hforward]
  refine path_head hup (by simp) fun z hz => ?_
  rw [List.dropLast_concat] at hz
  have := (frees_bounds hz).1
  simp only [setNext_next]
  rw [if_neg (by omega)]

theorem forward_merged (hr : Right h base (below ++ t :: behind)) (ht : t.owner ≠ .free) :
    ∃ n rest, Merged h (h.forward (base + width below) (last mroot (frees base below))) (base + width below) t.size
      behind n rest := by
  obtain ⟨mh, hmh⟩ : ∃ mh, mh = base + width below := ⟨_, rfl⟩
  obtain ⟨p, hp⟩ : ∃ p, p = last mroot (frees base below) := ⟨_, rfl⟩
  have hfrees : frees base (below ++ t :: behind) = frees base below ++ frees (mh + t.size) behind := by
    rw [frees_append, frees, if_neg ht, hmh]
  have hring := hr.ring
  rw [hfrees, List.append_assoc] at hring
  have hup : Path h.next p (frees (mh + t.size) behind ++ [mroot]) := hp ▸ (path_append.1 hring).2
  have hmhpos : mroot < mh := by
    have := hr.base_pos
    simp only [mroot]
    omega
  have htpos : 0 < t.size := hr.proper t (by simp)
  have hproper : Proper behind := fun u hu => hr.proper u (by simp [hu])
  have hmhsize : h.size mh = t.size := by
    rw [hmh]
    exact hr.sized _ (placed_mem base below behind t)
  have hplaced : ∀ x ∈ placed (mh + t.size) behind, x ∈ placed base (below ++ t :: behind) := by
    intro x hx
    rw [placed_append, ← hmh]
    exact List.mem_append_right _ (List.mem_cons_of_mem _ hx)
  have hchain : behind.IsChain Apart := (List.isChain_append.1 hr.apart).2.1.tail
  rw [← hmh, ← hp]
  by_cases hfree : ∃ g rest, behind = g :: rest ∧ g.owner = .free
  · obtain ⟨g, rest, rfl, hg⟩ := hfree
    exact forward_joined hup hg hproper hmhsize (fun x hx => hr.sized x (hplaced x hx)) hchain htpos
  · exact forward_alone hup hfree hproper hmhsize hchain hmhpos htpos

/-- The used tiles are the same, but for the one freed. -/
def Freed (mh base : Nat) (ts us : List Tile) : Prop :=
  ∀ x : Nat × Tile, x.2.owner ≠ .free → (x ∈ placed base us ↔ x ∈ placed base ts ∧ x.1 ≠ mh)

theorem freed_tiles (hproper : Proper (below ++ t :: behind)) {n : Nat} {rest us : List Tile}
    (hleft : ∀ x ∈ placed (base + width below + n) rest, x ∈ placed (base + width below + t.size) behind)
    (hused : ∀ x ∈ placed (base + width below + t.size) behind, x.2.owner ≠ .free →
      x ∈ placed (base + width below + n) rest)
    (hus : ∀ x : Nat × Tile, x.2.owner ≠ .free →
      (x ∈ placed base us ↔ x ∈ placed base below ∨ x ∈ placed (base + width below + n) rest)) :
    Freed (base + width below) base (below ++ t :: behind) us := by
  intro x hown
  rw [hus x hown, placed_append, List.mem_append, placed, List.mem_cons]
  constructor
  · rintro (hx | hx)
    · obtain ⟨-, hend, hin⟩ := placed_bounds hx
      have := hproper x.2 (by simp [hin])
      exact ⟨.inl hx, by omega⟩
    · have := (placed_bounds (hleft x hx)).1
      have := hproper t (by simp)
      exact ⟨.inr (.inr (hleft x hx)), by omega⟩
  · rintro ⟨hx | hx | hx, hne⟩
    · exact .inl hx
    · rw [hx] at hne
      exact absurd rfl hne
    · exact .inr (hused x hx hown)

/-- What is left after a block was freed: its room is in a free tile. -/
structure Released (h k : Heap) (base mh size : Nat) (ts us : List Tile) : Prop where
  right : Right k base us
  freed : Freed mh base ts us
  hole : ∃ x ∈ placed base us, x.2.owner = .free ∧ size ≤ x.2.size
  frame : ∀ a, a ≠ mh → a ∉ mroot :: frees base ts → k.mem a = h.mem a

/-- What is below a block when the tiles behind it are merged. -/
structure Around (h k : Heap) (base mh : Nat) (below : List Tile) (n : Nat) (rest : List Tile) : Prop where
  down : Path h.next mroot (frees base below)
  proper : Proper below
  sizes : ∀ x ∈ placed base below, h.size x.1 = x.2.size
  low : ∀ x ∈ placed base below, x.1 < mh
  rest_size : ∀ x ∈ placed (mh + n) rest, k.size x.1 = x.2.size
  wide : base + width below + (n + width rest) = h.brk
  chain : below.IsChain Apart
  last_low : last mroot (frees base below) < mh

theorem merged_around {k : Heap} {n : Nat} {rest : List Tile} (hr : Right h base (below ++ t :: behind))
    (ht : t.owner ≠ .free) (hm : Merged h k (base + width below) t.size behind n rest) :
    Around h k base (base + width below) below n rest := by
  have hring := hr.ring
  rw [frees_append, frees, if_neg ht, List.append_assoc] at hring
  have hbelow : Proper below := fun u hu => hr.proper u (by simp [hu])
  have hlow : ∀ x ∈ placed base below, x.1 < base + width below := by
    intro x hx
    obtain ⟨-, hend, hin⟩ := placed_bounds hx
    have := hbelow x.2 hin
    omega
  refine ⟨(path_append.1 hring).1, hbelow, fun x hx => ?_, hlow, fun x hx => ?_, ?_,
    (List.isChain_append.1 hr.apart).1, ?_⟩
  · exact hr.sized x (by rw [placed_append]; exact List.mem_append_left _ hx)
  · have hin := hm.left x hx
    have := (placed_bounds hx).1
    have := hm.grown
    have := hr.proper t (by simp)
    rw [mem_size (hm.mem x.1 (by omega))]
    refine hr.sized x ?_
    rw [placed_append]
    exact List.mem_append_right _ (List.mem_cons_of_mem _ hin)
  · have hbrk := hr.brk
    rw [width_append, width, ← hm.same_width] at hbrk
    omega
  · rcases List.mem_cons.1 (last_mem mroot (frees base below)) with heq | hin
    · have := hr.base_pos
      rw [heq, mroot]
      omega
    · obtain ⟨u, hu, -⟩ := mem_frees.1 hin
      exact hlow _ hu

/-- The ring once the free tile `p` below has taken over the link of the block. -/
theorem joined_path {k : Heap} {p mh s size n : Nat} {us rest : List Tile}
    (hdown : Path h.next mroot (frees base us ++ [p])) (hsorted : (mroot :: (frees base us ++ [p])).Pairwise (· < ·))
    (hm : Merged h k mh size behind n rest) (hplow : p < mh) :
    Path ((k.setSize p s).setNext p (k.next mh)).next mroot ((frees base us ++ p :: frees (mh + n) rest) ++ [mroot]) := by
  have hsame : ∀ z, z ≠ p → z ≠ mh → ((k.setSize p s).setNext p (k.next mh)).next z = h.next z := by
    intro z hzp hzm
    rw [setNext_next, if_neg hzp, setSize_next, mem_next (hm.mem z hzm)]
  have hfirst : Path ((k.setSize p s).setNext p (k.next mh)).next mroot (frees base us ++ [p]) := by
    refine path_congr (fun z hz => ?_) hdown
    have hlt := before_last hsorted hz
    rw [last_append] at hlt
    simp only [last] at hlt
    exact hsame z (by omega) (by omega)
  have hsecond : Path ((k.setSize p s).setNext p (k.next mh)).next p (frees (mh + n) rest ++ [mroot]) := by
    refine path_head hm.path (by rw [setNext_next, if_pos rfl]) fun z hz => ?_
    rw [List.dropLast_concat] at hz
    have := (frees_bounds hz).1
    rw [setNext_next, if_neg (by omega), setSize_next]
  have := path_append.2 ⟨hfirst, (by rw [last_append]; exact hsecond)⟩
  simpa using this

/-- The ring once the block is linked behind the last free tile below it. -/
theorem alone_path {k : Heap} {p mh size n : Nat} {rest : List Tile} (hdown : Path h.next mroot (frees base below))
    (hsorted : (mroot :: frees base below).Pairwise (· < ·)) (hp : p = last mroot (frees base below))
    (hm : Merged h k mh size behind n rest) (hplow : p < mh) :
    Path (k.setNext p mh).next mroot ((frees base below ++ mh :: frees (mh + n) rest) ++ [mroot]) := by
  have hfirst : Path (k.setNext p mh).next mroot (frees base below) := by
    refine path_congr (fun z hz => ?_) hdown
    have hlt := before_last hsorted hz
    rw [← hp] at hlt
    rw [setNext_next, if_neg (by omega), mem_next (hm.mem z (by omega))]
  have hsecond : Path (k.setNext p mh).next mh (frees (mh + n) rest ++ [mroot]) := by
    refine path_congr (fun z hz => ?_) hm.path
    rw [← List.cons_append, List.dropLast_concat] at hz
    have hge : mh ≤ z := by
      rcases List.mem_cons.1 hz with rfl | hz
      · exact le_refl _
      · have := (frees_bounds hz).1
        omega
    rw [setNext_next, if_neg (by omega)]
  rw [List.append_assoc]
  refine path_append.2 ⟨hfirst, ?_⟩
  rw [← hp]
  exact ⟨by rw [setNext_next, if_pos rfl], hsecond⟩

/-- A free tile that is not right below the block does not reach it. -/
theorem alone_below {k : Heap} {mh n size : Nat} {rest : List Tile} (ha : Around h k base mh below n rest)
    (hm : Merged h k mh size behind n rest) (hmh : mh = base + width below) (hroot : h.size mroot = 0)
    (hjoin : ¬∃ us f, below = us ++ [f] ∧ f.owner = .free) :
    ¬last mroot (frees base below) + k.size (last mroot (frees base below)) = mh := by
  have hplow := ha.last_low
  rw [mem_size (hm.mem _ (by omega))]
  rcases last_free below base with hnil | ⟨us, f, vs, rfl, hf, hvs⟩
  · rw [hnil, last] at hplow ⊢
    rw [hroot]
    omega
  · have hvne : vs ≠ [] := fun hv => hjoin ⟨us, f, by rw [hv], hf⟩
    obtain ⟨v, vs, rfl⟩ := List.exists_cons_of_ne_nil hvne
    have hlast : last mroot (frees base (us ++ f :: v :: vs)) = base + width us := by
      rw [frees_append, frees, if_pos hf, hvs, last_append]
      rfl
    have hv := ha.proper v (by simp)
    have hfsize := ha.sizes _ (placed_mem base us (v :: vs) f)
    rw [hlast, hfsize, hmh]
    simp only [width_append, width]
    omega

/-- The block goes to the free tile right below it. -/
theorem joined_released {k : Heap} {n : Nat} {us rest : List Tile} {f : Tile}
    (hr : Right h base (us ++ [f] ++ t :: behind)) (ht : t.owner ≠ .free) (hf : f.owner = .free)
    (hm : Merged h k (base + width (us ++ [f])) t.size behind n rest) :
    Released h { k.backward (base + width (us ++ [f])) (last mroot (frees base (us ++ [f]))) with
        freeptr := last mroot (frees base (us ++ [f])) } base (base + width (us ++ [f])) t.size
      (us ++ [f] ++ t :: behind) (us ++ ⟨f.size + n, .free⟩ :: rest) := by
  obtain ⟨hdown, hbelow, hsizes, hlow, hrestsize, hwide, hchain, hplow⟩ := merged_around hr ht hm
  obtain ⟨mh, hmh⟩ : ∃ mh, mh = base + width (us ++ [f]) := ⟨_, rfl⟩
  have hfrees : frees base (us ++ [f] ++ t :: behind) = frees base (us ++ [f]) ++ frees (mh + t.size) behind := by
    rw [frees_append base (us ++ [f]), frees.eq_2, if_neg ht, hmh]
  have hbase := hr.base_pos
  have hsorted := ring_sorted hbase hbelow
  rw [← hmh] at hm hlow hrestsize hplow hwide ⊢
  obtain ⟨p, hp⟩ : ∃ p, p = base + width us := ⟨_, rfl⟩
  have hpend : p + f.size = mh := by
    rw [hmh, width_append, width, width, hp]
    omega
  have hfus : frees base (us ++ [f]) = frees base us ++ [p] := by
    rw [frees_append, frees, if_pos hf, frees, hp]
  have hlast : last mroot (frees base (us ++ [f])) = p := by
    rw [hfus, last_append]
    rfl
  have hfpos := hbelow f (by simp)
  have hpsize : k.size p = f.size := by
    rw [mem_size (hm.mem p (by omega)), hp]
    exact hsizes _ (placed_mem base us [] f)
  have hback : k.backward mh p = (k.setSize p (f.size + n)).setNext p (k.next mh) := by
    rw [Heap.backward, if_pos (by rw [hpsize, hpend]), hpsize, hm.size]
  have hfnew : frees base (us ++ ⟨f.size + n, .free⟩ :: rest) = frees base us ++ p :: frees (mh + n) rest := by
    rw [frees_append, frees, if_pos rfl, ← hp, ← Nat.add_assoc, hpend]
  have hpnew : placed base (us ++ ⟨f.size + n, .free⟩ :: rest) =
      placed base us ++ (p, ⟨f.size + n, .free⟩) :: placed (mh + n) rest := by
    rw [placed_append, placed, ← hp, ← Nat.add_assoc, hpend]
  have hups : Proper us := fun u hu => hbelow u (by simp [hu])
  rw [hlast, hback]
  refine ⟨⟨hbase, ?_, ?_, ?_, ?_, ?_, ?_, ?_⟩, ?_,
    ⟨(p, ⟨f.size + n, .free⟩), by rw [hpnew]; simp, rfl, Nat.le_trans hm.grown (Nat.le_add_left _ _)⟩, ?_⟩
  · intro u hu
    rcases List.mem_append.1 hu with hu | hu
    · exact hups u hu
    · rcases List.mem_cons.1 hu with rfl | hu
      · exact Nat.lt_of_lt_of_le hfpos (Nat.le_add_right _ _)
      · exact hm.proper u hu
  · change _ = k.brk
    rw [hm.brk, ← hwide]
    simp only [width_append, width]
    omega
  · change ((k.setSize p (f.size + n)).setNext p (k.next mh)).size mroot = 0
    have hroot := hr.root
    rw [setNext_size, setSize_size, if_neg (by simp only [mroot]; omega)]
    rwa [mem_size (hm.mem mroot (by simp only [mroot]; omega))]
  · intro x hx
    change ((k.setSize p (f.size + n)).setNext p (k.next mh)).size x.1 = x.2.size
    rw [setNext_size, setSize_size]
    rw [hpnew] at hx
    rcases List.mem_append.1 hx with hx | hx
    · obtain ⟨-, hend, hin⟩ := placed_bounds hx
      have := hups x.2 hin
      rw [if_neg (by omega), mem_size (hm.mem x.1 (by omega))]
      exact hsizes x (by rw [placed_append]; exact List.mem_append_left _ hx)
    · rcases List.mem_cons.1 hx with rfl | hx
      · exact if_pos rfl
      · have := (placed_bounds hx).1
        rw [if_neg (by omega)]
        exact hrestsize x hx
  · change Path ((k.setSize p (f.size + n)).setNext p (k.next mh)).next _ _
    rw [hfus] at hdown hsorted
    rw [hfnew]
    exact joined_path hdown hsorted hm (by omega)
  · refine List.isChain_append.2 ⟨?_, ?_, ?_⟩
    · exact (List.isChain_append.1 hchain).1
    · refine List.isChain_cons.2 ⟨fun y hy => ?_, hm.apart⟩
      rintro ⟨-, hown⟩
      exact hm.head y hy hown
    · intro x hx y hy
      cases hy
      rintro ⟨hown, -⟩
      exact (List.isChain_append.1 hchain).2.2 x hx f rfl ⟨hown, hf⟩
  · rw [hfnew]
    exact List.mem_cons_of_mem _ (List.mem_append_right _ (by simp))
  · rw [hmh]
    refine freed_tiles hr.proper (hmh ▸ hm.left) (hmh ▸ hm.used) fun x hown => ?_
    rw [← hmh, hpnew, placed_append, List.mem_append, List.mem_cons, List.mem_append, placed, placed, List.mem_singleton]
    constructor
    · rintro (hx | hx | hx)
      · exact .inl (.inl hx)
      · rw [hx] at hown
        exact absurd rfl hown
      · exact .inr hx
    · rintro ((hx | hx) | hx)
      · exact .inl hx
      · rw [hx] at hown
        exact absurd hf hown
      · exact .inr (.inr hx)
  · intro a ha hnot
    have hap : a ≠ p := by
      rintro rfl
      refine hnot (List.mem_cons_of_mem _ ?_)
      rw [hfrees, hfus]
      simp
    rw [setNext_mem hap, setSize_mem hap, hm.mem a ha]

/-- The block stays on its own. -/
theorem alone_released {k : Heap} {n : Nat} {rest : List Tile} (hr : Right h base (below ++ t :: behind))
    (ht : t.owner ≠ .free) (hjoin : ¬∃ us f, below = us ++ [f] ∧ f.owner = .free)
    (hm : Merged h k (base + width below) t.size behind n rest) :
    Released h { k.backward (base + width below) (last mroot (frees base below)) with
        freeptr := last mroot (frees base below) } base (base + width below) t.size
      (below ++ t :: behind) (below ++ ⟨n, .free⟩ :: rest) := by
  have hne := alone_below (merged_around hr ht hm) hm rfl hr.root hjoin
  obtain ⟨hdown, hbelow, hsizes, hlow, hrestsize, hwide, hchain, hplow⟩ := merged_around hr ht hm
  obtain ⟨mh, hmh⟩ : ∃ mh, mh = base + width below := ⟨_, rfl⟩
  have hfrees : frees base (below ++ t :: behind) = frees base below ++ frees (mh + t.size) behind := by
    rw [frees_append, frees, if_neg ht, hmh]
  have hbase := hr.base_pos
  have htpos : 0 < t.size := hr.proper t (by simp)
  have hsorted := ring_sorted hbase hbelow
  have hpmem := last_mem mroot (frees base below)
  rw [← hmh] at hne hm hlow hrestsize hplow hwide ⊢
  have hback : k.backward mh (last mroot (frees base below)) = k.setNext (last mroot (frees base below)) mh := by
    rw [Heap.backward, if_neg hne]
  obtain ⟨p, hp⟩ : ∃ p, p = last mroot (frees base below) := ⟨_, rfl⟩
  rw [hback]
  rw [← hp] at hpmem hplow ⊢
  have hfnew : frees base (below ++ ⟨n, .free⟩ :: rest) = frees base below ++ mh :: frees (mh + n) rest := by
    rw [frees_append, frees, if_pos rfl, ← hmh]
  have hpnew : placed base (below ++ ⟨n, .free⟩ :: rest) =
      placed base below ++ (mh, ⟨n, .free⟩) :: placed (mh + n) rest := by
    rw [placed_append, placed, ← hmh]
  refine ⟨⟨hbase, ?_, ?_, ?_, ?_, ?_, ?_, ?_⟩, ?_,
    ⟨(mh, ⟨n, .free⟩), by rw [hpnew]; simp, rfl, hm.grown⟩, ?_⟩
  · intro u hu
    rcases List.mem_append.1 hu with hu | hu
    · exact hbelow u hu
    · rcases List.mem_cons.1 hu with rfl | hu
      · exact Nat.lt_of_lt_of_le htpos hm.grown
      · exact hm.proper u hu
  · change _ = k.brk
    rw [hm.brk, ← hwide]
    simp only [width_append, width]
    omega
  · change (k.setNext p mh).size mroot = 0
    rw [setNext_size, mem_size (hm.mem mroot (by simp only [mroot]; omega))]
    exact hr.root
  · intro x hx
    change (k.setNext p mh).size x.1 = x.2.size
    rw [setNext_size]
    rw [hpnew] at hx
    rcases List.mem_append.1 hx with hx | hx
    · have := hlow x hx
      rw [mem_size (hm.mem x.1 (by omega))]
      exact hsizes x hx
    · rcases List.mem_cons.1 hx with rfl | hx
      · exact hm.size
      · exact hrestsize x hx
  · change Path (k.setNext p mh).next _ _
    rw [hfnew]
    exact alone_path hdown hsorted hp hm hplow
  · refine List.isChain_append.2 ⟨hchain, ?_, ?_⟩
    · refine List.isChain_cons.2 ⟨fun y hy => ?_, hm.apart⟩
      rintro ⟨-, hown⟩
      exact hm.head y hy hown
    · intro x hx y hy
      rintro ⟨hown, -⟩
      obtain ⟨us, hus⟩ := List.getLast?_eq_some_iff.1 hx
      exact hjoin ⟨us, x, hus, hown⟩
  · rw [hfnew]
    rcases List.mem_cons.1 hpmem with heq | hin
    · rw [heq]
      simp
    · exact List.mem_cons_of_mem _ (List.mem_append_left _ hin)
  · rw [hmh]
    refine freed_tiles hr.proper (hmh ▸ hm.left) (hmh ▸ hm.used) fun x hown => ?_
    rw [← hmh, hpnew, List.mem_append, List.mem_cons]
    constructor
    · rintro (hx | hx | hx)
      · exact .inl hx
      · rw [hx] at hown
        exact absurd rfl hown
      · exact .inr hx
    · rintro (hx | hx)
      · exact .inl hx
      · exact .inr (.inr hx)
  · intro a ha hnot
    have hap : a ≠ p := by
      rintro rfl
      refine hnot ?_
      rw [hfrees]
      rcases List.mem_cons.1 hpmem with heq | hin
      · rw [heq]
        simp
      · exact List.mem_cons_of_mem _ (List.mem_append_left _ hin)
    rw [setNext_mem hap, hm.mem a ha]

/-! ## The whole of `free` -/

theorem link_released {n : Nat} {rest : List Tile} (hr : Right h base (below ++ t :: behind)) (ht : t.owner ≠ .free)
    (hm : Merged h (h.forward (base + width below) (last mroot (frees base below))) (base + width below) t.size behind n
      rest) :
    ∃ us, Released h (h.link (base + width below) (last mroot (frees base below))) base (base + width below) t.size
      (below ++ t :: behind) us := by
  by_cases hjoin : ∃ us f, below = us ++ [f] ∧ f.owner = .free
  · obtain ⟨us, f, rfl, hf⟩ := hjoin
    exact ⟨_, joined_released hr ht hf hm⟩
  · exact ⟨_, alone_released hr ht hjoin hm⟩

theorem free_right {ts : List Tile} (hr : Right h base ts) {mh : Nat} {t : Tile} (hin : (mh, t) ∈ placed base ts)
    (ht : t.owner ≠ .free) :
    ∃ k us, (∀ fuel, (frees base ts).length + 2 < fuel → h.free fuel mh = some k) ∧
      Released h k base mh t.size ts us := by
  obtain ⟨below, behind, rfl, hmh⟩ := placed_split hin
  simp only at hmh
  obtain ⟨n, rest, hm⟩ := forward_merged hr ht
  obtain ⟨us, hreleased⟩ := link_released hr ht hm
  rw [← hmh] at hreleased
  refine ⟨_, us, fun fuel hfuel => ?_, hreleased⟩
  have hfrees : frees base (below ++ t :: behind) = frees base below ++ frees (mh + t.size) behind := by
    rw [frees_append, frees, if_neg ht, hmh]
  have hring := hr.ring
  have hsorted := ring_sorted hr.base_pos hr.proper
  have hx := hr.freeptr
  have htpos := hr.proper t (by simp)
  rw [hfrees] at hring hsorted hx
  have hbelow : ∀ p ∈ frees base below, p < mh := by
    intro p hp
    obtain ⟨u, hu, -⟩ := mem_frees.1 hp
    obtain ⟨-, hend, hmem⟩ := placed_bounds hu
    have := hr.proper u (by simp [hmem])
    simp only at hend
    omega
  have hlow : mroot < mh := by
    have := hr.base_pos
    simp only [mroot]
    omega
  have habove : ∀ p ∈ frees (mh + t.size) behind, mh < p := by
    intro p hp
    have := (frees_bounds hp).1
    omega
  rw [hfrees, List.length_append] at hfuel
  rw [Heap.free, before_found hring hsorted hbelow hlow habove hx hfuel]
  rfl

end Fuzemsys.Libs.Malloc
