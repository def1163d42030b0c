import Fuzemsys.Libs.MallocSearch

/-!
# The allocator over whole runs

The blocks handed out and the free ones are all of memory, and what is in a block stays there until it is freed.
-/

namespace Fuzemsys.Libs.Malloc

open Fuzemsys.Lib.Ring

variable {h k : Heap} {base : Nat} {ts us : List Tile} {tg : Target}

/-! ## What is in the blocks -/

/-- What is in the tiles that were used and are used stays. -/
def Kept (h k : Heap) (base : Nat) (ts us : List Tile) : Prop :=
  ∀ x ∈ placed base ts, x ∈ placed base us → x.2.owner ≠ .free → ∀ a, x.1 < a → a < x.1 + x.2.size →
    k.mem a = h.mem a

theorem inside_not_free (hr : Right h base ts) {x : Nat × Tile} (hx : x ∈ placed base ts) {a : Nat} (hlow : x.1 < a)
    (hhigh : a < x.1 + x.2.size) : a ∉ mroot :: frees base ts := by
  intro hmem
  rcases List.mem_cons.1 hmem with heq | hmem
  · simp only [mroot] at heq
    omega
  · obtain ⟨t, ht, -⟩ := mem_frees.1 hmem
    exact inside_no_start hr.proper hx ht hlow hhigh rfl

theorem free_kept (hr : Right h base ts) {mh : Nat} {t : Tile} (hin : (mh, t) ∈ placed base ts)
    (hframe : ∀ a, a ≠ mh → a ∉ mroot :: frees base ts → k.mem a = h.mem a) : Kept h k base ts us :=
  fun _ hx _ _ a hlow hhigh =>
    hframe a (inside_no_start hr.proper hx hin hlow hhigh) (inside_not_free hr hx hlow hhigh)

theorem hand_kept (hr : Right h base ts) (hk : Right k base us) {q : Nat} {t : Tile} (hq : (q, t) ∈ placed base us)
    (hframe : ∀ a, a ≠ q → a ∉ mroot :: frees base ts → k.mem a = h.mem a) : Kept h k base ts us :=
  fun _ hx hx' _ a hlow hhigh =>
    hframe a (inside_no_start hk.proper hx' hq hlow hhigh) (inside_not_free hr hx hlow hhigh)

/-! ## The sizes -/

theorem rounded_eq (tg : Target) {size : Nat} (hsize : size < tg.word) (hfits : ¬Heap.rounded tg size < size) :
    Heap.rounded tg size = size + tg.memh + tg.memh - 1 := by
  have hpos := tg.memh_pos
  have htwo := tg.memh_fits
  rw [Heap.rounded] at hfits ⊢
  by_cases hlt : size + tg.memh + tg.memh - 1 < tg.word
  · exact Nat.mod_eq_of_lt hlt
  · rw [Nat.mod_eq_sub_mod (by omega), Nat.mod_eq_of_lt (by omega)] at hfits
    omega

theorem rounded_enough (tg : Target) {size : Nat} (hsize : size < tg.word) (hfits : ¬Heap.rounded tg size < size) :
    0 < Heap.rounded tg size / tg.memh ∧ size + tg.memh ≤ Heap.rounded tg size / tg.memh * tg.memh := by
  have hpos := tg.memh_pos
  have heq := rounded_eq tg hsize hfits
  have hdiv := Nat.div_add_mod (Heap.rounded tg size) tg.memh
  have hmod := Nat.mod_lt (Heap.rounded tg size) hpos
  rw [Nat.mul_comm] at hdiv
  refine ⟨?_, by omega⟩
  rw [Nat.div_pos_iff]
  omega

/-! ## The whole of `malloc` -/

/-- The request does not fit into a `size_t`, or memory cannot grow by as much. -/
def Refused (tg : Target) (brk size : Nat) (agrees : Bool) : Prop :=
  tg.word ≤ size + tg.memh + tg.memh - 1 ∨
    tg.word ≤ tg.memh * brk + tg.memh * Heap.more tg (Heap.rounded tg size / tg.memh) ∨ agrees = false

theorem malloc_right (hr : Right h base ts) {size : Nat} (hsize : size < tg.word) (agrees : Bool) :
    ∃ least k r, (∀ fuel, least ≤ fuel → h.malloc tg fuel agrees size = some (k, r)) ∧
      ((r = none ∧ k = h ∧ Refused tg h.brk size agrees) ∨
        ∃ q n us, r = some q ∧ Right k base us ∧ (q, (⟨n, .used size⟩ : Tile)) ∈ placed base us ∧
          Handed q n size base ts us ∧ Fresh q base ts ∧ Kept h k base ts us ∧ size + tg.memh ≤ n * tg.memh) := by
  by_cases hover : Heap.rounded tg size < size
  · refine ⟨0, h, none, fun fuel _ => by rw [Heap.malloc, if_pos hover], .inl ⟨rfl, rfl, .inl ?_⟩⟩
    by_contra hlt
    rw [Heap.rounded, Nat.mod_eq_of_lt (by omega)] at hover
    have := tg.memh_pos
    omega
  obtain ⟨hn, henough⟩ := rounded_enough tg hsize hover
  obtain ⟨n, hneq⟩ : ∃ n, n = Heap.rounded tg size / tg.memh := ⟨_, rfl⟩
  have hmalloc : ∀ fuel, h.malloc tg fuel agrees size =
      Heap.search tg agrees n fuel h h.freeptr (h.next h.freeptr) := by
    intro fuel
    rw [Heap.malloc, if_neg hover, hneq]
  rw [← hneq] at hn henough
  rcases search_right tg agrees hr hn size with ⟨q, k, us, hsearch, hk, hq, hhanded, hfresh, hframe⟩ |
    ⟨-, hsearch⟩
  · exact ⟨(frees base ts).length + 1, k, some q, fun fuel hfuel => by rw [hmalloc, hsearch fuel hfuel],
      .inr ⟨q, n, us, rfl, hk, hq, hhanded, hfresh, hand_kept hr hk hq hframe, henough⟩⟩
  by_cases hrefused : (tg.memh * h.brk + tg.memh * Heap.more tg n) % tg.word < tg.memh * h.brk ∨ agrees = false
  · refine ⟨(frees base ts).length + 1, h, none, fun fuel hfuel => ?_, .inl ⟨rfl, rfl, ?_⟩⟩
    · rw [hmalloc, hsearch fuel hfuel, afterOrbit, Heap.brkmore, if_pos hrefused]
    · rcases hrefused with hwrap | hno
      · refine .inr (.inl ?_)
        rw [← hneq]
        by_contra hlt
        rw [Nat.mod_eq_of_lt (by omega)] at hwrap
        omega
      · exact .inr (.inr hno)
  -- The new block is freed, and so there is a hole that is large enough.
  have hmore : 0 < Heap.more tg n := Nat.lt_of_lt_of_le hn (Nat.le_max_left _ _)
  have hext := extended_right hr hmore
  have hnew : (h.brk, (⟨Heap.more tg n, .used 0⟩ : Tile)) ∈
      placed base (ts ++ [⟨Heap.more tg n, .used 0⟩]) := by
    rw [← hr.brk]
    exact placed_mem base ts [] _
  obtain ⟨k₁, us₁, hfree, hk₁, hfreed, ⟨z, hz, hzfree, hzsize⟩, hframe₁⟩ := free_right hext hnew (by simp)
  have hbig : n ≤ z.2.size := Nat.le_trans (Nat.le_max_left _ _) hzsize
  rcases search_right tg agrees hk₁ hn size with ⟨q, k, us, hsearch₁, hk, hq, hhanded, hfresh, hframe⟩ | ⟨hsmall₁, -⟩
  · have hold : ∀ x : Nat × Tile, x.2.owner ≠ .free → (x ∈ placed base us₁ ↔ x ∈ placed base ts) := by
      intro x hown
      rw [hfreed x hown, placed_append, List.mem_append]
      constructor
      · rintro ⟨hx | hx, hne⟩
        · exact hx
        · rw [placed, placed, List.mem_singleton, hr.brk] at hx
          rw [hx] at hne
          exact absurd rfl hne
      · intro hx
        obtain ⟨-, hend, hin⟩ := placed_bounds hx
        have := hr.proper x.2 hin
        have := hr.brk
        exact ⟨.inl hx, by omega⟩
    refine ⟨2 * (frees base ts).length + (frees base us₁).length + 6, k, some q, fun fuel hfuel => ?_,
      .inr ⟨q, n, us, rfl, hk, hq, ?_, fun x hx hown => hfresh x ((hold x hown).2 hx) hown, ?_, henough⟩⟩
    · have hfrees : frees base (ts ++ [⟨Heap.more tg n, .used 0⟩]) = frees base ts := by
        rw [frees_append, frees, if_neg (by simp), frees, List.append_nil]
      rw [hfrees] at hfree
      rw [hmalloc, hsearch fuel (by omega), afterOrbit, Heap.brkmore, if_neg hrefused, hfree _ (by omega)]
      exact hsearch₁ _ (by omega)
    · intro x hown
      rw [hhanded x hown, hold x hown]
    · intro x hx hx' hown a hlow hhigh
      have hx₁ := (hold x hown).2 hx
      rw [hand_kept hk₁ hk hq hframe x hx₁ hx' hown a hlow hhigh]
      have hxe : x ∈ placed base (ts ++ [⟨Heap.more tg n, .used 0⟩]) := by
        rw [placed_append]
        exact List.mem_append_left _ hx
      rw [free_kept hext hnew hframe₁ x hxe hx₁ hown a hlow hhigh]
      obtain ⟨-, hend, -⟩ := placed_bounds hx
      have := hr.brk
      exact setSize_mem (by omega)
  · have := hsmall₁ z hz hzfree
    omega

/-! ## Runs -/

/-- The live blocks are the used tiles, and each has the bytes that it was asked for. -/
structure Live (tg : Target) (base : Nat) (x : Session) (ts : List Tile) : Prop where
  right : Right x.heap base ts
  live : ∀ p b, (p, b) ∈ x.live ↔ ∃ n, (p, (⟨n, .used b⟩ : Tile)) ∈ placed base ts
  enough : ∀ p n b, (p, (⟨n, .used b⟩ : Tile)) ∈ placed base ts → b + tg.memh ≤ n * tg.memh

theorem start_live (tg : Target) (hbase : 0 < base) (mem : Nat → Memh) : Live tg base (.start base mem) [] where
  right := ⟨hbase, by simp [Proper], by simp [width, Session.start], by simp [Session.start, Heap.size, mroot],
    by simp [placed], ⟨rfl, trivial⟩, List.isChain_nil, by simp [Session.start]⟩
  live := by simp [Session.start, placed]
  enough := by simp [placed]

variable {x : Session}

theorem owner_used {t : Tile} (ht : t.owner ≠ .free) : ∃ b, t = ⟨t.size, .used b⟩ := by
  obtain ⟨n, owner⟩ := t
  cases owner with
  | free => exact absurd rfl ht
  | used b => exact ⟨b, rfl⟩

/-- What a call gives back, and what it leaves of the blocks that are live before and after it. -/
structure Outcome (tg : Target) (x : Session) (c : Call) (y : Session) (r : Option Nat) : Prop where
  kept : (∀ a v, c ≠ .store a v) → ∀ b ∈ x.live, b ∈ y.live →
    y.heap.size b.1 = x.heap.size b.1 ∧ ∀ a, b.1 < a → a < b.1 + x.heap.size b.1 → y.heap.mem a = x.heap.mem a
  null : ∀ size agrees, c = .malloc size agrees → r = none → y = x ∧ Refused tg x.heap.brk size agrees
  block : ∀ size agrees q, c = .malloc size agrees → r = some q → y.live = (q, size) :: x.live ∧
    ∀ b ∈ x.live, b.1 ≠ q

theorem tile_size (hl : Live tg base x ts) {b : Nat × Nat} (hb : b ∈ x.live) :
    (b.1, (⟨x.heap.size b.1, .used b.2⟩ : Tile)) ∈ placed base ts := by
  obtain ⟨n, hn⟩ := (hl.live b.1 b.2).1 hb
  have hsize := hl.right.sized _ hn
  simp only at hsize
  rwa [hsize]

theorem kept_blocks {y : Session} (hl : Live tg base x ts) (hl' : Live tg base y us)
    (hkept : Kept x.heap y.heap base ts us)
    (hsame : ∀ b ∈ x.live, b ∈ y.live → (b.1, (⟨x.heap.size b.1, .used b.2⟩ : Tile)) ∈ placed base us) :
    ∀ b ∈ x.live, b ∈ y.live → y.heap.size b.1 = x.heap.size b.1 ∧
      ∀ a, b.1 < a → a < b.1 + x.heap.size b.1 → y.heap.mem a = x.heap.mem a := by
  intro b hb hb'
  have hin := hsame b hb hb'
  exact ⟨hl'.right.sized _ hin, hkept _ (tile_size hl hb) hin (by simp)⟩

theorem malloc_live (hl : Live tg base x ts) {size : Nat} {agrees : Bool} (hsize : size < tg.word) :
    ∃ y r us, x.Returns tg (.malloc size agrees) y r ∧ Live tg base y us ∧
      Outcome tg x (.malloc size agrees) y r := by
  obtain ⟨least, k, r, hmalloc, ⟨rfl, rfl, hrefused⟩ | ⟨q, n, us, rfl, hk, hq, hhanded, hfresh, hkept, henough⟩⟩ :=
    malloc_right hl.right hsize agrees
  · refine ⟨x, none, ts, ⟨least, fun fuel hfuel => ?_⟩, hl, ?_⟩
    · rw [Session.call, hmalloc fuel hfuel]
      rfl
    · exact ⟨fun _ b _ _ => ⟨rfl, fun _ _ _ => rfl⟩, fun _ _ hc _ => by cases hc; exact ⟨rfl, hrefused⟩,
        fun _ _ _ _ hr => by cases hr⟩
  · have hnew : ∀ b ∈ x.live, b.1 ≠ q := fun b hb => hfresh _ (tile_size hl hb) (by simp)
    have hl' : Live tg base ⟨k, (q, size) :: x.live⟩ us := by
      refine ⟨hk, fun p b => ?_, fun p m b hin => ?_⟩
      · rw [List.mem_cons, hl.live]
        constructor
        · rintro (heq | ⟨m, hm⟩)
          · cases heq
            exact ⟨n, hq⟩
          · exact ⟨m, (hhanded _ (by simp)).2 (.inl hm)⟩
        · rintro ⟨m, hm⟩
          rcases (hhanded _ (by simp)).1 hm with hm | hm
          · exact .inr ⟨m, hm⟩
          · cases hm
            exact .inl rfl
      · rcases (hhanded _ (by simp)).1 hin with hin | hin
        · exact hl.enough p m b hin
        · cases hin
          exact henough
    refine ⟨⟨k, (q, size) :: x.live⟩, some q, us, ⟨least, fun fuel hfuel => ?_⟩, hl', ?_⟩
    · rw [Session.call, hmalloc fuel hfuel]
      rfl
    · refine ⟨fun _ => kept_blocks hl hl' hkept fun b hb _ => (hhanded _ (by simp)).2 (.inl (tile_size hl hb)),
        fun _ _ _ hr => (by cases hr), fun _ _ _ hc hr => ?_⟩
      cases hc
      cases hr
      exact ⟨rfl, hnew⟩

theorem free_live (hl : Live tg base x ts) {p : Nat} (hp : ∃ b ∈ x.live, b.1 = p) :
    ∃ y r us, x.Returns tg (.free p) y r ∧ Live tg base y us ∧ Outcome tg x (.free p) y r := by
  obtain ⟨b, hb, rfl⟩ := hp
  have hin := tile_size hl hb
  obtain ⟨k, us, hfree, hk, hfreed, -, hframe⟩ := free_right hl.right hin (by simp)
  have hl' : Live tg base ⟨k, x.live.filter (·.1 ≠ b.1)⟩ us := by
    refine ⟨hk, fun q c => ?_, fun q m c hq => ?_⟩
    · simp only [List.mem_filter, decide_eq_true_eq, hl.live]
      constructor
      · rintro ⟨⟨n, hn⟩, hne⟩
        exact ⟨n, (hfreed _ (by simp)).2 ⟨hn, hne⟩⟩
      · rintro ⟨n, hn⟩
        obtain ⟨hn, hne⟩ := (hfreed _ (by simp)).1 hn
        exact ⟨⟨n, hn⟩, hne⟩
    · exact hl.enough q m c ((hfreed _ (by simp)).1 hq).1
  refine ⟨_, none, us, ⟨(frees base ts).length + 3, fun fuel hfuel => ?_⟩, hl', ?_⟩
  · rw [Session.call, hfree fuel (by omega)]
    rfl
  · refine ⟨fun _ => kept_blocks hl hl' (free_kept hl.right hin hframe) fun c hc hc' => ?_, fun _ _ hc => (by cases hc),
      fun _ _ _ hc => (by cases hc)⟩
    refine (hfreed _ (by simp)).2 ⟨tile_size hl hc, ?_⟩
    simpa using (List.mem_filter.1 hc').2

/-- The headers and the links are not inside the blocks. -/
theorem store_live (hl : Live tg base x ts) {a : Nat} {v : Memh}
    (ha : ∃ b ∈ x.live, b.1 < a ∧ a < b.1 + x.heap.size b.1) :
    ∃ y r us, x.Returns tg (.store a v) y r ∧ Live tg base y us ∧ Outcome tg x (.store a v) y r := by
  obtain ⟨b, hb, hlow, hhigh⟩ := ha
  have hin := tile_size hl hb
  have hr := hl.right
  have hnot := inside_not_free hr hin hlow hhigh
  obtain ⟨k, hk⟩ : ∃ k : Heap, k = { x.heap with mem := fun c => if c = a then v else x.heap.mem c } := ⟨_, rfl⟩
  have hmem : ∀ c, c ≠ a → k.mem c = x.heap.mem c := fun c hc => by rw [hk]; exact if_neg hc
  have hring : ∀ z ∈ mroot :: frees base ts, k.next z = x.heap.next z := fun z hz =>
    mem_next (hmem z (fun heq => hnot (heq ▸ hz)))
  have hright : Right k base ts := by
    refine ⟨hr.base_pos, hr.proper, ?_, ?_, fun y hy => ?_, path_congr (fun z hz => hring z ?_) hr.ring, hr.apart, ?_⟩
    · rw [hk]
      exact hr.brk
    · rw [mem_size (hmem mroot (fun heq => hnot (by rw [← heq]; simp)))]
      exact hr.root
    · rw [mem_size (hmem y.1 (inside_no_start hr.proper hin hy hlow hhigh).symm)]
      exact hr.sized y hy
    · rwa [← List.cons_append, List.dropLast_concat] at hz
    · rw [hk]
      exact hr.freeptr
  exact ⟨⟨k, x.live⟩, none, ts, ⟨0, fun fuel _ => by rw [Session.call, hk]⟩, ⟨hright, hl.live, hl.enough⟩,
    fun hne => absurd rfl (hne a v), fun _ _ hc => (by cases hc), fun _ _ _ hc => (by cases hc)⟩

/-- Every call that is allowed returns, and leaves the blocks as they should be. -/
theorem call_live (hl : Live tg base x ts) {c : Call} (hpermits : x.Permits tg c) :
    ∃ y r us, x.Returns tg c y r ∧ Live tg base y us ∧ Outcome tg x c y r := by
  cases c with
  | malloc size agrees => exact malloc_live hl hpermits
  | free p => exact free_live hl hpermits
  | store a v => exact store_live hl hpermits

theorem returns_unique {c : Call} {y z : Session} {r q : Option Nat} (hy : x.Returns tg c y r)
    (hz : x.Returns tg c z q) : y = z ∧ r = q := by
  obtain ⟨m, hm⟩ := hy
  obtain ⟨n, hn⟩ := hz
  have := (hm (max m n) (Nat.le_max_left _ _)).symm.trans (hn (max m n) (Nat.le_max_right _ _))
  cases this
  exact ⟨rfl, rfl⟩

theorem run_live {mem : Nat → Memh} (hbase : 0 < base) (hrun : Run tg base mem x) : ∃ ts, Live tg base x ts := by
  induction hrun with
  | start => exact ⟨[], start_live tg hbase mem⟩
  | step _ hpermits hreturns ih =>
    obtain ⟨ts, hl⟩ := ih
    obtain ⟨y, r, us, hy, hl', -⟩ := call_live hl hpermits
    obtain ⟨rfl, -⟩ := returns_unique hreturns hy
    exact ⟨us, hl'⟩

/-! ## What holds of the blocks -/

/-- The free list goes round in the order of the addresses, with gaps between its blocks, and it and the live blocks
are all of memory. -/
structure Sound (tg : Target) (base : Nat) (x : Session) (ring : List Nat) : Prop where
  inside : ∀ b ∈ x.live, base ≤ b.1 ∧ b.1 + x.heap.size b.1 ≤ x.heap.brk
  enough : ∀ b ∈ x.live, b.2 + tg.memh ≤ x.heap.size b.1 * tg.memh
  disjoint : ∀ b ∈ x.live, ∀ c ∈ x.live, b = c ∨ b.1 + x.heap.size b.1 ≤ c.1 ∨ c.1 + x.heap.size c.1 ≤ b.1
  circular : Path x.heap.next mroot (ring ++ [mroot])
  freeptr : x.heap.freeptr ∈ mroot :: ring
  ordered : ring.Pairwise fun p q => p + x.heap.size p < q
  free_inside : ∀ p ∈ ring, base ≤ p ∧ p + x.heap.size p ≤ x.heap.brk
  apart : ∀ p ∈ ring, ∀ b ∈ x.live, p + x.heap.size p ≤ b.1 ∨ b.1 + x.heap.size b.1 ≤ p
  covers : ∀ a, base ≤ a → a < x.heap.brk →
    (∃ p ∈ ring, p ≤ a ∧ a < p + x.heap.size p) ∨ ∃ b ∈ x.live, b.1 ≤ a ∧ a < b.1 + x.heap.size b.1

theorem frees_gap {a : Nat} {size : Nat → Nat} (hproper : Proper ts) (hapart : ts.IsChain Apart)
    (hsize : ∀ x ∈ placed a ts, size x.1 = x.2.size) : (frees a ts).Pairwise fun p q => p + size p < q := by
  induction ts generalizing a with
  | nil => simp [frees]
  | cons t ts ih =>
    have hrest := ih (a := a + t.size) (fun u hu => hproper u (by simp [hu])) hapart.tail
      (fun x hx => hsize x (List.mem_cons_of_mem _ hx))
    rw [frees]
    split
    · rename_i hfree
      refine List.pairwise_cons.2 ⟨fun q hq => ?_, hrest⟩
      have hhead : ∀ u ∈ ts.head?, u.owner ≠ .free := fun u hu hown =>
        (List.isChain_cons.1 hapart).1 u hu ⟨hfree, hown⟩
      have := frees_above (fun u hu => hproper u (by simp [hu])) hhead q hq
      have hat := hsize (a, t) (by simp [placed])
      simp only at hat
      omega
    · exact hrest

theorem live_sound (hl : Live tg base x ts) : Sound tg base x (frees base ts) := by
  have hr := hl.right
  have hbrk := hr.brk
  have htile : ∀ p ∈ frees base ts, ∃ t, (p, t) ∈ placed base ts ∧ t.owner = .free ∧ x.heap.size p = t.size := by
    intro p hp
    obtain ⟨t, ht, hown⟩ := mem_frees.1 hp
    exact ⟨t, ht, hown, hr.sized _ ht⟩
  refine ⟨fun b hb => ?_, fun b hb => ?_, fun b hb c hc => ?_, hr.ring, hr.freeptr,
    frees_gap hr.proper hr.apart hr.sized, fun p hp => ?_, fun p hp b hb => ?_, fun a hlow hhigh => ?_⟩
  · have := placed_bounds (tile_size hl hb)
    simp only at this
    omega
  · exact hl.enough _ _ _ (tile_size hl hb)
  · refine (placed_disjoint hr.proper (tile_size hl hb) (tile_size hl hc)).imp (fun heq => ?_) id
    obtain ⟨p, m⟩ := b
    obtain ⟨q, n⟩ := c
    simp only [Prod.mk.injEq, Tile.mk.injEq, Owner.used.injEq] at heq
    rw [heq.1, heq.2.2]
  · obtain ⟨t, ht, -, hsize⟩ := htile p hp
    have := placed_bounds ht
    simp only at this
    omega
  · obtain ⟨t, ht, hown, hsize⟩ := htile p hp
    rw [hsize]
    refine (placed_disjoint hr.proper ht (tile_size hl hb)).resolve_left fun heq => ?_
    simp only [Prod.mk.injEq] at heq
    rw [heq.2] at hown
    cases hown
  · obtain ⟨y, hy, hle, hlt⟩ := placed_covers (hlow : base ≤ a) (by rw [hbrk]; exact hhigh)
    have hsize := hr.sized y hy
    by_cases hown : y.2.owner = .free
    · exact .inl ⟨y.1, mem_frees.2 ⟨y.2, hy, hown⟩, hle, hsize ▸ hlt⟩
    · obtain ⟨b, hb⟩ := owner_used hown
      refine .inr ⟨(y.1, b), (hl.live _ _).2 ⟨y.2.size, ?_⟩, hle, hsize ▸ hlt⟩
      rw [← hb]
      exact hy

/-- In every run, the blocks are sound, and every call that is allowed returns as it should. -/
theorem heap_sound {mem : Nat → Memh} (hbase : 0 < base) (hrun : Run tg base mem x) :
    (∃ ring, Sound tg base x ring) ∧
      ∀ c, x.Permits tg c → ∃ y r, x.Returns tg c y r ∧ Outcome tg x c y r := by
  obtain ⟨ts, hl⟩ := run_live hbase hrun
  refine ⟨⟨_, live_sound hl⟩, fun c hc => ?_⟩
  obtain ⟨y, r, us, hreturns, -, houtcome⟩ := call_live hl hc
  exact ⟨y, r, hreturns, houtcome⟩

/-- A header of four bytes, and a `size_t` of sixteen bits. -/
def z80 : Target := ⟨4, 65536, by decide, by decide⟩

theorem first_malloc_sound :
    ∃ y r, (Session.start 16 fun _ => ⟨0, 0⟩).Returns z80 (.malloc 10 true) y r ∧
      Outcome z80 (.start 16 fun _ => ⟨0, 0⟩) (.malloc 10 true) y r :=
  (heap_sound (by decide) (@Run.start z80 16 fun _ => ⟨0, 0⟩)).2 _ (by simp [Session.Permits, z80])

end Fuzemsys.Libs.Malloc
