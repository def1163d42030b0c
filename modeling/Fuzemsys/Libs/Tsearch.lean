import Mathlib.Algebra.Order.Group.Int
import Mathlib.Data.List.Pairwise
import Mathlib.Data.List.Perm.Basic

/-!
# Search trees

`tsearch`, `tfind`, `tdelete` and `twalk`. A node is known by its address. The comparison is that of the caller, and `malloc` may
fail.
-/

namespace Fuzemsys.Libs.Tsearch

/-- What `compar` answers: its sign tells the order. -/
abbrev Compar (K : Type) := K → K → Int

inductive Node (K : Type) where
  | NULL
  | node (address : Nat) (key : K) (left right : Node K)
  deriving Repr

inductive Visit where
  | preorder
  | postorder
  | endorder
  | leaf
  deriving DecidableEq, Repr

section
variable {K : Type} (compar : Compar K) (key : K)

/-- `q` is what `malloc` returns if it is asked. The address of the node comes back. -/
def tsearch (q : Option Nat) : Node K → Node K × Option Nat
  | .NULL =>
    match q with
    | some q => (.node q key .NULL .NULL, some q)
    | none => (.NULL, none)
  | .node a k l r =>
    if compar key k = 0 then (.node a k l r, some a)
    else if compar key k < 0 then
      let (l, p) := tsearch q l
      (.node a k l r, p)
    else
      let (r, p) := tsearch q r
      (.node a k l r, p)

def tfind : Node K → Option Nat
  | .NULL => none
  | .node a k l r =>
    if compar key k = 0 then some a
    else if compar key k < 0 then tfind l
    else tfind r

/-- The node at the end of the left links, and what is left without it. -/
def leftmost (a : Nat) (k : K) (r : Node K) : Node K → (Nat × K) × Node K
  | .NULL => ((a, k), r)
  | .node a' k' l' r' =>
    let (q, l) := leftmost a' k' r' l'
    (q, .node a k l r)

/-- What the parent of the deleted node is linked to. -/
def successor (q : Node K) : Node K → Node K
  | .NULL => q
  | .node a k .NULL r =>
    match q with
    | .NULL => .node a k .NULL r
    | q => .node a k q r
  | .node a k (.node a' k' l' r') r =>
    match q with
    | .NULL => .node a k (.node a' k' l' r') r
    | q =>
      let ((b, m), l) := leftmost a' k' r' l'
      .node b m q (.node a k l r)

/-- `p` is the node above, and comes back unless the key is missing. -/
def unlinkNode (p : Nat) : Node K → Option (Node K × Nat)
  | .NULL => none
  | .node a k l r =>
    if compar key k = 0 then some (successor l r, p)
    else if compar key k < 0 then (unlinkNode a l).map fun (l, p) => (.node a k l r, p)
    else (unlinkNode a r).map fun (r, p) => (.node a k l r, p)

def tdelete : Node K → Node K × Option Nat
  | .NULL => (.NULL, none)
  | .node a k l r =>
    match unlinkNode compar key a (.node a k l r) with
    | some (root, p) => (root, some p)
    | none => (.node a k l r, none)

end

section
variable {K : Type}

/-- The calls of `action`. -/
def trecurse (level : Nat) : Node K → List (Nat × Visit × Nat)
  | .NULL => []
  | .node a _ .NULL .NULL => [(a, .leaf, level)]
  | .node a _ l r =>
    (a, .preorder, level) :: trecurse (level + 1) l ++ (a, .postorder, level) :: trecurse (level + 1) r ++
      [(a, .endorder, level)]

def twalk : Node K → List (Nat × Visit × Nat) := trecurse 0

/-! ## What a tree holds -/

/-- From left to right. -/
def entries : Node K → List (Nat × K)
  | .NULL => []
  | .node a k l r => entries l ++ (a, k) :: entries r

end

/-- The answers of `compar` are those of an order. -/
structure Compares {K : Type} (compar : Compar K) : Prop where
  swap (x y : K) : compar x y < 0 ↔ 0 < compar y x
  trans (x y z : K) (h : compar x y ≤ 0) (h' : compar y z ≤ 0) : compar x z ≤ 0

/-- Every entry comes before what is to the right of it. -/
def Ordered {K : Type} (compar : Compar K) (es : List (Nat × K)) : Prop :=
  es.Pairwise fun x y => compar x.2 y.2 < 0

inductive Call (K : Type) where
  | tsearch (key : K) (q : Option Nat)
  | tfind (key : K)
  | tdelete (key : K)

def call {K : Type} (compar : Compar K) (root : Node K) : Call K → Node K × Option Nat
  | .tsearch key q => tsearch compar key q root
  | .tfind key => (root, tfind compar key root)
  | .tdelete key => tdelete compar key root

def run {K : Type} (compar : Compar K) (calls : List (Call K)) : Node K :=
  calls.foldl (fun root c => (call compar root c).1) .NULL

/-- What the entries are before and after a call, and what it returns. A node that stays keeps its address and its
key. -/
def CallRight {K : Type} (compar : Compar K) (before after : List (Nat × K)) (p : Option Nat) : Call K → Prop
  | .tsearch key q =>
    ((∃ e ∈ before, compar key e.2 = 0) → after = before ∧ ∃ e ∈ before, compar key e.2 = 0 ∧ p = some e.1) ∧
      ((∀ e ∈ before, compar key e.2 ≠ 0) → p = q ∧ after.Perm ((q.map fun q => (q, key)).toList ++ before))
  | .tfind key =>
    after = before ∧ ((∃ e ∈ before, compar key e.2 = 0) → ∃ e ∈ before, compar key e.2 = 0 ∧ p = some e.1) ∧
      ((∀ e ∈ before, compar key e.2 ≠ 0) → p = none)
  | .tdelete key =>
    after = before.filter (fun e => decide (compar key e.2 ≠ 0)) ∧ (p.isSome ↔ ∃ e ∈ before, compar key e.2 = 0)

/-! ## Order -/

section
variable {K : Type} {compar : Compar K} (hc : Compares compar) {x y z : K}
include hc

theorem Compares.zero (h : compar x y = 0) : compar y x = 0 := by
  have hxy := hc.swap x y
  have hyx := hc.swap y x
  omega

theorem Compares.not_lt (h : 0 ≤ compar x y) : compar y x ≤ 0 := by
  have hxy := hc.swap x y
  omega

theorem Compares.le_lt (h : compar x y ≤ 0) (h' : compar y z < 0) : compar x z < 0 := by
  by_contra hxz
  have hzx := hc.not_lt (Int.not_lt.mp hxz)
  have hzy := hc.trans z x y hzx h
  have hyz := (hc.swap y z).mp h'
  omega

theorem Compares.lt_le (h : compar x y < 0) (h' : compar y z ≤ 0) : compar x z < 0 := by
  by_contra hxz
  have hzx := hc.not_lt (Int.not_lt.mp hxz)
  have hyx := hc.trans y z x h' hzx
  have hxy := (hc.swap x y).mp h
  omega

/-- A node has smaller keys on its left and larger ones on its right. -/
theorem ordered_node {a : Nat} {k : K} {l r : Node K} : Ordered compar (entries (.node a k l r)) ↔
    Ordered compar (entries l) ∧ Ordered compar (entries r) ∧ (∀ e ∈ entries l, compar e.2 k < 0) ∧
      ∀ e ∈ entries r, compar k e.2 < 0 := by
  unfold Ordered
  rw [entries, List.pairwise_append, List.pairwise_cons]
  constructor
  · rintro ⟨hl, ⟨hkr, hr⟩, hlr⟩
    exact ⟨hl, hr, fun e he => hlr e he _ List.mem_cons_self, hkr⟩
  · rintro ⟨hl, hr, hlk, hkr⟩
    refine ⟨hl, ⟨hkr, hr⟩, fun e he e' he' => ?_⟩
    cases he' with
    | head => exact hlk e he
    | tail _ he' => exact hc.lt_le (hlk e he) (le_of_lt (hkr e' he'))

/-- Where a key is not. -/
theorem not_right {key k : K} {es : List (Nat × K)} (h : compar key k ≤ 0) (hes : ∀ e ∈ es, compar k e.2 < 0) :
    ∀ e ∈ es, compar key e.2 ≠ 0 := fun e he => ne_of_lt (hc.le_lt h (hes e he))

theorem not_left {key k : K} {es : List (Nat × K)} (h : 0 ≤ compar key k) (hes : ∀ e ∈ es, compar e.2 k < 0) :
    ∀ e ∈ es, compar key e.2 ≠ 0 := by
  intro e he hzero
  have hlt := hc.lt_le (hes e he) (hc.not_lt h)
  have heq := hc.zero hzero
  omega

/-- A smaller key is neither in the node nor on its right. -/
theorem not_from {key k : K} {a : Nat} {es : List (Nat × K)} (h : compar key k < 0) (hes : ∀ e ∈ es, compar k e.2 < 0) :
    ∀ e ∈ (a, k) :: es, compar key e.2 ≠ 0 := by
  intro e he
  cases he with
  | head => exact ne_of_lt h
  | tail _ he => exact not_right hc (le_of_lt h) hes e he

/-- A larger key is neither in the node nor on its left. -/
theorem not_upto {key k : K} {a : Nat} {es : List (Nat × K)} (h : 0 < compar key k) (hes : ∀ e ∈ es, compar e.2 k < 0) :
    ∀ e ∈ es ++ [(a, k)], compar key e.2 ≠ 0 := by
  intro e he
  rw [List.mem_append, List.mem_singleton] at he
  rcases he with he | rfl
  · exact not_left hc (le_of_lt h) hes e he
  · exact ne_of_gt h

end

/-! ## Searches -/

section
variable {K : Type} {compar : Compar K} {key : K} {q : Option Nat}

/-- An entry is not looked for where it cannot be. -/
theorem search_frame {before after l r : List (Nat × K)} {p : Option Nat} (hl : ∀ e ∈ l, compar key e.2 ≠ 0)
    (hr : ∀ e ∈ r, compar key e.2 ≠ 0) (h : CallRight compar before after p (.tsearch key q)) :
    CallRight compar (l ++ (before ++ r)) (l ++ (after ++ r)) p (.tsearch key q) := by
  obtain ⟨hfound, hmissing⟩ := h
  constructor
  · rintro ⟨e, he, hzero⟩
    rw [List.mem_append, List.mem_append] at he
    have hin : e ∈ before := by
      rcases he with he | he | he
      · exact absurd hzero (hl e he)
      · exact he
      · exact absurd hzero (hr e he)
    obtain ⟨heq, e', he', hzero', hp⟩ := hfound ⟨e, hin, hzero⟩
    exact ⟨by rw [heq], e', by simp [he'], hzero', hp⟩
  · intro hnone
    obtain ⟨hp, hperm⟩ := hmissing fun e he => hnone e (by simp [he])
    refine ⟨hp, ?_⟩
    refine ((hperm.append_right r).append_left l).trans ?_
    rw [List.append_assoc]
    exact List.perm_append_comm_assoc _ _ _

theorem search_members {before after : List (Nat × K)} {p : Option Nat}
    (h : CallRight compar before after p (.tsearch key q)) : ∀ e ∈ after, e ∈ before ∨ e.2 = key := by
  intro e he
  by_cases hsome : ∃ e ∈ before, compar key e.2 = 0
  · rw [(h.1 hsome).1] at he
    exact .inl he
  · have hperm := (h.2 fun e he hzero => hsome ⟨e, he, hzero⟩).2
    rw [hperm.mem_iff, List.mem_append] at he
    rcases he with he | he
    · cases q with
      | none => simp at he
      | some q =>
        simp at he
        exact .inr (by rw [he])
    · exact .inl he

theorem tsearch_right (hc : Compares compar) (root : Node K) (hroot : Ordered compar (entries root)) :
    Ordered compar (entries (tsearch compar key q root).1) ∧
      CallRight compar (entries root) (entries (tsearch compar key q root).1) (tsearch compar key q root).2
        (.tsearch key q) := by
  induction root with
  | NULL =>
    cases q with
    | none => simp [tsearch, entries, Ordered, CallRight]
    | some q => simp [tsearch, entries, Ordered, CallRight]
  | node a k l r hl hr =>
    obtain ⟨hol, hor, hlk, hkr⟩ := (ordered_node hc).mp hroot
    unfold tsearch
    split
    · next hzero =>
      refine ⟨hroot, fun _ => ⟨rfl, (a, k), by simp [entries], hzero, rfl⟩, fun hnone => ?_⟩
      exact absurd hzero (hnone (a, k) (by simp [entries]))
    · next hne =>
      split
      · next hlt =>
        obtain ⟨ho, hcall⟩ := hl hol
        constructor
        · refine (ordered_node hc).mpr ⟨ho, hor, fun e he => ?_, hkr⟩
          rcases search_members hcall e he with he | he
          · exact hlk e he
          · exact he ▸ hlt
        · exact search_frame (l := []) (by simp) (not_from hc hlt hkr) hcall
      · next hge =>
        obtain ⟨ho, hcall⟩ := hr hor
        have hgt : 0 < compar key k := by omega
        constructor
        · refine (ordered_node hc).mpr ⟨hol, ho, hlk, fun e he => ?_⟩
          rcases search_members hcall e he with he | he
          · exact hkr e he
          · rw [he]
            exact (hc.swap k key).mpr hgt
        · have hframe := search_frame (r := []) (not_upto hc (a := a) hgt hlk) (by simp) hcall
          simpa [entries] using hframe

/-- A search that adds nothing. -/
theorem tsearch_none (root : Node K) : tsearch compar key none root = (root, tfind compar key root) := by
  induction root with
  | NULL => rfl
  | node a k l r hl hr =>
    unfold tsearch tfind
    split_ifs
    · rfl
    · rw [hl]
    · rw [hr]

theorem tfind_right (hc : Compares compar) (root : Node K) (hroot : Ordered compar (entries root)) :
    CallRight compar (entries root) (entries root) (tfind compar key root) (.tfind key) := by
  have h : CallRight compar (entries root) (entries (tsearch compar key none root).1) (tsearch compar key none root).2
      (.tsearch key none) := (tsearch_right hc root hroot).2
  rw [tsearch_none] at h
  exact ⟨rfl, fun hsome => (h.1 hsome).2, fun hnone => (h.2 hnone).1⟩

end

/-! ## Deletions -/

section
variable {K : Type} {compar : Compar K} {key : K}

theorem leftmost_entries (a : Nat) (k : K) (r l : Node K) :
    (leftmost a k r l).1 :: entries (leftmost a k r l).2 = entries l ++ (a, k) :: entries r := by
  induction l generalizing a k r with
  | NULL => rfl
  | node a' k' l' r' hl _ =>
    have hrec := hl a' k' r'
    simp only [leftmost, entries]
    rw [← List.cons_append, hrec]

theorem successor_entries (q r : Node K) : entries (successor q r) = entries q ++ entries r := by
  cases r with
  | NULL => simp [successor, entries]
  | node a k l r =>
    cases l with
    | NULL => cases q <;> simp [successor, entries]
    | node a' k' l' r' =>
      cases q with
      | NULL => simp [successor, entries]
      | node b m ql qr =>
        have hrec := leftmost_entries a' k' r' l'
        simp only [successor, entries]
        rw [← List.cons_append, ← hrec]

/-- What the filter of a deletion leaves. -/
def Removed (compar : Compar K) (key : K) (before after : List (Nat × K)) : Prop :=
  after = before.filter (fun e => decide (compar key e.2 ≠ 0)) ∧ ∃ e ∈ before, compar key e.2 = 0

theorem filter_missing {es : List (Nat × K)} (h : ∀ e ∈ es, compar key e.2 ≠ 0) :
    es.filter (fun e => decide (compar key e.2 ≠ 0)) = es :=
  List.filter_eq_self.mpr fun e he => decide_eq_true (h e he)

/-- Nothing is deleted where the key cannot be. -/
theorem removed_frame {before after l r : List (Nat × K)} (hl : ∀ e ∈ l, compar key e.2 ≠ 0)
    (hr : ∀ e ∈ r, compar key e.2 ≠ 0) (h : Removed compar key before after) :
    Removed compar key (l ++ (before ++ r)) (l ++ (after ++ r)) := by
  obtain ⟨hafter, e, he, hzero⟩ := h
  refine ⟨?_, e, by simp [he], hzero⟩
  rw [List.filter_append, List.filter_append, filter_missing hl, filter_missing hr, hafter]

theorem missing_frame {es l r : List (Nat × K)} (hl : ∀ e ∈ l, compar key e.2 ≠ 0) (hr : ∀ e ∈ r, compar key e.2 ≠ 0)
    (h : ∀ e ∈ es, compar key e.2 ≠ 0) : ∀ e ∈ l ++ (es ++ r), compar key e.2 ≠ 0 := by
  intro e he
  rw [List.mem_append, List.mem_append] at he
  rcases he with he | he | he
  · exact hl e he
  · exact h e he
  · exact hr e he

theorem unlink_right (hc : Compares compar) (key : K) (p : Nat) (root : Node K) (hroot : Ordered compar (entries root)) :
    match unlinkNode compar key p root with
    | some (root', _) => Removed compar key (entries root) (entries root')
    | none => ∀ e ∈ entries root, compar key e.2 ≠ 0 := by
  induction root generalizing p with
  | NULL => simp [unlinkNode, entries]
  | node a k l r hl hr =>
    obtain ⟨hol, hor, hlk, hkr⟩ := (ordered_node hc).mp hroot
    unfold unlinkNode
    split_ifs with hzero hlt
    · refine ⟨?_, (a, k), by simp [entries], hzero⟩
      have hleft := not_left hc (le_of_eq hzero.symm) hlk
      have hright := not_right hc (le_of_eq hzero) hkr
      rw [successor_entries, entries, List.filter_append, filter_missing hleft,
        List.filter_cons_of_neg (by simpa using hzero), filter_missing hright]
    · have hrest := not_from hc (a := a) hlt hkr
      have hrec := hl a hol
      cases hu : unlinkNode compar key a l with
      | none =>
        rw [hu] at hrec
        exact missing_frame (l := []) (by simp) hrest hrec
      | some u =>
        rw [hu] at hrec
        exact removed_frame (l := []) (by simp) hrest hrec
    · have hrest := not_upto hc (a := a) (by omega : 0 < compar key k) hlk
      have hrec := hr a hor
      cases hu : unlinkNode compar key a r with
      | none =>
        rw [hu] at hrec
        have hframe := missing_frame (r := []) hrest (by simp) hrec
        simpa [entries] using hframe
      | some u =>
        rw [hu] at hrec
        have hframe := removed_frame (r := []) hrest (by simp) hrec
        simpa [entries] using hframe

theorem tdelete_right (hc : Compares compar) (key : K) (root : Node K) (hroot : Ordered compar (entries root)) :
    CallRight compar (entries root) (entries (tdelete compar key root).1) (tdelete compar key root).2 (.tdelete key) := by
  cases root with
  | NULL => simp [tdelete, entries, CallRight]
  | node a k l r =>
    have h := unlink_right hc key a (.node a k l r) hroot
    cases hu : unlinkNode compar key a (.node a k l r) with
    | none =>
      rw [hu] at h
      simp only [tdelete, hu]
      refine ⟨(filter_missing h).symm, ?_⟩
      simpa using fun e he hin => h (e, he) hin
    | some u =>
      rw [hu] at h
      simp only [tdelete, hu]
      exact ⟨h.1, by simpa using h.2⟩

end

/-! ## Walks -/

/-- The nodes as they come between their left and their right. -/
def inOrder {K : Type} (root : Node K) : List Nat :=
  ((twalk root).filter fun v => v.2.1 = .leaf ∨ v.2.1 = .postorder).map fun v => v.1

theorem trecurse_order {K : Type} (root : Node K) (level : Nat) :
    ((trecurse level root).filter fun v => v.2.1 = .leaf ∨ v.2.1 = .postorder).map (fun v => v.1) =
      (entries root).map fun e => e.1 := by
  induction root generalizing level with
  | NULL => rfl
  | node a k l r hl hr =>
    cases l <;> cases r <;> simp_all [trecurse, entries]

/-! ## Runs -/

section
variable {K : Type} {compar : Compar K}

theorem call_right (hc : Compares compar) (root : Node K) (hroot : Ordered compar (entries root)) (c : Call K) :
    Ordered compar (entries (call compar root c).1) ∧
      CallRight compar (entries root) (entries (call compar root c).1) (call compar root c).2 c := by
  cases c with
  | tsearch key q => exact tsearch_right hc root hroot
  | tfind key => exact ⟨hroot, tfind_right hc root hroot⟩
  | tdelete key =>
    have hdelete := tdelete_right hc key root hroot
    refine ⟨?_, hdelete⟩
    unfold call
    rw [hdelete.1]
    exact List.Pairwise.filter _ hroot

theorem run_ordered (hc : Compares compar) (calls : List (Call K)) : Ordered compar (entries (run compar calls)) := by
  have hfrom (root : Node K) (hroot : Ordered compar (entries root)) :
      Ordered compar (entries (calls.foldl (fun root c => (call compar root c).1) root)) := by
    induction calls generalizing root with
    | nil => exact hroot
    | cons c calls ih => exact ih _ (call_right hc root hroot c).1
  exact hfrom .NULL List.Pairwise.nil

/-- After every run of calls the next call finds, adds or removes exactly the key it is given, and a walk meets the
nodes in the order of their keys. -/
theorem search_tree (hc : Compares compar) (calls : List (Call K)) (c : Call K) :
    Ordered compar (entries (run compar calls)) ∧
      CallRight compar (entries (run compar calls)) (entries (run compar (calls ++ [c])))
        (call compar (run compar calls) c).2 c ∧
      inOrder (run compar calls) = (entries (run compar calls)).map fun e => e.1 := by
  have hordered := run_ordered hc calls
  refine ⟨hordered, ?_, trecurse_order _ 0⟩
  have hnext : run compar (calls ++ [c]) = (call compar (run compar calls) c).1 := by
    unfold run
    rw [List.foldl_append]
    rfl
  rw [hnext]
  exact (call_right hc _ hordered c).2

end

theorem compares_sub : Compares fun x y : Int => x - y where
  swap x y := by omega
  trans x y z h h' := by omega

def fiveCalls : List (Call Int) :=
  [.tsearch 5 (some 100), .tsearch 2 (some 200), .tsearch 8 (some 300), .tsearch 6 (some 400), .tdelete 5]

theorem five_calls :
    CallRight (fun x y => x - y) [(200, 2), (400, 6), (300, 8)]
      [(200, 2), (400, 6), (300, 8)] (some 400) (.tsearch 6 (some 500)) :=
  (search_tree compares_sub fiveCalls (.tsearch 6 (some 500))).2.1

end Fuzemsys.Libs.Tsearch
