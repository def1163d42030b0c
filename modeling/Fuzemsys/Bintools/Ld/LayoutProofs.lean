import Mathlib.Tactic.NormNum
import Fuzemsys.Bintools.Ld.LayoutFits

/-!
# The layout theorem

First what each loop of `set_segment_bases` leaves behind, then both directions.
-/

open Fuzemsys.Lib

namespace Fuzemsys.Bintools.Ld

variable {st st' : Link} {wild : Byte → Word} {code : Word}

/-! ## Sizes -/

@[simp]
theorem total_nil (i : Seg) : total [] i = 0 := rfl

@[simp]
theorem total_cons (o : Object) (os : List Object) (i : Seg) :
    total (o :: os) i = (o.oh.o_size i).toNat + total os i := by
  simp [total]

theorem sumSizes_ok {os : List Object} {size size' : Seg → Word} (hok : sumSizes os size = .ok size')
    {i : Seg} (hi : i ≠ ABSOLUTE) : (size' i).toNat = (size i).toNat + total os i := by
  induction os generalizing size with
  | nil =>
    cases hok
    simp
  | cons o os ih =>
    simp only [sumSizes] at hok
    split at hok
    · cases hok
    · next hfit =>
      have hno : ¬ size i + o.oh.o_size i < o.oh.o_size i := by
        intro hlt
        exact hfit ⟨i, hi, by simpa [hi] using hlt⟩
      have hsum := ih hok
      simp only [hi, if_false] at hsum
      rw [BitVec.lt_def, BitVec.toNat_add] at hno
      rw [hsum, total_cons, BitVec.toNat_add]
      have h1 := (size i).isLt
      have h2 := (o.oh.o_size i).isLt
      omega

/-! ## The order of the segments -/

theorem roundUp_eq (align base size : Word) :
    roundUp align base size = BitVec.ofNat 16 (alignUp align.toNat (base.toNat + size.toNat)) := rfl

/-- One base stored. -/
def Link.setBase (st : Link) (i : Seg) (b : Word) : Link :=
  { st with base := Function.update st.base i b }

/-- What appending one segment does, and what its test lets through. -/
theorem appendSegment_ok {a b : Seg} (hok : appendSegment st a b = .ok st') :
    (st.baseset a = true ∧ st' = st) ∨
      (st.baseset a = false ∧
        st' = st.setBase a (roundUp st.align (st.base b) (st.size b)) ∧
        (a ≠ b → (st.base b).toNat ≤ (roundUp st.align (st.base b) (st.size b)).toNat)) := by
  simp only [appendSegment] at hok
  split at hok
  · next hset =>
    cases hok
    exact .inl ⟨hset, rfl⟩
  · next hset =>
    split at hok
    · cases hok
    · next hlt =>
      cases hok
      refine .inr ⟨by simpa using hset, rfl, ?_⟩
      intro hab
      have hlt := BitVec.not_lt.mp hlt
      simpa only [Function.update_self, Function.update_of_ne (Ne.symm hab), BitVec.le_def] using hlt

theorem appendSegment_frame {a b : Seg} (hok : appendSegment st a b = .ok st') :
    ∃ base, st' = { st with base := base } := by
  rcases appendSegment_ok hok with ⟨_, rfl⟩ | ⟨_, rfl, _⟩
  · exact ⟨_, rfl⟩
  · exact ⟨_, rfl⟩

/-- The loop takes its letters apart one by one. -/
theorem orderSegments_cons {c : Char} {cs : List Char} {last : Option Seg}
    (hok : orderSegments (c :: cs) last st = .ok st') :
    ∃ n, segNumber c = some n ∧
      ((last = none ∧ orderSegments cs (some n) st = .ok st') ∨
        ∃ m st1, last = some m ∧ appendSegment st n m = .ok st1 ∧ orderSegments cs (some n) st1 = .ok st') := by
  simp only [orderSegments] at hok
  split at hok
  · cases hok
  · next n hn =>
    refine ⟨n, hn, ?_⟩
    split at hok
    · next m =>
      split at hok
      · cases hok
      · next st1 happ => exact .inr ⟨m, st1, rfl, happ, hok⟩
    · exact .inl ⟨rfl, hok⟩

theorem orderSegments_frame {cs : List Char} {last : Option Seg}
    (hok : orderSegments cs last st = .ok st') : ∃ base, st' = { st with base := base } := by
  induction cs generalizing st last with
  | nil =>
    cases hok
    exact ⟨_, rfl⟩
  | cons c cs ih =>
    obtain ⟨n, _, ⟨_, hrest⟩ | ⟨m, st1, _, happ, hrest⟩⟩ := orderSegments_cons hok
    · exact ih hrest
    · obtain ⟨b1, rfl⟩ := appendSegment_frame happ
      obtain ⟨b2, rfl⟩ := ih hrest
      exact ⟨b2, rfl⟩

/-- A segment that the rest of the order does not name keeps its base. -/
theorem orderSegments_base_of_not_mem {cs : List Char} {last : Option Seg}
    (hok : orderSegments cs last st = .ok st') {i : Seg} (hi : i ∉ cs.filterMap segNumber) :
    st'.base i = st.base i := by
  induction cs generalizing st last with
  | nil =>
    cases hok
    rfl
  | cons c cs ih =>
    obtain ⟨n, hn, hstep⟩ := orderSegments_cons hok
    simp only [List.filterMap_cons, hn, List.mem_cons, not_or] at hi
    obtain ⟨_, hrest⟩ | ⟨m, st1, _, happ, hrest⟩ := hstep
    · exact ih hrest hi.2
    · rw [ih hrest hi.2]
      rcases appendSegment_ok happ with ⟨_, rfl⟩ | ⟨_, rfl, _⟩
      · rfl
      · exact Function.update_of_ne hi.1 _ _

theorem segNumber_ne_absolute {c : Char} {n : Seg} (hn : segNumber c = some n) : n ≠ ABSOLUTE := by
  unfold segNumber at hn
  split at hn
  · split at hn
    · cases hn
      simp [ABSOLUTE, Fin.ext_iff]
    · cases hn
  · cases hn

theorem orderOf_ne_absolute {n : Seg} (hn : n ∈ orderOf st) : n ≠ ABSOLUTE := by
  obtain ⟨c, _, hc⟩ := List.mem_filterMap.mp hn
  exact segNumber_ne_absolute hc

/-! ## The chain of bases -/

/-- A base that was cut to 16 bits still gives the next base, cut to 16 bits. -/
theorem roundUp_ofNat {align size : Word} {b : Nat} (ha : 0 < align.toNat)
    (hb : b < 65536 ∨ align.toNat ∣ b) (hfit : b + size.toNat ≤ 65536) :
    roundUp align (BitVec.ofNat 16 b) size = BitVec.ofNat 16 (alignUp align.toNat (b + size.toNat)) := by
  rw [roundUp_eq, BitVec.toNat_ofNat]
  by_cases hlt : b < 65536
  · rw [Nat.mod_eq_of_lt hlt]
  · -- The block is empty and would start at 2^16.
    obtain rfl : b = 65536 := by omega
    have hsize : size.toNat = 0 := by omega
    have hdvd : align.toNat ∣ 65536 := by simpa using hb
    rw [hsize, Nat.add_zero, Nat.add_zero, alignUp_of_dvd ha hdvd, alignUp_of_dvd ha (Nat.dvd_zero _)]
    rfl

@[simp]
theorem fixedBase_code : fixedBase code CODE = some code.toNat := by simp [fixedBase]

theorem fixedBase_of_ne {i : Seg} (hi : i ≠ CODE) : fixedBase code i = none := by simp [fixedBase, hi]

/-- Places as the linker stores them. -/
def cut (ps : List (Seg × Nat)) : List (Seg × Word) := ps.map fun p => (p.1, BitVec.ofNat 16 p.2)

/-- What holds in front of each letter: the base of the segment before it is known. -/
structure Chained (code : Word) (st : Link) (m : Seg) (b : Nat) : Prop where
  baseset : ∀ i, st.baseset i = decide (i = CODE)
  align : 0 < st.align.toNat
  code_eq : st.base CODE = code
  last_eq : st.base m = BitVec.ofNat 16 b
  last_dvd : b < 65536 ∨ st.align.toNat ∣ b
  last_fits : b + (st.size m).toNat ≤ 65536

/-- The places from the next letter on. -/
def nextPlaces (code : Word) (st : Link) (m : Seg) (b : Nat) (ns : List Seg) : List (Seg × Nat) :=
  places (fixedBase code) st.align.toNat (fun i => (st.size i).toNat)
    (alignUp st.align.toNat (b + (st.size m).toNat)) ns

/-- The code keeps its base. -/
theorem Chained.append_code {m : Seg} {b : Nat} {st1 : Link} (hch : Chained code st m b)
    (happ : appendSegment st CODE m = .ok st1) : st1 = st := by
  rcases appendSegment_ok happ with ⟨_, h⟩ | ⟨hset, _⟩
  · exact h
  · simp [hch.baseset] at hset

/-- Any other segment goes to the next place. -/
theorem Chained.append_other {m n : Seg} {b : Nat} {st1 : Link} (hch : Chained code st m b)
    (hn : n ≠ CODE) (happ : appendSegment st n m = .ok st1) :
    st1 = st.setBase n (BitVec.ofNat 16 (alignUp st.align.toNat (b + (st.size m).toNat))) ∧
      (n ≠ m → b % 65536 ≤ alignUp st.align.toNat (b + (st.size m).toNat) % 65536) := by
  have hround : roundUp st.align (BitVec.ofNat 16 b) (st.size m) = _ :=
    roundUp_ofNat hch.align hch.last_dvd hch.last_fits
  rcases appendSegment_ok happ with ⟨hset, _⟩ | ⟨_, hst, hle⟩
  · simp [hch.baseset, hn] at hset
  · rw [hch.last_eq, hround] at hst hle
    exact ⟨hst, by simpa using hle⟩

theorem Chained.of_code {m : Seg} {b : Nat} (hch : Chained code st m b)
    (hfit : code.toNat + (st.size CODE).toNat ≤ 65536) : Chained code st CODE code.toNat where
  baseset := hch.baseset
  align := hch.align
  code_eq := hch.code_eq
  last_eq := by rw [hch.code_eq, BitVec.ofNat_toNat, BitVec.setWidth_eq]
  last_dvd := .inl code.isLt
  last_fits := hfit

theorem Chained.of_other {m n : Seg} {b : Nat} (hch : Chained code st m b) (hn : n ≠ CODE)
    (hfit : alignUp st.align.toNat (b + (st.size m).toNat) + (st.size n).toNat ≤ 65536) :
    Chained code
      (st.setBase n (BitVec.ofNat 16 (alignUp st.align.toNat (b + (st.size m).toNat))))
      n (alignUp st.align.toNat (b + (st.size m).toNat)) where
  baseset := hch.baseset
  align := hch.align
  code_eq := (Function.update_of_ne (Ne.symm hn) ..).trans hch.code_eq
  last_eq := Function.update_self ..
  last_dvd := .inr (dvd_alignUp _ _)
  last_fits := hfit

/-- While the meant places fit, the linker stores them. -/
theorem orderSegments_places {cs : List Char} {m : Seg} {b : Nat} (hch : Chained code st m b)
    (hok : orderSegments cs (some m) st = .ok st')
    (hall : ∀ p ∈ nextPlaces code st m b (cs.filterMap segNumber), p.2 + (st.size p.1).toNat ≤ 65536) :
    st'.base = placed st.base (cut (nextPlaces code st m b (cs.filterMap segNumber))) := by
  induction cs generalizing st m b with
  | nil =>
    cases hok
    rfl
  | cons c cs ih =>
    obtain ⟨n, hn, ⟨hlast, _⟩ | ⟨m', st1, hlast, happ, hrest⟩⟩ := orderSegments_cons hok
    · cases hlast
    · cases hlast
      simp only [List.filterMap_cons, hn, nextPlaces, places_cons, List.mem_cons, forall_eq_or_imp] at hall ⊢
      obtain ⟨hhead, htail⟩ := hall
      by_cases hcode : n = CODE
      · subst hcode
        obtain rfl := hch.append_code happ
        simp only [fixedBase_code, Option.getD_some] at hhead htail ⊢
        rw [ih (hch.of_code hhead) hrest htail]
        have hsame : Function.update st1.base CODE (BitVec.ofNat 16 code.toNat) = st1.base := by
          rw [BitVec.ofNat_toNat, BitVec.setWidth_eq, ← hch.code_eq, Function.update_eq_self]
        simp only [cut, List.map_cons, placed_cons, hsame]
        rfl
      · obtain ⟨rfl, _⟩ := hch.append_other hcode happ
        simp only [fixedBase_of_ne hcode, Option.getD_none] at hhead htail ⊢
        rw [ih (hch.of_other hcode hhead) hrest htail]
        rfl

theorem FuzixStart.with_size (hstart : FuzixStart code st) (size : Seg → Word) :
    FuzixStart code { st with size := size } :=
  ⟨hstart.ldmode, hstart.baseset, hstart.base, hstart.align⟩

/-- The first letter starts the chain. -/
theorem Chained.start {n : Seg} (hstart : FuzixStart code st)
    (hfit : ((fixedBase code n).getD 0) + (st.size n).toNat ≤ 65536) :
    Chained code st n ((fixedBase code n).getD 0) where
  baseset := hstart.baseset
  align := hstart.align
  code_eq := by simp [hstart.base]
  last_eq := by
    rw [hstart.base]
    by_cases hn : n = CODE
    · simp [hn]
    · simp [hn, fixedBase_of_ne hn]
  last_dvd := by
    by_cases hn : n = CODE
    · simp only [hn, fixedBase_code, Option.getD_some]
      exact .inl code.isLt
    · simp [fixedBase_of_ne hn]
  last_fits := hfit

theorem placed_start {n : Seg} (hstart : FuzixStart code st) (ps : List (Seg × Word)) :
    placed st.base ((n, BitVec.ofNat 16 ((fixedBase code n).getD 0)) :: ps) = placed st.base ps := by
  have hsame : BitVec.ofNat 16 ((fixedBase code n).getD 0) = st.base n := by
    rw [hstart.base]
    by_cases hn : n = CODE
    · simp [hn]
    · simp [hn, fixedBase_of_ne hn]
  rw [placed_cons, hsame, Function.update_eq_self]

/-- All places of an order, with the sizes that the linker added up. -/
def storedPlaces (code : Word) (st : Link) (ns : List Seg) : List (Seg × Nat) :=
  places (fixedBase code) st.align.toNat (fun i => (st.size i).toNat) 0 ns

theorem orderSegments_stored {cs : List Char} (hstart : FuzixStart code st)
    (hok : orderSegments cs none st = .ok st')
    (hall : ∀ p ∈ storedPlaces code st (cs.filterMap segNumber), p.2 + (st.size p.1).toNat ≤ 65536) :
    st'.base = placed st.base (cut (storedPlaces code st (cs.filterMap segNumber))) := by
  cases cs with
  | nil =>
    cases hok
    rfl
  | cons c cs =>
    obtain ⟨n, hn, ⟨_, hrest⟩ | ⟨m, st1, hlast, _⟩⟩ := orderSegments_cons hok
    · simp only [List.filterMap_cons, hn, storedPlaces, places_cons, List.mem_cons, forall_eq_or_imp] at hall ⊢
      rw [orderSegments_places (Chained.start hstart hall.1) hrest hall.2]
      exact (placed_start hstart _).symm
    · cases hlast

/-! ## A right layout fits -/

/-- What the claim says of the stored bases of some segments. -/
structure Apart (st' : Link) (align : Nat) (size : Seg → Word) (ns : List Seg) : Prop where
  disjoint : ∀ m ∈ ns, ∀ n ∈ ns, m ≠ n →
    Disjoint (span (st'.base m).toNat (size m).toNat) (span (st'.base n).toNat (size n).toNat)
  below : ∀ n ∈ ns, (st'.base n).toNat + (size n).toNat ≤ 65536
  aligned : ∀ n ∈ ns, align ∣ (st'.base n).toNat

theorem disjoint_span_iff {b c m n : Nat} :
    Disjoint (span b m) (span c n) ↔ m = 0 ∨ n = 0 ∨ b + m ≤ c ∨ c + n ≤ b := by
  unfold span
  rw [Set.Ico_disjoint_Ico]
  omega

/-- Two segments at 0: one of them is empty. -/
theorem Apart.empty {align : Nat} {size : Seg → Word} {ns : List Seg} {m n : Seg}
    (hap : Apart st' align size ns) (hm : m ∈ ns) (hn : n ∈ ns) (hne : m ≠ n)
    (hm0 : (st'.base m).toNat = 0) (hn0 : (st'.base n).toNat = 0) (hpos : 0 < (size m).toNat) :
    (size n).toNat = 0 := by
  have hdis := hap.disjoint m hm n hn hne
  rw [disjoint_span_iff] at hdis
  omega

/-- A place at 2^16 means that a segment with bytes is at 0. -/
theorem Chained.zero {ns rest : List Seg} {m : Seg} {b : Nat} (hch : Chained code st m b)
    (hm : m ∈ ns) (hrest : m ∉ rest) (hlast : st'.base m = BitVec.ofNat 16 b)
    (hle : b % 65536 ≤ alignUp st.align.toNat (b + (st.size m).toNat) % 65536)
    (hzero : b = 65536 → ∃ x ∈ ns, x ∉ rest ∧ (st'.base x).toNat = 0 ∧ 0 < (st.size x).toNat)
    (htop : alignUp st.align.toNat (b + (st.size m).toNat) = 65536) :
    ∃ x ∈ ns, x ∉ rest ∧ (st'.base x).toNat = 0 ∧ 0 < (st.size x).toNat := by
  have hfit := hch.last_fits
  by_cases hb : b = 65536
  · exact hzero hb
  · have hb0 : b = 0 := by omega
    refine ⟨m, hm, hrest, by rw [hlast, hb0]; rfl, ?_⟩
    apply Nat.pos_of_ne_zero
    intro hz
    rw [hb0, hz, alignUp_of_dvd hch.align (Nat.dvd_zero _)] at htop
    omega

/-- A wrapped base is caught: by the alignment, or by the segment at 0. -/
theorem Apart.next_fits {ns : List Seg} {m n : Seg} {b next : Nat}
    (hch : Chained code st m b) (hap : Apart st' st.align.toNat st.size ns) (hn : n ∈ ns)
    (hnext : next = alignUp st.align.toNat (b + (st.size m).toNat))
    (hbase : st'.base n = BitVec.ofNat 16 next)
    (hzero : next = 65536 → ∃ x ∈ ns, x ≠ n ∧ (st'.base x).toNat = 0 ∧ 0 < (st.size x).toNat) :
    next + (st.size n).toNat ≤ 65536 := by
  have hstored : (st'.base n).toNat = next % 65536 := by rw [hbase, BitVec.toNat_ofNat]
  have hbelow := hap.below n hn
  have hfit := hch.last_fits
  have hlt : next < 65536 + 65536 := by
    have hup : next < b + (st.size m).toNat + st.align.toNat := hnext ▸ alignUp_lt hch.align
    have hal := st.align.isLt
    omega
  rcases Nat.lt_trichotomy next 65536 with hsmall | htop | hbig
  · rw [hstored, Nat.mod_eq_of_lt hsmall] at hbelow
    exact hbelow
  · have hn0 : (st'.base n).toNat = 0 := by rw [hstored, htop]
    obtain ⟨x, hx, hxn, hx0, hpos⟩ := hzero htop
    have hempty := hap.empty hx hn hxn hx0 hn0 hpos
    omega
  · -- The alignment divides 2^16, so rounding up stops there.
    have hdvd := hap.aligned n hn
    have hsub : next % 65536 = next - 65536 := by omega
    rw [hstored, hsub] at hdvd
    have hdvd' : st.align.toNat ∣ 65536 := by
      have hself : st.align.toNat ∣ next := hnext ▸ dvd_alignUp _ _
      have heq : 65536 = next - (next - 65536) := by omega
      rw [heq]
      exact Nat.dvd_sub hself hdvd
    have hup : next ≤ 65536 := hnext ▸ alignUp_le hch.align hdvd' hfit
    omega

/-- In a right layout every place fits. -/
theorem Apart.places_fit {cs : List Char} {ns : List Seg} {m : Seg} {b : Nat}
    (hch : Chained code st m b) (hok : orderSegments cs (some m) st = .ok st')
    (hap : Apart st' st.align.toNat st.size ns)
    (hsub : ∀ n ∈ m :: cs.filterMap segNumber, n ∈ ns) (hnodup : (m :: cs.filterMap segNumber).Nodup)
    (hzero : b = 65536 → ∃ x ∈ ns, x ∉ cs.filterMap segNumber ∧
      (st'.base x).toNat = 0 ∧ 0 < (st.size x).toNat) :
    ∀ p ∈ nextPlaces code st m b (cs.filterMap segNumber), p.2 + (st.size p.1).toNat ≤ 65536 := by
  induction cs generalizing st m b with
  | nil => simp [nextPlaces]
  | cons c cs ih =>
    obtain ⟨n, hn, ⟨hlast, _⟩ | ⟨m', st1, hlast, happ, hrest⟩⟩ := orderSegments_cons hok
    · cases hlast
    · cases hlast
      have hm := orderSegments_base_of_not_mem hok (List.nodup_cons.mp hnodup).1
      simp only [List.filterMap_cons, hn] at hsub hnodup hzero
      simp only [List.filterMap_cons, hn, nextPlaces, places_cons, List.mem_cons, forall_eq_or_imp]
      obtain ⟨hmn, hnodup'⟩ := List.nodup_cons.mp hnodup
      have hne : n ≠ m := fun h => hmn (h ▸ List.mem_cons_self)
      have hnmem : n ∈ ns := hsub n (by simp)
      have hbase := orderSegments_base_of_not_mem hrest (List.nodup_cons.mp hnodup').1
      have hsub' : ∀ x ∈ n :: cs.filterMap segNumber, x ∈ ns := fun x hx => hsub x (List.mem_cons_of_mem _ hx)
      by_cases hcode : n = CODE
      · subst hcode
        obtain rfl := hch.append_code happ
        simp only [fixedBase_code, Option.getD_some]
        have hhead : code.toNat + (st1.size CODE).toNat ≤ 65536 := by
          have hbelow := hap.below CODE hnmem
          rwa [hbase, hch.code_eq] at hbelow
        refine ⟨hhead, ih (hch.of_code hhead) hrest hap hsub' hnodup' ?_⟩
        intro htop
        have hlt := code.isLt
        omega
      · obtain ⟨rfl, hle⟩ := hch.append_other hcode happ
        simp only [fixedBase_of_ne hcode, Option.getD_none]
        have hz := hch.zero (hsub m (by simp)) hmn (hm.trans hch.last_eq) (hle hne) hzero
        have hhead := hap.next_fits hch hnmem rfl (hbase.trans (Function.update_self ..)) fun htop =>
          (hz htop).imp fun x hx => ⟨hx.1, fun h => hx.2.1 (h ▸ List.mem_cons_self), hx.2.2⟩
        have htail := ih (hch.of_other hcode hhead) hrest hap hsub' hnodup' fun htop =>
          (hz htop).imp fun x hx => ⟨hx.1, fun h => hx.2.1 (List.mem_cons_of_mem _ h), hx.2.2⟩
        exact ⟨hhead, htail⟩

theorem Apart.stored_fit {cs : List Char} (hstart : FuzixStart code st)
    (hok : orderSegments cs none st = .ok st')
    (hap : Apart st' st.align.toNat st.size (cs.filterMap segNumber))
    (hnodup : (cs.filterMap segNumber).Nodup) :
    ∀ p ∈ storedPlaces code st (cs.filterMap segNumber), p.2 + (st.size p.1).toNat ≤ 65536 := by
  cases cs with
  | nil => simp [storedPlaces]
  | cons c cs =>
    obtain ⟨n, hn, ⟨_, hrest⟩ | ⟨m, st1, hlast, _⟩⟩ := orderSegments_cons hok
    · simp only [List.filterMap_cons, hn] at hap hnodup ⊢
      have hbase := orderSegments_base_of_not_mem hrest (List.nodup_cons.mp hnodup).1
      have hbelow := hap.below n (by simp)
      rw [hbase, hstart.base] at hbelow
      have hcode := code.isLt
      by_cases hne : n = CODE
      · have hhead : ((fixedBase code n).getD 0) + (st.size n).toNat ≤ 65536 := by simpa [hne] using hbelow
        have htail := Apart.places_fit (Chained.start hstart hhead) hrest hap (fun x hx => hx) hnodup
          fun htop => by
            simp only [hne, fixedBase_code, Option.getD_some] at htop
            omega
        simp only [storedPlaces, places_cons, List.mem_cons, forall_eq_or_imp]
        exact ⟨hhead, htail⟩
      · have hhead : ((fixedBase code n).getD 0) + (st.size n).toNat ≤ 65536 := by
          simpa [hne, fixedBase_of_ne hne] using hbelow
        have htail := Apart.places_fit (Chained.start hstart hhead) hrest hap (fun x hx => hx) hnodup
          fun htop => by simp [fixedBase_of_ne hne] at htop
        simp only [storedPlaces, places_cons, List.mem_cons, forall_eq_or_imp]
        exact ⟨hhead, htail⟩
    · cases hlast

end Fuzemsys.Bintools.Ld
