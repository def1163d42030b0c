import Mathlib.Data.List.Pairwise
import Fuzemsys.Bintools.Ld.LayoutProofs

/-!
# The layout is right when it fits

Both directions of the layout theorem, over what the three loops leave behind.
-/

open Fuzemsys.Lib

namespace Fuzemsys.Bintools.Ld

variable {st st' : Link} {wild : Byte → Word} {code : Word}

/-! ## The linker symbols -/

theorem insertLinkerSymbols_frame (st : Link) :
    ∃ t e r, insertLinkerSymbols st = { st with symhash := t, err := e, reports := r } := by
  unfold insertLinkerSymbols
  generalize linkerSymbols st.size = entries
  induction entries generalizing st with
  | nil => exact ⟨_, _, _, rfl⟩
  | cons s entries ih =>
    obtain ⟨t, e, r, hstep⟩ := findAllocSymbol_frame st none (segByte s.2.1 ||| S_PUBLIC) (cutName s.1) s.2.2
    obtain ⟨t', e', r', hrest⟩ := ih (insertInternalSymbol st s.1 (some s.2.1) s.2.2)
    rw [List.foldl_cons, hrest]
    exact ⟨t', e', r', by rw [insertInternalSymbol, hstep]⟩

theorem insertLinkerSymbols_symhash (h : st.symhash = st'.symhash)
    (hsize : ∀ i ≠ ABSOLUTE, st.size i = st'.size i) :
    (insertLinkerSymbols st).symhash = (insertLinkerSymbols st').symhash := by
  have hentries : linkerSymbols st.size = linkerSymbols st'.size := by
    simp [linkerSymbols, hsize CODE (by decide), hsize DATA (by decide), hsize BSS (by decide),
      hsize LITERAL (by decide), hsize ZP (by decide), hsize DISCARD (by decide),
      hsize COMMON (by decide), hsize BUFFERS (by decide), hsize COMMONDATA (by decide)]
  unfold insertLinkerSymbols
  rw [hentries]
  generalize linkerSymbols st'.size = entries
  clear hentries hsize
  induction entries generalizing st st' with
  | nil => exact h
  | cons s entries ih => exact ih (findAllocSymbol_symhash _ _ _ _ h)

/-! ## The whole function -/

/-- What the function leaves when it returns. -/
structure Bases (wild : Byte → Word) (st st' : Link) : Prop where
  size_eq : ∀ i ≠ ABSOLUTE, (st'.size i).toNat = total st.objects i
  order : orderSegments st.segmentorder none { st with size := st'.size } =
    .ok { st with size := st'.size, base := st'.base }
  objects : st'.objects = placeObjects st'.base st.objects
  symhash : st'.symhash = (linkerTable st).map (relocateSymbol wild st')

theorem segmentBases_ok (hstart : FuzixStart code st) (hok : segmentBases st = .ok st') :
    ∃ size base, (∀ i ≠ ABSOLUTE, (size i).toNat = total st.objects i) ∧
      orderSegments st.segmentorder none { st with size := size } = .ok { st with size := size, base := base } ∧
      st' = insertLinkerSymbols { st with size := size, base := base } := by
  have hreloc : ¬ (st.ldmode = .reloc ∧ st.split_id ∧ ¬ st.baseset DATA) := by simp [hstart.ldmode]
  have hrflag : st.ldmode ≠ .rflag := by simp [hstart.ldmode]
  simp only [segmentBases] at hok
  split at hok
  · cases hok
  · next size hsize =>
    rw [if_neg hreloc] at hok
    split at hok
    · cases hok
    · next st1 horder =>
      obtain ⟨base, rfl⟩ := orderSegments_frame horder
      refine ⟨size, base, ?_, horder, ?_⟩
      · intro i hi
        simpa [hi] using sumSizes_ok hsize hi
      · rw [if_pos hrflag] at hok
        split at hok
        · cases hok
        · exact (Except.ok.inj hok).symm

/-- The sizes that were added up give the linker symbols their values. -/
theorem insertLinkerSymbols_table {size base : Seg → Word}
    (hsize : ∀ i ≠ ABSOLUTE, (size i).toNat = total st.objects i) :
    (insertLinkerSymbols { st with size := size, base := base }).symhash = linkerTable st := by
  unfold linkerTable
  apply insertLinkerSymbols_symhash
  · rfl
  · intro i hi
    simp [← hsize i hi]

theorem relocateSymbol_congr (hobjects : st.objects = st'.objects) (hbase : st.base = st'.base) :
    relocateSymbol wild st = relocateSymbol wild st' := by
  funext s
  simp only [relocateSymbol, definerBase, hobjects, hbase]

/-- The last loops: parts, then symbols. -/
theorem place_ok {st1 : Link} (horder : orderSegments st.segmentorder none { st with size := st1.size } =
      .ok { st with size := st1.size, base := st1.base })
    (hsize : ∀ i ≠ ABSOLUTE, (st1.size i).toNat = total st.objects i)
    (hobjects : st1.objects = st.objects) (htable : st1.symhash = linkerTable st)
    (hst' : st' = { st1 with
      objects := placeObjects st1.base st1.objects,
      symhash := st1.symhash.map
        (relocateSymbol wild { st1 with objects := placeObjects st1.base st1.objects }) }) :
    Bases wild st st' := by
  subst hst'
  exact ⟨hsize, horder, congrArg _ hobjects, congrArg₂ List.map (relocateSymbol_congr rfl rfl) htable⟩

theorem setSegmentBases_ok (hstart : FuzixStart code st) (hok : setSegmentBases wild st = .ok st') :
    Bases wild st st' := by
  unfold setSegmentBases at hok
  split at hok
  · cases hok
  · next st1 hbases =>
    obtain ⟨size, base, hsize, horder, hst1⟩ := segmentBases_ok hstart hbases
    have htable : (insertLinkerSymbols { st with size := size, base := base }).symhash = linkerTable st :=
      insertLinkerSymbols_table hsize
    obtain ⟨t, e, r, hframe⟩ := insertLinkerSymbols_frame { st with size := size, base := base }
    rw [← hst1] at hframe htable
    have hsize1 : st1.size = size := by rw [hframe]
    have hbase1 : st1.base = base := by rw [hframe]
    have hobjects : st1.objects = st.objects := by rw [hframe]
    subst hsize1 hbase1
    exact place_ok horder hsize hobjects htable (Except.ok.inj hok).symm

/-! ## Stored bases -/

section

variable (hstart : FuzixStart code st) (hbases : Bases wild st st')

include hbases in
theorem stored_eq (code : Word) : storedPlaces code { st with size := st'.size } (orderOf st) = segPlaces code st := by
  unfold storedPlaces segPlaces
  apply places_congr
  intro i hi
  exact hbases.size_eq i (orderOf_ne_absolute hi)

include hstart hbases in
/-- The linker stores the meant bases while they fit. -/
theorem base_eq (hfits : ∀ p ∈ segPlaces code st, p.2 + total st.objects p.1 ≤ 65536) (i : Seg) :
    st'.base i = BitVec.ofNat 16 (meantBase code st i) := by
  have hstored := stored_eq hbases code
  have hall : ∀ p ∈ storedPlaces code { st with size := st'.size } (orderOf st),
      p.2 + (st'.size p.1).toNat ≤ 65536 := by
    rw [hstored]
    intro p hp
    have hne : p.1 ≠ ABSOLUTE := by
      have hmem := List.mem_map_of_mem (f := Prod.fst) hp
      rw [segPlaces, map_fst_places] at hmem
      exact orderOf_ne_absolute hmem
    rw [hbases.size_eq _ hne]
    exact hfits p hp
  have hchain := orderSegments_stored (hstart.with_size st'.size) hbases.order hall
  have hinit : st.base = BitVec.ofNat 16 ∘ fun i => if i = CODE then code.toNat else 0 := by
    funext i
    rw [hstart.base]
    by_cases hi : i = CODE
    · simp [hi]
    · simp [hi]
  change st'.base = placed st.base (cut (storedPlaces code _ (orderOf st))) at hchain
  rw [hchain, hstored, hinit, cut, placed_map]
  rfl

end

theorem meantBase_mem (code : Word) {i : Seg} (hi : i ∈ orderOf st) : (i, meantBase code st i) ∈ segPlaces code st := by
  apply placed_mem
  rwa [segPlaces, map_fst_places]

theorem meantBase_of_not_mem {i : Seg} (hi : i ∉ orderOf st) :
    meantBase code st i = if i = CODE then code.toNat else 0 := by
  apply placed_of_not_mem
  rwa [segPlaces, map_fst_places]

/-- A segment starts below 2^16, unless it is empty. -/
theorem meantBase_lt (hfits : ∀ p ∈ segPlaces code st, p.2 + total st.objects p.1 ≤ 65536) {i : Seg}
    (hpos : 0 < total st.objects i) : meantBase code st i < 65536 := by
  by_cases hi : i ∈ orderOf st
  · have hfit := hfits _ (meantBase_mem code hi)
    simp only at hfit
    omega
  · rw [meantBase_of_not_mem hi]
    have hcode := code.isLt
    split_ifs
    · exact hcode
    · omega

/-! ## Parts of objects -/

theorem getElem?_placeObjects (pos : Seg → Word) (os : List Object) (k : Nat) :
    (placeObjects pos os)[k]? = os[k]?.map fun o =>
      { o with base := fun i => if i = ABSOLUTE then 0 else pos i + BitVec.ofNat 16 (total (os.take k) i) } := by
  induction os generalizing pos k with
  | nil => rfl
  | cons o os ih =>
    cases k with
    | zero => simp [placeObjects]
    | succ k =>
      simp only [placeObjects, List.getElem?_cons_succ, ih, List.take_succ_cons, total_cons]
      congr
      funext o'
      congr
      funext i
      by_cases hi : i = ABSOLUTE
      · simp [hi]
      · simp [hi, BitVec.ofNat_add, add_assoc]

theorem total_append (xs ys : List Object) (i : Seg) : total (xs ++ ys) i = total xs i + total ys i := by
  simp [total]

theorem total_take_le (os : List Object) (k : Nat) (i : Seg) : total (os.take k) i ≤ total os i :=
  calc total (os.take k) i ≤ total (os.take k) i + total (os.drop k) i := Nat.le_add_right ..
    _ = total os i := by rw [← total_append, List.take_append_drop]

theorem total_take_mono (os : List Object) {j k : Nat} (hjk : j ≤ k) (i : Seg) :
    total (os.take j) i ≤ total (os.take k) i := by
  have hle := total_take_le (os.take k) j i
  rwa [List.take_take, min_eq_left hjk] at hle

/-- What comes before a part, and the part, come before the next one. -/
theorem total_take_succ {os : List Object} {k : Nat} {o : Object} (hk : os[k]? = some o) (i : Seg) :
    total (os.take (k + 1)) i = total (os.take k) i + (o.oh.o_size i).toNat := by
  rw [List.take_add_one, hk, total_append]
  simp

/-! ## Addresses cut to 16 bits -/

theorem disjoint_span_mod {b c m n : Nat} (hb : b + m ≤ 65536) (hc : c + n ≤ 65536) :
    Disjoint (span (b % 65536) m) (span (c % 65536) n) ↔ Disjoint (span b m) (span c n) := by
  rw [disjoint_span_iff, disjoint_span_iff]
  omega

theorem dvd_mod {a b : Nat} (hdvd : a ∣ b) (hle : b ≤ 65536) : a ∣ b % 65536 := by
  rcases Nat.lt_or_eq_of_le hle with hlt | rfl
  · rwa [Nat.mod_eq_of_lt hlt]
  · simp

/-- The stored bases of the segments in the order, once they fit. -/
theorem segRange_eq (hstart : FuzixStart code st) (hbases : Bases wild st st')
    (hfits : ∀ p ∈ segPlaces code st, p.2 + total st.objects p.1 ≤ 65536) {i : Seg} (hi : i ≠ ABSOLUTE) :
    segRange st' i = span (meantBase code st i % 65536) (total st.objects i) := by
  rw [segRange, base_eq hstart hbases hfits, hbases.size_eq i hi, BitVec.toNat_ofNat]

/-- Each part of an object, at its place in the unbounded layout. -/
theorem part_eq (hstart : FuzixStart code st) (hbases : Bases wild st st')
    (hfits : ∀ p ∈ segPlaces code st, p.2 + total st.objects p.1 ≤ 65536) {k : Nat} {o' : Object}
    (hk : st'.objects[k]? = some o') :
    ∃ o, st.objects[k]? = some o ∧ o'.oh = o.oh ∧ o'.base ABSOLUTE = 0 ∧
      ∀ i ≠ ABSOLUTE, o'.base i = BitVec.ofNat 16 (meantPart code st k i) := by
  rw [hbases.objects, getElem?_placeObjects, Option.map_eq_some_iff] at hk
  obtain ⟨o, ho, rfl⟩ := hk
  refine ⟨o, ho, rfl, rfl, fun i hi => ?_⟩
  rw [meantPart, BitVec.ofNat_add, ← base_eq hstart hbases hfits]
  exact if_neg hi

/-- The base that a symbol gets is the meant one, cut to 16 bits. -/
theorem definerBase_toNat (hstart : FuzixStart code st) (hbases : Bases wild st st')
    (hfits : ∀ p ∈ segPlaces code st, p.2 + total st.objects p.1 ≤ 65536) (s : Symbol) :
    (definerBase wild st' s).toNat = meantDefiner wild code st s % 65536 := by
  have hwild : (wild (segOf s.type)).toNat = (wild (segOf s.type)).toNat % 65536 :=
    (Nat.mod_eq_of_lt (wild (segOf s.type)).isLt).symm
  have hlen : st'.objects.length = st.objects.length := by
    rw [hbases.objects]
    generalize st'.base = pos
    induction st.objects generalizing pos with
    | nil => rfl
    | cons o os ih => simp [placeObjects, ih]
  simp only [definerBase, meantDefiner]
  by_cases hseg : (segOf s.type).toNat < OSEG
  · rw [dif_pos hseg, dif_pos hseg]
    cases s.definedby with
    | none => rw [base_eq hstart hbases hfits, BitVec.toNat_ofNat]
    | some k =>
      simp only
      by_cases hk : k < st.objects.length
      · obtain ⟨o', ho'⟩ : ∃ o', st'.objects[k]? = some o' :=
          ⟨_, List.getElem?_eq_getElem (hlen ▸ hk)⟩
        obtain ⟨o, _, _, habs, hpart⟩ := part_eq hstart hbases hfits ho'
        rw [ho', if_pos hk]
        simp only
        by_cases h0 : (segOf s.type).toNat = 0
        · have hzero : (⟨(segOf s.type).toNat, hseg⟩ : Seg) = ABSOLUTE := Fin.ext h0
          rw [if_pos h0, hzero, habs]
          rfl
        · have hne : (⟨(segOf s.type).toNat, hseg⟩ : Seg) ≠ ABSOLUTE := fun h => h0 (congrArg Fin.val h)
          rw [if_neg h0, hpart _ hne, BitVec.toNat_ofNat]
      · rw [List.getElem?_eq_none (by omega), if_neg hk]
        exact hwild
  · rw [dif_neg hseg, dif_neg hseg]
    exact hwild

/-! ## A layout that fits is right -/

/-- Different segments do not meet in the unbounded memory. -/
theorem LayoutFits.apart (hstart : FuzixStart code st) (hfits : LayoutFits wild code st)
    {p q : Seg × Nat} (hp : p ∈ segPlaces code st) (hq : q ∈ segPlaces code st) (hne : p.1 ≠ q.1) :
    Disjoint (span p.2 (total st.objects p.1)) (span q.2 (total st.objects q.1)) := by
  have hpair : (segPlaces code st).Pairwise fun p q =>
      p.1 ≠ q.1 → Disjoint (span p.2 (total st.objects p.1)) (span q.2 (total st.objects q.1)) := by
    by_cases hcode : CODE ∈ (orderOf st).tail
    · exact hfits.restart hcode
    · refine (pairwise_places hstart.align ?_).imp ?_
      · intro i hi
        exact fixedBase_of_ne fun h => hcode (h ▸ hi)
      · intro p q hle _
        rw [disjoint_span_iff]
        omega
  have hsymm : Std.Symm fun p q : Seg × Nat =>
      p.1 ≠ q.1 → Disjoint (span p.2 (total st.objects p.1)) (span q.2 (total st.objects q.1)) :=
    ⟨fun p q h hne => (h (Ne.symm hne)).symm⟩
  exact hpair.forall_of_forall (fun _ _ h => (h rfl).elim) hp hq hne

/-- A part with bytes in it is stored where it is meant to be. -/
theorem LayoutFits.part_toNat (hstart : FuzixStart code st) (hbases : Bases wild st st')
    (hfits : LayoutFits wild code st) {k : Nat} {o' : Object} (hk : st'.objects[k]? = some o') {i : Seg}
    (hi : i ≠ ABSOLUTE) (hpos : 0 < (o'.oh.o_size i).toNat) :
    (o'.base i).toNat = meantPart code st k i ∧
      total (st.objects.take (k + 1)) i = total (st.objects.take k) i + (o'.oh.o_size i).toNat := by
  obtain ⟨o, ho, hoh, _, hbase⟩ := part_eq hstart hbases hfits.fits hk
  rw [hoh] at hpos ⊢
  refine ⟨?_, total_take_succ ho i⟩
  rw [hbase i hi, BitVec.toNat_ofNat, Nat.mod_eq_of_lt (hfits.parts i hi k o ho hpos)]

theorem LayoutFits.inside (hstart : FuzixStart code st) (hbases : Bases wild st st')
    (hfits : LayoutFits wild code st) {o' : Object} (ho' : o' ∈ st'.objects) {i : Seg} (hi : i ≠ ABSOLUTE) :
    partRange o' i ⊆ segRange st' i := by
  rcases Nat.eq_zero_or_pos (o'.oh.o_size i).toNat with hz | hpos
  · simp [partRange, hz, span]
  · obtain ⟨k, hk⟩ := List.getElem?_of_mem ho'
    obtain ⟨hbase, htake⟩ := hfits.part_toNat hstart hbases hk hi hpos
    have hle := total_take_le st.objects (k + 1) i
    have hlt := meantBase_lt hfits.fits (i := i) (by omega)
    rw [segRange_eq hstart hbases hfits.fits hi, partRange, hbase, Nat.mod_eq_of_lt hlt, meantPart]
    apply Set.Ico_subset_Ico
    · omega
    · omega

theorem LayoutFits.parts_apart (hstart : FuzixStart code st) (hbases : Bases wild st st')
    (hfits : LayoutFits wild code st) {i : Seg} (hi : i ≠ ABSOLUTE) :
    st'.objects.Pairwise fun o o' => Disjoint (partRange o i) (partRange o' i) := by
  rw [List.pairwise_iff_getElem]
  intro j k hj hk hjk
  rw [partRange, partRange, disjoint_span_iff]
  rcases Nat.eq_zero_or_pos ((st'.objects[j]).oh.o_size i).toNat with hz | hjpos
  · exact .inl hz
  · rcases Nat.eq_zero_or_pos ((st'.objects[k]).oh.o_size i).toNat with hz | hkpos
    · exact .inr (.inl hz)
    · obtain ⟨hjbase, hjtake⟩ := hfits.part_toNat hstart hbases (List.getElem?_eq_getElem hj) hi hjpos
      obtain ⟨hkbase, _⟩ := hfits.part_toNat hstart hbases (List.getElem?_eq_getElem hk) hi hkpos
      have hmono := total_take_mono st.objects (show j + 1 ≤ k by omega) i
      rw [hjbase, hkbase, meantPart, meantPart]
      omega

theorem relocated_pair (hbases : Bases wild st st') {p : Symbol × Symbol}
    (hp : p ∈ (linkerTable st).zip st'.symhash) :
    p.1 ∈ linkerTable st ∧ p.2 = relocateSymbol wild st' p.1 := by
  rw [hbases.symhash, List.zip_map_right, List.mem_map] at hp
  obtain ⟨⟨s, t⟩, hmem, rfl⟩ := hp
  obtain ⟨hs, rfl⟩ : s ∈ linkerTable st ∧ s = t := by
    obtain ⟨k, hk⟩ := List.getElem?_of_mem hmem
    rw [List.getElem?_zip_eq_some] at hk
    exact ⟨List.mem_of_getElem? hk.1, Option.some.inj (hk.1.symm.trans hk.2)⟩
  exact ⟨hs, rfl⟩

theorem LayoutFits.laidOut (hstart : FuzixStart code st) (hbases : Bases wild st st')
    (hfits : LayoutFits wild code st) : LaidOut wild st st' where
  disjoint := by
    intro m hm n hn hne
    have hmem := meantBase_mem code hm
    have hnem := meantBase_mem code hn
    rw [segRange_eq hstart hbases hfits.fits (orderOf_ne_absolute hm),
      segRange_eq hstart hbases hfits.fits (orderOf_ne_absolute hn),
      disjoint_span_mod (hfits.fits _ hmem) (hfits.fits _ hnem)]
    exact hfits.apart hstart hmem hnem hne
  below := by
    intro n hn
    have hfit := hfits.fits _ (meantBase_mem code hn)
    rw [base_eq hstart hbases hfits.fits, hbases.size_eq n (orderOf_ne_absolute hn), BitVec.toNat_ofNat]
    simp only at hfit
    omega
  aligned := by
    intro n hn
    have hmem := meantBase_mem code hn
    have hdvd : st.align.toNat ∣ meantBase code st n := by
      apply dvd_places (Nat.dvd_zero _) _ _ hmem
      intro k hk b hb
      by_cases hcode : k = CODE
      · subst hcode
        rw [fixedBase_code] at hb
        exact Option.some.inj hb ▸ hfits.aligned hk
      · simp [fixedBase_of_ne hcode] at hb
    rw [base_eq hstart hbases hfits.fits, BitVec.toNat_ofNat]
    have hfit := hfits.fits _ hmem
    simp only at hfit
    exact dvd_mod hdvd (by omega)
  inside := fun o ho i hi => hfits.inside hstart hbases ho hi
  apart := fun i hi => hfits.parts_apart hstart hbases hi
  values := by
    intro p hp hknown
    obtain ⟨hmem, hrel⟩ := relocated_pair hbases hp
    have hlt := hfits.symbols p.1 hmem hknown
    have hbase := definerBase_toNat hstart hbases hfits.fits p.1
    have hsame : definerBase wild st' p.2 = definerBase wild st' p.1 := by rw [hrel]; rfl
    rw [hsame, hrel, relocateSymbol, BitVec.toNat_add, hbase]
    omega

/-! ## A right layout fits -/

theorem LaidOut.fits (hstart : FuzixStart code st) (hbases : Bases wild st st') (hnodup : (orderOf st).Nodup)
    (hlaid : LaidOut wild st st') : ∀ p ∈ segPlaces code st, p.2 + total st.objects p.1 ≤ 65536 := by
  have hap : Apart { st with size := st'.size, base := st'.base } st.align.toNat st'.size (orderOf st) :=
    ⟨hlaid.disjoint, hlaid.below, hlaid.aligned⟩
  have hall := hap.stored_fit (hstart.with_size st'.size) hbases.order hnodup
  have hstored := stored_eq hbases code
  intro p hp
  have hne : p.1 ≠ ABSOLUTE := by
    have hmem := List.mem_map_of_mem (f := Prod.fst) hp
    rw [segPlaces, map_fst_places] at hmem
    exact orderOf_ne_absolute hmem
  rw [← hbases.size_eq _ hne]
  exact hall p (hstored ▸ hp)

theorem LaidOut.parts (hstart : FuzixStart code st) (hbases : Bases wild st st')
    (hlaid : LaidOut wild st st') (hfits : ∀ p ∈ segPlaces code st, p.2 + total st.objects p.1 ≤ 65536)
    {i : Seg} (hi : i ≠ ABSOLUTE) {k : Nat} {o : Object} (hk : st.objects[k]? = some o)
    (hpos : 0 < (o.oh.o_size i).toNat) : meantPart code st k i < 65536 := by
  obtain ⟨o1, hobj⟩ : ∃ o1, st'.objects[k]? = some o1 := by
    rw [hbases.objects, getElem?_placeObjects, hk]
    exact ⟨_, rfl⟩
  obtain ⟨o', ho', hoh, _, hbase⟩ := part_eq hstart hbases hfits hobj
  obtain rfl : o = o' := Option.some.inj (hk.symm.trans ho')
  have hinside := hlaid.inside _ (List.mem_of_getElem? hobj) i hi
  have htake := total_take_succ hk i
  have hle := total_take_le st.objects (k + 1) i
  have hlt := meantBase_lt hfits (i := i) (by omega)
  have hsize := hbases.size_eq i hi
  have htotal := (st'.size i).isLt
  rw [partRange, segRange_eq hstart hbases hfits hi, Nat.mod_eq_of_lt hlt] at hinside
  have hstart := (Set.Ico_subset_Ico_iff (by rw [hoh]; omega)).mp hinside |>.1
  -- A start that went round is below the segment.
  rw [hbase i hi, BitVec.toNat_ofNat, meantPart] at hstart
  unfold meantPart
  omega

theorem meantBase_code : meantBase code st CODE = code.toNat := by
  by_cases hcode : CODE ∈ orderOf st
  · exact snd_places_of_fixed (meantBase_mem code hcode) fixedBase_code
  · rw [meantBase_of_not_mem hcode, if_pos rfl]

theorem LaidOut.layoutFits (hstart : FuzixStart code st) (hbases : Bases wild st st')
    (hnodup : (orderOf st).Nodup) (hlaid : LaidOut wild st st') : LayoutFits wild code st := by
  have hfits := hlaid.fits hstart hbases hnodup
  have hkeys : ((segPlaces code st).map Prod.fst).Nodup := by rwa [segPlaces, map_fst_places]
  have horder : ∀ p ∈ segPlaces code st, p.1 ∈ orderOf st := by
    intro p hp
    have hmem := List.mem_map_of_mem (f := Prod.fst) hp
    rwa [segPlaces, map_fst_places] at hmem
  refine ⟨?_, hfits, ?_, fun i hi k o hk hpos => hlaid.parts hstart hbases hfits hi hk hpos, ?_⟩
  · intro hcode
    have hdvd := hlaid.aligned CODE hcode
    rwa [base_eq hstart hbases hfits, meantBase_code, BitVec.ofNat_toNat, BitVec.setWidth_eq] at hdvd
  · intro _
    apply List.pairwise_of_forall_mem_list
    rintro ⟨m, b⟩ hm ⟨n, c⟩ hn hne
    have hb : meantBase code st m = b := placed_of_nodup hkeys hm
    have hc : meantBase code st n = c := placed_of_nodup hkeys hn
    have hdis := hlaid.disjoint m (horder _ hm) n (horder _ hn) hne
    rwa [segRange_eq hstart hbases hfits (orderOf_ne_absolute (horder _ hm)),
      segRange_eq hstart hbases hfits (orderOf_ne_absolute (horder _ hn)), hb, hc,
      disjoint_span_mod (hfits _ hm) (hfits _ hn)] at hdis
  · intro s hs hknown
    have hpair : (s, relocateSymbol wild st' s) ∈ (linkerTable st).zip st'.symhash := by
      obtain ⟨k, hk⟩ := List.getElem?_of_mem hs
      apply List.mem_of_getElem? (i := k)
      rw [List.getElem?_zip_eq_some, hbases.symhash, List.getElem?_map, hk]
      exact ⟨rfl, rfl⟩
    have hvalue := hlaid.values _ hpair hknown
    have hbase := definerBase_toNat hstart hbases hfits s
    have hsame : definerBase wild st' (relocateSymbol wild st' s) = definerBase wild st' s := rfl
    have hlt := (relocateSymbol wild st' s).value.isLt
    simp only [hsame] at hvalue
    omega

/-- The layout that `set_segment_bases` returns with is right when it fits, and for an order that
names no segment twice only then. -/
theorem laidOut_iff (hstart : FuzixStart code st) (hok : setSegmentBases wild st = .ok st') :
    (LayoutFits wild code st → LaidOut wild st st') ∧
      ((orderOf st).Nodup → (LaidOut wild st st' ↔ LayoutFits wild code st)) := by
  have hbases := setSegmentBases_ok hstart hok
  exact ⟨LayoutFits.laidOut hstart hbases, fun hnodup =>
    ⟨LaidOut.layoutFits hstart hbases hnodup, LayoutFits.laidOut hstart hbases⟩⟩

/-! ## Two layouts -/

/-- One object, with a code segment and a discard segment of these sizes. -/
def oneObject (code discard : Word) : Link where
  objects := [{
    oh := {
      o_arch := 13, o_flags := 1, o_cpuflags := 0,
      o_size := fun i => if i = CODE then code else if i = DISCARD then discard else 0 }
    syment := []
    base := fun _ => 0 }]
  symhash := []
  base := fun i => if i = CODE then 0x100 else 0
  size := fun _ => 0
  align := 1
  baseset := fun i => decide (i = CODE)
  ldmode := .fuzix
  split_id := false
  segmentorder := ['C', 'L', 'D', 'B', 'X']
  arch := 13
  arch_flags := 0
  obj_flags := some 1
  err := 0
  reports := []

theorem oneObject_start (c d : Word) : FuzixStart 0x100 (oneObject c d) :=
  ⟨rfl, fun _ => rfl, fun _ => rfl, by simp [oneObject]⟩

theorem oneObject_ok {c d : Word} (hok : (setSegmentBases (fun _ => 0) (oneObject c d)).toBool = true) :
    ∃ st', setSegmentBases (fun _ => 0) (oneObject c d) = .ok st' := by
  cases hset : setSegmentBases (fun _ => 0) (oneObject c d) with
  | ok st' => exact ⟨st', rfl⟩
  | error e =>
    rw [hset] at hok
    cases hok

theorem laidOut_iff_small : ∃ st', setSegmentBases (fun _ => 0) (oneObject 0x200 0x80) = .ok st' ∧
    (LayoutFits (fun _ => 0) 0x100 (oneObject 0x200 0x80) →
      LaidOut (fun _ => 0) (oneObject 0x200 0x80) st') ∧
    ((orderOf (oneObject 0x200 0x80)).Nodup →
      (LaidOut (fun _ => 0) (oneObject 0x200 0x80) st' ↔
        LayoutFits (fun _ => 0) 0x100 (oneObject 0x200 0x80))) := by
  obtain ⟨st', hok⟩ := oneObject_ok (c := 0x200) (d := 0x80) (by decide)
  exact ⟨st', hok, laidOut_iff (oneObject_start _ _) hok⟩

/-- Nothing looks at the end of the last segment. -/
theorem discard_past_end : ∃ st', setSegmentBases (fun _ => 0) (oneObject 0x8000 0x8000) = .ok st' ∧
    ¬ LaidOut (fun _ => 0) (oneObject 0x8000 0x8000) st' := by
  obtain ⟨st', hok⟩ := oneObject_ok (c := 0x8000) (d := 0x8000) (by decide)
  refine ⟨st', hok, fun hlaid => ?_⟩
  have hbases := setSegmentBases_ok (oneObject_start _ _) hok
  have hfit := hlaid.fits (oneObject_start _ _) hbases (by decide) (DISCARD, 0x8100) (by decide)
  exact absurd hfit (by decide)

end Fuzemsys.Bintools.Ld
