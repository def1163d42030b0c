import Fuzemsys.Fcc.StructLayout

/-!
# Members do not overlap

A size that is known stays what it is, so that the members keep the room that was made for them.
-/

namespace Fuzemsys.Fcc.StructLayout

variable {T : Target} {st st' : State} {t : CType} {n d bound : Nat} {s s' : Unsigned} {r : Record} {f g : Field}

/-! ## Rounding up -/

theorem mask_toNat (x : Unsigned) {k : Nat} (hk : k < 32) :
    (x &&& ~~~(BitVec.ofNat 32 (2 ^ k) - 1)).toNat = x.toNat / 2 ^ k * 2 ^ k := by
  have hpow : 2 ^ k < 2 ^ 32 := Nat.pow_lt_pow_right (by decide) hk
  have hpos : 0 < 2 ^ k := Nat.two_pow_pos k
  have hlow : (BitVec.ofNat 32 (2 ^ k) - 1).toNat = 2 ^ k - 1 := by
    have hone : (1 : Unsigned).toNat = 1 := rfl
    rw [BitVec.toNat_sub, BitVec.toNat_ofNat, Nat.mod_eq_of_lt hpow, hone]
    omega
  have hshift : x &&& ~~~(BitVec.ofNat 32 (2 ^ k) - 1) = (x >>> k) <<< k := by
    apply BitVec.eq_of_getLsbD_eq
    intro i hi
    have hbit : (BitVec.ofNat 32 (2 ^ k) - 1).getLsbD i = decide (i < k) := by
      rw [← BitVec.testBit_toNat, hlow, Nat.testBit_two_pow_sub_one]
    rw [BitVec.getLsbD_and, BitVec.getLsbD_not, hbit, BitVec.getLsbD_shiftLeft, BitVec.getLsbD_ushiftRight]
    by_cases hik : i < k
    · simp [hik]
    · simp [hik, hi, Nat.add_sub_of_le (Nat.le_of_not_lt hik)]
  have hx := x.isLt
  have hle := Nat.div_mul_le_self x.toNat (2 ^ k)
  rw [hshift, BitVec.toNat_shiftLeft, BitVec.toNat_ushiftRight, Nat.shiftRight_eq_div_pow, Nat.shiftLeft_eq,
    Nat.mod_eq_of_lt (by omega)]

/-- The member goes to the next place that its alignment allows. -/
theorem alloc_room_right {p : Unsigned}
    (hroom : p.toNat + 2 ^ T.align t + (type_sizeof T st t 0).toNat ≤ 2 ^ 32) :
    2 ^ T.align t ∣ (alloc_room T st p t).2.toNat ∧ p.toNat ≤ (alloc_room T st p t).2.toNat ∧
      (alloc_room T st p t).1.toNat = (alloc_room T st p t).2.toNat + (type_sizeof T st t 0).toNat := by
  have hpos : 0 < 2 ^ T.align t := Nat.two_pow_pos _
  have hpow : 2 ^ T.align t < 2 ^ 32 := Nat.pow_lt_pow_right (by decide) (T.align_small t)
  have hone : (1 : Unsigned).toNat = 1 := rfl
  have hsum : (p + T.target_alignof t - 1).toNat = p.toNat + 2 ^ T.align t - 1 := by
    unfold Target.target_alignof
    rw [BitVec.toNat_sub, BitVec.toNat_add, BitVec.toNat_ofNat, Nat.mod_eq_of_lt hpow, hone]
    omega
  have hat : (alloc_room T st p t).2.toNat = (p.toNat + 2 ^ T.align t - 1) / 2 ^ T.align t * 2 ^ T.align t := by
    have hmask := mask_toNat (p + T.target_alignof t - 1) (T.align_small t)
    rw [hsum] at hmask
    exact hmask
  have hdiv := Nat.div_add_mod (p.toNat + 2 ^ T.align t - 1) (2 ^ T.align t)
  have hmod := Nat.mod_lt (p.toNat + 2 ^ T.align t - 1) hpos
  rw [Nat.mul_comm] at hdiv
  refine ⟨?_, ?_, ?_⟩
  · rw [hat]
    exact Nat.dvd_mul_left _ _
  · omega
  · have hadd : (alloc_room T st p t).1 = (alloc_room T st p t).2 + type_sizeof T st t 0 := rfl
    rw [hadd, BitVec.toNat_add]
    omega

/-! ## Sizes that are known -/

theorem arrayLoop_within (s : Unsigned) {dims : List Unsigned} (hpos : 0 < d) (hd : d ≤ dims.length) :
    ∃ s', arrayLoop s dims d = .inl s' := by
  induction dims generalizing s d with
  | nil =>
    rw [List.length_nil] at hd
    omega
  | cons x dims ih =>
    rw [List.length_cons] at hd
    unfold arrayLoop
    by_cases hone : d = 1
    · exact ⟨s * x, if_pos hone⟩
    · rw [if_neg hone]
      exact ih (s * x) (by omega) (by omega)

theorem arrayLoop_past (s : Unsigned) {dims : List Unsigned} (hd : dims.length < d) :
    arrayLoop s dims d = .inr (d - dims.length) := by
  induction dims generalizing s d with
  | nil => rfl
  | cons x dims ih =>
    rw [List.length_cons] at hd
    unfold arrayLoop
    rw [if_neg (by omega), ih (s * x) (by omega), List.length_cons]
    congr 1
    omega

/-- The same records of these tags. -/
def Agree (st st' : State) (tags : List Nat) : Prop := ∀ tag ∈ tags, st'.records tag = st.records tag

/-- A size depends on the tags that the type holds. -/
theorem type_sizeof_agree (h : Agree st st' (t.holds n)) : type_sizeof T st' t n = type_sizeof T st t n := by
  induction t generalizing n with
  | simple code ptr => rfl
  | struct tag ptr =>
    unfold type_sizeof
    by_cases hptr : ptr + n = 0
    · have hholds : (CType.struct tag ptr).holds n = [tag] := if_pos hptr
      rw [hholds] at h
      rw [h tag (List.mem_singleton_self tag)]
    · rw [if_pos hptr, if_pos hptr]
  | array elem dims ptr ih =>
    unfold type_sizeof
    by_cases hwithin : ptr + n + 1 ≤ dims.length
    · have hholds : (CType.array elem dims ptr).holds n = elem.holds 0 := if_pos hwithin
      rw [hholds] at h
      obtain ⟨s, hs⟩ := arrayLoop_within (type_sizeof T st elem 0) (Nat.succ_pos (ptr + n))
        (hwithin.trans_eq dims.length_reverse.symm)
      rw [ih h, hs]
    · have hholds : (CType.array elem dims ptr).holds n = elem.holds (ptr + n + 1 - dims.length + 1) := if_neg hwithin
      have hpast : dims.reverse.length < ptr + n + 1 := by
        rw [List.length_reverse]
        omega
      rw [hholds] at h
      rw [arrayLoop_past _ hpast, arrayLoop_past _ hpast, List.length_reverse]
      exact ih h

theorem sized_holds (h : Sized st t n = true) : ∀ tag ∈ t.holds n, (st.records tag).INITIALIZED = true := by
  induction t generalizing n with
  | simple code ptr => rintro tag ⟨⟩
  | struct tag ptr =>
    intro held hheld
    unfold CType.holds at hheld
    by_cases hptr : ptr + n = 0
    · rw [if_pos hptr] at hheld
      rw [List.mem_singleton.1 hheld]
      simpa [Sized, hptr] using h
    · rw [if_neg hptr] at hheld
      cases hheld
  | array elem dims ptr ih =>
    unfold Sized at h
    obtain ⟨helem, hrest⟩ := Bool.and_eq_true_iff.1 h
    unfold CType.holds
    by_cases hwithin : ptr + n + 1 ≤ dims.length
    · rw [if_pos hwithin]
      exact ih helem
    · rw [if_neg hwithin]
      rw [decide_eq_false hwithin, Bool.false_or] at hrest
      exact ih hrest

/-! ## Layouts that are kept -/

theorem Field.Ends.agree (h : f.Ends T st bound) (hagree : Agree st st' (f.type.holds 0)) : f.Ends T st' bound := by
  unfold Field.Ends
  rw [type_sizeof_agree hagree]
  exact h

theorem Record.Laid.agree (h : r.Laid T st) (hagree : ∀ f ∈ r.fields, Agree st st' (f.type.holds 0)) : r.Laid T st' where
  names := h.names
  inside f hf := (h.inside f hf).agree (hagree f hf)
  apart hstruct := (h.apart hstruct).imp_of_mem fun hf _ hends => hends.agree (hagree _ hf)
  aligned := h.aligned
  first := h.first

/-- A new member behind the others, or beside them. -/
theorem struct_add_field_laid (h : r.Laid T st) {name : Nat} (hname : name ∉ r.fields.map Field.name)
    (hroom : r.union = false → r.size.toNat + 2 ^ T.align t + (type_sizeof T st t 0).toNat ≤ 2 ^ 32) :
    (struct_add_field T st r name t).Laid T st := by
  have hnames : ∀ offset, ((r.fields ++ [(⟨name, t, offset⟩ : Field)]).map Field.name).Nodup := by
    intro offset
    rw [List.map_append, List.nodup_append]
    refine ⟨h.names, List.nodup_singleton _, ?_⟩
    rintro a ha b hb rfl
    rw [List.mem_singleton.1 hb] at ha
    exact hname ha
  unfold struct_add_field
  cases hunion : r.union with
  | true =>
    rw [if_pos rfl]
    dsimp only
    have hgrown : r.size.toNat ≤ (if r.size < type_sizeof T st t 0 then type_sizeof T st t 0 else r.size).toNat ∧
        (type_sizeof T st t 0).toNat ≤ (if r.size < type_sizeof T st t 0 then type_sizeof T st t 0 else r.size).toNat := by
      by_cases hlt : r.size < type_sizeof T st t 0
      · rw [if_pos hlt]
        exact ⟨hlt.le, le_rfl⟩
      · rw [if_neg hlt]
        exact ⟨le_rfl, not_lt.1 hlt⟩
    refine ⟨?_, ?_, ?_, ?_, ?_⟩
    · exact hnames 0
    · intro f hf
      rcases List.mem_append.1 hf with hf | hf
      · exact (h.inside f hf).trans hgrown.1
      · rw [List.mem_singleton.1 hf]
        have hzero : (0 : Unsigned).toNat = 0 := rfl
        unfold Field.Ends
        dsimp only
        omega
    · rintro ⟨⟩
    · rintro ⟨⟩
    · intro _ f hf
      rcases List.mem_append.1 hf with hf | hf
      · exact h.first hunion f hf
      · rw [List.mem_singleton.1 hf]
  | false =>
    rw [if_neg Bool.false_ne_true]
    dsimp only
    obtain ⟨haligned, hbehind, hsize⟩ := alloc_room_right (hroom hunion)
    refine ⟨?_, ?_, ?_, ?_, ?_⟩
    · exact hnames _
    · intro f hf
      rcases List.mem_append.1 hf with hf | hf
      · have hends := h.inside f hf
        unfold Field.Ends at hends ⊢
        dsimp only
        omega
      · rw [List.mem_singleton.1 hf]
        exact hsize.ge
    · intro _
      rw [List.pairwise_append]
      refine ⟨h.apart hunion, List.pairwise_singleton _ _, ?_⟩
      intro f hf g hg
      rw [List.mem_singleton.1 hg]
      exact (h.inside f hf).trans hbehind
    · intro _ f hf
      rcases List.mem_append.1 hf with hf | hf
      · exact h.aligned hunion f hf
      · rw [List.mem_singleton.1 hf]
        exact haligned
    · rintro ⟨⟩

/-! ## Steps -/

/-- What every step keeps: the members are laid out, and complete. -/
structure Right (T : Target) (st : State) : Prop where
  opened : ∀ tag ∈ st.open_tags, (st.records tag).INITIALIZED = true
  laid : ∀ tag, (st.records tag).INITIALIZED = true → (st.records tag).Laid T st
  complete : ∀ tag, (st.records tag).INITIALIZED = true → ∀ f ∈ (st.records tag).fields,
    ∀ held ∈ f.type.holds 0, Closed st held

theorem start_right (T : Target) (union : Nat → Bool) : Right T (start union) := by
  refine ⟨?_, ?_, ?_⟩
  · rintro tag ⟨⟩
  · rintro tag ⟨⟩
  · rintro tag ⟨⟩

theorem step_declare {tag : Nat} (h : step T st (.declare tag) = some st') : (st.records tag).INITIALIZED = false ∧
    st' = { st.set tag { st.records tag with INITIALIZED := true, fields := [], size := 0 } with
      open_tags := tag :: st.open_tags } := by
  unfold step at h
  dsimp only at h
  split_ifs at h with hdone hdeep
  exact ⟨Bool.eq_false_iff.2 hdone, (Option.some.inj h).symm⟩

theorem step_field {name : Nat} (h : step T st (.field name t) = some st') : ∃ tag rest, st.open_tags = tag :: rest ∧
    name ∉ (st.records tag).fields.map Field.name ∧ Sized st t 0 = true ∧
      st' = st.set tag (struct_add_field T st (st.records tag) name t) := by
  unfold step at h
  dsimp only at h
  cases hopen : st.open_tags with
  | nil =>
    rw [hopen] at h
    cases h
  | cons tag rest =>
    rw [hopen] at h
    dsimp only at h
    split_ifs at h with hfull hname hsized
    exact ⟨tag, rest, rfl, by simpa using hname, hsized, (Option.some.inj h).symm⟩

theorem step_close (h : step T st .close = some st') : ∃ tag rest, st.open_tags = tag :: rest ∧
    st' = { st with open_tags := rest } := by
  unfold step at h
  dsimp only at h
  cases hopen : st.open_tags with
  | nil =>
    rw [hopen] at h
    cases h
  | cons tag rest =>
    rw [hopen] at h
    exact ⟨tag, rest, rfl, (Option.some.inj h).symm⟩

theorem struct_add_field_keeps (T : Target) (st : State) (r : Record) (name : Nat) (t : CType) :
    (struct_add_field T st r name t).INITIALIZED = r.INITIALIZED ∧
      ∃ offset, (struct_add_field T st r name t).fields = r.fields ++ [⟨name, t, offset⟩] := by
  unfold struct_add_field
  split_ifs
  · exact ⟨rfl, _, rfl⟩
  · exact ⟨rfl, _, rfl⟩

theorem set_same (st : State) (tag : Nat) (r : Record) : (st.set tag r).records tag = r := Function.update_self ..

theorem set_other (st : State) {tag tag' : Nat} (r : Record) (h : tag' ≠ tag) :
    (st.set tag r).records tag' = st.records tag' := Function.update_of_ne h ..

/-- A declaration that is closed is not changed any more. -/
theorem step_closed {a : Step} {tag : Nat} (h : Closed st tag) (hstep : step T st a = some st') :
    st'.records tag = st.records tag ∧ Closed st' tag := by
  obtain ⟨hdone, hclosed⟩ := h
  cases a with
  | declare new =>
    obtain ⟨hnew, rfl⟩ := step_declare hstep
    have hne : tag ≠ new := by
      rintro rfl
      rw [hdone] at hnew
      cases hnew
    have hsame := set_other st { st.records new with INITIALIZED := true, fields := [], size := 0 } hne
    refine ⟨hsame, ?_, ?_⟩
    · exact (congrArg Record.INITIALIZED hsame).trans hdone
    · exact fun hmem => (List.mem_cons.1 hmem).elim hne hclosed
  | field name t =>
    obtain ⟨new, rest, hopen, -, -, rfl⟩ := step_field hstep
    have hne : tag ≠ new := by
      rintro rfl
      exact hclosed (by rw [hopen]; exact List.mem_cons_self)
    have hsame := set_other st (struct_add_field T st (st.records new) name t) hne
    exact ⟨hsame, (congrArg Record.INITIALIZED hsame).trans hdone, hclosed⟩
  | close =>
    obtain ⟨new, rest, hopen, rfl⟩ := step_close hstep
    refine ⟨rfl, hdone, fun hmem => hclosed ?_⟩
    rw [hopen]
    exact List.mem_cons_of_mem _ hmem

/-- The members that a record had are as complete as before. -/
theorem Right.kept {a : Step} {tag : Nat} (h : Right T st) (hstep : step T st a = some st')
    (htag : (st.records tag).INITIALIZED = true) {f : Field} (hf : f ∈ (st.records tag).fields) :
    Agree st st' (f.type.holds 0) ∧ ∀ held ∈ f.type.holds 0, Closed st' held :=
  ⟨fun held hmem => (step_closed (h.complete tag htag f hf held hmem) hstep).1,
    fun held hmem => (step_closed (h.complete tag htag f hf held hmem) hstep).2⟩

/-- A step that changes one record at most keeps the layout of the others. -/
theorem Right.replace {a : Step} {new : Nat} (h : Right T st) (hstep : step T st a = some st')
    (hother : ∀ tag, tag ≠ new → st'.records tag = st.records tag)
    (hopened : ∀ tag ∈ st'.open_tags, tag = new ∨ tag ∈ st.open_tags) (hinit : (st'.records new).INITIALIZED = true)
    (hlaid : (st'.records new).Laid T st')
    (hcomplete : ∀ f ∈ (st'.records new).fields, ∀ held ∈ f.type.holds 0, Closed st' held) : Right T st' := by
  refine ⟨?_, ?_, ?_⟩
  · intro tag htag
    by_cases hnew : tag = new
    · rw [hnew, hinit]
    · rw [hother tag hnew]
      exact h.opened tag ((hopened tag htag).resolve_left hnew)
  · intro tag htag
    by_cases hnew : tag = new
    · rw [hnew]
      exact hlaid
    · rw [hother tag hnew] at htag ⊢
      exact (h.laid tag htag).agree fun f hf => (h.kept hstep htag hf).1
  · intro tag htag
    by_cases hnew : tag = new
    · rw [hnew]
      exact hcomplete
    · rw [hother tag hnew] at htag ⊢
      exact fun f hf => (h.kept hstep htag hf).2

theorem step_right {a : Step} (h : Right T st) (hcomplete : Complete T st a) (hstep : step T st a = some st') :
    Right T st' := by
  cases a with
  | declare new =>
    obtain ⟨-, heq⟩ := step_declare hstep
    have hempty : st'.records new = { st.records new with INITIALIZED := true, fields := [], size := 0 } := by
      rw [heq]
      exact set_same st new _
    refine h.replace hstep ?_ ?_ (by rw [hempty]) ?_ ?_
    · intro tag hne
      rw [heq]
      exact set_other st _ hne
    · intro tag htag
      rw [heq] at htag
      exact List.mem_cons.1 htag
    · rw [hempty]
      refine ⟨List.nodup_nil, ?_, fun _ => List.Pairwise.nil, ?_, ?_⟩
      · rintro f ⟨⟩
      · rintro _ f ⟨⟩
      · rintro _ f ⟨⟩
    · rw [hempty]
      rintro f ⟨⟩
  | field name t =>
    obtain ⟨new, rest, hopen, hname, hsized, heq⟩ := step_field hstep
    obtain ⟨hfree, hroom⟩ := hcomplete
    have hnew : (st.records new).INITIALIZED = true := h.opened new (by rw [hopen]; exact List.mem_cons_self)
    have hadded : st'.records new = struct_add_field T st (st.records new) name t := by
      rw [heq]
      exact set_same st new _
    obtain ⟨hinit, offset, hfields⟩ := struct_add_field_keeps T st (st.records new) name t
    have hclosed : ∀ held ∈ t.holds 0, Closed st held := fun held hmem =>
      ⟨sized_holds hsized held hmem, hfree held hmem⟩
    have hmember : ∀ f ∈ (st'.records new).fields,
        Agree st st' (f.type.holds 0) ∧ ∀ held ∈ f.type.holds 0, Closed st' held := by
      intro f hf
      rw [hadded, hfields] at hf
      rcases List.mem_append.1 hf with hf | hf
      · exact h.kept hstep hnew hf
      · rw [List.mem_singleton.1 hf]
        exact ⟨fun held hmem => (step_closed (hclosed held hmem) hstep).1,
          fun held hmem => (step_closed (hclosed held hmem) hstep).2⟩
    refine h.replace hstep ?_ ?_ (by rw [hadded, hinit, hnew]) ?_ fun f hf => (hmember f hf).2
    · intro tag hne
      rw [heq]
      exact set_other st _ hne
    · intro tag htag
      rw [heq] at htag
      exact Or.inr htag
    · have hlaid := struct_add_field_laid (h.laid new hnew) hname (hroom new (by rw [hopen]; rfl))
      rw [← hadded] at hlaid
      exact hlaid.agree fun f hf => (hmember f hf).1
  | close =>
    obtain ⟨new, rest, hopen, heq⟩ := step_close hstep
    have hsame : ∀ tag, st'.records tag = st.records tag := by
      intro tag
      rw [heq]
    have hnew : (st.records new).INITIALIZED = true := h.opened new (by rw [hopen]; exact List.mem_cons_self)
    refine h.replace hstep (fun tag _ => hsame tag) ?_ (by rw [hsame, hnew]) ?_ ?_
    · intro tag htag
      rw [heq] at htag
      rw [hopen]
      exact Or.inr (List.mem_cons_of_mem _ htag)
    · rw [hsame]
      exact (h.laid new hnew).agree fun f hf => (h.kept hstep hnew hf).1
    · rw [hsame]
      exact fun f hf => (h.kept hstep hnew hf).2

/-! ## Runs -/

theorem run_right (steps : List Step) (h : Right T st) (hcomplete : AllComplete T steps st)
    (hrun : run T steps st = some st') : Right T st' := by
  induction steps generalizing st with
  | nil =>
    cases hrun
    exact h
  | cons a steps ih =>
    obtain ⟨st₁, hstep, hrest⟩ := Option.bind_eq_some_iff.1 hrun
    exact ih (step_right h hcomplete.1 hstep) (hcomplete.2 st₁ hstep) hrest

/-- Words and pointers of two bytes, at any address. -/
def words : Target := ⟨fun _ => 2, 2, fun _ => 0, fun _ => by decide⟩

def pair : List Step := [.declare 0, .field 0 (.simple 0 0), .field 1 (.simple 0 0), .close]

end Fuzemsys.Fcc.StructLayout
