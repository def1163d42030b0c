import Mathlib.Tactic.Ring
import Fuzemsys.Bintools.Archive

/-!
# What comes out of an archive

A list and an extraction of the members that were appended. An empty file gets no padding, and `skip_arobj` skips some;
a long name counts for the padding that is written, and not for the one that is read.
-/

namespace Fuzemsys.Bintools.Ar

open Fuzemsys.Libs.Ltostr (digitsOf digitsOf_value digitsOf_lt)

/-! ## Numbers in fields -/

section
variable {radix : Nat}

theorem digits_count (k v : Nat) (hv : v < radix ^ (k + 1)) : (digitsOf radix v).length ≤ k + 1 := by
  induction k generalizing v with
  | zero =>
    rw [digitsOf, if_pos (Or.inr (Nat.div_eq_of_lt (by simpa using hv)))]
    simp
  | succ k ih =>
    rw [digitsOf]
    split
    · simp
    · have hdiv : v / radix < radix ^ (k + 1) := Nat.div_lt_of_lt_mul (by rwa [pow_succ'] at hv)
      have := ih (v / radix) hdiv
      simpa using this

theorem number_length {k v : Nat} (hv : v < radix ^ k) (hk : 0 < k) : (number radix v).length ≤ k := by
  obtain ⟨k, rfl⟩ := Nat.exists_eq_succ_of_ne_zero (Nat.ne_of_gt hk)
  simpa [number] using digits_count k v hv

theorem digit_toNat {d : Nat} (hd : d < 10) : (BitVec.ofNat 8 (48 + d)).toNat = 48 + d := by
  simp
  omega

theorem number_digit (h : 2 ≤ radix) (hten : radix ≤ 10) (v : Nat) : ∀ c ∈ number radix v, isDigit radix c = true := by
  intro c hc
  obtain ⟨d, hd, rfl⟩ := List.mem_map.1 hc
  have hlt := digitsOf_lt h v d hd
  unfold isDigit
  rw [digit_toNat (by omega)]
  simpa using hlt

theorem number_value (h : 2 ≤ radix) (hten : radix ≤ 10) (v : Nat) :
    (number radix v).foldl (fun v c => v * radix + (c.toNat - 48)) 0 = v := by
  have hfold (ds : List Nat) (n : Nat) (hds : ∀ d ∈ ds, d < 10) :
      (ds.map fun d => (BitVec.ofNat 8 (48 + d) : Byte)).foldl (fun v c => v * radix + (c.toNat - 48)) n =
        ds.foldl (fun n d => n * radix + d) n := by
    induction ds generalizing n with
    | nil => rfl
    | cons d ds ih =>
      rw [List.map_cons, List.foldl_cons, List.foldl_cons, digit_toNat (hds d (by simp)), Nat.add_sub_cancel_left]
      exact ih _ fun e he => hds e (by simp [he])
  unfold number
  rw [hfold _ 0 fun d hd => Nat.lt_of_lt_of_le (digitsOf_lt h v d hd) hten]
  exact digitsOf_value h v

theorem number_ne_nil (v : Nat) : number radix v ≠ [] := by
  unfold number digitsOf
  split <;> simp

/-- A number is read back up to what follows it. -/
theorem atoi_number (h : 2 ≤ radix) (hten : radix ≤ 10) (v : Nat) {t : List Byte}
    (ht : ∀ c ∈ t.head?, isDigit radix c = false) : atoi radix (number radix v ++ t) = v := by
  have hall := number_digit h hten v
  obtain ⟨c, cs, hcs⟩ := List.exists_cons_of_ne_nil ((number_ne_nil v : number radix v ≠ []))
  have hc := hall c (by simp [hcs])
  have hrange : 48 ≤ c.toNat ∧ c.toNat < 58 := by
    unfold isDigit at hc
    simp at hc
    omega
  have hdigits : digits radix (number radix v ++ t) = v := by
    unfold digits
    have hnone : t.takeWhile (isDigit radix) = [] := by
      cases t with
      | nil => rfl
      | cons c t => simp [ht c (by simp)]
    rw [List.takeWhile_append_of_pos hall, hnone, List.append_nil]
    exact number_value h hten v
  have hneg : ¬decide (c = blank ∨ 9 ≤ c.toNat ∧ c.toNat ≤ 13) = true := by
    rw [decide_eq_true_eq]
    rintro (rfl | hle)
    · simp [blank] at hrange
    · omega
  have hdrop : (number radix v ++ t).dropWhile (fun c => c = blank ∨ 9 ≤ c.toNat ∧ c.toNat ≤ 13) =
      number radix v ++ t := by
    rw [hcs, List.cons_append]
    exact List.dropWhile_cons_of_neg hneg
  have hminus : c ≠ 45 := by
    rintro rfl
    simp at hrange
  have hplus : c ≠ 43 := by
    rintro rfl
    simp at hrange
  unfold atoi
  rw [hdrop]
  rw [hcs, List.cons_append] at hdigits ⊢
  split
  · next heq => exact absurd (List.cons.inj heq).1 hminus
  · next heq => exact absurd (List.cons.inj heq).1 hplus
  · exact congrArg _ hdigits

theorem atoi_left (h : 2 ≤ radix) (hten : radix ≤ 10) (n v : Nat) : atoi radix (left n (number radix v)) = v := by
  refine atoi_number h hten v fun c hc => ?_
  have hmem := List.mem_of_mem_head? hc
  rw [List.mem_replicate] at hmem
  rw [hmem.2]
  unfold isDigit blank
  simp

end

theorem left_length {n : Nat} {t : List Byte} (h : t.length ≤ n) : (left n t).length = n := by
  unfold left
  rw [List.length_append, List.length_replicate]
  omega

/-! ## Headers -/

theorem field_middle {s n : Nat} {a b c : List Byte} (ha : a.length = s) (hb : b.length = n) :
    field s n (a ++ (b ++ c)) = b := by
  unfold field
  rw [List.drop_left' ha, List.take_left' hb]

theorem trailing_blanks (t : List Byte) (k : Nat) :
    (t ++ List.replicate k blank).rdropWhile (· = blank) = t.rdropWhile (· = blank) := by
  induction k with
  | zero => simp
  | succ k ih =>
    rw [List.replicate_succ', ← List.append_assoc, List.rdropWhile_concat_pos _ _ _ (by simp), ih]

/-- What is written into the header fits its fields, and what is read back from them an `int` or a `long`. -/
structure Member.Fits (m : Member) : Prop where
  name : m.name ≠ []
  short : m.name.length ≤ MAXNAMLEN
  slash : 47 ∉ m.name
  mtime : m.mtime < 2 ^ 31
  uid : m.uid < 2 ^ 15
  gid : m.gid < 2 ^ 15
  mode : m.mode < 65536
  size : m.data.length + m.name.length < 2 ^ 31

def Member.chdr (m : Member) : Chdr :=
  ⟨m.data.length, m.mtime, m.lname, m.gid, m.uid, m.mode, m.name⟩

theorem Member.lname_le (m : Member) : m.lname ≤ m.name.length := by
  unfold lname
  split <;> omega

section
variable {m : Member} (hm : m.Fits)
include hm

theorem Member.Fits.name_digits : (number 10 m.name.length).length ≤ 2 :=
  number_length (Nat.lt_of_le_of_lt hm.short (by decide)) (by decide)

theorem Member.Fits.nameField_length : m.nameField.length = 16 := by
  unfold nameField
  split
  · have hlen := hm.name_digits
    rw [List.length_append, left_length (by omega)]
    rfl
  · exact left_length (by rw [List.length_take]; omega)

theorem Member.Fits.mtime_length : (left 12 (number 10 m.mtime)).length = 12 :=
  left_length (number_length (Nat.lt_of_lt_of_le hm.mtime (by decide)) (by decide))

theorem Member.Fits.uid_length : (left 6 (number 10 m.uid)).length = 6 :=
  left_length (number_length (Nat.lt_of_lt_of_le hm.uid (by decide)) (by decide))

theorem Member.Fits.gid_length : (left 6 (number 10 m.gid)).length = 6 :=
  left_length (number_length (Nat.lt_of_lt_of_le hm.gid (by decide)) (by decide))

theorem Member.Fits.mode_length : (left 8 (number 8 m.mode)).length = 8 :=
  left_length (number_length (Nat.lt_of_lt_of_le hm.mode (by decide)) (by decide))

theorem Member.Fits.size_length : (left 10 (number 10 (m.data.length + m.lname))).length = 10 := by
  have hsize := hm.size
  have hlname := m.lname_le
  exact left_length (number_length (by omega) (by decide))

theorem Member.Fits.header_length : m.header.length = 60 := by
  unfold header
  simp only [List.length_append, hm.nameField_length, hm.mtime_length, hm.uid_length, hm.gid_length, hm.mode_length,
    hm.size_length]
  rfl

/-- The fields of a header, wherever it stands. -/
theorem Member.Fits.fields :
    m.header.take 16 = m.nameField ∧ field 16 12 m.header = left 12 (number 10 m.mtime) ∧
      field 28 6 m.header = left 6 (number 10 m.uid) ∧ field 34 6 m.header = left 6 (number 10 m.gid) ∧
      field 40 8 m.header = left 8 (number 8 m.mode) ∧
      field 48 10 m.header = left 10 (number 10 (m.data.length + m.lname)) ∧ field 58 2 m.header = ARFMAG := by
  have h₀ := hm.nameField_length
  have h₁ := hm.mtime_length
  have h₂ := hm.uid_length
  have h₃ := hm.gid_length
  have h₄ := hm.mode_length
  have h₅ := hm.size_length
  unfold header
  generalize m.nameField = f₀ at h₀ ⊢
  generalize left 12 (number 10 m.mtime) = f₁ at h₁ ⊢
  generalize left 6 (number 10 m.uid) = f₂ at h₂ ⊢
  generalize left 6 (number 10 m.gid) = f₃ at h₃ ⊢
  generalize left 8 (number 8 m.mode) = f₄ at h₄ ⊢
  generalize left 10 (number 10 (m.data.length + m.lname)) = f₅ at h₅ ⊢
  refine ⟨List.take_left' h₀, field_middle h₀ h₁, ?_, ?_, ?_, ?_, ?_⟩
  · rw [← List.append_assoc]
    exact field_middle (by simp [h₀, h₁]) h₂
  · rw [← List.append_assoc, ← List.append_assoc]
    exact field_middle (by simp [h₀, h₁, h₂]) h₃
  · rw [← List.append_assoc, ← List.append_assoc, ← List.append_assoc]
    exact field_middle (by simp [h₀, h₁, h₂, h₃]) h₄
  · rw [← List.append_assoc, ← List.append_assoc, ← List.append_assoc, ← List.append_assoc]
    exact field_middle (by simp [h₀, h₁, h₂, h₃, h₄]) h₅
  · rw [← List.append_assoc, ← List.append_assoc, ← List.append_assoc, ← List.append_assoc, ← List.append_assoc,
      ← List.append_nil ARFMAG]
    exact field_middle (by simp [h₀, h₁, h₂, h₃, h₄, h₅]) rfl

theorem Member.Fits.long (hlong : m.isLong = true) : m.nameField.take 1 ≠ [blank] ∧ m.nameField.take 3 = AR_EFMT1 ∧
    atoi 10 (m.header.drop 3) = m.name.length ∧ m.lname = m.name.length := by
  have hfield : m.nameField = AR_EFMT1 ++ left 13 (number 10 m.name.length) := if_pos hlong
  refine ⟨?_, ?_, ?_, if_pos hlong⟩
  · rw [hfield]
    simp [AR_EFMT1, blank]
  · rw [hfield]
    rfl
  · unfold header
    rw [hfield, List.append_assoc]
    change atoi 10 (left 13 (number 10 m.name.length) ++ _) = _
    rw [left, List.append_assoc]
    refine atoi_number (by decide) (by decide) _ fun c hc => ?_
    have hlen := number_length (k := 2) (Nat.lt_of_le_of_lt hm.short (by decide) : m.name.length < 10 ^ 2) (by decide)
    obtain ⟨k, hk⟩ : ∃ k, 13 - (number 10 m.name.length).length = k + 1 :=
      ⟨12 - (number 10 m.name.length).length, by omega⟩
    rw [hk, List.replicate_succ] at hc
    simp at hc
    rw [← hc]
    decide

theorem Member.Fits.plain (hlong : m.isLong = false) : m.nameField.take 1 ≠ [blank] ∧ m.nameField.take 3 ≠ AR_EFMT1 ∧
    m.nameField.rdropWhile (· = blank) = m.name ∧ m.lname = 0 := by
  have hnot : ¬m.isLong = true := by simp [hlong]
  obtain ⟨hlen, hblank⟩ : m.name.length ≤ 16 ∧ blank ∉ m.name := by
    unfold isLong at hlong
    simpa using hlong
  have hfield : m.nameField = m.name ++ List.replicate (16 - m.name.length) blank := by
    unfold nameField
    rw [if_neg hnot, List.take_of_length_le hlen, left]
  have hlast : m.name.rdropWhile (· = blank) = m.name := by
    rw [List.rdropWhile_eq_self_iff]
    intro hne heq
    exact hblank (by simpa using (of_decide_eq_true heq) ▸ List.getLast_mem hne)
  refine ⟨?_, ?_, ?_, if_neg hnot⟩
  · obtain ⟨c, cs, hcs⟩ := List.exists_cons_of_ne_nil hm.name
    rw [hfield, hcs]
    intro heq
    simp at heq
    exact hblank (by simp [hcs, heq])
  · intro heq
    have hslash : (47 : Byte) ∈ m.nameField := List.mem_of_mem_take (heq ▸ (by decide : (47 : Byte) ∈ AR_EFMT1))
    rw [hfield, List.mem_append] at hslash
    rcases hslash with hin | hin
    · exact hm.slash hin
    · exact absurd (List.eq_of_mem_replicate hin) (by decide)
  · rw [hfield, trailing_blanks, hlast]

/-- The header read at a member is the one that was written. -/
theorem Member.Fits.get_arobj {before after file : List Byte} (hfile : file = before ++ (put_arobj m ++ after)) :
    Ar.get_arobj file before.length = .ok (m.chdr, before.length + 60 + m.lname) := by
  obtain ⟨hname, hmtime, huid, hgid, hmode, hsize, hfmag⟩ := hm.fields
  have hlen := hm.header_length
  have hput : put_arobj m = m.header ++ (m.name.take m.lname ++ m.copied) := by
    unfold put_arobj
    rw [List.take_of_length_le (by omega)]
  have hheader : field before.length 60 file = m.header := by
    rw [hfile, hput, List.append_assoc]
    exact field_middle rfl hlen
  have hlname := m.lname_le
  have hlongname : field (before.length + 60) m.lname file = m.name.take m.lname := by
    rw [hfile, hput]
    simp only [List.append_assoc]
    rw [← List.append_assoc before]
    exact field_middle (by rw [List.length_append, hlen]) (by rw [List.length_take]; omega)
  have hne : m.header ≠ [] := by
    intro heq
    rw [heq] at hlen
    simp at hlen
  have hfirst : m.header.take 1 = m.nameField.take 1 := by rw [← hname, List.take_take]; rfl
  have hthree : m.header.take 3 = m.nameField.take 3 := by rw [← hname, List.take_take]; rfl
  unfold Ar.get_arobj
  simp only [hheader, if_neg hne, hlen, hfmag, hmtime, huid, hgid, hmode, hsize, hfirst, hthree, hname, ne_eq,
    not_true_eq_false, if_false, atoi_left (by decide : 2 ≤ 10) (by decide), atoi_left (by decide : 2 ≤ 8) (by decide)]
  have hmode : (m.mode : Int) % 65536 = m.mode := by
    have := hm.mode
    omega
  cases hlong : m.isLong with
  | true =>
    obtain ⟨hone, hmark, hread, heq⟩ := hm.long hlong
    have hpos := List.length_pos_iff.2 hm.name
    have hshort := hm.short
    have hfield : (field (before.length + 60) m.name.length file).length = m.name.length := by
      rw [← heq, hlongname, heq, List.take_length]
    have htext : field (before.length + 60) m.name.length file = m.name := by
      rw [← heq, hlongname, heq, List.take_length]
    rw [if_neg hone, if_pos hmark, hread, if_neg (by omega), Int.toNat_natCast, if_neg (by rw [hfield]; simp), htext,
      hmode, Member.chdr, heq]
    simp
  | false =>
    obtain ⟨hone, hmark, hread, heq⟩ := hm.plain hlong
    rw [if_neg hone, if_neg hmark, hread, hmode, Member.chdr, heq]
    simp

end

/-! ## A list and an extraction -/

/-- What `copy_ar` adds behind the bytes. -/
def Member.pad (m : Member) : List Byte :=
  if m.data ≠ [] ∧ (m.data.length + m.lname) % 2 = 1 then [10] else []

theorem Member.copied_eq (m : Member) : m.copied = m.data ++ m.pad := by
  unfold copied pad
  by_cases hdata : m.data = []
  · simp [hdata]
  · simp [hdata]

section
variable {m : Member} (hm : m.Fits)
include hm

theorem Member.Fits.put_arobj_eq : put_arobj m = (m.header ++ m.name.take m.lname) ++ (m.data ++ m.pad) := by
  unfold put_arobj
  rw [List.take_of_length_le (by rw [hm.header_length]), m.copied_eq, List.append_assoc]

theorem Member.Fits.start_length : (m.header ++ m.name.take m.lname).length = 60 + m.lname := by
  have hlname := m.lname_le
  rw [List.length_append, hm.header_length, List.length_take]
  omega

theorem Member.Fits.put_arobj_length : (put_arobj m).length = 60 + m.lname + (m.data.length + m.pad.length) := by
  rw [hm.put_arobj_eq, List.length_append, hm.start_length, List.length_append]

/-- The bytes of a member, and what stands behind them. -/
theorem Member.Fits.reads {before after file : List Byte} (hfile : file = before ++ (put_arobj m ++ after)) :
    field (before.length + 60 + m.lname) m.data.length file = m.data ∧
      file.drop (before.length + 60 + m.lname + m.data.length) = m.pad ++ after := by
  have hstart := hm.start_length
  have hsplit : file = (before ++ (m.header ++ m.name.take m.lname)) ++ (m.data ++ (m.pad ++ after)) := by
    rw [hfile, hm.put_arobj_eq]
    simp
  have hlen : (before ++ (m.header ++ m.name.take m.lname)).length = before.length + 60 + m.lname := by
    rw [List.length_append, hstart]
    omega
  refine ⟨?_, ?_⟩
  · rw [hsplit]
    exact field_middle hlen rfl
  · rw [hsplit, ← List.append_assoc]
    exact List.drop_left' (by rw [List.length_append, hlen])

/-- `skip_arobj` goes to the next member, or one byte past its start: an empty file has no padding. -/
theorem Member.Fits.skip_arobj (n : Nat) : Ar.skip_arobj m.chdr (n + 60 + m.lname) =
    .ok (n + (put_arobj m).length + if m.data = [] ∧ m.lname % 2 = 1 then 1 else 0) := by
  have hlen := hm.put_arobj_length
  have hsum : (n + 60 + m.lname : Nat) + (m.chdr.size + (m.chdr.size + m.chdr.lname) % 2) =
      ((n + 60 + m.lname + (m.data.length + (m.data.length + m.lname) % 2) : Nat) : Int) := by
    unfold chdr
    push_cast
    ring
  unfold Ar.skip_arobj
  rw [hsum, if_neg (by omega), Int.toNat_natCast]
  congr 1
  rw [hlen]
  unfold pad
  by_cases hdata : m.data = []
  · by_cases hodd : m.lname % 2 = 1
    · simp [hdata, hodd, Nat.add_assoc]
    · have heven : m.lname % 2 = 0 := by omega
      simp [hdata, heven, Nat.add_assoc]
  · have := List.length_pos_iff.2 hdata
    simp only [hdata, ne_eq, not_false_eq_true, true_and, false_and, if_false]
    split
    · next h => simp [h]; omega
    · next h => simp; omega

end

end Fuzemsys.Bintools.Ar
