import Fuzemsys.Bintools.Ld.Relocate

/-!
# What a record puts into a raw output

In a raw output each record becomes the bytes of its field. An error that was reported
once is reported to the end.
-/

namespace Fuzemsys.Bintools.Ld

variable {lk : Linking} {o o' o'' : Output} {s s' : List Byte} {bs cs : List Byte} {rec : Record}

/-! ## Putting bytes -/

/-- Bytes at consecutive places of the output file. -/
def placedFrom : Nat → List Byte → List (Nat × Byte)
  | _, [] => []
  | pos, b :: bs => (pos, b) :: placedFrom (pos + 1) bs

theorem placedFrom_append (pos : Nat) (bs cs : List Byte) :
    placedFrom pos (bs ++ cs) = placedFrom pos bs ++ placedFrom (pos + bs.length) cs := by
  induction bs generalizing pos with
  | nil => simp [placedFrom]
  | cons b bs ih =>
    have hpos : pos + 1 + bs.length = pos + (bs.length + 1) := by omega
    simp only [List.cons_append, placedFrom, ih, List.length_cons, hpos]

theorem placedFrom_length (pos : Nat) (bs : List Byte) : (placedFrom pos bs).length = bs.length := by
  induction bs generalizing pos with
  | nil => rfl
  | cons b bs ih => rw [placedFrom, List.length_cons, ih, List.length_cons]

theorem placedFrom_bytes (pos : Nat) (bs : List Byte) : (placedFrom pos bs).map Prod.snd = bs := by
  induction bs generalizing pos with
  | nil => rfl
  | cons b bs ih => rw [placedFrom, List.map_cons, ih]

/-- From `o` to `o'` the image gets the bytes `bs`, and no error is reported. -/
structure Puts (o o' : Output) (bs : List Byte) : Prop where
  dot : o'.dot = o.dot + BitVec.ofNat 16 bs.length
  pos : o'.pos = o.pos + bs.length
  out : o'.out = o.out ++ placedFrom o.pos bs
  err : o'.err = o.err

theorem Puts.refl (o : Output) : Puts o o [] := by
  refine ⟨?_, rfl, ?_, rfl⟩
  · simp
  · simp [placedFrom]

theorem Puts.trans (h : Puts o o' bs) (h' : Puts o' o'' cs) : Puts o o'' (bs ++ cs) := by
  refine ⟨?_, ?_, ?_, h'.err.trans h.err⟩
  · rw [h'.dot, h.dot, List.length_append, BitVec.ofNat_add, BitVec.add_assoc]
  · rw [h'.pos, h.pos, List.length_append, Nat.add_assoc]
  · rw [h'.out, h.out, h.pos, placedFrom_append, List.append_assoc]

theorem fputc_advance_puts (o : Output) (b : Byte) : Puts o ((o.fputc b).advance 1) [b] := ⟨rfl, rfl, rfl, rfl⟩

/-- A word in the order of the target. -/
def orderedBytes (bigendian : Bool) (w : Word) : List Byte :=
  if bigendian then [highByte w, lowByte w] else [lowByte w, highByte w]

theorem orderedBytes_length (bigendian : Bool) (w : Word) : (orderedBytes bigendian w).length = 2 := by
  unfold orderedBytes
  split_ifs
  · rfl
  · rfl

/-- A word of the given size. -/
def sizedBytes (bigendian : Bool) (size : Nat) (w : Word) : List Byte :=
  if size = 1 then [lowByte w] else orderedBytes bigendian w

theorem targetPquoteb_raw (hraw : lk.rawstream = true) (v : Byte) (o : Output) :
    targetPquoteb lk v o = o.fputc v := by
  unfold targetPquoteb
  rw [if_neg fun h => h.2 hraw]

theorem recordReloc_puts {high : Bool} {size : Nat} {seg : Byte} {addr : Word} (h : Puts o o' bs) :
    Puts o (recordReloc lk high size seg addr o') bs := by
  simp only [recordReloc]
  split_ifs
  all_goals exact ⟨h.dot, h.pos, h.out, h.err⟩

theorem targetPut_puts (hraw : lk.rawstream = true) (r : Word) {size : Nat} (hsize : size = 1 ∨ size = 2)
    (o : Output) : Puts o ((targetPut lk r size o).advance size) (sizedBytes lk.bigendian size r) := by
  unfold targetPut sizedBytes orderedBytes
  simp only [targetPquoteb_raw hraw]
  rcases hsize with rfl | rfl
  · exact ⟨rfl, rfl, rfl, rfl⟩
  · have hword : ¬ 2 = 1 := by decide
    rw [if_neg hword, if_neg hword]
    split_ifs
    · exact ⟨rfl, rfl, by simp [Output.fputc, Output.advance, placedFrom], rfl⟩
    · exact ⟨rfl, rfl, by simp [Output.fputc, Output.advance, placedFrom], rfl⟩

/-- The relocations that a loader needs go to a file of their own. -/
theorem recordReloc_advance_puts {high : Bool} {size n : Nat} {seg : Byte} {addr : Word}
    (h : Puts o (o'.advance n) bs) : Puts o ((recordReloc lk high size seg addr o').advance n) bs := by
  simp only [recordReloc]
  split_ifs
  all_goals exact ⟨h.dot, h.pos, h.out, h.err⟩

/-! ## Reading words -/

theorem highByte_append_lowByte (w : Word) : highByte w ++ lowByte w = w := by
  unfold highByte lowByte
  apply BitVec.eq_of_getLsbD_eq
  intro i hi
  simp only [BitVec.getLsbD_append, BitVec.getLsbD_setWidth, BitVec.getLsbD_ushiftRight]
  by_cases h8 : i < 8
  · simp [h8]
  · have h16 : i - 8 < 8 := by omega
    have hsum : 8 + (i - 8) = i := by omega
    simp [h8, h16, hsum]

theorem targetGet_byte (b : Byte) (s : List Byte) : targetGet lk 1 (b :: s) = .ok (b.setWidth 16, s) := rfl

theorem targetGet_word (lk : Linking) (w : Word) (s : List Byte) :
    targetGet lk 2 (orderedBytes lk.bigendian w ++ s) = .ok (w, s) := by
  unfold targetGet orderedBytes
  cases lk.bigendian
  · simp [targetPgetb, highByte_append_lowByte]
  · simp [targetPgetb, highByte_append_lowByte]

/-- Only the low byte of a sum counts in a field of one byte. -/
theorem lowByte_add_lowByte (v w : Word) : lowByte ((lowByte v).setWidth 16 + w) = lowByte (v + w) := by
  unfold lowByte
  rw [BitVec.setWidth_add _ _ (by decide), BitVec.setWidth_add _ _ (by decide)]
  rw [BitVec.setWidth_setWidth_of_le _ (by decide), BitVec.setWidth_eq]

/-! ## Records -/

/-- The field that a record becomes in a raw output. -/
def fieldBytes (bigendian high : Bool) (size : Nat) (w : Word) : List Byte :=
  if high then [highByte w] else sizedBytes bigendian size w

theorem field_puts (hraw : lk.rawstream = true) (high : Bool) {size : Nat} (hsize : size = 1 ∨ size = 2)
    (w : Word) (o : Output) :
    Puts o ((targetPut lk (highValue lk high w) (highSize lk high size) o).advance (highSize lk high size))
      (fieldBytes lk.bigendian high size w) := by
  unfold highValue highSize fieldBytes
  cases high
  · simp only [Bool.false_eq_true, false_and, if_false]
    exact targetPut_puts hraw w hsize o
  · simp only [hraw, and_self, if_true]
    exact targetPut_puts hraw (w >>> 8) (Or.inl rfl) o

theorem or_two_ne_zero (e : Nat) : e ||| 2 ≠ 0 := by
  intro h
  have hle : 2 ≤ e ||| 2 := Nat.right_le_or
  omega

theorem or_one_ne_zero (e : Nat) : e ||| 1 ≠ 0 := by
  intro h
  have hle : 1 ≤ e ||| 1 := Nat.right_le_or
  omega

/-- A record relative to a segment. -/
theorem simpleReloc_puts (hraw : lk.rawstream = true) {r : Word} {s0 : List Byte}
    (hsize : rec.size = 1 ∨ rec.size = 2) (hget : targetGet lk rec.size s0 = .ok (r, s))
    (h : simpleReloc lk rec s0 o = .ok (s', o')) (herr : o'.err = 0) :
    ∃ hseg : (rec.code &&& S_SEGMENT).toNat < OSEG,
      rec.code &&& S_SEGMENT ≠ segByte ABSOLUTE ∧ s' = s ∧
      Puts o o' (fieldBytes lk.bigendian rec.high rec.size
        (r + lk.base ⟨(rec.code &&& S_SEGMENT).toNat, hseg⟩ - if rec.pcrel then o.dot else 0#16)) := by
  simp only [simpleReloc, hget, hraw, if_true] at h
  have herror : ∀ {o1 : Output} {bs : List Byte}, Puts { o with err := o.err ||| 2 } o1 bs → o1.err ≠ 0 := by
    intro o1 bs hputs
    rw [hputs.err]
    exact or_two_ne_zero _
  split_ifs at h with hbad hseg hpcrel hfuzix hover hover
  all_goals
    obtain ⟨rfl, rfl⟩ := Prod.mk.inj (Except.ok.inj h)
    refine ⟨hseg, fun heq => hbad (Or.inl heq), rfl, ?_⟩
  · rw [if_pos hpcrel]
    exact field_puts hraw rec.high hsize _ o
  · exact absurd herr (herror (recordReloc_advance_puts (field_puts hraw rec.high hsize _ _)))
  · rw [if_neg hpcrel, BitVec.sub_zero]
    exact recordReloc_advance_puts (field_puts hraw rec.high hsize _ o)
  · exact absurd herr (herror (field_puts hraw rec.high hsize _ _))
  · rw [if_neg hpcrel, BitVec.sub_zero]
    exact field_puts hraw rec.high hsize _ o

theorem putSymbol_puts {sym : SymRef} {w : Word} {size : Nat} {bs : List Byte}
    (h : ∀ o, Puts o ((targetPut lk w size o).advance size) bs) (s : List Byte) (o : Output) :
    Puts o (putSymbol lk rec sym w size s o).2 bs := by
  simp only [putSymbol]
  split_ifs
  · exact (recordReloc_puts (Puts.refl o)).trans (h _)
  · exact h o

theorem copyUnknown_err (hraw : lk.rawstream = true) (hmode : lk.ldmode ≠ .rflag) (sym : SymRef) :
    (copyUnknown lk rec sym s o).2.err = o.err ||| 1 := by
  simp only [copyUnknown, hraw, hmode, ne_eq, not_false_eq_true, if_true]
  split_ifs
  · rfl
  · rfl

theorem resolve_ok {sym : SymRef} {dot r w : Word} (h : resolve lk rec sym dot r = .ok w) :
    w = r + sym.value - if rec.code &&& REL_TYPE = REL_PCREL then pcOf lk.wordmachine dot else 0#16 := by
  simp only [resolve] at h
  split_ifs at h with hpcrel
  · rw [if_pos hpcrel]
    exact (Except.ok.inj h).symm
  · rw [if_neg hpcrel, BitVec.sub_zero]
    exact (Except.ok.inj h).symm

/-- A record with a symbol. One with an unknown symbol is an error in a raw output. -/
theorem symbolReloc_puts (hraw : lk.rawstream = true) (hmode : lk.ldmode ≠ .rflag) {r number : Word}
    {s0 : List Byte} (hsize : rec.size = 1 ∨ rec.size = 2)
    (hget : targetGet lk (if rec.code &&& REL_TYPE = REL_PCREL then 2 else rec.size) s0 = .ok (r, s))
    (h : symbolReloc lk rec (lowByte number :: highByte number :: s0) o = .ok (s', o')) (herr : o'.err = 0) :
    ∃ sym, lk.syment[number.toNat]? = some sym ∧ s' = s ∧
      Puts o o' (fieldBytes lk.bigendian rec.high rec.size
        (r + sym.value - if rec.code &&& REL_TYPE = REL_PCREL then pcOf lk.wordmachine o.dot else 0#16)) := by
  simp only [symbolReloc, read16, readb, highByte_append_lowByte] at h
  by_cases htype : rec.code &&& REL_TYPE ≠ REL_SYMBOL ∧ rec.code &&& REL_TYPE ≠ REL_PCREL
  · rw [if_pos htype] at h
    cases h
  rw [if_neg htype] at h
  split at h
  · cases h
  next sym hsym =>
    by_cases hunknown : unknown sym.type
    · rw [if_pos hunknown] at h
      obtain ⟨-, rfl⟩ := Prod.mk.inj (Except.ok.inj h)
      have hputs : Puts _ (putSymbol lk rec sym _ _ _ _).2 _ := putSymbol_puts
        (fun o => targetPut_puts hraw number hsize o) (copyUnknown lk rec sym s0 o).1 (copyUnknown lk rec sym s0 o).2
      exact absurd (hputs.err.symm.trans herr) (by rw [copyUnknown_err hraw hmode]; exact or_one_ne_zero _)
    · rw [if_neg hunknown, hget] at h
      simp only [hraw, not_true, false_and, if_false] at h
      split at h
      · cases h
      next w hresolve =>
        obtain ⟨rfl, rfl⟩ := Prod.mk.inj (Except.ok.inj h)
        have hw := resolve_ok hresolve
        refine ⟨sym, hsym, rfl, ?_⟩
        rw [← hw]
        exact putSymbol_puts (fun o => field_puts hraw rec.high hsize w o) s o

/-! ## Errors stay -/

section Errors

@[simp] theorem fputc_err (o : Output) (b : Byte) : (o.fputc b).err = o.err := rfl
@[simp] theorem advance_err (o : Output) (n : Nat) : (o.advance n).err = o.err := rfl

@[simp] theorem fputcs_err (o : Output) (bs : List Byte) : (o.fputcs bs).err = o.err := by
  induction bs generalizing o with
  | nil => rfl
  | cons b bs ih => exact ih (o.fputc b)

@[simp] theorem targetPquoteb_err (v : Byte) (o : Output) : (targetPquoteb lk v o).err = o.err := by
  unfold targetPquoteb
  split_ifs
  · exact fputcs_err o _
  · rfl

@[simp] theorem targetPut_err (r : Word) (size : Nat) (o : Output) : (targetPut lk r size o).err = o.err := by
  unfold targetPut
  split_ifs
  all_goals simp only [targetPquoteb_err]

@[simp] theorem recordReloc_err (high : Bool) (size : Nat) (seg : Byte) (addr : Word) (o : Output) :
    (recordReloc lk high size seg addr o).err = o.err := by
  simp only [recordReloc]
  split_ifs
  all_goals rfl

theorem or_ne_zero {e : Nat} (h : e ≠ 0) (k : Nat) : e ||| k ≠ 0 := by
  have hle : e ≤ e ||| k := Nat.left_le_or
  omega

theorem simpleReloc_err (h : simpleReloc lk rec s o = .ok (s', o')) (herr : o.err ≠ 0) : o'.err ≠ 0 := by
  simp only [simpleReloc] at h
  split_ifs at h
  all_goals
    split at h
    · cases h
    obtain ⟨-, rfl⟩ := Prod.mk.inj (Except.ok.inj h)
    simp only [advance_err, targetPut_err, recordReloc_err, fputcs_err]
    first
      | exact herr
      | split_ifs
        · exact or_ne_zero herr 2
        · first | exact herr | rwa [fputcs_err]

theorem putSymbol_err (sym : SymRef) (w : Word) (size : Nat) (s : List Byte) (o : Output) :
    (putSymbol lk rec sym w size s o).2.err = o.err := by
  simp only [putSymbol]
  split_ifs
  · simp only [advance_err, targetPut_err, recordReloc_err]
  · simp only [advance_err, targetPut_err]

theorem copyUnknown_err_ne_zero (sym : SymRef) (herr : o.err ≠ 0) : (copyUnknown lk rec sym s o).2.err ≠ 0 := by
  simp only [copyUnknown]
  split_ifs
  all_goals
    simp only [fputc_err, fputcs_err]
    first | exact herr | exact or_ne_zero herr 1

theorem symbolReloc_err (h : symbolReloc lk rec s o = .ok (s', o')) (herr : o.err ≠ 0) : o'.err ≠ 0 := by
  simp only [symbolReloc] at h
  by_cases htype : rec.code &&& REL_TYPE ≠ REL_SYMBOL ∧ rec.code &&& REL_TYPE ≠ REL_PCREL
  · rw [if_pos htype] at h
    cases h
  rw [if_neg htype] at h
  split at h
  · cases h
  next sym hsym =>
    by_cases hunknown : unknown sym.type
    · rw [if_pos hunknown] at h
      have ho : _ = o' := congrArg Prod.snd (Except.ok.inj h)
      rw [← ho, putSymbol_err]
      exact copyUnknown_err_ne_zero sym herr
    · rw [if_neg hunknown] at h
      split at h
      · cases h
      split at h
      · cases h
      have ho : _ = o' := congrArg Prod.snd (Except.ok.inj h)
      rw [← ho, putSymbol_err]
      split_ifs
      · rwa [fputcs_err]
      · exact herr

/-- The output of a turn. -/
def Turn.output : Turn → Output
  | .finished _ o => o
  | .more _ o => o

theorem ofExcept_ok {r : Except LinkError (List Byte × Output)} {t : Turn} (h : Turn.ofExcept r = .ok t) :
    ∃ s o, r = .ok (s, o) ∧ t = .more s o := by
  rcases r with e | ⟨s, o⟩
  · cases h
  · exact ⟨s, o, rfl, (Except.ok.inj h).symm⟩

theorem relocateTurn_err {code : Byte} {t : Turn} (h : relocateTurn lk code s o = .ok t) (herr : o.err ≠ 0) :
    t.output.err ≠ 0 := by
  simp only [relocateTurn] at h
  split_ifs at h
  · obtain rfl := Except.ok.inj h
    exact herr
  · obtain rfl := Except.ok.inj h
    exact herr
  · obtain rfl := Except.ok.inj h
    exact herr
  · obtain rfl := Except.ok.inj h
    simpa only [Turn.output, advance_err, fputcs_err] using herr
  · obtain ⟨s1, o1, horg, rfl⟩ := ofExcept_ok h
    simp only [setOrg] at horg
    split_ifs at horg
    all_goals
      obtain ⟨-, rfl⟩ := Prod.mk.inj (Except.ok.inj horg)
      exact herr
  · obtain ⟨s1, o1, hsimple, rfl⟩ := ofExcept_ok h
    exact simpleReloc_err hsimple herr
  · obtain ⟨s1, o1, hsymbol, rfl⟩ := ofExcept_ok h
    exact symbolReloc_err hsymbol herr

theorem relocateLoop_err {n : Nat} (h : relocateLoop lk n s o = .ok (s', o')) (herr : o.err ≠ 0) :
    o'.err ≠ 0 := by
  induction n generalizing s o with
  | zero => cases h
  | succ n ih =>
    cases s with
    | nil => cases h
    | cons code s =>
      simp only [relocateLoop] at h
      split at h
      · cases h
      · next hturn =>
        obtain ⟨-, rfl⟩ := Prod.mk.inj (Except.ok.inj h)
        exact relocateTurn_err hturn herr
      · next hturn => exact ih h (relocateTurn_err hturn herr)

end Errors

end Fuzemsys.Bintools.Ld
