import Fuzemsys.Bintools.As.Emit

/-!
# Emitters by what they emit

Each emitter adds a list of bytes to the stream of the segment, some of which are bytes
of the program, and may reserve some. The lists are functions of the operand alone.
-/

namespace Fuzemsys.Bintools.As

/-! ## Emitting -/

/-- Bytes at consecutive places. -/
def placedAt (seg : Seg) : Nat → List Byte → List Written
  | _, [] => []
  | pos, b :: bs => { pos := pos, seg := seg, byte := b } :: placedAt seg (pos + 1) bs

theorem placedAt_append (seg : Seg) (pos : Nat) (bs cs : List Byte) :
    placedAt seg pos (bs ++ cs) = placedAt seg pos bs ++ placedAt seg (pos + bs.length) cs := by
  induction bs generalizing pos with
  | nil => simp [placedAt]
  | cons b bs ih =>
    have hpos : pos + 1 + bs.length = pos + (bs.length + 1) := by omega
    simp only [List.cons_append, placedAt, ih, List.length_cons, hpos]

/-- What goes to the file in the last pass. -/
def writes (st : Asm) (bs : List Byte) : List Byte := if st.pass = 3 ∧ st.segment ≠ BSS then bs else []

/-- From `st` to `st'` the stream gets the bytes `bs`, of which `n` are counted as bytes of
the program, and `pad` are reserved. -/
structure Emits (st st' : Asm) (bs : List Byte) (n pad : Nat) : Prop where
  pass : st'.pass = st.pass
  segment : st'.segment = st.segment
  segsize : st'.segsize = Function.update st.segsize st.segment (st.segsize st.segment + BitVec.ofNat 16 bs.length)
  truesize : st'.truesize =
    Function.update st.truesize st.segment (st.truesize st.segment + BitVec.ofNat 32 n)
  segbase : st'.segbase = Function.update st.segbase st.segment (st.segbase st.segment + bs.length)
  segpad : st'.segpad = Function.update st.segpad st.segment (st.segpad st.segment + BitVec.ofNat 16 pad)
  pos : st'.pos = st.pos + (writes st bs).length
  out : st'.out = st.out ++ placedAt st.segment st.pos (writes st bs)

section Emits

variable {st st' st'' : Asm} {bs cs : List Byte} {n n' pad pad' : Nat}

theorem Emits.refl (st : Asm) : Emits st st [] 0 0 := by
  refine ⟨rfl, rfl, ?_, ?_, ?_, ?_, ?_, ?_⟩
  · simp
  · simp
  · simp
  · simp
  · simp [writes]
  · simp [writes, placedAt]

theorem writes_append (st : Asm) (bs cs : List Byte) : writes st (bs ++ cs) = writes st bs ++ writes st cs := by
  unfold writes
  split_ifs
  · rfl
  · rfl

theorem Emits.trans (h : Emits st st' bs n pad) (h' : Emits st' st'' cs n' pad') :
    Emits st st'' (bs ++ cs) (n + n') (pad + pad') := by
  have hwrites : writes st' cs = writes st cs := by
    unfold writes
    rw [h.pass, h.segment]
  refine ⟨h'.pass.trans h.pass, h'.segment.trans h.segment, ?_, ?_, ?_, ?_, ?_, ?_⟩
  · rw [h'.segsize, h.segment, h.segsize, Function.update_self, Function.update_idem, List.length_append,
      BitVec.ofNat_add, BitVec.add_assoc]
  · rw [h'.truesize, h.segment, h.truesize, Function.update_self, Function.update_idem, BitVec.ofNat_add,
      BitVec.add_assoc]
  · rw [h'.segbase, h.segment, h.segbase, Function.update_self, Function.update_idem, List.length_append,
      Nat.add_assoc]
  · rw [h'.segpad, h.segment, h.segpad, Function.update_self, Function.update_idem, BitVec.ofNat_add,
      BitVec.add_assoc]
  · rw [h'.pos, h.pos, hwrites, writes_append, List.length_append, Nat.add_assoc]
  · rw [h'.out, h.out, h.segment, h.pos, hwrites, writes_append, placedAt_append, List.append_assoc]

theorem outbyte_emits (st : Asm) (b : Byte) : Emits st (outbyte st b) [b] 0 0 := by
  unfold outbyte
  by_cases h : st.pass = 3 ∧ st.segment ≠ BSS
  · refine ⟨?_, ?_, ?_, ?_, ?_, ?_, ?_, ?_⟩
    all_goals simp [h, writes, placedAt]
  · refine ⟨?_, ?_, ?_, ?_, ?_, ?_, ?_, ?_⟩
    all_goals simp [h, writes, placedAt]

theorem outbytes_emits (st : Asm) (bs : List Byte) : Emits st (outbytes st bs) bs 0 0 := by
  induction bs generalizing st with
  | nil => exact Emits.refl st
  | cons b bs ih => exact (outbyte_emits st b).trans (ih (outbyte st b))

theorem reservebyte_emits (st : Asm) : Emits st (reservebyte st) [] 0 1 := by
  refine ⟨?_, ?_, ?_, ?_, ?_, ?_, ?_, ?_⟩
  all_goals simp [reservebyte, writes, placedAt]

theorem countByte_emits (st : Asm) : Emits st (countByte st) [] 1 0 := by
  refine ⟨?_, ?_, ?_, ?_, ?_, ?_, ?_, ?_⟩
  all_goals simp [countByte, writes, placedAt]

theorem sizecheck_emits {tgt : Target} (h : sizecheck tgt st = .ok st') : Emits st st' [] 0 0 := by
  unfold sizecheck at h
  split_ifs at h
  · obtain rfl := Except.ok.inj h
    refine ⟨?_, ?_, ?_, ?_, ?_, ?_, ?_, ?_⟩
    all_goals simp [writes, placedAt]
  · obtain rfl := Except.ok.inj h
    exact Emits.refl st

end Emits

/-! ## Program bytes -/

/-- A byte with its quote. -/
def quoted (b : Byte) : List Byte := if b = REL_ESC then [b, REL_REL] else [b]

/-- The bytes that a byte reserves for a quote that it does not have yet. -/
def quotePad (b : Byte) : Nat := if b = REL_ESC then 0 else 1

section Bytes

variable {tgt : Target} {st st' : Asm}

theorem checkByte_emits {b : Byte} (h : checkByte tgt st b = .ok st') : Emits st st' [] 0 0 := by
  unfold checkByte at h
  split at h
  · cases h
  · exact sizecheck_emits h

theorem outab_emits {b : Byte} (h : outab tgt st b = .ok st') : Emits st st' (quoted b) 1 0 := by
  unfold outab at h
  split at h
  · cases h
  · next st1 hcheck =>
    obtain rfl := Except.ok.inj h
    have hemit := (checkByte_emits hcheck).trans (outbyte_emits st1 b)
    unfold quoted
    split_ifs with hesc
    · exact (hemit.trans (outbyte_emits _ REL_REL)).trans (countByte_emits _)
    · exact hemit.trans (countByte_emits _)

theorem outabyte_emits {b : Byte} (h : outabyte tgt st b = .ok st') : Emits st st' [b] 1 0 := by
  unfold outabyte at h
  split at h
  · cases h
  · next st1 hcheck =>
    obtain rfl := Except.ok.inj h
    exact ((checkByte_emits hcheck).trans (outbyte_emits st1 b)).trans (countByte_emits _)

theorem outab2_emits {b : Byte} (h : outab2 tgt st b = .ok st') : Emits st st' (quoted b) 1 (quotePad b) := by
  unfold outab2 at h
  split at h
  · cases h
  · next st1 hcheck =>
    obtain rfl := Except.ok.inj h
    have hemit := (checkByte_emits hcheck).trans (outbyte_emits st1 b)
    unfold quoted quotePad
    split_ifs with hesc
    · exact (hemit.trans (outbyte_emits _ REL_REL)).trans (countByte_emits _)
    · exact (hemit.trans (reservebyte_emits _)).trans (countByte_emits _)

theorem outabytes_emits {bs : List Byte} (h : outabytes tgt st bs = .ok st') : Emits st st' bs bs.length 0 := by
  induction bs generalizing st with
  | nil =>
    obtain rfl := Except.ok.inj h
    exact Emits.refl st
  | cons b bs ih =>
    unfold outabytes at h
    split at h
    · cases h
    · next st1 hbyte =>
      have hemit := (outabyte_emits hbyte).trans (ih h)
      rwa [Nat.add_comm 1] at hemit

theorem outab2s_emits {bs : List Byte} (h : outab2s tgt st bs = .ok st') :
    Emits st st' (bs.flatMap quoted) bs.length (bs.map quotePad).sum := by
  induction bs generalizing st with
  | nil =>
    obtain rfl := Except.ok.inj h
    exact Emits.refl st
  | cons b bs ih =>
    unfold outab2s at h
    split at h
    · cases h
    · next st1 hbyte =>
      have hemit := (outab2_emits hbyte).trans (ih h)
      rwa [Nat.add_comm 1] at hemit

theorem padded_emits {b : Byte} (h : outab2 tgt st b = .ok st') :
    Emits st st' ([b].flatMap quoted) [b].length ([b].map quotePad).sum := by
  simpa using outab2_emits h

theorem outzeros_emits {n : Nat} (h : outzeros tgt st n = .ok st') : Emits st st' (List.replicate n 0) n 0 := by
  induction n generalizing st with
  | zero =>
    obtain rfl := Except.ok.inj h
    exact Emits.refl st
  | succ n ih =>
    unfold outzeros at h
    split at h
    · cases h
    · next st1 hbyte =>
      have hemit := (outab_emits hbyte).trans (ih h)
      rwa [Nat.add_comm 1] at hemit

end Bytes

/-! ## Calls -/

/-- A stream, the number of program bytes in it, and what it reserves. -/
structure Emission where
  stream : List Byte
  count : Nat
  pad : Nat

def Emission.append (e f : Emission) : Emission where
  stream := e.stream ++ f.stream
  count := e.count + f.count
  pad := e.pad + f.pad

def Emission.none : Emission where
  stream := []
  count := 0
  pad := 0

/-- What a record is relative to. -/
def targetBytes (a : Addr) (s : Byte) : List Byte :=
  match a.a_sym with
  | .none => [s ||| REL_SIMPLE ||| a.a_segment]
  | some number => [s ||| REL_SYMBOL, lowByte number, highByte number]

/-- The value of a record. -/
def valueBytes (tgt : Target) (a : Addr) (bytes : Nat) (value : Word) : List Byte :=
  if a.a_low then [lowByte value]
  else if a.a_high then wordBytes tgt value
  else if bytes = 1 then [lowByte value]
  else wordBytes tgt value

/-- The number of program bytes of a record. -/
def valueCount (a : Addr) (bytes : Nat) : Nat := if a.a_low ∨ a.a_high ∨ bytes = 1 then 1 else 2

def recordValue (a : Addr) : Word := if a.a_low then a.a_value &&& 0xFF else a.a_value

def recordSize (a : Addr) (bytes : Nat) : Byte :=
  if a.a_high then sizeBits 2 else if a.a_low then sizeBits 1 else sizeBits bytes

/-- The escape and the prefixes of a record. -/
def recordHead (tgt : Target) (a : Addr) : List Byte :=
  [REL_ESC] ++ (if tgt.overflowOk then [REL_OVERFLOW] else []) ++
    (if a.a_low ∧ ¬ tgt.overflowOk then [REL_OVERFLOW] else []) ++ (if a.a_high then [REL_HIGH] else [])

def recordEmission (tgt : Target) (a : Addr) (bytes : Nat) : Emission where
  stream := recordHead tgt a ++ targetBytes a (recordSize a bytes) ++ valueBytes tgt a bytes (recordValue a)
  count := valueCount a bytes
  pad := 0

def byteEmission (b : Byte) : Emission where
  stream := quoted b
  count := 1
  pad := 0

def paddedEmission (bs : List Byte) : Emission where
  stream := bs.flatMap quoted
  count := bs.length
  pad := (bs.map quotePad).sum

def constantEmission (tgt : Target) (a : Addr) (bytes : Nat) : Emission :=
  if a.a_high then paddedEmission [highByte a.a_value]
  else if a.a_low then paddedEmission [lowByte a.a_value]
  else if bytes = 1 then byteEmission (lowByte a.a_value)
  else paddedEmission (wordBytes tgt a.a_value)

/-- Whether an address needs a record. -/
def Addr.relocates (a : Addr) : Prop := a.a_segment ≠ segByte ABSOLUTE ∨ a.a_sym.isSome

instance (a : Addr) : Decidable a.relocates := inferInstanceAs (Decidable (_ ∨ _))

def relocEmission (tgt : Target) (a : Addr) (bytes : Nat) : Emission :=
  if a.relocates then recordEmission tgt a bytes else constantEmission tgt a bytes

/-- The byte of `outabchk2`. -/
def chk2Byte (a : Addr) : Byte :=
  if a.a_low then lowByte a.a_value else if a.a_high then highByte a.a_value else lowByte a.a_value

def rabrelEmission (a : Addr) : Emission :=
  match a.a_sym with
  | some number =>
    { stream := [REL_ESC, sizeBits 1 ||| REL_PCREL, lowByte number, highByte number] ++
        [lowByte a.a_value, highByte a.a_value]
      count := 1
      pad := 0 }
  | .none => paddedEmission [lowByte a.a_value]

def rawrelEmission (tgt : Target) (a : Addr) : Emission :=
  let head :=
    match a.a_sym with
    | some number => [REL_ESC, sizeBits 2 ||| REL_PCREL, lowByte number, highByte number]
    | .none => [REL_ESC, REL_PCR, sizeBits 2 ||| REL_SIMPLE ||| a.a_segment]
  { stream := head ++ wordBytes tgt a.a_value
    count := 2
    pad := 0 }

section Calls

variable {tgt : Target} {st st' : Asm} {a : Addr}

theorem wordBytes_length (tgt : Target) (w : Word) : (wordBytes tgt w).length = 2 := by
  unfold wordBytes
  split_ifs
  · rfl
  · rfl

theorem outbyte_if_emits (c : Prop) [Decidable c] (st : Asm) (b : Byte) :
    Emits st (if c then outbyte st b else st) (if c then [b] else []) 0 0 := by
  split_ifs
  · exact outbyte_emits st b
  · exact Emits.refl st

theorem outtarget_emits {s : Byte} (h : outtarget st a s = .ok st') : Emits st st' (targetBytes a s) 0 0 := by
  unfold outtarget at h
  unfold targetBytes
  generalize a.a_sym = sym at h ⊢
  rcases sym with _ | number
  · simp only at h
    split_ifs at h
    obtain rfl := Except.ok.inj h
    exact outbyte_emits st _
  · obtain rfl := Except.ok.inj h
    exact outbytes_emits st _

theorem outvalue_emits {bytes : Nat} {value : Word} (h : outvalue tgt st a bytes value = .ok st') :
    Emits st st' (valueBytes tgt a bytes value) (valueCount a bytes) 0 := by
  unfold outvalue at h
  unfold valueBytes valueCount
  split_ifs at h with hlow hhigh hbig hone
  · simp only [hlow, if_true, true_or]
    exact outabyte_emits h
  · simp only [hlow, hhigh, if_true, if_false, true_or, or_true, Bool.false_eq_true, wordBytes, hbig]
    split at h
    · cases h
    · next st1 hbyte =>
      obtain rfl := Except.ok.inj h
      exact (outabyte_emits hbyte).trans (outbyte_emits st1 _)
  · simp only [hlow, hhigh, if_true, if_false, true_or, or_true, Bool.false_eq_true, wordBytes, hbig]
    exact (outbyte_emits st _).trans (outabyte_emits h)
  · simp only [hlow, hhigh, hone, if_true, if_false, or_true, Bool.false_eq_true]
    exact outabyte_emits h
  · simp only [hlow, hhigh, hone, if_false, or_false, Bool.false_eq_true]
    have hemit := outabytes_emits h
    rwa [wordBytes_length] at hemit

theorem outrecord_emits {bytes : Nat} (h : outrecord tgt st a bytes = .ok st') :
    Emits st st' (recordEmission tgt a bytes).stream (recordEmission tgt a bytes).count 0 := by
  simp only [outrecord] at h
  split at h
  · cases h
  by_cases hrange : bytes ≠ 1 ∧ (a.a_low ∨ a.a_high)
  · rw [if_pos hrange] at h
    cases h
  rw [if_neg hrange] at h
  split at h
  · cases h
  next st1 htarget =>
    have hhead := (((outbyte_emits st REL_ESC).trans (outbyte_if_emits (tgt.overflowOk) _ REL_OVERFLOW)).trans
      (outbyte_if_emits (a.a_low ∧ ¬ tgt.overflowOk) _ REL_OVERFLOW)).trans
      (outbyte_if_emits (a.a_high) _ REL_HIGH)
    have hemit := (hhead.trans (outtarget_emits htarget)).trans (outvalue_emits h)
    simp only [Nat.zero_add] at hemit
    exact hemit

theorem outconstant_emits {bytes : Nat} (h : outconstant tgt st a bytes = .ok st') :
    Emits st st' (constantEmission tgt a bytes).stream (constantEmission tgt a bytes).count
      (constantEmission tgt a bytes).pad := by
  unfold outconstant at h
  unfold constantEmission
  split_ifs at h ⊢
  · exact padded_emits h
  · exact padded_emits h
  · exact outab_emits h
  · exact outab2s_emits h

theorem outreloc_emits {bytes : Nat} (h : outreloc tgt st a bytes = .ok st') :
    Emits st st' (relocEmission tgt a bytes).stream (relocEmission tgt a bytes).count
      (relocEmission tgt a bytes).pad := by
  unfold outreloc at h
  unfold relocEmission
  by_cases hrelocates : a.relocates
  · rw [if_pos hrelocates]
    exact outrecord_emits ((if_pos hrelocates).symm.trans h)
  · rw [if_neg hrelocates]
    exact outconstant_emits ((if_neg hrelocates).symm.trans h)

theorem outabchk2_emits (h : outabchk2 tgt st a = .ok st') : Emits st st' (quoted (chk2Byte a)) 1 0 := by
  unfold outabchk2 at h
  unfold chk2Byte
  split_ifs at h ⊢
  · exact outab_emits h
  · exact outab_emits h
  · exact outab_emits h

theorem outrabrel_emits (h : outrabrel tgt st a = .ok st') :
    Emits st st' (rabrelEmission a).stream (rabrelEmission a).count (rabrelEmission a).pad := by
  unfold outrabrel at h
  unfold rabrelEmission
  split at h
  · cases h
  generalize a.a_sym = sym at h ⊢
  rcases sym with _ | number
  · simp only at h
    split_ifs at h
    exact padded_emits h
  · simp only at h
    split at h
    · cases h
    next st1 hbyte =>
      obtain rfl := Except.ok.inj h
      exact ((outbytes_emits st _).trans (outabyte_emits hbyte)).trans (outbyte_emits st1 _)

theorem outrawrel_emits (h : outrawrel tgt st a = .ok st') :
    Emits st st' (rawrelEmission tgt a).stream (rawrelEmission tgt a).count 0 := by
  unfold outrawrel at h
  unfold rawrelEmission
  split at h
  · cases h
  generalize a.a_sym = sym at h ⊢
  rcases sym with _ | number
  · have hemit := (outbytes_emits st _).trans (outabytes_emits h)
    rwa [wordBytes_length] at hemit
  · have hemit := (outbytes_emits st _).trans (outabytes_emits h)
    rwa [wordBytes_length] at hemit

end Calls

end Fuzemsys.Bintools.As
