import Fuzemsys.Bintools.As.StreamTheorem
import Fuzemsys.Bintools.Ld.RelocateProofs

/-!
# From the assembler to the linker

The linker reads the stream of a segment back and writes the bytes of the program, with
each operand relocated. One form of record is read in another order than it is written.
-/

namespace Fuzemsys.Bintools

open As Ld

variable {tgt : Target} {lk : Linking} {o o' : Output} {s s' : List Byte}

/-! ## Reading a record -/

/-- The prefixes of a record in a stream. -/
def prefixBytes (overflow high : Bool) : List Byte :=
  (if overflow then [REL_OVERFLOW] else []) ++ (if high then [REL_HIGH] else [])

/-- A byte after the escape with which a record starts. -/
structure StartsRecord (code : Byte) : Prop where
  eof : code ≠ REL_EOF
  rel : code ≠ REL_REL
  org : code ≠ REL_ORG

/-- The code of a record is no prefix. -/
structure IsCode (code : Byte) : Prop extends StartsRecord code where
  pcr : code ≠ REL_PCR
  overflow : code ≠ REL_OVERFLOW
  high : code ≠ REL_HIGH

/-- What the linker does with a record. -/
def relocRecord (lk : Linking) (rec : Record) (s : List Byte) (o : Output) :
    Except LinkError (List Byte × Output) :=
  if rec.code &&& REL_SIMPLE ≠ 0 then simpleReloc lk rec s o else symbolReloc lk rec s o

theorem relocateTurn_start {code : Byte} (h : StartsRecord code) (s : List Byte) (o : Output) :
    relocateTurn lk REL_ESC (code :: s) o =
      Turn.ofExcept (relocRecord lk (readRecord code s).1 (readRecord code s).2 o) := by
  simp only [relocateTurn, ne_eq, not_true, if_false, readb, h.eof, h.rel, h.org, relocRecord]
  by_cases hsimple : (readRecord code s).1.code &&& REL_SIMPLE = 0
  · simp only [hsimple, not_true, if_false]
  · simp only [hsimple, not_false_eq_true, if_true]

theorem readHigh_code {code : Byte} (h : IsCode code) (pcrel overflow : Bool) (s : List Byte) :
    readHigh pcrel overflow code s =
      ({ pcrel := pcrel, overflow := overflow, high := false, code := code }, s) := if_neg h.high

theorem readOverflow_code {code : Byte} (h : IsCode code) (pcrel : Bool) (s : List Byte) :
    readOverflow pcrel code s = ({ pcrel := pcrel, overflow := true, high := false, code := code }, s) := by
  unfold readOverflow
  rw [if_neg h.overflow]
  exact readHigh_code h pcrel true s

theorem relocateTurn_record {code : Byte} (h : IsCode code) (overflow high : Bool) (s : List Byte) (o : Output) :
    relocateTurn lk REL_ESC (prefixBytes overflow high ++ code :: s) o =
      Turn.ofExcept (relocRecord lk { pcrel := false, overflow := !overflow && !high, high := high, code := code } s o) := by
  cases overflow
  · cases high
    · have hread : readRecord code s = ({ pcrel := false, overflow := true, high := false, code := code }, s) := by
        unfold readRecord
        rw [if_neg h.pcr]
        exact readOverflow_code h false s
      exact (relocateTurn_start h.toStartsRecord s o).trans (by rw [hread]; rfl)
    · exact relocateTurn_start ⟨by decide, by decide, by decide⟩ (code :: s) o
  · cases high
    · have hread : readRecord REL_OVERFLOW (code :: s) =
          ({ pcrel := false, overflow := false, high := false, code := code }, s) := readHigh_code h false false s
      exact (relocateTurn_start ⟨by decide, by decide, by decide⟩ (code :: s) o).trans (by rw [hread]; rfl)
    · exact relocateTurn_start ⟨by decide, by decide, by decide⟩ (REL_HIGH :: code :: s) o

theorem relocateTurn_pcr {code : Byte} (h : IsCode code) (s : List Byte) (o : Output) :
    relocateTurn lk REL_ESC (REL_PCR :: code :: s) o =
      Turn.ofExcept (relocRecord lk { pcrel := true, overflow := true, high := false, code := code } s o) := by
  have hread : readRecord REL_PCR (code :: s) =
      ({ pcrel := true, overflow := true, high := false, code := code }, s) := readOverflow_code h true s
  exact (relocateTurn_start ⟨by decide, by decide, by decide⟩ (code :: s) o).trans (by rw [hread])

/-! ## Codes -/

instance (code : Byte) : Decidable (IsCode code) :=
  decidable_of_iff (code ≠ REL_EOF ∧ code ≠ REL_REL ∧ code ≠ REL_ORG ∧ code ≠ REL_PCR ∧ code ≠ REL_OVERFLOW ∧
      code ≠ REL_HIGH)
    ⟨fun ⟨h1, h2, h3, h4, h5, h6⟩ => ⟨⟨h1, h2, h3⟩, h4, h5, h6⟩,
      fun h => ⟨h.eof, h.rel, h.org, h.pcr, h.overflow, h.high⟩⟩

/-- The code of a record relative to a segment. -/
structure SimpleCode (code : Byte) (bytes : Nat) (seg : Byte) : Prop where
  isCode : IsCode code
  simple : code &&& REL_SIMPLE ≠ 0
  segment : code &&& S_SEGMENT = seg
  size : ((code &&& S_SIZE) >>> 4).toNat + 1 = bytes

instance (code : Byte) (bytes : Nat) (seg : Byte) : Decidable (SimpleCode code bytes seg) :=
  decidable_of_iff (IsCode code ∧ code &&& REL_SIMPLE ≠ 0 ∧ code &&& S_SEGMENT = seg ∧
      ((code &&& S_SIZE) >>> 4).toNat + 1 = bytes)
    ⟨fun ⟨h1, h2, h3, h4⟩ => ⟨h1, h2, h3, h4⟩, fun h => ⟨h.isCode, h.simple, h.segment, h.size⟩⟩

theorem simpleCode {bytes : Nat} (hbytes : bytes = 1 ∨ bytes = 2) {seg : Byte} (hseg : seg.toNat < 16) :
    SimpleCode (sizeBits bytes ||| REL_SIMPLE ||| seg) bytes seg := by
  have hall : ∀ k : Fin 16,
      SimpleCode (sizeBits 1 ||| REL_SIMPLE ||| BitVec.ofNat 8 k.val) 1 (BitVec.ofNat 8 k.val) ∧
      SimpleCode (sizeBits 2 ||| REL_SIMPLE ||| BitVec.ofNat 8 k.val) 2 (BitVec.ofNat 8 k.val) := by decide
  have hk := hall ⟨seg.toNat, hseg⟩
  rw [BitVec.ofNat_toNat, BitVec.setWidth_eq] at hk
  rcases hbytes with rfl | rfl
  · exact hk.1
  · exact hk.2

theorem simple_field (hraw : lk.rawstream = true) {rec : Record} {size : Nat} {seg : Byte} {r : Word}
    {s0 : List Byte} (hcode : SimpleCode rec.code size seg) (hsize : size = 1 ∨ size = 2)
    (hget : targetGet lk size s0 = .ok (r, s)) (h : relocRecord lk rec s0 o = .ok (s', o')) (herr : o'.err = 0) :
    ∃ hseg : seg.toNat < OSEG, seg ≠ segByte ABSOLUTE ∧ s' = s ∧
      Puts o o' (fieldBytes lk.bigendian rec.high size
        (r + lk.base ⟨seg.toNat, hseg⟩ - if rec.pcrel then o.dot else 0#16)) := by
  obtain ⟨-, hsimple, rfl, rfl⟩ := hcode
  rw [relocRecord, if_pos hsimple] at h
  exact simpleReloc_puts hraw hsize hget h herr

/-- The code of a record with a symbol. -/
structure SymbolCode (code : Byte) (bytes : Nat) (optype : Byte) : Prop where
  isCode : IsCode code
  simple : code &&& REL_SIMPLE = 0
  optype : code &&& REL_TYPE = optype
  size : ((code &&& S_SIZE) >>> 4).toNat + 1 = bytes

instance (code : Byte) (bytes : Nat) (optype : Byte) : Decidable (SymbolCode code bytes optype) :=
  decidable_of_iff (IsCode code ∧ code &&& REL_SIMPLE = 0 ∧ code &&& REL_TYPE = optype ∧
      ((code &&& S_SIZE) >>> 4).toNat + 1 = bytes)
    ⟨fun ⟨h1, h2, h3, h4⟩ => ⟨h1, h2, h3, h4⟩, fun h => ⟨h.isCode, h.simple, h.optype, h.size⟩⟩

theorem symbolCode {bytes : Nat} (hbytes : bytes = 1 ∨ bytes = 2) :
    SymbolCode (sizeBits bytes ||| REL_SYMBOL) bytes REL_SYMBOL ∧
      SymbolCode (sizeBits bytes ||| REL_PCREL) bytes REL_PCREL := by
  rcases hbytes with rfl | rfl
  · exact ⟨by decide, by decide⟩
  · exact ⟨by decide, by decide⟩

theorem symbol_field (hraw : lk.rawstream = true) (hmode : lk.ldmode ≠ .rflag) {rec : Record} {size : Nat}
    {optype : Byte} {r number : Word} {s0 : List Byte} (hcode : SymbolCode rec.code size optype)
    (hsize : size = 1 ∨ size = 2)
    (hget : targetGet lk (if optype = REL_PCREL then 2 else size) s0 = .ok (r, s))
    (h : relocRecord lk rec (lowByte number :: highByte number :: s0) o = .ok (s', o')) (herr : o'.err = 0) :
    ∃ sym, lk.syment[number.toNat]? = some sym ∧ s' = s ∧
      Puts o o' (fieldBytes lk.bigendian rec.high size
        (r + sym.value - if optype = REL_PCREL then pcOf lk.wordmachine o.dot else 0#16)) := by
  obtain ⟨-, hsimple, rfl, rfl⟩ := hcode
  rw [relocRecord, if_neg (not_not.mpr hsimple)] at h
  exact symbolReloc_puts hraw hmode hsize hget h herr

/-! ## The loop -/

theorem loop_more {n : Nat} {code : Byte} {r : Except LinkError (List Byte × Output)}
    (h : relocateLoop lk n (code :: s) o = .ok (s', o')) (hturn : relocateTurn lk code s o = Turn.ofExcept r)
    (herr : o'.err = 0) :
    ∃ m s1 o1, r = .ok (s1, o1) ∧ o1.err = 0 ∧ relocateLoop lk m s1 o1 = .ok (s', o') := by
  cases n with
  | zero => cases h
  | succ n =>
    rw [relocateLoop, hturn] at h
    rcases r with e | ⟨s1, o1⟩
    · cases h
    · refine ⟨n, s1, o1, rfl, ?_, h⟩
      by_contra hne
      exact relocateLoop_err h hne herr

/-- What the loop does with a part of the stream. -/
def Reads (lk : Linking) (bs : List Byte) (o : Output) (image : List Byte) : Prop :=
  ∀ n s s' o', relocateLoop lk n (bs ++ s) o = .ok (s', o') → o'.err = 0 →
    ∃ m o1, o1.err = 0 ∧ Puts o o1 image ∧ relocateLoop lk m s o1 = .ok (s', o')

theorem reads_byte (hraw : lk.rawstream = true) (b : Byte) (o : Output) : Reads lk (quoted b) o [b] := by
  intro n s s' o' h herr
  unfold quoted at h
  by_cases hesc : b = REL_ESC
  · rw [if_pos hesc] at h
    subst hesc
    have hturn : relocateTurn lk REL_ESC (REL_REL :: s) o = Turn.ofExcept (.ok (s, (o.fputc REL_ESC).advance 1)) := by
      simp only [relocateTurn, readb, hraw]
      rfl
    obtain ⟨m, s1, o1, hr, herr1, hloop⟩ := loop_more h hturn herr
    obtain ⟨rfl, rfl⟩ := Prod.mk.inj (Except.ok.inj hr)
    exact ⟨m, _, herr1, fputc_advance_puts o REL_ESC, hloop⟩
  · rw [if_neg hesc] at h
    have hturn : relocateTurn lk b s o = Turn.ofExcept (.ok (s, (o.fputc b).advance 1)) := if_pos hesc
    obtain ⟨m, s1, o1, hr, herr1, hloop⟩ := loop_more h hturn herr
    obtain ⟨rfl, rfl⟩ := Prod.mk.inj (Except.ok.inj hr)
    exact ⟨m, _, herr1, fputc_advance_puts o b, hloop⟩

theorem reads_nil (o : Output) (ho : o.err = 0) : Reads lk [] o [] := by
  intro n s s' o' h _
  exact ⟨n, o, ho, Puts.refl o, h⟩

theorem reads_append {bs cs image image' : List Byte} (h : Reads lk bs o image)
    (h' : ∀ o1, Puts o o1 image → Reads lk cs o1 image') : Reads lk (bs ++ cs) o (image ++ image') := by
  intro n s s' o' hloop herr
  rw [List.append_assoc] at hloop
  obtain ⟨m, o1, -, hputs, hrest⟩ := h n (cs ++ s) s' o' hloop herr
  obtain ⟨m', o2, herr2, hputs2, hend⟩ := h' o1 hputs m s s' o' hrest herr
  exact ⟨m', o2, herr2, hputs.trans hputs2, hend⟩

theorem reads_bytes (hraw : lk.rawstream = true) (bs : List Byte) (o : Output) (ho : o.err = 0) :
    Reads lk (bs.flatMap quoted) o bs := by
  induction bs generalizing o with
  | nil => exact reads_nil o ho
  | cons b bs ih =>
    exact reads_append (reads_byte hraw b o) fun o1 hputs => ih o1 (hputs.err.trans ho)

/-! ## Operands -/

/-- The address that an operand is relative to, as the linker has it. -/
def Ld.Linking.address (lk : Linking) (a : Addr) : Word :=
  match a.a_sym with
  | some number => (lk.syment[number.toNat]?.map SymRef.value).getD 0
  | none =>
    if h : a.a_segment ≠ segByte ABSOLUTE ∧ a.a_segment.toNat < OSEG then lk.base ⟨a.a_segment.toNat, h.2⟩ else 0

/-- What an operand of that many bytes asks for: a word, or its high or its low byte. -/
def operandBytes (bigendian : Bool) (a : Addr) (bytes : Nat) (w : Word) : List Byte :=
  if a.a_high then [highByte w] else if a.a_low then [lowByte w] else sizedBytes bigendian bytes w

/-- An operand as the parser of the assembler leaves it. -/
structure As.Addr.Plain (a : Addr) : Prop where
  segment : a.a_segment.toNat < 16
  part : ¬ (a.a_low ∧ a.a_high)

section Records

variable {a : Addr} {bytes : Nat}

theorem recordHead_eq (tgt : Target) (a : Addr) :
    recordHead tgt a = REL_ESC :: prefixBytes (tgt.overflowOk || a.a_low) a.a_high := by
  unfold recordHead prefixBytes
  cases tgt.overflowOk
  · cases a.a_low
    · rfl
    · rfl
  · cases a.a_low
    · rfl
    · rfl

/-- The size of a record's value. -/
def recordBytes (a : Addr) (bytes : Nat) : Nat := if a.a_high then 2 else if a.a_low then 1 else bytes

theorem recordSize_eq (a : Addr) (bytes : Nat) : recordSize a bytes = sizeBits (recordBytes a bytes) := by
  unfold recordSize recordBytes
  split_ifs
  · rfl
  · rfl
  · rfl

theorem recordBytes_cases (a : Addr) (hbytes : bytes = 1 ∨ bytes = 2) : recordBytes a bytes = 1 ∨ recordBytes a bytes = 2 := by
  unfold recordBytes
  split_ifs
  · exact Or.inr rfl
  · exact Or.inl rfl
  · exact hbytes

theorem valueBytes_eq (ha : a.Plain) (v : Word) :
    valueBytes tgt a bytes v = sizedBytes tgt.bigendian (recordBytes a bytes) v := by
  unfold valueBytes recordBytes sizedBytes
  by_cases hlow : a.a_low
  · have hhigh : ¬ a.a_high := fun hhigh => ha.part ⟨hlow, hhigh⟩
    simp only [hlow, hhigh, if_true, if_false, Bool.false_eq_true]
  · by_cases hhigh : a.a_high
    · simp only [hlow, hhigh, if_true, if_false, Bool.false_eq_true]
      rfl
    · simp only [hlow, hhigh, if_false, Bool.false_eq_true]
      rfl

/-- What is read back of a value. -/
def readBack (size : Nat) (v : Word) : Word := if size = 1 then (lowByte v).setWidth 16 else v

theorem targetGet_sized (lk : Linking) {size : Nat} (hsize : size = 1 ∨ size = 2) (v : Word) (s : List Byte) :
    targetGet lk size (sizedBytes lk.bigendian size v ++ s) = .ok (readBack size v, s) := by
  rcases hsize with rfl | rfl
  · exact targetGet_byte _ s
  · exact targetGet_word lk v s

theorem lowByte_and (v : Word) : lowByte (v &&& 0xFF) = lowByte v := by
  unfold lowByte
  rw [BitVec.setWidth_and, show (0xFF : Word).setWidth 8 = BitVec.allOnes 8 from rfl, BitVec.and_allOnes]

/-- The field has what the operand asks for. -/
theorem field_eq (ha : a.Plain) (hbytes : bytes = 1 ∨ bytes = 2) (hword : bytes = 2 → ¬ a.a_low ∧ ¬ a.a_high)
    (bigendian : Bool) (base : Word) :
    fieldBytes bigendian a.a_high (recordBytes a bytes) (readBack (recordBytes a bytes) (recordValue a) + base) =
      operandBytes bigendian a bytes (a.a_value + base) := by
  unfold fieldBytes recordBytes readBack recordValue operandBytes sizedBytes
  by_cases hhigh : a.a_high
  · have hlow : ¬ a.a_low := fun hlow => ha.part ⟨hlow, hhigh⟩
    simp only [hlow, hhigh, if_true, if_false, Bool.false_eq_true]
    rfl
  · by_cases hlow : a.a_low
    · simp only [hlow, hhigh, if_true, if_false, Bool.false_eq_true]
      rw [lowByte_and, lowByte_add_lowByte]
    · simp only [hlow, hhigh, if_false, Bool.false_eq_true]
      rcases hbytes with rfl | rfl
      · simp only [if_true, lowByte_add_lowByte]
      · rfl

theorem address_segment (hsym : a.a_sym = none) (hseg : a.a_segment.toNat < OSEG)
    (habs : a.a_segment ≠ segByte ABSOLUTE) : lk.address a = lk.base ⟨a.a_segment.toNat, hseg⟩ := by
  simp only [Ld.Linking.address, hsym]
  rw [dif_pos ⟨habs, hseg⟩]

theorem address_symbol {number : Word} {sym : SymRef} (hsym : a.a_sym = some number)
    (hent : lk.syment[number.toNat]? = some sym) : lk.address a = sym.value := by
  simp only [Ld.Linking.address, hsym, hent]
  rfl

/-- The record of an operand. -/
theorem reads_record (hraw : lk.rawstream = true) (hmode : lk.ldmode ≠ .rflag)
    (horder : lk.bigendian = tgt.bigendian) (ha : a.Plain) (hbytes : bytes = 1 ∨ bytes = 2)
    (hword : bytes = 2 → ¬ a.a_low ∧ ¬ a.a_high) (o : Output) :
    Reads lk (recordEmission tgt a bytes).stream o
      (operandBytes tgt.bigendian a bytes (a.a_value + lk.address a)) := by
  intro n s s' o' h herr
  have hsize := recordBytes_cases a hbytes
  rw [recordEmission, recordHead_eq, recordSize_eq, valueBytes_eq ha, ← horder] at h
  simp only [List.cons_append, List.append_assoc] at h
  have hget := targetGet_sized lk hsize (recordValue a) s
  rw [← horder]
  cases hsym : a.a_sym with
  | none =>
    have hcode := simpleCode hsize ha.segment
    simp only [targetBytes, hsym, List.cons_append, List.nil_append] at h
    obtain ⟨m, s1, o1, hr, herr1, hloop⟩ := loop_more h (relocateTurn_record hcode.isCode _ _ _ _) herr
    obtain ⟨hseg, habs, rfl, hputs⟩ := simple_field hraw hcode hsize hget hr herr1
    refine ⟨m, o1, herr1, ?_, hloop⟩
    rw [if_neg Bool.false_ne_true, BitVec.sub_zero, field_eq ha hbytes hword] at hputs
    rwa [address_segment hsym hseg habs]
  | some number =>
    have hcode := (symbolCode hsize).1
    simp only [targetBytes, hsym, List.cons_append, List.nil_append] at h
    obtain ⟨m, s1, o1, hr, herr1, hloop⟩ := loop_more h (relocateTurn_record hcode.isCode _ _ _ _) herr
    have htype : REL_SYMBOL ≠ REL_PCREL := by decide
    have hget : targetGet lk (if REL_SYMBOL = REL_PCREL then 2 else recordBytes a bytes)
        (sizedBytes lk.bigendian (recordBytes a bytes) (recordValue a) ++ s) =
          .ok (readBack (recordBytes a bytes) (recordValue a), s) := by
      rw [if_neg htype]
      exact hget
    obtain ⟨sym, hent, rfl, hputs⟩ := symbol_field hraw hmode hcode hsize hget hr herr1
    refine ⟨m, o1, herr1, ?_, hloop⟩
    rw [if_neg htype, BitVec.sub_zero, field_eq ha hbytes hword] at hputs
    rwa [address_symbol hsym hent]

/-- The addend of a byte relative to the program counter, low byte first, as the linker reads it. -/
def addendRead (bigendian : Bool) (w : Word) : Word := if bigendian then lowByte w ++ highByte w else w

theorem targetGet_addend (w : Word) (s : List Byte) :
    targetGet lk 2 (lowByte w :: highByte w :: s) = .ok (addendRead lk.bigendian w, s) := by
  unfold targetGet addendRead
  cases lk.bigendian
  · simp [targetPgetb, highByte_append_lowByte]
  · simp [targetPgetb]

theorem reads_rabrel {number : Word} (hraw : lk.rawstream = true) (hmode : lk.ldmode ≠ .rflag)
    (hsym : a.a_sym = some number) (o : Output) :
    Reads lk (rabrelEmission a).stream o
      [lowByte (addendRead lk.bigendian a.a_value + lk.address a - pcOf lk.wordmachine o.dot)] := by
  intro n s s' o' h herr
  have hcode := (symbolCode (Or.inl rfl)).2
  simp only [rabrelEmission, hsym, List.cons_append, List.nil_append] at h
  obtain ⟨m, s1, o1, hr, herr1, hloop⟩ := loop_more h (relocateTurn_record hcode.isCode false false _ _) herr
  obtain ⟨sym, hent, rfl, hputs⟩ := symbol_field hraw hmode hcode (Or.inl rfl)
    (targetGet_addend a.a_value s) hr herr1
  refine ⟨m, o1, herr1, ?_, hloop⟩
  rw [address_symbol hsym hent]
  exact hputs

theorem reads_rawrel_symbol {number : Word} (hraw : lk.rawstream = true) (hmode : lk.ldmode ≠ .rflag)
    (horder : lk.bigendian = tgt.bigendian) (hsym : a.a_sym = some number) (o : Output) :
    Reads lk (rawrelEmission tgt a).stream o
      (orderedBytes tgt.bigendian (a.a_value + lk.address a - pcOf lk.wordmachine o.dot)) := by
  intro n s s' o' h herr
  have hcode := (symbolCode (Or.inr rfl)).2
  simp only [rawrelEmission, hsym, List.cons_append, List.nil_append] at h
  obtain ⟨m, s1, o1, hr, herr1, hloop⟩ := loop_more h (relocateTurn_record hcode.isCode false false _ _) herr
  have hget : targetGet lk (if REL_PCREL = REL_PCREL then 2 else 2) (wordBytes tgt a.a_value ++ s) =
      .ok (a.a_value, s) := by
    have hword := targetGet_word lk a.a_value s
    rw [horder] at hword
    rwa [if_pos rfl]
  obtain ⟨sym, hent, rfl, hputs⟩ := symbol_field hraw hmode hcode (Or.inr rfl) hget hr herr1
  refine ⟨m, o1, herr1, ?_, hloop⟩
  rw [address_symbol hsym hent, ← horder]
  exact hputs

theorem reads_rawrel_segment (hraw : lk.rawstream = true) (horder : lk.bigendian = tgt.bigendian)
    (ha : a.Plain) (hsym : a.a_sym = none) (o : Output) :
    Reads lk (rawrelEmission tgt a).stream o
      (orderedBytes tgt.bigendian (a.a_value + lk.address a - o.dot)) := by
  intro n s s' o' h herr
  have hcode := simpleCode (Or.inr rfl) ha.segment
  simp only [rawrelEmission, hsym, List.cons_append, List.nil_append] at h
  obtain ⟨m, s1, o1, hr, herr1, hloop⟩ := loop_more h (relocateTurn_pcr hcode.isCode _ _) herr
  have hget : targetGet lk 2 (wordBytes tgt a.a_value ++ s) = .ok (a.a_value, s) := by
    have hword := targetGet_word lk a.a_value s
    rwa [horder] at hword
  obtain ⟨hseg, habs, rfl, hputs⟩ := simple_field hraw hcode (Or.inr rfl) hget hr herr1
  refine ⟨m, o1, herr1, ?_, hloop⟩
  rw [address_segment hsym hseg habs, ← horder]
  exact hputs

end Records

/-! ## Calls -/

/-- The calls that one segment is made of, with operands as the parser leaves them. -/
def As.Call.Plain : Call → Prop
  | .setSegment _ => False
  | .org _ => False
  | .outrab a => a.Plain
  | .outraw a => a.Plain
  | .outrabrel a => a.Plain
  | .outrawrel a => a.Plain
  | _ => True

/-- The bytes of the program that a call stands for, at the address `dot`. -/
def imageBytes (tgt : Target) (lk : Linking) (dot : Word) : Call → List Byte
  | .setSegment _ => []
  | .org _ => []
  | .outab b => [b]
  | .outab2 b => [b]
  | .outabchk2 a => [chk2Byte a]
  | .outrab a => operandBytes tgt.bigendian a 1 (a.a_value + lk.address a)
  | .outraw a => operandBytes tgt.bigendian a 2 (a.a_value + lk.address a)
  | .outrabrel a =>
    -- Without a symbol the value is the displacement already.
    if a.a_sym.isSome then [lowByte (a.a_value + lk.address a - pcOf lk.wordmachine dot)] else [lowByte a.a_value]
  | .outrawrel a => orderedBytes tgt.bigendian (a.a_value + lk.address a - pcOf lk.wordmachine dot)
  | .outzeros n => List.replicate n.toNat 0

/-- The bytes that the linker writes for it. -/
def linkedBytes (tgt : Target) (lk : Linking) (dot : Word) : Call → List Byte
  | .outrabrel a =>
    if a.a_sym.isSome then
      [lowByte (addendRead lk.bigendian a.a_value + lk.address a - pcOf lk.wordmachine dot)]
    else [lowByte a.a_value]
  | .outrawrel a =>
    if a.a_sym.isSome then imageBytes tgt lk dot (.outrawrel a)
    else orderedBytes tgt.bigendian (a.a_value + lk.address a - dot)
  | c => imageBytes tgt lk dot c

section Calls

variable {st st' : Asm}

theorem address_absolute {a : Addr} (h : ¬ a.relocates) : lk.address a = 0#16 := by
  obtain ⟨habs, hsym⟩ := not_or.mp h
  have hnone : a.a_sym = none := Option.not_isSome_iff_eq_none.mp hsym
  simp only [Ld.Linking.address, hnone]
  rw [dif_neg fun hseg => habs hseg.1]
  rfl

theorem reads_reloc {a : Addr} {bytes : Nat} (hraw : lk.rawstream = true) (hmode : lk.ldmode ≠ .rflag)
    (horder : lk.bigendian = tgt.bigendian) (ha : a.Plain) (hbytes : bytes = 1 ∨ bytes = 2)
    (hcall : outreloc tgt st a bytes = .ok st') (o : Output) (ho : o.err = 0) :
    Reads lk (relocEmission tgt a bytes).stream o
      (operandBytes tgt.bigendian a bytes (a.a_value + lk.address a)) := by
  unfold relocEmission
  by_cases hrelocates : a.relocates
  · rw [if_pos hrelocates]
    have hrecord : outrecord tgt st a bytes = .ok st' := (if_pos hrelocates).symm.trans hcall
    refine reads_record hraw hmode horder ha hbytes ?_ o
    rintro rfl
    simp only [outrecord] at hrecord
    split at hrecord
    · cases hrecord
    by_cases hpart : a.a_low ∨ a.a_high
    · rw [if_pos ⟨by decide, hpart⟩] at hrecord
      cases hrecord
    · exact not_or.mp hpart
  · rw [if_neg hrelocates, address_absolute hrelocates, BitVec.add_zero]
    unfold constantEmission operandBytes
    split_ifs
    · exact reads_bytes hraw [highByte a.a_value] o ho
    · exact reads_bytes hraw [lowByte a.a_value] o ho
    · next hone =>
      subst hone
      exact reads_byte hraw _ o
    · next hone =>
      rw [sizedBytes, if_neg hone]
      exact reads_bytes hraw (wordBytes tgt a.a_value) o ho

theorem flatMap_quoted_zeros (n : Nat) : (List.replicate n (0 : Byte)).flatMap quoted = List.replicate n 0 := by
  induction n with
  | zero => rfl
  | succ n ih =>
    rw [List.replicate_succ, List.flatMap_cons, ih]
    rfl

/-- What the linker writes for a call. -/
theorem reads_call {c : Call} (hraw : lk.rawstream = true) (hmode : lk.ldmode ≠ .rflag)
    (horder : lk.bigendian = tgt.bigendian) (hc : c.Plain) (hcall : call tgt st c = .ok st') (o : Output)
    (ho : o.err = 0) : Reads lk (callEmission tgt c).stream o (linkedBytes tgt lk o.dot c) := by
  cases c with
  | setSegment seg => exact hc.elim
  | org addr => exact hc.elim
  | outab b => exact reads_byte hraw b o
  | outab2 b => exact reads_bytes hraw [b] o ho
  | outabchk2 a => exact reads_byte hraw _ o
  | outrab a => exact reads_reloc hraw hmode horder hc (Or.inl rfl) hcall o ho
  | outraw a => exact reads_reloc hraw hmode horder hc (Or.inr rfl) hcall o ho
  | outrabrel a =>
    cases hsym : a.a_sym with
    | none =>
      simp only [callEmission, rabrelEmission, linkedBytes, hsym, Option.isSome_none, Bool.false_eq_true, if_false]
      exact reads_bytes hraw [lowByte a.a_value] o ho
    | some number =>
      simp only [linkedBytes, hsym, Option.isSome_some, if_true]
      exact reads_rabrel hraw hmode hsym o
  | outrawrel a =>
    cases hsym : a.a_sym with
    | none =>
      simp only [linkedBytes, hsym, Option.isSome_none, Bool.false_eq_true, if_false]
      exact reads_rawrel_segment hraw horder hc hsym o
    | some number =>
      simp only [linkedBytes, imageBytes, hsym, Option.isSome_some, if_true]
      exact reads_rawrel_symbol hraw hmode horder hsym o
  | outzeros n =>
    have hzeros := reads_bytes hraw (List.replicate n.toNat 0) o ho
    rwa [flatMap_quoted_zeros] at hzeros

/-! ## Streams -/

/-- The calls one after the other, each at its address. -/
def imageOf (tgt : Target) (lk : Linking) : Word → List Call → List Byte
  | _, [] => []
  | dot, c :: cs =>
    imageBytes tgt lk dot c ++ imageOf tgt lk (dot + BitVec.ofNat 16 (callEmission tgt c).count) cs

def linkedOf (tgt : Target) (lk : Linking) : Word → List Call → List Byte
  | _, [] => []
  | dot, c :: cs =>
    linkedBytes tgt lk dot c ++ linkedOf tgt lk (dot + BitVec.ofNat 16 (callEmission tgt c).count) cs

/-- The call's field is read back as it was written. -/
def InOrder (tgt : Target) (lk : Linking) (dot : Word) : Call → Prop
  | .outrabrel a => a.a_sym.isSome → tgt.bigendian → lowByte a.a_value = highByte a.a_value
  | .outrawrel a => a.a_sym.isNone → lk.wordmachine → dot = 0
  | _ => True

def AllInOrder (tgt : Target) (lk : Linking) : Word → List Call → Prop
  | _, [] => True
  | dot, c :: cs =>
    InOrder tgt lk dot c ∧ AllInOrder tgt lk (dot + BitVec.ofNat 16 (callEmission tgt c).count) cs

theorem constantEmission_count {a : Addr} {bytes : Nat} (hbytes : bytes = 1 ∨ bytes = 2) :
    (constantEmission tgt a bytes).count = valueCount a bytes := by
  unfold constantEmission valueCount
  by_cases hhigh : a.a_high
  · simp [hhigh, paddedEmission]
  · by_cases hlow : a.a_low
    · simp [hhigh, hlow, paddedEmission]
    · rcases hbytes with rfl | rfl
      · simp [hhigh, hlow, byteEmission]
      · simp [hhigh, hlow, paddedEmission, wordBytes_length]

theorem operandBytes_length {a : Addr} {bytes : Nat} (hbytes : bytes = 1 ∨ bytes = 2) (w : Word) :
    (operandBytes tgt.bigendian a bytes w).length = (relocEmission tgt a bytes).count := by
  have hcount : (relocEmission tgt a bytes).count = valueCount a bytes := by
    unfold relocEmission
    split_ifs
    · rfl
    · exact constantEmission_count hbytes
  rw [hcount]
  unfold operandBytes valueCount
  by_cases hhigh : a.a_high
  · simp [hhigh]
  · by_cases hlow : a.a_low
    · simp [hhigh, hlow]
    · rcases hbytes with rfl | rfl
      · simp [hhigh, hlow, sizedBytes]
      · simp [hhigh, hlow, sizedBytes, orderedBytes_length]

theorem imageBytes_length (tgt : Target) (lk : Linking) (dot : Word) (c : Call) :
    (imageBytes tgt lk dot c).length = (callEmission tgt c).count := by
  cases c with
  | outrab a => exact operandBytes_length (Or.inl rfl) _
  | outraw a => exact operandBytes_length (Or.inr rfl) _
  | outrabrel a =>
    simp only [imageBytes, callEmission, rabrelEmission]
    rcases a.a_sym with _ | number
    · rfl
    · rfl
  | outrawrel a => exact orderedBytes_length _ _
  | outzeros n => exact List.length_replicate
  | _ => rfl

theorem linkedBytes_length (tgt : Target) (lk : Linking) (dot : Word) (c : Call) :
    (linkedBytes tgt lk dot c).length = (imageBytes tgt lk dot c).length := by
  cases c with
  | outrabrel a =>
    simp only [linkedBytes, imageBytes]
    split_ifs
    · rfl
    · rfl
  | outrawrel a =>
    simp only [linkedBytes, imageBytes]
    split_ifs
    · rfl
    · rw [orderedBytes_length, orderedBytes_length]
  | _ => rfl

/-- Reading a stream of calls, up to its end mark. -/
theorem reads_calls {calls : List Call} (hraw : lk.rawstream = true) (hmode : lk.ldmode ≠ .rflag)
    (horder : lk.bigendian = tgt.bigendian) (hplain : ∀ c ∈ calls, c.Plain)
    (hrun : runCalls tgt st calls = .ok st') (o : Output) (ho : o.err = 0) :
    Reads lk (emissionOf tgt calls).stream o (linkedOf tgt lk o.dot calls) := by
  induction calls generalizing st o with
  | nil => exact reads_nil o ho
  | cons c cs ih =>
    unfold runCalls at hrun
    split at hrun
    · cases hrun
    next st1 hcall =>
      refine reads_append (reads_call hraw hmode horder (hplain c List.mem_cons_self) hcall o ho) fun o1 hputs => ?_
      have hdot : o1.dot = o.dot + BitVec.ofNat 16 (callEmission tgt c).count := by
        rw [hputs.dot, linkedBytes_length, imageBytes_length]
      have hrest := ih (fun c' hc' => hplain c' (List.mem_cons_of_mem c hc')) hrun o1 (hputs.err.trans ho)
      rwa [hdot] at hrest

/-! ## The order of the fields -/

theorem orderedBytes_inj {bigendian : Bool} {v w : Word} :
    orderedBytes bigendian v = orderedBytes bigendian w ↔ v = w := by
  constructor
  · intro h
    have hhigh : highByte v = highByte w ∧ lowByte v = lowByte w := by
      unfold orderedBytes at h
      cases bigendian
      · simp only [Bool.false_eq_true, if_false, List.cons.injEq, and_true] at h
        exact h.symm
      · simp only [if_true, List.cons.injEq, and_true] at h
        exact h
    rw [← highByte_append_lowByte v, hhigh.1, hhigh.2, highByte_append_lowByte]
  · rintro rfl
    rfl

theorem lowByte_add_inj (v w x : Word) : lowByte (v + x) = lowByte (w + x) ↔ lowByte v = lowByte w := by
  unfold lowByte
  rw [BitVec.setWidth_add _ _ (by decide), BitVec.setWidth_add _ _ (by decide), BitVec.add_left_inj]

theorem lowByte_append (b c : Byte) : lowByte (b ++ c) = c := by
  unfold lowByte
  exact BitVec.setWidth_append_eq_right

theorem eq_half_iff (dot : Word) : dot = dot / 2 ↔ dot = 0 := by
  rw [← BitVec.toNat_inj, ← BitVec.toNat_inj, BitVec.toNat_udiv]
  have htwo : (2 : Word).toNat = 2 := rfl
  have hzero : (0 : Word).toNat = 0 := rfl
  rw [htwo, hzero]
  omega

theorem sub_right_eq_iff (v x y : Word) : v - x = v - y ↔ x = y := by
  constructor
  · intro h
    have hneg : -x = -y := by
      rwa [BitVec.sub_eq_add_neg, BitVec.sub_eq_add_neg, BitVec.add_right_inj] at h
    rw [← BitVec.neg_neg (x := x), hneg, BitVec.neg_neg]
  · rintro rfl
    rfl

theorem linkedBytes_iff (horder : lk.bigendian = tgt.bigendian) (dot : Word) (c : Call) :
    linkedBytes tgt lk dot c = imageBytes tgt lk dot c ↔ InOrder tgt lk dot c := by
  cases c with
  | outrabrel a =>
    simp only [linkedBytes, imageBytes, InOrder]
    by_cases hsym : a.a_sym.isSome
    · simp only [hsym, if_true, List.cons.injEq, and_true, BitVec.sub_eq_add_neg, BitVec.add_assoc, true_implies]
      rw [lowByte_add_inj, addendRead, horder]
      by_cases hbig : tgt.bigendian
      · rw [if_pos hbig, lowByte_append]
        exact ⟨fun h _ => h.symm, fun h => (h hbig).symm⟩
      · rw [if_neg hbig]
        exact ⟨fun _ h => absurd h hbig, fun _ => rfl⟩
    · simp only [hsym, if_false, Bool.false_eq_true, false_implies]
  | outrawrel a =>
    simp only [linkedBytes, imageBytes, InOrder]
    cases hsym : a.a_sym with
    | none =>
      simp only [Option.isSome_none, Option.isNone_none, Bool.false_eq_true, if_false, true_implies]
      rw [orderedBytes_inj, sub_right_eq_iff, pcOf]
      split_ifs with hword
      · rw [eq_half_iff]
        exact ⟨fun h _ => h, fun h => h hword⟩
      · exact ⟨fun _ h => absurd h hword, fun _ => rfl⟩
    | some number =>
      simp only [Option.isSome_some, if_true, Option.isNone_some, Bool.false_eq_true, false_implies]
  | _ => exact ⟨fun _ => trivial, fun _ => rfl⟩

theorem linkedOf_iff (horder : lk.bigendian = tgt.bigendian) (calls : List Call) (dot : Word) :
    linkedOf tgt lk dot calls = imageOf tgt lk dot calls ↔ AllInOrder tgt lk dot calls := by
  induction calls generalizing dot with
  | nil => exact ⟨fun _ => trivial, fun _ => rfl⟩
  | cons c cs ih =>
    unfold linkedOf imageOf AllInOrder
    rw [← linkedBytes_iff horder, ← ih]
    constructor
    · intro h
      exact List.append_inj h (linkedBytes_length tgt lk dot c)
    · rintro ⟨hc, hcs⟩
      rw [hc, hcs]

end Calls

/-! ## The theorem -/

/-- The bytes that the file has of a segment. -/
def streamBytes (st : Asm) (seg : Seg) : List Byte := (streamIn st seg).map Written.byte

/-- The calls of one segment are assembled without an error, and its stream is linked without one. -/
structure Linked (tgt : Target) (lk : Linking) (calls : List Call) (st st' : Asm) (rest s' : List Byte)
    (o o' : Output) : Prop where
  atRest : st.AtRest
  written : st.segment ≠ BSS
  fresh : streamIn st st.segment = []
  plain : ∀ c ∈ calls, c.Plain
  run : runCalls tgt st calls = .ok st'
  raw : lk.rawstream = true
  mode : lk.ldmode ≠ .rflag
  order : lk.bigendian = tgt.bigendian
  linked : relocateStream lk (streamBytes (outeof st') st.segment ++ rest) o = .ok (s', o')
  noError : o'.err = 0

/-- The stream is read to its end, and the image has each byte of the program, as it was meant. -/
structure RoundTrip (tgt : Target) (lk : Linking) (calls : List Call) (st st' : Asm) (rest s' : List Byte)
    (o o' : Output) : Prop where
  reads : s' = rest
  units : st'.truesize st.segment = st.truesize st.segment + BitVec.ofNat 32 (o'.out.length - o.out.length)
  writes : o'.out = o.out ++ placedFrom o.pos (imageOf tgt lk o.dot calls)

section Linked

variable {calls : List Call} {st st' : Asm} {rest : List Byte}

theorem callsIn_plain (seg : Seg) (hplain : ∀ c ∈ calls, c.Plain) : callsIn seg seg calls = calls := by
  induction calls with
  | nil => rfl
  | cons c cs ih =>
    have hafter : segmentAfter seg c = seg := by
      have hc := hplain c List.mem_cons_self
      cases c with
      | setSegment seg' => exact hc.elim
      | _ => rfl
    rw [callsIn, hafter, if_pos rfl, ih fun c' hc' => hplain c' (List.mem_cons_of_mem c hc')]

theorem placedAt_bytes (seg : Seg) (pos : Nat) (bs : List Byte) :
    (placedAt seg pos bs).map Written.byte = bs := by
  induction bs generalizing pos with
  | nil => rfl
  | cons b bs ih => rw [placedAt, List.map_cons, ih]

theorem linkedOf_length (tgt : Target) (lk : Linking) (calls : List Call) (dot : Word) :
    (linkedOf tgt lk dot calls).length = (emissionOf tgt calls).count := by
  induction calls generalizing dot with
  | nil => rfl
  | cons c cs ih =>
    rw [linkedOf, List.length_append, ih, linkedBytes_length, imageBytes_length]
    rfl

variable (h : Linked tgt lk calls st st' rest s' o o')

include h

theorem Linked.grows : Grows st st' fun seg => emissionOf tgt (callsIn seg st.segment calls) :=
  runCalls_grows h.run

/-- The file has what the calls emit, and then the end mark. -/
theorem Linked.stream :
    streamBytes (outeof st') st.segment = (emissionOf tgt calls).stream ++ [REL_ESC, REL_EOF] := by
  have hend := (outeof_grows st').stream (h.grows.atRest h.atRest) st.segment h.written
  have hrun := h.grows.stream h.atRest st.segment h.written
  rw [h.fresh, List.nil_append, callsIn_plain st.segment h.plain] at hrun
  rw [streamBytes, hend, hrun, List.map_append, placedAt_bytes, placedAt_bytes, if_pos h.written]
  rfl

/-- What the linker writes, whether in order or not. -/
theorem Linked.puts : s' = rest ∧ Puts o o' (linkedOf tgt lk o.dot calls) := by
  have hloop := h.linked
  rw [h.stream, List.append_assoc, relocateStream] at hloop
  have ho : o.err = 0 := by
    by_contra hne
    exact relocateLoop_err hloop hne h.noError
  obtain ⟨m, o1, -, hputs, hend⟩ :=
    reads_calls h.raw h.mode h.order h.plain h.run o ho _ _ _ _ hloop h.noError
  cases m with
  | zero => cases hend
  | succ m =>
    obtain ⟨rfl, rfl⟩ := Prod.mk.inj (Except.ok.inj hend)
    exact ⟨rfl, hputs⟩

theorem Linked.units :
    st'.truesize st.segment = st.truesize st.segment + BitVec.ofNat 32 (o'.out.length - o.out.length) := by
  have hcount := h.grows.truesize st.segment
  rw [callsIn_plain st.segment h.plain] at hcount
  rw [hcount, h.puts.2.out, List.length_append, placedFrom_length, linkedOf_length, Nat.add_sub_cancel_left]

omit h

theorem roundTrip_iff (h : Linked tgt lk calls st st' rest s' o o') :
    RoundTrip tgt lk calls st st' rest s' o o' ↔ AllInOrder tgt lk o.dot calls := by
  obtain ⟨hreads, hputs⟩ := h.puts
  rw [← linkedOf_iff h.order]
  constructor
  · intro hround
    have hplaced : placedFrom o.pos (linkedOf tgt lk o.dot calls) = placedFrom o.pos (imageOf tgt lk o.dot calls) :=
      List.append_cancel_left (hputs.out.symm.trans hround.writes)
    rw [← placedFrom_bytes o.pos (linkedOf tgt lk o.dot calls), hplaced, placedFrom_bytes]
  · intro himage
    refine ⟨hreads, h.units, ?_⟩
    rw [← himage]
    exact hputs.out

/-- A big-endian binary with one symbol, at address 0. -/
def binary6809 (base : Word) : Linking where
  rawstream := true
  ldmode := .absolute
  split_id := false
  bigendian := true
  wordmachine := false
  relocf := false
  segment := CODE
  base := fun _ => base
  syment := [{ value := 0, type := S_PUBLIC, number := 0 }]

def startOutput (dot : Word) : Output where
  dot := dot
  pos := 0
  out := []
  relocs := []
  err := 0

def codeStart : Asm := startPass3 (startPass2 fun _ => 0)

set_option maxRecDepth 20000 in
theorem roundTrip_iff_address :
    ∃ st' o', Linked target6809 (binary6809 0x1000) [.outab 0xDA, .outraw (inCode 0x23)] codeStart st' [] [] (startOutput 0) o' ∧
      (RoundTrip target6809 (binary6809 0x1000) [.outab 0xDA, .outraw (inCode 0x23)] codeStart st' [] [] (startOutput 0) o' ↔
        AllInOrder target6809 (binary6809 0x1000) 0 [.outab 0xDA, .outraw (inCode 0x23)]) := by
  have hlinked : Linked target6809 (binary6809 0x1000) [.outab 0xDA, .outraw (inCode 0x23)] codeStart _ [] []
      (startOutput 0) _ :=
    ⟨⟨rfl, fun _ => rfl⟩, by decide, rfl, List.forall_mem_cons.mpr ⟨trivial, List.forall_mem_cons.mpr
      ⟨⟨by decide, by decide⟩, List.forall_mem_nil _⟩⟩, rfl, rfl, by decide, rfl, rfl, rfl⟩
  exact ⟨_, _, hlinked, roundTrip_iff hlinked⟩

set_option maxRecDepth 20000 in
/-- The addend 1 is read as 256: the displacement is 127 instead of -128. -/
theorem addend_swapped :
    ∃ st' o', Linked target6809 (binary6809 0) [.outrabrel { absolute 1 with a_sym := some 0 }] codeStart st' [] []
        (startOutput 129) o' ∧
      ¬ RoundTrip target6809 (binary6809 0) [.outrabrel { absolute 1 with a_sym := some 0 }] codeStart st' [] []
        (startOutput 129) o' := by
  have hlinked : Linked target6809 (binary6809 0) [.outrabrel { absolute 1 with a_sym := some 0 }] codeStart _ [] []
      (startOutput 129) _ :=
    ⟨⟨rfl, fun _ => rfl⟩, by decide, rfl, List.forall_mem_cons.mpr
      ⟨⟨by decide, by decide⟩, List.forall_mem_nil _⟩, rfl, rfl, by decide, rfl, rfl, rfl⟩
  refine ⟨_, _, hlinked, fun hround => ?_⟩
  exact absurd hround.writes (by decide)

end Linked

end Fuzemsys.Bintools
