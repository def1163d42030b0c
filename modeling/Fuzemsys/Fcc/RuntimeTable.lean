import Fuzemsys.Fcc.RuntimeSwitch
import Fuzemsys.Fcc.DirectProofs
import Fuzemsys.Fcc.TreeEval

/-!
# From the switches of a function to their labels

The back end writes the table of a switch after the events of `switch_done`. The walkers find
the label of the first case in it.
-/

open Fuzemsys.Lib

namespace Fuzemsys.Fcc.Runtime

open Code6800 (getSize hiByte loByte)
open Tree (CType PTR CCHAR UCHAR CSHORT USHORT CINT UINT CLONG ULONG FLOAT IntType)
open Body (Event HType Statics tableEntries switchDone)

variable {h : Host}

/-! ## What the back end writes -/

/-- Data in assembly. `case` is the word `Sw<tag>_<entry>`. -/
inductive Datum where
  | byte (n : Nat)
  | word (n : Nat)
  | case (tag entry : Nat)

def gen_value (type : CType) (value : BitVec h.longBits) : List Datum :=
  if PTR type ≠ 0 then [.word (value.setWidth h.intBits).toNat]
  else if type = CCHAR ∨ type = UCHAR then [.byte (value.setWidth h.intBits &&& 0xFF).toNat]
  else if type = CSHORT ∨ type = USHORT then [.word (value.setWidth h.intBits &&& 0xFFFF).toNat]
  else if type = CLONG ∨ type = ULONG ∨ type = FLOAT then
    [.word (((value >>> 16) &&& 0xFFFF).setWidth h.intBits).toNat, .word ((value &&& 0xFFFF).setWidth h.intBits).toNat]
  else []

/-- `process_header` and `process_data`, for what comes with a table. -/
def tableData : Event h → List Datum
  | .header .H_SWITCHTAB _ size => [.word size]
  | .constant type value => gen_value type value
  | .caseLabel tag entry => [.case tag entry]
  | _ => []

/-- `gen_switch` jumps there. `none` is a type without a helper. -/
def switchEntry (type : CType) : Option Label :=
  if PTR type ≠ 0 then some ⟨.__switch, .__switch⟩
  else if type = UCHAR ∨ type = CCHAR then some ⟨.__switchc, .__switchc⟩
  else if type = UINT ∨ type = CSHORT then some ⟨.__switch, .__switch⟩
  else if type = ULONG ∨ type = CLONG then some ⟨.__switchl, .__switchl⟩
  else none

/-! ## What the assembler makes of it -/

def wordBytes (w : BitVec 16) : List Byte := [hiByte w, loByte w]

/-- The linker has placed the cases. -/
def Datum.bytes (address : Nat → Nat → BitVec 16) : Datum → List Byte
  | byte n => [BitVec.ofNat 8 n]
  | word n => wordBytes (BitVec.ofNat 16 n)
  | case tag entry => wordBytes (address tag entry)

def Bytes (mem : BitVec 16 → Byte) : BitVec 16 → List Byte → Prop
  | _, [] => True
  | a, b :: bs => mem a = b ∧ Bytes mem (a + 1) bs

section
variable {mem mem' : BitVec 16 → Byte} {a : BitVec 16} {bs bs' : List Byte}

theorem bytes_append : Bytes mem a (bs ++ bs') ↔ Bytes mem a bs ∧ Bytes mem (a + BitVec.ofNat 16 bs.length) bs' := by
  induction bs generalizing a with
  | nil => simp [Bytes]
  | cons b bs ih =>
    have hnext : a + 1 + BitVec.ofNat 16 bs.length = a + BitVec.ofNat 16 (b :: bs).length := by
      rw [List.length_cons, Nat.add_comm, BitVec.ofNat_add, BitVec.add_assoc]
      rfl
    rw [List.cons_append, Bytes, Bytes, ih, hnext, and_assoc]

theorem bytes_word {w : BitVec 16} : Bytes mem a (wordBytes w) ↔ wordAt mem a = w := by
  have hw := Code6800.hi_append_lo w
  unfold wordBytes Bytes Bytes Bytes wordAt
  rw [and_true]
  refine ⟨fun ⟨hhi, hlo⟩ => by rw [hhi, hlo, hw], fun hat => ?_⟩
  rw [← hat]
  exact ⟨(Code6800.hiByte_append _ _).symm, (Code6800.loByte_append _ _).symm⟩

/-- Only the bytes count. -/
theorem Bytes.congr (hbytes : Bytes mem a bs) (hsame : ∀ i < bs.length, mem' (a + BitVec.ofNat 16 i) = mem (a + BitVec.ofNat 16 i)) :
    Bytes mem' a bs := by
  induction bs generalizing a with
  | nil => exact hbytes
  | cons b bs ih =>
    obtain ⟨hb, hrest⟩ := hbytes
    have hfirst := hsame 0 (by simp)
    rw [show BitVec.ofNat 16 0 = 0#16 from rfl, BitVec.add_zero] at hfirst
    refine ⟨hfirst.trans hb, ih hrest fun i hi => ?_⟩
    have hi' := hsame (1 + i) (by simp only [List.length_cons]; omega)
    rw [BitVec.ofNat_add, ← BitVec.add_assoc] at hi'
    exact hi'

end

/-! ## The table of a switch -/

section
variable {w : Nat} {r : Reading w} {mem : BitVec 16 → Byte} {type : CType}

def tableBytes (address : Nat → Nat → BitVec 16) (ev : List (Event h)) : List Byte :=
  (ev.flatMap tableData).flatMap (Datum.bytes address)

/-- The cases from number `count + 1` on. -/
def caseEntries (w : Nat) (label : Nat → BitVec 16) (count : Nat) : List (BitVec h.longBits) → List (BitVec w × BitVec 16)
  | [] => []
  | value :: values => (value.setWidth w, label (count + 1)) :: caseEntries w label (count + 1) values

theorem caseEntries_length (label : Nat → BitVec 16) (count : Nat) (values : List (BitVec h.longBits)) :
    (caseEntries w label count values).length = values.length := by
  induction values generalizing count with
  | nil => rfl
  | cons value values ih =>
    unfold caseEntries
    rw [List.length_cons, List.length_cons, ih]

/-- The number of the first case with the value, from 1 on. The default has the number 0. -/
def caseNumber (v : BitVec w) (values : List (BitVec h.longBits)) : Nat :=
  ((values.map (BitVec.setWidth w)).idxOf? v).elim 0 (· + 1)

theorem chosen_caseEntries (v : BitVec w) (d : BitVec 16) (label : Nat → BitVec 16) (count : Nat)
    (values : List (BitVec h.longBits)) : chosen v d (caseEntries w label count values) =
      ((values.map (BitVec.setWidth w)).idxOf? v).elim d fun i => label (count + (i + 1)) := by
  induction values generalizing count with
  | nil => rfl
  | cons value values ih =>
    unfold caseEntries chosen
    rw [List.map_cons, List.idxOf?_cons, ih]
    by_cases hv : v = value.setWidth w
    · rw [if_pos hv, if_pos (by rw [hv, beq_self_eq_true])]
      rfl
    · have hne : (value.setWidth w == v) = false := beq_eq_false_iff_ne.mpr (Ne.symm hv)
      rw [if_neg hv, hne]
      cases (values.map (BitVec.setWidth w)).idxOf? v with
      | none => rfl
      | some i =>
        show label (count + 1 + (i + 1)) = label (count + (i + 1 + 1))
        rw [Nat.add_right_comm, Nat.add_assoc]

/-- How a value is read is how it is laid down. -/
structure Lays (h : Host) (address : Nat → Nat → BitVec 16) (r : Reading w) (type : CType) : Prop where
  length (value : BitVec h.longBits) : ((gen_value type value).flatMap (Datum.bytes address)).length = r.size.toNat
  read (mem : BitVec 16 → Byte) (a : BitVec 16) (value : BitVec h.longBits) :
    Bytes mem a ((gen_value type value).flatMap (Datum.bytes address)) → r.read mem a = value.setWidth w

/-- The walkers find the entries that the back end has written. -/
theorem entries_table {address : Nat → Nat → BitVec 16} (hlays : Lays h address r type) {tag count : Nat} {values : List (BitVec h.longBits)}
    {a : BitVec 16}
    (htable : Bytes mem a (tableBytes address (tableEntries tag type count values ++
      [.caseLabel tag 0, .footer .H_SWITCHTAB tag 0]))) :
    Entries r mem (address tag 0) a (caseEntries w (address tag) count values) := by
  induction values generalizing a count with
  | nil => exact bytes_word.mp (bytes_append.mp htable).1
  | cons value values ih =>
    have hsplit : tableBytes address (tableEntries tag type count (value :: values) ++
        [.caseLabel tag 0, .footer .H_SWITCHTAB tag 0]) =
          (gen_value type value).flatMap (Datum.bytes address) ++ (wordBytes (address tag (count + 1)) ++
            tableBytes address (tableEntries tag type (count + 1) values ++
              [.caseLabel tag 0, .footer .H_SWITCHTAB tag 0])) := by
      simp [tableBytes, tableEntries, tableData, Datum.bytes]
    rw [hsplit, bytes_append, bytes_append, hlays.length, BitVec.ofNat_toNat, BitVec.setWidth_eq] at htable
    obtain ⟨hvalue, hlabel, hrest⟩ := htable
    exact ⟨hlays.read mem a value hvalue, bytes_word.mp hlabel, ih hrest⟩

end

section
variable {type : CType} {address : Nat → Nat → BitVec 16}

theorem setWidth_toNat_mask {n m k : Nat} (x : BitVec n) (hkm : k ≤ m) (hkn : k ≤ n) :
    BitVec.ofNat k ((x &&& BitVec.ofNat n (2 ^ k - 1)).setWidth m).toNat = x.setWidth k := by
  have hpow : 2 ^ k - 1 < 2 ^ n :=
    lt_of_lt_of_le (Nat.sub_lt (Nat.two_pow_pos k) Nat.one_pos) (Nat.pow_le_pow_right Nat.two_pos hkn)
  apply BitVec.eq_of_toNat_eq
  rw [BitVec.toNat_ofNat, BitVec.toNat_setWidth, BitVec.toNat_and, BitVec.toNat_ofNat, Nat.mod_eq_of_lt hpow,
    Nat.and_two_pow_sub_one_eq_mod, Nat.mod_mod_of_dvd _ (Nat.pow_dvd_pow 2 hkm), Nat.mod_mod, BitVec.toNat_setWidth]

theorem setWidth_mask {n k : Nat} (x : BitVec n) (hk : k ≤ n) :
    BitVec.ofNat k (x &&& BitVec.ofNat n (2 ^ k - 1)).toNat = x.setWidth k := by
  rw [← setWidth_toNat_mask x hk hk, BitVec.setWidth_eq]

theorem setWidth_halves {n : Nat} (x : BitVec n) : (x >>> 16).setWidth 16 ++ x.setWidth 16 = x.setWidth 32 := by
  apply BitVec.eq_of_getLsbD_eq
  intro i hi
  rw [BitVec.getLsbD_append]
  simp
  grind

theorem lays_byte (htype : type = CCHAR ∨ type = UCHAR) : Lays h address byteReading type := by
  have hbytes (value : BitVec h.longBits) :
      (gen_value type value).flatMap (Datum.bytes address) = [value.setWidth 8] := by
    have hint : 8 ≤ h.intBits := Nat.le_trans (by simp) h.int_wide
    rw [← BitVec.setWidth_setWidth_of_le value hint, ← setWidth_mask (value.setWidth h.intBits) hint]
    rcases htype with rfl | rfl <;> rfl
  refine ⟨fun value => ?_, fun mem a value hat => ?_⟩
  · rw [hbytes]
    rfl
  · rw [hbytes] at hat
    exact hat.1

theorem lays_word (htype : type = CSHORT ∨ type = USHORT) : Lays h address wordReading type := by
  have hbytes (value : BitVec h.longBits) :
      (gen_value type value).flatMap (Datum.bytes address) = wordBytes (value.setWidth 16) := by
    have hint := h.int_wide
    rw [← BitVec.setWidth_setWidth_of_le value hint, ← setWidth_mask (value.setWidth h.intBits) hint]
    rcases htype with rfl | rfl <;> rfl
  refine ⟨fun value => ?_, fun mem a value hat => ?_⟩
  · rw [hbytes]
    rfl
  · rw [hbytes] at hat
    exact bytes_word.mp hat

theorem lays_long (htype : type = CLONG ∨ type = ULONG) : Lays h address longReading type := by
  have hbytes (value : BitVec h.longBits) : (gen_value type value).flatMap (Datum.bytes address) =
      wordBytes ((value >>> 16).setWidth 16) ++ wordBytes (value.setWidth 16) := by
    have hlong := h.long_wide
    have hlow (x : BitVec h.longBits) : BitVec.ofNat 16 ((x &&& 0xFFFF).setWidth h.intBits).toNat = x.setWidth 16 :=
      setWidth_toNat_mask x h.int_wide (Nat.le_trans (by simp) hlong)
    rw [← hlow, ← hlow value]
    rcases htype with rfl | rfl <;> rfl
  refine ⟨fun value => ?_, fun mem a value hat => ?_⟩
  · rw [hbytes]
    rfl
  · rw [hbytes, bytes_append] at hat
    obtain ⟨hhigh, hlow⟩ := hat
    have hread : longReading.read mem a = wordAt mem a ++ wordAt mem (a + 2) := rfl
    have hnext : wordAt mem (a + 2) = value.setWidth 16 := bytes_word.mp hlow
    rw [hread, ← setWidth_halves, bytes_word.mp hhigh, hnext]

end

/-! ## The jump -/

def walkerCode (type : CType) : Code :=
  if getSize type = 1 then switchc else if getSize type = 4 then switchl else switch

/-- In B, in D or in Y and D. -/
def switchValue (type : CType) (s : State) : BitVec (8 * getSize type) := (s.y ++ (s.a ++ s.b)).setWidth (8 * getSize type)

section
variable {im : Linked} {a : BitVec 16} {s : State} {address : Nat → Nat → BitVec 16} {g : Statics h} {swptr : Nat}

/-- The walker of a long puts its count below the stack. -/
def Apart (top a : BitVec 16) (n : Nat) : Prop :=
  ∀ i < n, a + BitVec.ofNat 16 i ≠ top - 1 ∧ a + BitVec.ofNat 16 i ≠ top - 2 ∧ a + BitVec.ofNat 16 i ≠ top - 3 ∧
    a + BitVec.ofNat 16 i ≠ top - 4

theorem chosen_case {w : Nat} (v : BitVec w) (label : Nat → BitVec 16) (values : List (BitVec h.longBits)) :
    chosen v (label 0) (caseEntries w label 0 values) = label (caseNumber v values) := by
  unfold caseNumber
  rw [chosen_caseEntries]
  cases (values.map (BitVec.setWidth w)).idxOf? v with
  | none => rfl
  | some i => exact congrArg label (Nat.zero_add _)

/-- The count comes first. -/
theorem table_split {w : Nat} {r : Reading w} {mem : BitVec 16 → Byte} {a : BitVec 16} (hlays : Lays h address r g.switchType)
    (htable : Bytes mem a (tableBytes address (switchDone g swptr))) :
    wordAt mem a = BitVec.ofNat 16 (caseEntries w (address g.switchTag) 0 (g.table.drop swptr)).length ∧
      Entries r mem (address g.switchTag 0) (a + 2) (caseEntries w (address g.switchTag) 0 (g.table.drop swptr)) := by
  have hsplit : tableBytes address (switchDone g swptr) = wordBytes (BitVec.ofNat 16 (g.table.drop swptr).length) ++
      tableBytes address (tableEntries g.switchTag g.switchType 0 (g.table.drop swptr) ++
        [.caseLabel g.switchTag 0, .footer .H_SWITCHTAB g.switchTag 0]) := by
    simp [tableBytes, switchDone, tableData, Datum.bytes]
  rw [hsplit, bytes_append] at htable
  rw [caseEntries_length]
  exact ⟨bytes_word.mp htable.1, entries_table hlays htable.2⟩

theorem caseNumber_byte {type : CType} (htype : type = CCHAR ∨ type = UCHAR) (values : List (BitVec h.longBits)) :
    caseNumber (switchValue type s) values = caseNumber s.b values := by
  have hlow : (s.y ++ (s.a ++ s.b)).setWidth 8 = s.b := by
    apply BitVec.eq_of_getLsbD_eq
    intro i hi
    rw [BitVec.getLsbD_setWidth, BitVec.getLsbD_append, BitVec.getLsbD_append]
    simp [hi]
    omega
  rcases htype with rfl | rfl
  all_goals
    show caseNumber ((s.y ++ (s.a ++ s.b)).setWidth 8) values = _
    rw [hlow]

theorem caseNumber_word {type : CType} (htype : type = CSHORT ∨ type = USHORT) (values : List (BitVec h.longBits)) :
    caseNumber (switchValue type s) values = caseNumber (s.a ++ s.b) values := by
  have hlow : (s.y ++ (s.a ++ s.b)).setWidth 16 = s.a ++ s.b := BitVec.setWidth_append_eq_right
  rcases htype with rfl | rfl
  all_goals
    show caseNumber ((s.y ++ (s.a ++ s.b)).setWidth 16) values = _
    rw [hlow]

theorem caseNumber_long {type : CType} (htype : type = CLONG ∨ type = ULONG) (values : List (BitVec h.longBits)) :
    caseNumber (switchValue type s) values = caseNumber (s.y ++ (s.a ++ s.b)) values := by
  have hsame : (s.y ++ (s.a ++ s.b)).setWidth 32 = s.y ++ (s.a ++ s.b) := BitVec.setWidth_eq _
  rcases htype with rfl | rfl
  all_goals
    show caseNumber ((s.y ++ (s.a ++ s.b)).setWidth 32) values = _
    rw [hsame]

theorem switch_dispatch {entry : Label} (htype : IntType g.switchType) (hlen : (g.table.drop swptr).length < 256)
    (hentry : switchEntry g.switchType = some entry) (hcode : im.Holds a (walkerCode g.switchType))
    (htable : Bytes s.mem s.x (tableBytes address (switchDone g swptr)))
    (hapart : getSize g.switchType = 4 → Apart s.s s.x (tableBytes address (switchDone g swptr)).length) :
    ∃ s', mc6809.Reaches im ⟨im.label entry, s⟩
        ⟨address g.switchTag (caseNumber (switchValue g.switchType s) (g.table.drop swptr)), s'⟩ ∧
      s'.s = s.s ∧ Agrees s.s s.mem s'.mem := by
  have hcases : (g.switchType = CCHAR ∨ g.switchType = UCHAR) ∨ (g.switchType = CSHORT ∨ g.switchType = USHORT) ∨
      g.switchType = CLONG ∨ g.switchType = ULONG := by
    simpa [IntType, CINT, UINT, or_assoc] using htype
  have hbelow (htop : Apart s.s s.x (tableBytes address (switchDone g swptr)).length) (mem' : BitVec 16 → Byte)
      (hmem' : Agrees s.s s.mem mem') : Bytes mem' s.x (tableBytes address (switchDone g swptr)) := by
    refine htable.congr fun i hi => ?_
    obtain ⟨h₁, h₂, h₃, h₄⟩ := htop i hi
    exact hmem' _ h₁ h₂ h₃ h₄
  rcases hcases with hbyte | hword | hlong
  · obtain ⟨hcount, hentries⟩ := table_split (lays_byte hbyte) htable
    have hentry' : entry = ⟨.__switchc, .__switchc⟩ := by
      rcases hbyte with heq | heq <;> rw [heq] at hentry <;> exact (Option.some.inj hentry).symm
    have hcode' : im.Holds a (switchWalker .__switchc .__switchc ⟨.cmpb, .postInc .x⟩) := by
      rcases hbyte with heq | heq <;> rw [heq] at hcode <;> exact hcode
    obtain ⟨s', hreach, hs, hmem⟩ := walker_run compares_byte (by simp) hcode' _ (by rw [caseEntries_length]; omega)
      hcount hentries
    rw [chosen_case, ← caseNumber_byte hbyte, ← hentry'] at hreach
    exact ⟨s', hreach, hs, fun p _ _ _ _ => by rw [hmem]⟩
  · obtain ⟨hcount, hentries⟩ := table_split (lays_word hword) htable
    have hentry' : entry = ⟨.__switch, .__switch⟩ := by
      rcases hword with heq | heq <;> rw [heq] at hentry <;> exact (Option.some.inj hentry).symm
    have hcode' : im.Holds a (switchWalker .__switch .__switch ⟨.cmpd, .postInc2 .x⟩) := by
      rcases hword with heq | heq <;> rw [heq] at hcode <;> exact hcode
    obtain ⟨s', hreach, hs, hmem⟩ := walker_run compares_word (by simp) hcode' _ (by rw [caseEntries_length]; omega)
      hcount hentries
    rw [chosen_case, ← caseNumber_word hword, ← hentry'] at hreach
    exact ⟨s', hreach, hs, fun p _ _ _ _ => by rw [hmem]⟩
  · have hentry' : entry = ⟨.__switchl, .__switchl⟩ := by
      rcases hlong with heq | heq <;> rw [heq] at hentry <;> exact (Option.some.inj hentry).symm
    have hcode' : im.Holds a switchl := by
      rcases hlong with heq | heq <;> rw [heq] at hcode <;> exact hcode
    have htop := hapart (by rcases hlong with heq | heq <;> rw [heq] <;> rfl)
    have hsplit (mem' : BitVec 16 → Byte) (hmem' : Agrees s.s s.mem mem') :=
      table_split (lays_long hlong) (hbelow htop mem' hmem')
    obtain ⟨s', hreach, hs, hmem⟩ := switchl_run hcode' _ (by rw [caseEntries_length]; exact hlen)
      (fun mem' hmem' => (hsplit mem' hmem').1) (fun mem' hmem' => (hsplit mem' hmem').2)
    rw [chosen_case, ← caseNumber_long hlong, ← hentry'] at hreach
    exact ⟨s', hreach, hs, hmem⟩

end

/-! ## Comparisons and switches -/

/-- Every comparison but `__ccgteql` returns what C says, and it does unless the left side has the greater high word
and the lesser low word. Every walker jumps to the label of the first case. -/
theorem compares_and_dispatches (h : Host) {im : Linked} {a : BitVec 16} {s : State} :
    (∀ f : Comparison, im.Holds a f.code → OneRight s → im.fetch (s.wordOf (.index 0 .s)) = none →
      ((∃ s', mc6809.Ends im ⟨im.label f.entry, s⟩ ⟨s.wordOf (.index 0 .s), s'⟩ ∧
          Told s s' (f.answer (leftHigh s ++ leftLow s) (s.y ++ s.d))) ↔
        ¬(f = .gteql ∧ s.y.slt (leftHigh s) = true ∧ (leftLow s).ult s.d = true))) ∧
    (∀ (g : Statics h) (swptr : Nat) (address : Nat → Nat → BitVec 16) (entry : Label), IntType g.switchType →
      (g.table.drop swptr).length < 256 → switchEntry g.switchType = some entry →
      im.Holds a (walkerCode g.switchType) → Bytes s.mem s.x (tableBytes address (switchDone g swptr)) →
      (getSize g.switchType = 4 → Apart s.s s.x (tableBytes address (switchDone g swptr)).length) →
      ∃ s', mc6809.Reaches im ⟨im.label entry, s⟩
          ⟨address g.switchTag (caseNumber (switchValue g.switchType s) (g.table.drop swptr)), s'⟩ ∧
        s'.s = s.s ∧ Agrees s.s s.mem s'.mem) :=
  ⟨fun f hcode hone hret => comparison_iff f hcode hone hret,
    fun _ _ _ _ htype hlen hentry hcode htable hapart => switch_dispatch htype hlen hentry hcode htable hapart⟩

/-- 65536 on the stack and 1 in Y and D. The caller is at the end of memory. -/
def someLongs : State where
  a := 0
  b := 1
  x := 0
  y := 0
  s := 0
  mem := fun i => if i < 2 then 0xFF else if i = 3 then 1 else 0
  negative := false
  zero := false
  overflow := false
  carry := false
  page := fun i => if i = 4 then 1 else 0

theorem someLongs_one : OneRight someLongs := rfl

/-- 65536 >= 1 is 0. -/
theorem longs_misordered : ¬∀ (f : Comparison) (im : Linked) (a : BitVec 16) (s : State), im.Holds a f.code → OneRight s →
    im.fetch (s.wordOf (.index 0 .s)) = none →
    ∃ s', mc6809.Ends im ⟨im.label f.entry, s⟩ ⟨s.wordOf (.index 0 .s), s'⟩ ∧
      Told s s' (f.answer (leftHigh s ++ leftLow s) (s.y ++ s.d)) := by
  intro hall
  have hholds : (Image.link 16 ccgteql).Holds 0 ccgteql := Image.holds_link (by decide) (by decide)
  have hright := hall .gteql _ _ someLongs hholds someLongs_one rfl
  exact (comparison_iff .gteql hholds someLongs_one rfl).mp hright ⟨rfl, by decide, by decide⟩

/-- `switch` on a char, with `case 5`. -/
def someSwitch : Statics .fuzix := { (Statics.start : Statics .fuzix) with switchTag := 1, switchType := CCHAR, table := [5] }

def someCases (_ entry : Nat) : BitVec 16 := if entry = 0 then 0x4321 else 0x1234

def someTable : State :=
  { someLongs with b := 5, mem := fun i => [0x00, 0x01, 0x05, 0x12, 0x34, 0x43, 0x21].getD i.toNat 0 }

theorem compares_and_dispatches_some :
    (∃ s', mc6809.Ends (Image.link 16 cceql) ⟨(Image.link 16 cceql).label Comparison.eql.entry, someLongs⟩ ⟨0xFFFF, s'⟩ ∧
      Told someLongs s' false) ∧
    ∃ s', mc6809.Reaches (Image.link 16 switchc) ⟨(Image.link 16 switchc).label ⟨.__switchc, .__switchc⟩, someTable⟩
      ⟨0x1234, s'⟩ ∧ s'.s = 0 := by
  have hcompare : (Image.link 16 cceql).Holds 0 cceql := Image.holds_link (by decide) (by decide)
  have hswitch : (Image.link 16 switchc).Holds 0 switchc := Image.holds_link (by decide) (by decide)
  have htable : Bytes someTable.mem 0 (tableBytes someCases (switchDone someSwitch 0)) := by
    show Bytes someTable.mem 0 [0x00, 0x01, 0x05, 0x12, 0x34, 0x43, 0x21]
    exact ⟨rfl, rfl, rfl, rfl, rfl, rfl, rfl, trivial⟩
  constructor
  · exact ((compares_and_dispatches .fuzix).1 .eql hcompare someLongs_one rfl).mpr (by simp)
  · obtain ⟨s', hreach, hs, -⟩ := (compares_and_dispatches .fuzix (s := someTable)).2 someSwitch 0 someCases _ (by decide)
      (by decide) rfl hswitch htable fun hsize => absurd hsize (by decide)
    exact ⟨s', hreach, hs⟩

end Fuzemsys.Fcc.Runtime
