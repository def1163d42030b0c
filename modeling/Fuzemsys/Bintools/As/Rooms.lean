import Fuzemsys.Bintools.As.Streams

/-!
# The rooms of the streams

A stream fits into its room when the bytes that need a quote in the last pass, and did not
before, are no more than those that were reserved.
-/

namespace Fuzemsys.Bintools.As

/-! ## The bytes of a call -/

/-- Constant bytes that reserve nothing. -/
def bareBytes : Call → List Byte
  | .outab b => [b]
  | .outabchk2 a => [chk2Byte a]
  | .outrab a => if a.relocates ∨ a.a_high ∨ a.a_low then [] else [lowByte a.a_value]
  | _ => []

/-- Constant bytes with room for a quote. -/
def paddedBytes (tgt : Target) : Call → List Byte
  | .outab2 b => [b]
  | .outrab a =>
    if a.relocates then []
    else if a.a_high then [highByte a.a_value]
    else if a.a_low then [lowByte a.a_value]
    else []
  | .outraw a =>
    if a.relocates then []
    else if a.a_high then [highByte a.a_value]
    else if a.a_low then [lowByte a.a_value]
    else wordBytes tgt a.a_value
  | .outrabrel a => if a.a_sym.isSome then [] else [lowByte a.a_value]
  | _ => []

/-- The zero bytes of `.ds`. -/
def zeroBytes : Call → Nat
  | .outzeros n => n.toNat
  | _ => 0

/-- The bytes of a call's record, with the value in it. -/
def recordLength (tgt : Target) : Call → Nat
  | .org _ => 4
  | .outrab a => if a.relocates then (recordEmission tgt a 1).stream.length else 0
  | .outraw a => if a.relocates then (recordEmission tgt a 2).stream.length else 0
  | .outrabrel a => if a.a_sym.isSome then 6 else 0
  | .outrawrel a => (rawrelEmission tgt a).stream.length
  | _ => 0

/-- The bytes that look like the start of a record. -/
def quotes (bs : List Byte) : Nat := bs.count REL_ESC

/-- What calls put into the stream when no byte needs a quote, the bytes of `.ds` left out. -/
def plainLength (tgt : Target) (calls : List Call) : Nat :=
  (calls.map (recordLength tgt)).sum + (calls.flatMap bareBytes).length + (calls.flatMap (paddedBytes tgt)).length

def bareQuotes (calls : List Call) : Nat := quotes (calls.flatMap bareBytes)

def paddedQuotes (tgt : Target) (calls : List Call) : Nat := quotes (calls.flatMap (paddedBytes tgt))

def paddedCount (tgt : Target) (calls : List Call) : Nat := (calls.flatMap (paddedBytes tgt)).length

def zeroCount (calls : List Call) : Nat := (calls.map zeroBytes).sum

/-- What a counter of 16 bits loses. -/
def lost (n : Nat) : Nat := n / 65536 * 65536

/-- The rooms that come from the operands of pass 2 are enough for those of pass 3. -/
structure RoomEnough (tgt : Target) (calls2 calls3 : List Call) : Prop where
  streams : ∀ seg ≠ BSS,
    plainLength tgt (callsIn seg CODE calls3) + bareQuotes (callsIn seg CODE calls3) +
        paddedQuotes tgt (callsIn seg CODE calls3) + zeroCount (callsIn seg CODE calls3) +
        lost (emissionOf tgt (callsIn seg CODE calls2)).stream.length +
        lost (emissionOf tgt (callsIn seg CODE calls2)).pad ≤
      plainLength tgt (callsIn seg CODE calls2) + bareQuotes (callsIn seg CODE calls2) +
        paddedCount tgt (callsIn seg CODE calls2) + zeroCount (callsIn seg CODE calls2)
  programs : ∀ seg,
    (emissionOf tgt (callsIn seg CODE calls2)).count % 2 ^ 32 % 2 ^ 16 =
      (emissionOf tgt (callsIn seg CODE calls3)).count % 2 ^ 32

section Lengths

variable {tgt : Target}

theorem quoted_length (b : Byte) : (quoted b).length = 1 + quotes [b] := by
  unfold quoted quotes
  by_cases h : b = REL_ESC
  · simp [h]
  · simp [h]

theorem quotePad_quotes (b : Byte) : quotePad b + quotes [b] = 1 := by
  unfold quotePad quotes
  by_cases h : b = REL_ESC
  · simp [h]
  · simp [h]

theorem quotes_cons (b : Byte) (bs : List Byte) : quotes (b :: bs) = quotes [b] + quotes bs := by
  rw [← List.singleton_append, quotes, List.count_append]
  rfl

theorem flatMap_quoted_length (bs : List Byte) : (bs.flatMap quoted).length = bs.length + quotes bs := by
  induction bs with
  | nil => rfl
  | cons b bs ih =>
    rw [List.flatMap_cons, List.length_append, ih, quoted_length, quotes_cons b bs, List.length_cons]
    omega

theorem quotePad_sum (bs : List Byte) : (bs.map quotePad).sum + quotes bs = bs.length := by
  induction bs with
  | nil => rfl
  | cons b bs ih =>
    have hb := quotePad_quotes b
    rw [List.map_cons, List.sum_cons, quotes_cons b bs, List.length_cons]
    omega

/-- How long the stream of a call is, and what it reserves. -/
structure Sized (e : Emission) (record : Nat) (bare padded : List Byte) (zeros : Nat) : Prop where
  stream : e.stream.length = record + bare.length + quotes bare + padded.length + quotes padded + zeros
  pad : e.pad + quotes padded = padded.length

theorem padded_sized (bs : List Byte) : Sized (paddedEmission bs) 0 [] bs 0 := by
  refine ⟨?_, quotePad_sum bs⟩
  rw [paddedEmission, flatMap_quoted_length]
  simp [quotes]

theorem byte_sized (b : Byte) : Sized (byteEmission b) 0 [b] [] 0 := by
  refine ⟨?_, rfl⟩
  rw [byteEmission, quoted_length]
  simp [quotes]

theorem record_sized {e : Emission} (h : e.pad = 0) : Sized e e.stream.length [] [] 0 := by
  refine ⟨?_, ?_⟩
  · simp [quotes]
  · simp [h, quotes]

theorem call_sized (tgt : Target) (c : Call) :
    Sized (callEmission tgt c) (recordLength tgt c) (bareBytes c) (paddedBytes tgt c) (zeroBytes c) := by
  cases c with
  | setSegment seg => exact record_sized rfl
  | org addr => exact record_sized rfl
  | outab b => exact byte_sized b
  | outab2 b => exact padded_sized [b]
  | outabchk2 a => exact byte_sized (chk2Byte a)
  | outrab a =>
    simp only [callEmission, relocEmission, constantEmission, recordLength, bareBytes, paddedBytes, zeroBytes]
    by_cases hrelocates : a.relocates
    · simp only [hrelocates, if_true, true_or]
      exact record_sized rfl
    · simp only [hrelocates, if_false, false_or]
      by_cases hhigh : a.a_high
      · simp only [hhigh, if_true, true_or]
        exact padded_sized _
      · by_cases hlow : a.a_low
        · simp only [hhigh, hlow, if_true, if_false, or_true, Bool.false_eq_true]
          exact padded_sized _
        · simp only [hhigh, hlow, if_true, if_false, or_self, Bool.false_eq_true]
          exact byte_sized _
  | outraw a =>
    simp only [callEmission, relocEmission, constantEmission, recordLength, bareBytes, paddedBytes, zeroBytes]
    split_ifs with hrelocates hhigh hlow hone
    · exact record_sized rfl
    · exact padded_sized _
    · exact padded_sized _
    · exact absurd hone (by decide)
    · exact padded_sized _
  | outrabrel a =>
    simp only [callEmission, rabrelEmission, recordLength, bareBytes, paddedBytes, zeroBytes]
    rcases a.a_sym with _ | number
    · exact padded_sized _
    · exact record_sized rfl
  | outrawrel a => exact record_sized rfl
  | outzeros n =>
    refine ⟨?_, rfl⟩
    simp [callEmission, recordLength, bareBytes, paddedBytes, zeroBytes, quotes]

theorem quotes_append (bs cs : List Byte) : quotes (bs ++ cs) = quotes bs + quotes cs := List.count_append

theorem emissionOf_sized (tgt : Target) (calls : List Call) :
    Sized (emissionOf tgt calls) (calls.map (recordLength tgt)).sum (calls.flatMap bareBytes)
      (calls.flatMap (paddedBytes tgt)) (zeroCount calls) := by
  induction calls with
  | nil => exact record_sized rfl
  | cons c cs ih =>
    have hcall := call_sized tgt c
    refine ⟨?_, ?_⟩
    · have h1 := hcall.stream
      have h2 := ih.stream
      simp only [emissionOf, Emission.append, zeroCount, List.map_cons, List.sum_cons, List.flatMap_cons,
        List.length_append, quotes_append] at h2 ⊢
      omega
    · have h1 := hcall.pad
      have h2 := ih.pad
      simp only [emissionOf, Emission.append, List.flatMap_cons, List.length_append, quotes_append]
      omega

/-- The inequality of the rooms is that of the operands. -/
theorem room_iff (c2 c3 : List Call) :
    (emissionOf tgt c3).stream.length ≤
        (emissionOf tgt c2).stream.length % 65536 + (emissionOf tgt c2).pad % 65536 ↔
      plainLength tgt c3 + bareQuotes c3 + paddedQuotes tgt c3 + zeroCount c3 +
          lost (emissionOf tgt c2).stream.length + lost (emissionOf tgt c2).pad ≤
        plainLength tgt c2 + bareQuotes c2 + paddedCount tgt c2 + zeroCount c2 := by
  have h2 := (emissionOf_sized tgt c2).stream
  have hpad := (emissionOf_sized tgt c2).pad
  have h3 := (emissionOf_sized tgt c3).stream
  unfold lost plainLength bareQuotes paddedQuotes paddedCount
  omega

end Lengths

/-! ## Operands of one kind -/

section Same

variable {tgt : Target} {calls2 calls3 : List Call} {seg cur : Seg}

theorem segmentAfter_same {c c' : Call} (h : c.same c') : segmentAfter cur c = segmentAfter cur c' := by
  cases c
  all_goals
    cases c'
    all_goals first | exact h | rfl | exact h.elim

theorem callsIn_same (h : List.Forall₂ Call.same calls2 calls3) :
    List.Forall₂ Call.same (callsIn seg cur calls2) (callsIn seg cur calls3) := by
  induction h generalizing cur with
  | nil => exact List.Forall₂.nil
  | cons hcall hrest ih =>
    rw [callsIn, callsIn, segmentAfter_same hcall]
    split_ifs
    · exact List.Forall₂.cons hcall ih
    · exact ih

/-- The lengths that are the same for two operands of one kind. -/
structure SameLengths (tgt : Target) (c c' : Call) : Prop where
  record : recordLength tgt c = recordLength tgt c'
  bare : (bareBytes c).length = (bareBytes c').length
  padded : (paddedBytes tgt c).length = (paddedBytes tgt c').length

theorem sameKind_relocates {a a' : Addr} (h : a.sameKind a') : a.relocates ↔ a'.relocates := by
  unfold Addr.relocates
  rw [h.1, h.2.2.2]

theorem record_length {a a' : Addr} (bytes : Nat) (h : a.sameKind a') :
    (recordEmission tgt a bytes).stream.length = (recordEmission tgt a' bytes).stream.length := by
  obtain ⟨hsegment, hlow, hhigh, hsym⟩ := h
  have htarget : ∀ s s', (targetBytes a s).length = (targetBytes a' s').length := by
    intro s s'
    unfold targetBytes
    rcases ha : a.a_sym with _ | number
    · rcases ha' : a'.a_sym with _ | number'
      · rfl
      · simp [ha, ha'] at hsym
    · rcases ha' : a'.a_sym with _ | number'
      · simp [ha, ha'] at hsym
      · rfl
  have hvalue : ∀ value value', (valueBytes tgt a bytes value).length = (valueBytes tgt a' bytes value').length := by
    intro value value'
    unfold valueBytes
    rw [hlow, hhigh]
    split_ifs
    · rfl
    · rw [wordBytes_length, wordBytes_length]
    · rfl
    · rw [wordBytes_length, wordBytes_length]
  simp only [recordEmission, recordHead, List.length_append, hlow, hhigh]
  rw [htarget, hvalue]

theorem same_lengths (tgt : Target) {c c' : Call} (h : c.same c') : SameLengths tgt c c' := by
  cases c
  all_goals
    cases c'
    all_goals first | exact h.elim | skip
  case setSegment.setSegment => exact ⟨rfl, rfl, rfl⟩
  case org.org => exact ⟨rfl, rfl, rfl⟩
  case outab.outab => exact ⟨rfl, rfl, rfl⟩
  case outab2.outab2 => exact ⟨rfl, rfl, rfl⟩
  case outabchk2.outabchk2 => exact ⟨rfl, rfl, rfl⟩
  case outzeros.outzeros => exact ⟨rfl, rfl, rfl⟩
  case outrab.outrab a a' =>
    obtain ⟨-, hlow, hhigh, -⟩ := id h
    refine ⟨?_, ?_, ?_⟩
    · simp only [recordLength, sameKind_relocates h, record_length 1 h]
    · simp only [bareBytes, sameKind_relocates h, hlow, hhigh]
      split_ifs
      · rfl
      · rfl
    · simp only [paddedBytes, sameKind_relocates h, hlow, hhigh]
      split_ifs
      all_goals rfl
  case outraw.outraw a a' =>
    obtain ⟨-, hlow, hhigh, -⟩ := id h
    refine ⟨?_, rfl, ?_⟩
    · simp only [recordLength, sameKind_relocates h, record_length 2 h]
    · simp only [paddedBytes, sameKind_relocates h, hlow, hhigh]
      split_ifs
      · rfl
      · rfl
      · rfl
      · rw [wordBytes_length, wordBytes_length]
  case outrabrel.outrabrel a a' =>
    obtain ⟨-, -, -, hsym⟩ := id h
    refine ⟨?_, rfl, ?_⟩
    · simp only [recordLength, hsym]
    · simp only [paddedBytes, hsym]
      split_ifs
      · rfl
      · rfl
  case outrawrel.outrawrel a a' =>
    obtain ⟨-, -, -, hsym⟩ := id h
    refine ⟨?_, rfl, rfl⟩
    simp only [recordLength, rawrelEmission, List.length_append, wordBytes_length]
    rcases ha : a.a_sym with _ | number
    · rcases ha' : a'.a_sym with _ | number'
      · rfl
      · simp [ha, ha'] at hsym
    · rcases ha' : a'.a_sym with _ | number'
      · simp [ha, ha'] at hsym
      · rfl

theorem plainLength_same (tgt : Target) (h : List.Forall₂ Call.same calls2 calls3) :
    plainLength tgt calls2 = plainLength tgt calls3 ∧ paddedCount tgt calls2 = paddedCount tgt calls3 := by
  unfold plainLength paddedCount
  induction h with
  | nil => exact ⟨rfl, rfl⟩
  | cons hcall _ ih =>
    obtain ⟨hrecord, hbare, hpadded⟩ := same_lengths tgt hcall
    simp only [List.map_cons, List.sum_cons, List.flatMap_cons, List.length_append, hrecord, hbare, hpadded]
    omega

/-- Room enough for one segment: only a padded byte may become `0xDA`. -/
theorem room_of_same (hsame : List.Forall₂ Call.same calls2 calls3)
    (hbare : bareQuotes calls3 ≤ bareQuotes calls2) (hzero : zeroCount calls3 ≤ zeroCount calls2)
    (hwrap : (emissionOf tgt calls2).stream.length < 65536) :
    (emissionOf tgt calls3).stream.length ≤
      (emissionOf tgt calls2).stream.length % 65536 + (emissionOf tgt calls2).pad % 65536 := by
  have hsized := emissionOf_sized tgt calls2
  have hpadded : paddedQuotes tgt calls3 ≤ paddedCount tgt calls3 := List.count_le_length
  obtain ⟨hplain, hcount⟩ := plainLength_same tgt hsame
  have hstream := hsized.stream
  have hpad := hsized.pad
  have hlost : lost (emissionOf tgt calls2).stream.length = 0 := by
    unfold lost
    omega
  have hlostPad : lost (emissionOf tgt calls2).pad = 0 := by
    unfold lost
    omega
  apply (room_iff calls2 calls3).mpr
  omega

end Same

end Fuzemsys.Bintools.As
