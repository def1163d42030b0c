import Fuzemsys.Bintools.As.Rooms

/-!
# When the streams fit

Pass 3 writes each stream whole from the base of its room on. So the streams fit, and are
apart, exactly when the operands of pass 2 made rooms for those of pass 3.
-/

namespace Fuzemsys.Bintools.As

variable {tgt : Target} {st st' st2 st3 : Asm} {segbase : Seg → Nat} {calls2 calls3 : List Call}

/-! ## The layout -/

theorem layout_succ (st : Asm) (seg : Seg) : layout st (seg.val + 1) = layout st seg.val + room st seg := by
  rw [layout, dif_pos seg.isLt]

theorem layout_mono (st : Asm) {i j : Nat} (h : i ≤ j) : layout st i ≤ layout st j := by
  induction j, h using Nat.le_induction with
  | base => exact Nat.le_refl _
  | succ j _ ih => exact ih.trans (Nat.le_add_right _ _)

/-- A place is in the room of one segment only. -/
theorem room_unique {seg seg' : Seg} {pos : Nat} (h : layout st seg.val ≤ pos)
    (h' : pos < layout st (seg.val + 1)) (k : layout st seg'.val ≤ pos) (k' : pos < layout st (seg'.val + 1)) :
    seg = seg' := by
  apply Fin.ext
  rcases Nat.lt_trichotomy seg.val seg'.val with hlt | heq | hlt
  · have hmono := layout_mono st (show seg.val + 1 ≤ seg'.val from hlt)
    omega
  · exact heq
  · have hmono := layout_mono st (show seg'.val + 1 ≤ seg.val from hlt)
    omega

/-! ## The end marks -/

def eofEmission : Emission where
  stream := [REL_ESC, REL_EOF]
  count := 0
  pad := 0

theorem outends_grows (segs : List Seg) (hnodup : segs.Nodup) (st : Asm) :
    Grows st (outends st segs) fun seg => if seg ∈ segs ∧ seg ≠ BSS then eofEmission else .none := by
  induction segs generalizing st with
  | nil =>
    refine (Grows.refl st).of_eq fun seg => ?_
    rw [if_neg fun h => List.not_mem_nil h.1]
  | cons s segs ih =>
    obtain ⟨hs, hnodup⟩ := List.nodup_cons.mp hnodup
    unfold outends
    split_ifs with hbss
    · refine (ih hnodup st).of_eq fun seg => ?_
      by_cases hseg : seg = BSS
      · simp [hseg]
      · have hne : seg ≠ s := fun h => hseg (h.trans hbss)
        simp [hseg, hne]
    · have hmark := (setSegment_grows st s).trans (outbytes_emits (setSegment st s) [REL_ESC, REL_EOF]).grows
      refine (hmark.trans (ih hnodup _)).of_eq fun seg => ?_
      have hsegment : (setSegment st s).segment = s := outsegment_segment _ s
      simp only [hsegment]
      by_cases hseg : s = seg
      · subst hseg
        simp [hs, hbss, Emission.append, Emission.none, eofEmission]
      · have hne : seg ≠ s := Ne.symm hseg
        by_cases hmem : seg ∈ segs ∧ seg ≠ BSS
        · simp [hseg, hmem, Emission.append, Emission.none]
        · simp [hseg, hne, hmem, Emission.append, Emission.none]

theorem outeof_grows (st : Asm) :
    Grows st (outeof st) fun seg => if seg ≠ BSS then eofEmission else .none := by
  refine (outends_grows (List.finRange OSEG) (List.nodup_finRange OSEG) st).of_eq fun seg => ?_
  simp only [List.mem_finRange, true_and]

/-! ## What the passes leave -/

theorem startPass3_atRest (st : Asm) : (startPass3 st).AtRest := ⟨rfl, fun _ => rfl⟩

section Assembled

variable (h : Assembled tgt segbase calls2 calls3 st2 st3)

include h

theorem Assembled.grows2 :
    Grows (startPass2 segbase) st2 fun seg => emissionOf tgt (callsIn seg CODE calls2) :=
  runCalls_grows h.pass2

theorem Assembled.grows3 : Grows (startPass3 st2) st3 fun seg => emissionOf tgt (callsIn seg CODE calls3) :=
  runCalls_grows h.pass3

theorem Assembled.segsize (seg : Seg) :
    (st2.segsize seg).toNat = (emissionOf tgt (callsIn seg CODE calls2)).stream.length % 65536 := by
  rw [h.grows2.segsize]
  simp [startPass2]

theorem Assembled.segpad (seg : Seg) :
    (st2.segpad seg).toNat = (emissionOf tgt (callsIn seg CODE calls2)).pad % 65536 := by
  rw [h.grows2.segpad]
  simp [startPass2]

theorem Assembled.o_size (seg : Seg) :
    (o_size st2 seg).toNat = (emissionOf tgt (callsIn seg CODE calls2)).count % 2 ^ 32 % 2 ^ 16 := by
  rw [As.o_size, h.grows2.truesize]
  simp [startPass2]

theorem Assembled.truesize (seg : Seg) :
    (st3.truesize seg).toNat = (emissionOf tgt (callsIn seg CODE calls3)).count % 2 ^ 32 := by
  rw [h.grows3.truesize]
  simp [startPass3, outsegment]

/-- Pass 2 writes nothing, so the file has only what pass 3 writes. -/
theorem Assembled.startPass3_out : (startPass3 st2).out = [] := by
  have hsilent := h.grows2.silent (show (2 : Nat) ≠ 3 by decide)
  simp only [startPass3, outsegment, if_true]
  exact hsilent

theorem Assembled.stream {seg : Seg} (hseg : seg ≠ BSS) :
    streamIn st3 seg = placedAt seg (layout st2 seg.val) (emissionOf tgt (callsIn seg CODE calls3)).stream := by
  rw [h.grows3.stream (startPass3_atRest st2) seg hseg, streamIn, h.startPass3_out, List.filter_nil, List.nil_append]
  rfl

theorem Assembled.whole {seg : Seg} (hseg : seg ≠ BSS) :
    streamIn (outeof st3) seg = placedAt seg (layout st2 seg.val)
      ((emissionOf tgt (callsIn seg CODE calls3)).stream ++ [REL_ESC, REL_EOF]) := by
  have hrest := h.grows3.atRest (startPass3_atRest st2)
  have hbase : st3.segbase seg =
      layout st2 seg.val + (emissionOf tgt (callsIn seg CODE calls3)).stream.length := h.grows3.segbase seg
  rw [(outeof_grows st3).stream hrest seg hseg, h.stream hseg, if_pos hseg, hbase, placedAt_append]
  rfl

theorem Assembled.bss : streamIn (outeof st3) BSS = [] := by
  have hrest := h.grows3.atRest (startPass3_atRest st2)
  rw [(outeof_grows st3).bss hrest, h.grows3.bss (startPass3_atRest st2), streamIn, h.startPass3_out,
    List.filter_nil]

end Assembled

/-! ## The theorem -/

theorem placedAt_length (seg : Seg) (pos : Nat) (bs : List Byte) : (placedAt seg pos bs).length = bs.length := by
  induction bs generalizing pos with
  | nil => rfl
  | cons b bs ih => rw [placedAt, List.length_cons, ih, List.length_cons]

theorem placedAt_pos (seg : Seg) (pos : Nat) (bs : List Byte) :
    (placedAt seg pos bs).map Written.pos = List.range' pos bs.length := by
  induction bs generalizing pos with
  | nil => rfl
  | cons b bs ih => rw [placedAt, List.map_cons, ih, List.length_cons, List.range'_succ]

theorem placedAt_range {seg : Seg} {pos : Nat} {bs : List Byte} {w : Written} (hw : w ∈ placedAt seg pos bs) :
    pos ≤ w.pos ∧ w.pos < pos + bs.length := by
  have hmem : w.pos ∈ List.range' pos bs.length := by
    rw [← placedAt_pos seg]
    exact List.mem_map_of_mem hw
  exact List.mem_range'_1.mp hmem

section

variable (h : Assembled tgt segbase calls2 calls3 st2 st3)

include h

theorem Assembled.fits_iff (seg : Seg) (hseg : seg ≠ BSS) :
    (streamIn st3 seg).length ≤ (st2.segsize seg).toNat + (st2.segpad seg).toNat ↔
      (emissionOf tgt (callsIn seg CODE calls3)).stream.length ≤
        (emissionOf tgt (callsIn seg CODE calls2)).stream.length % 65536 +
          (emissionOf tgt (callsIn seg CODE calls2)).pad % 65536 := by
  rw [h.stream hseg, placedAt_length, h.segsize, h.segpad]

theorem Assembled.whole_pos (seg : Seg) (hseg : seg ≠ BSS) :
    (streamIn (outeof st3) seg).map Written.pos =
      List.range' (layout st2 seg.val) ((streamIn st3 seg).length + 2) := by
  rw [h.whole hseg, placedAt_pos, h.stream hseg, placedAt_length, List.length_append]
  rfl

/-- Streams that fit into their rooms are apart, as the rooms are. -/
theorem Assembled.apart
    (hfits : ∀ seg ≠ BSS, (streamIn st3 seg).length ≤ (st2.segsize seg).toNat + (st2.segpad seg).toNat)
    (seg : Seg) (w : Written) (hw : w ∈ (outeof st3).out) :
    w.seg = seg ↔ layout st2 seg.val ≤ w.pos ∧ w.pos < layout st2 (seg.val + 1) := by
  have hin : w ∈ streamIn (outeof st3) w.seg := List.mem_filter.mpr ⟨hw, decide_eq_true rfl⟩
  have hbss : w.seg ≠ BSS := by
    intro heq
    rw [heq, h.bss] at hin
    exact List.not_mem_nil hin
  have hroom : layout st2 w.seg.val ≤ w.pos ∧ w.pos < layout st2 (w.seg.val + 1) := by
    have hfit := hfits w.seg hbss
    rw [h.whole hbss] at hin
    rw [h.stream hbss, placedAt_length] at hfit
    obtain ⟨hlow, hhigh⟩ := placedAt_range hin
    rw [List.length_append, List.length_cons, List.length_singleton] at hhigh
    rw [layout_succ, room, if_neg hbss]
    omega
  constructor
  · intro heq
    rw [← heq]
    exact hroom
  · intro hplace
    exact room_unique hroom.1 hroom.2 hplace.1 hplace.2

end

/-- The reserved bytes do their work: where only an operand with room for a quote becomes `0xDA`,
and the counter does not wrap, the stream fits. -/
theorem Assembled.fits_of_same (h : Assembled tgt segbase calls2 calls3 st2 st3)
    (hsame : List.Forall₂ Call.same calls2 calls3) (seg : Seg) (hseg : seg ≠ BSS)
    (hbare : bareQuotes (callsIn seg CODE calls3) ≤ bareQuotes (callsIn seg CODE calls2))
    (hzero : zeroCount (callsIn seg CODE calls3) ≤ zeroCount (callsIn seg CODE calls2))
    (hwrap : (emissionOf tgt (callsIn seg CODE calls2)).stream.length < 65536) :
    (streamIn st3 seg).length ≤ (st2.segsize seg).toNat + (st2.segpad seg).toNat :=
  (h.fits_iff seg hseg).mpr (room_of_same (callsIn_same hsame) hbare hzero hwrap)

theorem streamsFit_iff_roomEnough (h : Assembled tgt segbase calls2 calls3 st2 st3) :
    StreamsFit st2 st3 ↔ RoomEnough tgt calls2 calls3 := by
  constructor
  · intro hfit
    refine ⟨fun seg hseg => ?_, fun seg => ?_⟩
    · exact (room_iff _ _).mp ((h.fits_iff seg hseg).mp (hfit.fits seg hseg))
    · rw [← h.o_size, ← h.truesize]
      exact hfit.sizes seg
  · intro hroom
    have hfits : ∀ seg ≠ BSS, (streamIn st3 seg).length ≤ (st2.segsize seg).toNat + (st2.segpad seg).toNat :=
      fun seg hseg => (h.fits_iff seg hseg).mpr ((room_iff _ _).mpr (hroom.streams seg hseg))
    refine ⟨hfits, h.whole_pos, h.apart hfits, fun seg => ?_⟩
    rw [h.o_size, h.truesize]
    exact hroom.programs seg

def target6809 : Target where
  bigendian := true
  overflowOk := false
  limit := 0xFFFF

def absolute (value : Word) : Addr where
  a_value := value
  a_segment := segByte ABSOLUTE
  a_low := false
  a_high := false
  a_sym := none

def inCode (value : Word) : Addr where
  a_value := value
  a_segment := segByte CODE
  a_low := false
  a_high := false
  a_sym := none

theorem streamsFit_iff_roomEnough_word :
    ∃ st2 st3,
      Assembled target6809 (fun _ => 0) [.outraw (absolute 0x1234)] [.outraw (absolute 0xDADA)] st2 st3 ∧
      (StreamsFit st2 st3 ↔
        RoomEnough target6809 [.outraw (absolute 0x1234)] [.outraw (absolute 0xDADA)]) :=
  ⟨_, _, ⟨rfl, rfl⟩, streamsFit_iff_roomEnough ⟨rfl, rfl⟩⟩

/-- Two bytes become `0xDA` in pass 3, and only the branch reserved a byte. -/
theorem stream_outgrows_room :
    ∃ st2 st3,
      Assembled target6809 (fun _ => 0)
        [.setSegment CODE, .outrab (absolute 0xDB), .outrab (absolute 0xDB), .outab 0x20, .outrabrel (inCode 0)]
        [.setSegment CODE, .outrab (absolute 0xDA), .outrab (absolute 0xDA), .outab 0x20, .outrabrel (inCode 0)]
        st2 st3 ∧
      ¬ StreamsFit st2 st3 := by
  refine ⟨_, _, ⟨rfl, rfl⟩, fun hfit => ?_⟩
  have hassembled : Assembled target6809 (fun _ => 0)
      [.setSegment CODE, .outrab (absolute 0xDB), .outrab (absolute 0xDB), .outab 0x20, .outrabrel (inCode 0)]
      [.setSegment CODE, .outrab (absolute 0xDA), .outrab (absolute 0xDA), .outab 0x20, .outrabrel (inCode 0)]
      _ _ := ⟨rfl, rfl⟩
  have hroom := (hassembled.fits_iff CODE (by decide)).mp (hfit.fits CODE (by decide))
  exact absurd hroom (by decide)

end Fuzemsys.Bintools.As
