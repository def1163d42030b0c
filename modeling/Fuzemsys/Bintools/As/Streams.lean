import Mathlib.Algebra.Group.Basic
import Fuzemsys.Bintools.As.EmitSpec
import Fuzemsys.Bintools.As.Passes

/-!
# The streams of a run

A run adds to the stream of each segment what the calls emit that are made in it. In the
last pass the file is at rest between two calls: its position is where the segment goes on.
-/

namespace Fuzemsys.Bintools.As

/-! ## The calls of a segment -/

def segmentAfter (cur : Seg) : Call → Seg
  | .setSegment seg => seg
  | _ => cur

/-- The calls made while the segment is `seg`. -/
def callsIn (seg cur : Seg) : List Call → List Call
  | [] => []
  | c :: cs =>
    if segmentAfter cur c = seg then c :: callsIn seg (segmentAfter cur c) cs
    else callsIn seg (segmentAfter cur c) cs

def callEmission (tgt : Target) : Call → Emission
  | .setSegment _ => .none
  | .org addr => { stream := [REL_ESC, REL_ORG, lowByte addr, highByte addr], count := 0, pad := 0 }
  | .outab b => byteEmission b
  | .outab2 b => paddedEmission [b]
  | .outabchk2 a => byteEmission (chk2Byte a)
  | .outrab a => relocEmission tgt a 1
  | .outraw a => relocEmission tgt a 2
  | .outrabrel a => rabrelEmission a
  | .outrawrel a => rawrelEmission tgt a
  | .outzeros n => { stream := List.replicate n.toNat 0, count := n.toNat, pad := 0 }

def emissionOf (tgt : Target) : List Call → Emission
  | [] => .none
  | c :: cs => (callEmission tgt c).append (emissionOf tgt cs)

/-! ## Growth -/

/-- In the last pass, between two calls. -/
def Asm.AtRest (st : Asm) : Prop := st.pass = 3 ∧ (st.segment ≠ BSS → st.pos = st.segbase st.segment)

/-- From `st` to `st'` the segments got the emissions `e`. -/
structure Grows (st st' : Asm) (e : Seg → Emission) : Prop where
  pass : st'.pass = st.pass
  segsize : ∀ seg, st'.segsize seg = st.segsize seg + BitVec.ofNat 16 (e seg).stream.length
  truesize : ∀ seg, st'.truesize seg = st.truesize seg + BitVec.ofNat 32 (e seg).count
  segbase : ∀ seg, st'.segbase seg = st.segbase seg + (e seg).stream.length
  segpad : ∀ seg, st'.segpad seg = st.segpad seg + BitVec.ofNat 16 (e seg).pad
  silent : st.pass ≠ 3 → st'.out = st.out
  atRest : st.AtRest → st'.AtRest
  stream : st.AtRest → ∀ seg ≠ BSS,
    streamIn st' seg = streamIn st seg ++ placedAt seg (st.segbase seg) (e seg).stream
  bss : st.AtRest → streamIn st' BSS = streamIn st BSS

section Grows

variable {st st' st'' : Asm} {e f : Seg → Emission}

theorem Grows.refl (st : Asm) : Grows st st fun _ => .none := by
  refine ⟨rfl, ?_, ?_, ?_, ?_, fun _ => rfl, id, ?_, fun _ => rfl⟩
  · simp [Emission.none]
  · simp [Emission.none]
  · simp [Emission.none]
  · simp [Emission.none]
  · simp [Emission.none, placedAt]

theorem Grows.trans (h : Grows st st' e) (h' : Grows st' st'' f) :
    Grows st st'' fun seg => (e seg).append (f seg) := by
  refine ⟨h'.pass.trans h.pass, ?_, ?_, ?_, ?_, ?_, fun hrest => h'.atRest (h.atRest hrest), ?_, ?_⟩
  · intro seg
    rw [h'.segsize, h.segsize, Emission.append, List.length_append, BitVec.ofNat_add, BitVec.add_assoc]
  · intro seg
    rw [h'.truesize, h.truesize, Emission.append, BitVec.ofNat_add, BitVec.add_assoc]
  · intro seg
    rw [h'.segbase, h.segbase, Emission.append, List.length_append, Nat.add_assoc]
  · intro seg
    rw [h'.segpad, h.segpad, Emission.append, BitVec.ofNat_add, BitVec.add_assoc]
  · intro hpass
    rw [h'.silent (h.pass ▸ hpass), h.silent hpass]
  · intro hrest seg hseg
    rw [h'.stream (h.atRest hrest) seg hseg, h.stream hrest seg hseg, h.segbase, Emission.append,
      placedAt_append, List.append_assoc]
  · intro hrest
    rw [h'.bss (h.atRest hrest), h.bss hrest]

theorem filter_placedAt (s seg : Seg) (pos : Nat) (bs : List Byte) :
    (placedAt s pos bs).filter (fun w => w.seg = seg) = if s = seg then placedAt s pos bs else [] := by
  induction bs generalizing pos with
  | nil => simp [placedAt]
  | cons b bs ih =>
    rw [placedAt, List.filter_cons, ih]
    by_cases h : s = seg
    · simp [h]
    · simp [h]

theorem update_add {α : Type} [AddZeroClass α] (g : Seg → α) (s seg : Seg) (x : α) :
    Function.update g s (g s + x) seg = g seg + if s = seg then x else 0 := by
  by_cases h : s = seg
  · subst h
    rw [Function.update_self, if_pos rfl]
  · rw [Function.update_of_ne (Ne.symm h), if_neg h, add_zero]

/-- What an emitter emits goes to the segment it is called in. -/
theorem Emits.grows {bs : List Byte} {n pad : Nat} (h : Emits st st' bs n pad) :
    Grows st st' fun seg =>
      if st.segment = seg then { stream := bs, count := n, pad := pad } else .none := by
  refine ⟨h.pass, ?_, ?_, ?_, ?_, ?_, ?_, ?_, ?_⟩
  · intro seg
    rw [h.segsize, update_add]
    split_ifs
    · rfl
    · rfl
  · intro seg
    rw [h.truesize, update_add]
    split_ifs
    · rfl
    · rfl
  · intro seg
    rw [h.segbase, update_add]
    split_ifs
    · rfl
    · rfl
  · intro seg
    rw [h.segpad, update_add]
    split_ifs
    · rfl
    · rfl
  · intro hpass
    rw [h.out, writes, if_neg fun hwrites => hpass hwrites.1]
    simp [placedAt]
  · rintro ⟨hpass, hpos⟩
    refine ⟨h.pass.trans hpass, fun hseg => ?_⟩
    rw [h.segment] at hseg
    rw [h.pos, h.segment, h.segbase, Function.update_self, hpos hseg, writes, if_pos ⟨hpass, hseg⟩]
  · rintro ⟨hpass, hpos⟩ seg hseg
    rw [streamIn, h.out, List.filter_append, filter_placedAt]
    by_cases hsame : st.segment = seg
    · subst hsame
      rw [if_pos rfl, if_pos rfl, writes, if_pos ⟨hpass, hseg⟩, hpos hseg]
      rfl
    · rw [if_neg hsame, if_neg hsame]
      rfl
  · rintro ⟨hpass, hpos⟩
    rw [streamIn, h.out, List.filter_append, filter_placedAt]
    by_cases hbss : st.segment = BSS
    · rw [if_pos hbss, writes, if_neg fun hwrites => hwrites.2 hbss]
      simp [placedAt, streamIn]
    · rw [if_neg hbss]
      simp [streamIn]

theorem Grows.of_eq (h : Grows st st' e) (he : ∀ seg, e seg = f seg) : Grows st st' f := by
  have hfun : e = f := funext he
  rwa [hfun] at h

/-- Nothing but the segment, the address and the position changed. -/
theorem grows_none {segment : Seg} {dot : Seg → Word} {pos : Nat}
    (hrest : st.AtRest → Asm.AtRest { st with segment := segment, dot := dot, pos := pos }) :
    Grows st { st with segment := segment, dot := dot, pos := pos } fun _ => .none := by
  refine ⟨rfl, ?_, ?_, ?_, ?_, fun _ => rfl, hrest, ?_, fun _ => rfl⟩
  · simp [Emission.none]
  · simp [Emission.none]
  · simp [Emission.none]
  · simp [Emission.none]
  · simp [Emission.none, placedAt, streamIn]

theorem setSegment_grows (st : Asm) (seg : Seg) : Grows st (setSegment st seg) fun _ => .none := by
  unfold setSegment outsegment
  split_ifs with hpass
  · exact grows_none fun _ => ⟨hpass, fun _ => rfl⟩
  · exact grows_none fun hrest => absurd hrest.1 hpass

theorem orgSeek_grows (hseg : st.segment = ABSOLUTE) (dot : Seg → Word) :
    Grows st { outsegment st ABSOLUTE with dot := dot } fun _ => .none := by
  unfold outsegment
  split_ifs with hpass
  · exact grows_none fun _ => ⟨hpass, fun _ => by rw [hseg]⟩
  · exact grows_none fun hrest => absurd hrest.1 hpass

theorem outsegment_segment (st : Asm) (seg : Seg) : (outsegment st seg).segment = st.segment := by
  unfold outsegment
  split_ifs
  · rfl
  · rfl

end Grows

/-! ## Runs -/

section Runs

variable {tgt : Target} {st st' : Asm}

theorem org_grows {addr : Word} (h : org st addr = .ok st') :
    Grows st st' fun seg => if st.segment = seg then callEmission tgt (.org addr) else .none := by
  simp only [org, outabsolute] at h
  split_ifs at h with hseg
  rw [outsegment_segment, not_not] at hseg
  obtain rfl := Except.ok.inj h
  have hseek := orgSeek_grows hseg
    (Function.update (outsegment st ABSOLUTE).dot (outsegment st ABSOLUTE).segment addr)
  refine (hseek.trans (outbytes_emits _ _).grows).of_eq fun seg => ?_
  simp only [outsegment_segment]
  split_ifs
  · simp [Emission.append, Emission.none, callEmission]
  · simp [Emission.append, Emission.none]

theorem call_segment {c : Call} (h : call tgt st c = .ok st') : st'.segment = segmentAfter st.segment c := by
  cases c with
  | setSegment seg =>
    obtain rfl := Except.ok.inj h
    exact outsegment_segment _ seg
  | org addr =>
    simp only [call, org, outabsolute] at h
    split_ifs at h
    obtain rfl := Except.ok.inj h
    rw [(outbytes_emits _ _).segment]
    exact outsegment_segment st ABSOLUTE
  | outab b => exact (outab_emits h).segment
  | outab2 b => exact (padded_emits h).segment
  | outabchk2 a => exact (outabchk2_emits h).segment
  | outrab a => exact (outreloc_emits h).segment
  | outraw a => exact (outreloc_emits h).segment
  | outrabrel a => exact (outrabrel_emits h).segment
  | outrawrel a => exact (outrawrel_emits h).segment
  | outzeros n => exact (outzeros_emits h).segment

/-- What one call adds to each segment. -/
theorem call_grows {c : Call} (h : call tgt st c = .ok st') :
    Grows st st' fun seg => if segmentAfter st.segment c = seg then callEmission tgt c else .none := by
  cases c with
  | setSegment seg =>
    obtain rfl := Except.ok.inj h
    refine (setSegment_grows st seg).of_eq fun seg' => ?_
    rw [callEmission, ite_self]
  | org addr => exact org_grows h
  | outab b => exact (outab_emits h).grows
  | outab2 b => exact (padded_emits h).grows
  | outabchk2 a => exact (outabchk2_emits h).grows
  | outrab a => exact (outreloc_emits h).grows
  | outraw a => exact (outreloc_emits h).grows
  | outrabrel a => exact (outrabrel_emits h).grows
  | outrawrel a => exact (outrawrel_emits h).grows
  | outzeros n => exact (outzeros_emits h).grows

theorem emissionOf_cons_if (c : Call) (cs : List Call) (seg cur : Seg) :
    emissionOf tgt (callsIn seg cur (c :: cs)) =
      (if segmentAfter cur c = seg then callEmission tgt c else .none).append
        (emissionOf tgt (callsIn seg (segmentAfter cur c) cs)) := by
  rw [callsIn]
  split_ifs
  · rfl
  · simp [Emission.append, Emission.none]

theorem runCalls_grows {calls : List Call} (h : runCalls tgt st calls = .ok st') :
    Grows st st' fun seg => emissionOf tgt (callsIn seg st.segment calls) := by
  induction calls generalizing st with
  | nil =>
    obtain rfl := Except.ok.inj h
    exact Grows.refl st
  | cons c cs ih =>
    unfold runCalls at h
    split at h
    · cases h
    · next st1 hcall =>
      refine ((call_grows hcall).trans (ih h)).of_eq fun seg => ?_
      rw [emissionOf_cons_if, call_segment hcall]

end Runs

end Fuzemsys.Bintools.As
