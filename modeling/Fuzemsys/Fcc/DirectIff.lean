import Fuzemsys.Fcc.DirectRight

/-!
# When a constant operand comes out right

For each operator the nodes for which what `gen_direct` prints is accepted and leaves the
result of C. The others show four slips: `gen_fast_div` gets its arguments the wrong way round, an
or of longs uses one byte twice, two shifts are printed without a register, and a pointer is
compared as the type of the constant says.
-/

open Fuzemsys.Lib

namespace Fuzemsys.Fcc.Code6800

open Fuzemsys.Fcc.Tree

variable {h : Host} {o : Options} {c c' : Cpu} {n : DirectNode h} {t rt : CType} {v : BitVec h.longBits}

/-! ## Types -/

theorem int_sizes (ht : IntType t) : getSize t = 1 ∨ getSize t = 2 ∨ getSize t = 4 := by
  simp only [IntType, List.mem_cons, List.not_mem_nil, or_false] at ht
  rcases ht with rfl | rfl | rfl | rfl | rfl | rfl <;> decide

theorem int_value (ht : IntType t) : unsignedValue t = isUnsigned t := by
  simp only [IntType, List.mem_cons, List.not_mem_nil, or_false] at ht
  rcases ht with rfl | rfl | rfl | rfl | rfl | rfl <;> decide

theorem int_not_pointer (ht : IntType t) : PTR t = 0 := by
  simp only [IntType, List.mem_cons, List.not_mem_nil, or_false] at ht
  rcases ht with rfl | rfl | rfl | rfl | rfl | rfl <;> decide

theorem pointer_size (ht : PTR t ≠ 0) : getSize t = 2 := by
  rw [getSize, if_pos ht]

theorem scalar_sizes (ht : IntType t ∨ PTR t ≠ 0) : getSize t = 1 ∨ getSize t = 2 ∨ getSize t = 4 := by
  rcases ht with ht | ht
  · exact int_sizes ht
  · exact .inr (.inl (pointer_size ht))

theorem pointer_value (ht : PTR t ≠ 0) : unsignedValue t = true := by
  rw [unsignedValue, decide_eq_true ht, Bool.true_or]

/-! ## Results -/

theorem right_iff_leaves : n.Right o ↔ ∀ f, genDirect o n = some f → f.Leaves n.Result := by
  constructor
  · intro hright f hf
    exact ⟨fun t => (hright f hf t).1, fun t => (hright f hf t).2⟩
  · intro hleaves f hf t
    exact ⟨(hleaves f hf).1 t, (hleaves f hf).2 t⟩

theorem right_none (hnone : genDirect o n = none) : n.Right o := by
  intro f hf
  rw [hnone] at hf
  cases hf

theorem right_some {f : Printer} (hf : genDirect o n = some f) : n.Right o ↔ f.Leaves n.Result := by
  rw [right_iff_leaves]
  constructor
  · intro hleaves
    exact hleaves f hf
  · intro hleaves g hg
    rw [hf, Option.some.injEq] at hg
    exact hg ▸ hleaves

theorem Printer.Leaves.mono {f : Printer} {r r' : Cpu → Cpu → Prop} (hf : f.Leaves r) (hr : ∀ c c', r c c' → r' c c') :
    f.Leaves r' := ⟨hf.1, fun t c hs => hr c _ (hf.2 t c hs)⟩

section
variable {f : Printer} (hop : isComparison n.op = false)
include hop

theorem result_byte (hs : getSize n.type = 1) :
    n.Result c c' ↔ c'.b = arithmetic n.op (unsignedValue n.type) c.b n.value := by
  simp only [DirectNode.Result, hs, hop, Bool.false_eq_true, if_false]

theorem result_word (hs : getSize n.type = 2) :
    n.Result c c' ↔ c'.d = arithmetic n.op (unsignedValue n.type) c.d n.value := by
  simp only [DirectNode.Result, hs, hop, Bool.false_eq_true, if_false]

theorem result_long (hs : getSize n.type = 4) :
    n.Result c c' ↔ c'.long = arithmetic n.op (unsignedValue n.type) c.long n.value := by
  simp only [DirectNode.Result, hs, hop, Bool.false_eq_true, if_false]

theorem leaves_byte (hs : getSize n.type = 1)
    (hf : f.Leaves fun c c' => c'.b = arithmetic n.op (unsignedValue n.type) c.b n.value) : f.Leaves n.Result :=
  hf.mono fun _ _ => (result_byte hop hs).mpr

theorem leaves_word (hs : getSize n.type = 2)
    (hf : f.Leaves fun c c' => c'.d = arithmetic n.op (unsignedValue n.type) c.d n.value) : f.Leaves n.Result :=
  hf.mono fun _ _ => (result_word hop hs).mpr

theorem leaves_long (hs : getSize n.type = 4)
    (hf : f.Leaves fun c c' => c'.long = arithmetic n.op (unsignedValue n.type) c.long n.value) :
    f.Leaves n.Result := hf.mono fun _ _ => (result_long hop hs).mpr

end

theorem Printer.Leaves.note {f : Printer} {r : Cpu → Cpu → Prop} (hf : f.Leaves r) (u : Track → Track) :
    (Printer.andThen f (note u)).Leaves r := by
  refine ⟨accepted_andThen hf.1 (accepted_note u), ?_⟩
  intro t c hs
  rw [run_andThen, run_note, execLines_nil]
  exact hf.2 t c hs

/-! ## Sums -/

theorem leaves_addBConst (w : Byte) : (addBConst w).print.Leaves fun c c' => c'.b = c.b + w := by
  refine ⟨accepted_print (real_addBConst w), ?_⟩
  intro t c _
  obtain ⟨hregs, -, -⟩ := (real_addBConst w).run (fun _ r => r) t c
  rw [hregs]
  unfold addBConst
  split
  · next hw =>
    rw [hw]
    exact (BitVec.add_zero _).symm
  · rfl

theorem leaves_addDConst (w : BitVec 16) : (addDConst .m6809 w).print.Leaves fun c c' => c'.d = c.d + w :=
  ⟨accepted_print (real_addDConst w), fun t c _ => run_addDConst w t c⟩

theorem accepted_swapDY : (swapDY .m6809).print.Accepted :=
  accepted_print (by simp [swapDY, Target.m6809, emit, Inst.Exists])

theorem leaves_addLong (v : BitVec h.longBits) : (addLong v).Leaves fun c c' => c'.long = c.long + v.setWidth 32 := by
  refine ⟨?_, fun t c _ => run_addLong v t c⟩
  unfold addLong
  split
  · exact accepted_andThen (accepted_print (real_addDConst _)) (accepted_andThen accepted_swapDY
      (accepted_andThen (accepted_code _ rfl) accepted_swapDY))
  · exact accepted_code _ rfl

theorem right_plus (hs : getSize t = 1 ∨ getSize t = 2 ∨ getSize t = 4) : (DirectNode.mk .PLUS t rt v).Right o := by
  rcases hs with hs | hs | hs
  · rw [right_some (f := (addBConst (v.setWidth 8)).print) (by simp [genDirect, hs])]
    exact leaves_byte rfl hs (leaves_addBConst _)
  · rw [right_some (f := (addDConst .m6809 (v.setWidth 16)).print) (by simp [genDirect, hs])]
    exact leaves_word rfl hs (leaves_addDConst _)
  · rw [right_some (f := addLong v) (by simp [genDirect, hs])]
    exact leaves_long rfl hs (leaves_addLong v)

/-- A difference is the sum with the negated constant. -/
theorem sub_eq_add_setWidth {w m : Nat} (hw : w ≤ m) (x : BitVec w) (v : BitVec m) :
    x - v.setWidth w = x + (-v).setWidth w := by
  rw [BitVec.setWidth_neg_of_le hw, sub_eq_add_neg]

theorem right_minus (hs : getSize t = 1 ∨ getSize t = 2 ∨ getSize t = 4) : (DirectNode.mk .MINUS t rt v).Right o := by
  have hwide := h.long_wide
  rcases hs with hs | hs | hs
  · rw [right_some (f := Printer.andThen (addBConst ((-v).setWidth 8)).print
      (note fun t => { t with bVal := t.bVal - v.setWidth 8 })) (by simp [genDirect, hs])]
    apply leaves_byte rfl hs
    exact ((leaves_addBConst _).note _).mono fun c c' hb => hb.trans (sub_eq_add_setWidth (by omega) c.b v).symm
  · rw [right_some (f := (addDConst .m6809 ((-v).setWidth 16)).print) (by simp [genDirect, hs])]
    apply leaves_word rfl hs
    exact (leaves_addDConst _).mono fun c c' hd => hd.trans (sub_eq_add_setWidth (by omega) c.d v).symm
  · rw [right_some (f := addLong (-v)) (by simp [genDirect, hs])]
    apply leaves_long rfl hs
    exact (leaves_addLong _).mono fun c c' hd => hd.trans (sub_eq_add_setWidth hwide c.long v).symm

/-! ## Bits -/

theorem accepted_swapped {code : List Line} (hcode : ∀ l ∈ code, accepts l = true) : (swapped code).Accepted :=
  accepted_andThen accepted_swapDY (accepted_andThen (accepted_printf hcode) accepted_swapDY)

theorem accepts_andByte {m clear : Mnemonic} {w : Byte} (hm : m.kind = some .THI) (hclear : clear.kind = some .TIMP) :
    ∀ l ∈ andByte m clear w, accepts l = true := by
  unfold andByte
  split
  · exact List.forall_mem_nil _
  · split <;> simp [accepts, immediate, plain, hm, hclear]

theorem accepts_andUpper {m clear : Mnemonic} {w : Byte} (hm : m.kind = some .THI) (hclear : clear.kind = some .TIMP) :
    ∀ l ∈ andUpper m clear w, accepts l = true := by
  unfold andUpper
  split <;> simp [accepts, immediate, plain, hm, hclear]

theorem accepts_orByte {m : Mnemonic} {w : Byte} (hm : m.kind = some .THI) : ∀ l ∈ orByte m w, accepts l = true := by
  unfold orByte
  split
  · simp [accepts, immediate, hm]
  · exact List.forall_mem_nil _

theorem accepts_eorByte {m com : Mnemonic} {w : Byte} (hm : m.kind = some .THI) (hcom : com.kind = some .TIMP) :
    ∀ l ∈ eorByte m com w, accepts l = true := by
  unfold eorByte
  split
  · simp [accepts, plain, hcom]
  · split
    · simp [accepts, immediate, hm]
    · exact List.forall_mem_nil _

theorem accepts_append {code code' : List Line} (hcode : ∀ l ∈ code, accepts l = true)
    (hcode' : ∀ l ∈ code', accepts l = true) : ∀ l ∈ code ++ code', accepts l = true := by
  intro l hl
  rcases List.mem_append.mp hl with hl | hl
  · exact hcode l hl
  · exact hcode' l hl

/-- The shape of the three bit operations, as `run_bits` has it. -/
def bitCode (lo hi upper : List Line) (note₀ : Printer) (note₁ : Track → Track) (s : Nat) : Printer :=
  Printer.andThen (printf lo) (Printer.andThen note₀ (Printer.andThen
    (Printer.when (s ≥ 2) (Printer.andThen (printf hi) (note note₁))) (Printer.when (s = 4) (swapped upper))))

/-- The bytes of the constant, lowest first. -/
theorem leaves_bits {lo hi upper : List Line} {note₀ : Printer} {note₁ : Track → Track} {g : Byte → Byte → Byte}
    {v₀ v₁ v₂ v₃ : Byte} (hlo : Changes lo id (g · v₀)) (hhi : Changes hi (g · v₁) id)
    (hupper : Changes upper (g · v₃) (g · v₂)) (hlo' : ∀ l ∈ lo, accepts l = true) (hhi' : ∀ l ∈ hi, accepts l = true)
    (hupper' : ∀ l ∈ upper, accepts l = true) (hnote : ∀ t, (note₀ t).1 = []) (s : Nat) :
    (bitCode lo hi upper note₀ note₁ s).Leaves fun c c' => (s = 1 → c'.b = g c.b v₀) ∧
      (s = 2 → c'.d = g c.a v₁ ++ g c.b v₀) ∧
      (s = 4 → c'.long = (g (hiByte c.y) v₃ ++ g (loByte c.y) v₂) ++ (g c.a v₁ ++ g c.b v₀)) := by
  have haccepted : note₀.Accepted := by
    intro t l hl
    rw [hnote] at hl
    cases hl
  exact ⟨accepted_andThen (accepted_printf hlo') (accepted_andThen haccepted (accepted_andThen
      (accepted_when (accepted_andThen (accepted_printf hhi') (accepted_note _)))
      (accepted_when (accepted_swapped hupper')))),
    fun t c _ => run_bits hlo hhi hupper hnote note₁ s t c rfl⟩

theorem when_note (p : Prop) [Decidable p] (u : Track → Track) (t : Track) : (Printer.when p (note u) t).1 = [] := by
  unfold Printer.when
  split <;> rfl

/-- A bit operation is done on each byte. -/
theorem bits_right {op : Op} {f : Printer} {g : Byte → Byte → Byte} {p : Byte} (hop : isComparison op = false)
    (hs : getSize t = 1 ∨ getSize t = 2 ∨ getSize t = 4) (hf : genDirect o ⟨op, t, rt, v⟩ = some f)
    (hbyte : ∀ x, arithmetic op (unsignedValue t) x v = g x (byteAt v 0))
    (hword : ∀ x y : Byte, arithmetic op (unsignedValue t) (x ++ y : BitVec 16) v = g x (byteAt v 1) ++ g y (byteAt v 0))
    (hlong : getSize t = 4 → ∀ x y z w : Byte, arithmetic op (unsignedValue t) ((x ++ y) ++ (z ++ w) : BitVec 32) v =
      (g x p ++ g y (byteAt v 2)) ++ (g z (byteAt v 1) ++ g w (byteAt v 0)))
    (hleaves : f.Leaves fun c c' => (getSize t = 1 → c'.b = g c.b (byteAt v 0)) ∧
      (getSize t = 2 → c'.d = g c.a (byteAt v 1) ++ g c.b (byteAt v 0)) ∧
      (getSize t = 4 → c'.long = (g (hiByte c.y) p ++ g (loByte c.y) (byteAt v 2)) ++
        (g c.a (byteAt v 1) ++ g c.b (byteAt v 0)))) : (DirectNode.mk op t rt v).Right o := by
  rw [right_some hf]
  rcases hs with hs | hs | hs
  · exact leaves_byte hop hs (hleaves.mono fun c c' hr => (hr.1 hs).trans (hbyte c.b).symm)
  · exact leaves_word hop hs (hleaves.mono fun c c' hr => (hr.2.1 hs).trans (hword c.a c.b).symm)
  · refine leaves_long hop hs (hleaves.mono fun c c' hr => (hr.2.2 hs).trans ?_)
    have hy : c.long = (hiByte c.y ++ loByte c.y) ++ (c.a ++ c.b) := by
      rw [hi_append_lo]
      rfl
    rw [← hlong hs, hy]

theorem right_and (hs : getSize t = 1 ∨ getSize t = 2 ∨ getSize t = 4) : (DirectNode.mk .AND t rt v).Right o := by
  refine bits_right (g := (· &&& ·)) (p := byteAt v 3) rfl hs rfl (fun x => ?_) (fun x y => ?_) (fun _ x y z w => ?_)
    (leaves_bits (changes_andb _) (changes_anda _) ((changes_andUpper_b _).append (changes_andUpper_a _))
      (accepts_andByte rfl rfl) (accepts_andByte rfl rfl) (accepts_append (accepts_andUpper rfl rfl)
        (accepts_andUpper rfl rfl)) (when_note _ _) _)
  · exact congrArg (x &&& ·) (setWidth_byte v)
  · show (x ++ y) &&& v.setWidth 16 = _
    rw [setWidth_word, BitVec.and_append]
  · show ((x ++ y) ++ (z ++ w)) &&& v.setWidth 32 = _
    rw [setWidth_long, BitVec.and_append, BitVec.and_append, BitVec.and_append]

theorem right_hat (hs : getSize t = 1 ∨ getSize t = 2 ∨ getSize t = 4) : (DirectNode.mk .HAT t rt v).Right o := by
  refine bits_right (g := (· ^^^ ·)) (p := byteAt v 3) rfl hs rfl (fun x => ?_) (fun x y => ?_) (fun _ x y z w => ?_)
    (leaves_bits (changes_eorb _) (changes_eora _) ((changes_eorb _).append (changes_eora _)) (accepts_eorByte rfl rfl)
      (accepts_eorByte rfl rfl) (accepts_append (accepts_eorByte rfl rfl) (accepts_eorByte rfl rfl)) (fun _ => rfl) _)
  · exact congrArg (x ^^^ ·) (setWidth_byte v)
  · show (x ++ y) ^^^ v.setWidth 16 = _
    rw [setWidth_word, BitVec.xor_append]
  · show ((x ++ y) ++ (z ++ w)) ^^^ v.setWidth 32 = _
    rw [setWidth_long, BitVec.xor_append, BitVec.xor_append, BitVec.xor_append]

/-- What is printed for an or. The highest byte of a long comes out as the third one does. -/
theorem leaves_or : (orDirect (getSize t) v).Leaves fun c c' => (getSize t = 1 → c'.b = c.b ||| byteAt v 0) ∧
    (getSize t = 2 → c'.d = (c.a ||| byteAt v 1) ++ (c.b ||| byteAt v 0)) ∧
    (getSize t = 4 → c'.long = ((hiByte c.y ||| byteAt v 2) ++ (loByte c.y ||| byteAt v 2)) ++
      ((c.a ||| byteAt v 1) ++ (c.b ||| byteAt v 0))) :=
  leaves_bits (g := (· ||| ·)) (changes_orb _) (changes_ora _) ((changes_orb _).append (changes_ora _))
    (accepts_orByte rfl) (accepts_orByte rfl) (accepts_append (accepts_orByte rfl) (accepts_orByte rfl)) (when_note _ _) _

/-- A state of which nothing is remembered. -/
theorem freshTrack_sound (r : Regs) : freshTrack.Sound r := ⟨forgotten, forgotten⟩

/-- A machine with a number in D. -/
def Cpu.ofWord (d : BitVec 16) : Cpu := ⟨⟨hiByte d, loByte d, 0, 0, false⟩, 0, fun _ => 0, false, false, false⟩

@[simp] theorem ofWord_d (d : BitVec 16) : (Cpu.ofWord d).d = d := hi_append_lo d

theorem or_iff (hs : getSize t = 1 ∨ getSize t = 2 ∨ getSize t = 4) : (DirectNode.mk .OR t rt v).Right o ↔
    (getSize t = 4 → byteAt v 2 = byteAt v 3) := by
  constructor
  · intro hright hlong
    rw [right_some (f := orDirect (getSize t) v) rfl] at hright
    have hwant := (result_long rfl hlong).mp (hright.2 freshTrack (Cpu.ofWord 0) (freshTrack_sound _))
    have hgot := ((leaves_or (t := t) (v := v)).2 freshTrack (Cpu.ofWord 0) (freshTrack_sound _)).2.2 hlong
    have hbytes : hiByte (Cpu.ofWord 0).y = 0 ∧ loByte (Cpu.ofWord 0).y = 0 ∧ (Cpu.ofWord 0).a = 0 ∧
        (Cpu.ofWord 0).b = 0 := by decide
    rw [hbytes.1, hbytes.2.1, hbytes.2.2.1, hbytes.2.2.2] at hgot
    simp only [show ∀ x : Byte, 0 ||| x = x from fun _ => BitVec.zero_or] at hgot
    have hzero : arithmetic .OR (unsignedValue t) (0 : BitVec 32) v = v.setWidth 32 := BitVec.zero_or
    have hboth := hgot.symm.trans (hwant.trans hzero)
    rw [setWidth_long] at hboth
    have hnat := congrArg BitVec.toNat hboth
    simp only [append_toNat] at hnat
    apply BitVec.eq_of_toNat_eq
    omega
  · intro hsame
    refine bits_right (g := (· ||| ·)) (p := byteAt v 2) rfl hs rfl (fun x => ?_) (fun x y => ?_) (fun hlong x y z w => ?_)
      leaves_or
    · exact congrArg (x ||| ·) (setWidth_byte v)
    · show (x ++ y) ||| v.setWidth 16 = _
      rw [setWidth_word, BitVec.or_append]
    · show ((x ++ y) ++ (z ++ w)) ||| v.setWidth 32 = _
      rw [setWidth_long, ← hsame hlong, BitVec.or_append, BitVec.or_append, BitVec.or_append]

/-! ## Shifts -/

/-- A count that is below the width is not cut. -/
theorem count_value (hs : getSize t = 1 ∨ getSize t = 2 ∨ getSize t = 4) (hv : v.toNat < 8 * getSize t) :
    (v.setWidth h.intBits).toNat = v.toNat := by
  have hwide : 2 ^ 16 ≤ 2 ^ h.intBits := Nat.pow_le_pow_right (by decide) h.int_wide
  rw [BitVec.toNat_setWidth]
  apply Nat.mod_eq_of_lt
  omega

/-- A shift without a register is no line of the assembler. -/
theorem rejected_bare {f : Helper} (op : Bare) {t : Track} (hop : .bare op ∈ (f t).1) :
    ¬ ∀ l ∈ (f.print t).1, accepts l = true := by
  intro haccepted
  have hline := haccepted _ (List.mem_map_of_mem hop)
  cases op <;> exact Bool.false_ne_true hline

theorem lshift_iff (ht : IntType t) (hv : v.toNat < 8 * getSize t) : (DirectNode.mk .LTLT t rt v).Right o ↔
    (getSize t = 2 → v.toNat ≤ 8) := by
  have hcount := count_value (int_sizes ht) hv
  rcases int_sizes ht with hs | hs | hs
  · rw [hs] at hv ⊢
    refine iff_of_true (right_iff_leaves.mpr ?_) (by omega)
    intro f hf
    simp only [genDirect, hs, hcount, Option.map_eq_some_iff] at hf
    obtain ⟨g, hg, rfl⟩ := hf
    exact leaves_byte rfl hs (leftShift_byte (by omega) hg).print
  · rw [hs] at hv ⊢
    constructor
    · intro hright _
      by_contra hlarge
      have hgen : genDirect o (DirectNode.mk .LTLT t rt v) = some (((loadAB .m6809).andThen (loadBConst .m6809 0)).andThen
          ((update Track.invalidateWork).andThen (repeatedOp (v.toNat - 8) (.bare .lsl)))).print := by
        simp only [genDirect, hs, hcount, leftShift]
        rw [if_neg (by decide), if_neg (by decide), if_true, if_neg (by omega), if_pos (by omega), if_pos (by omega)]
        rfl
      rw [right_some hgen] at hright
      refine rejected_bare .lsl (t := freshTrack) ?_ (hright.1 freshTrack)
      apply List.mem_append_right
      exact List.mem_replicate.mpr ⟨by omega, rfl⟩
    · intro hsmall
      rw [right_iff_leaves]
      intro f hf
      simp only [genDirect, hs, hcount, Option.map_eq_some_iff] at hf
      obtain ⟨g, hg, rfl⟩ := hf
      exact leaves_word rfl hs (leftShift_word (hsmall rfl) hg).print
  · refine iff_of_true (right_none ?_) (by omega)
    simp [genDirect, hs, leftShift]

theorem rshift_iff (ht : IntType t) (hv : v.toNat < 8 * getSize t) : (DirectNode.mk .GTGT t rt v).Right o ↔
    (getSize t = 1 → v = 0) := by
  have hcount := count_value (int_sizes ht) hv
  rcases int_sizes ht with hs | hs | hs
  · rw [hs] at hv ⊢
    constructor
    · intro hright _
      by_contra hzero
      have hpos : v.toNat ≠ 0 := fun hnat => hzero (BitVec.eq_of_toNat_eq hnat)
      have hgen : genDirect o (DirectNode.mk .GTGT t rt v) = some ((update Track.invalidateWork).andThen
          (repeatedOp v.toNat (.bare (if isUnsigned t then .lsr else .asr)))).print := by
        simp only [genDirect, hs, hcount, rightShift]
        rw [if_neg (by decide), if_true, if_neg (by omega)]
        rfl
      rw [right_some hgen] at hright
      exact rejected_bare _ (t := freshTrack) (List.mem_replicate.mpr ⟨hpos, rfl⟩) (hright.1 freshTrack)
    · intro hzero
      have hzero := hzero rfl
      subst hzero
      rw [right_iff_leaves]
      intro f hf
      simp only [genDirect, hs, hcount, Option.map_eq_some_iff] at hf
      obtain ⟨g, hg, rfl⟩ := hf
      refine leaves_byte rfl hs ((rightShift_byte hg).print.mono ?_)
      intro c c' hb
      simp [arithmetic, hb]
  · rw [hs] at hv ⊢
    refine iff_of_true (right_iff_leaves.mpr ?_) (by omega)
    intro f hf
    simp only [genDirect, hs, hcount, Option.map_eq_some_iff] at hf
    obtain ⟨g, hg, rfl⟩ := hf
    refine leaves_word rfl hs ((rightShift_word (by omega) hg).print.mono ?_)
    intro c c' hd
    rw [hd, ← int_value ht]
    rfl
  · refine iff_of_true (right_none ?_) (by omega)
    simp [genDirect, hs, rightShift]

/-! ## Multiplications and divisions -/

theorem loByte_d (r : Regs) : loByte r.d = r.b := loByte_append _ _

/-- The low byte of a product is the product of the low bytes. -/
theorem low_product {c c' : Cpu} {w : BitVec 16} (hd : c'.d = c.d * w) : c'.b = c.b * loByte w := by
  rw [← loByte_d, ← loByte_d c.toRegs, hd]
  exact BitVec.setWidth_mul _ _ (by decide)

theorem right_star (ht : IntType t) : (DirectNode.mk .STAR t rt v).Right o := by
  have hwide := h.long_wide
  rw [right_iff_leaves]
  intro f hf
  simp only [genDirect] at hf
  split at hf
  · next hfast =>
    rw [Option.some.injEq] at hf
    subst hf
    have hmul := leaves_genFastMul (v.setWidth 16).isLt
    rw [BitVec.ofNat_toNat, BitVec.setWidth_eq] at hmul
    rcases int_sizes ht with hs | hs | hs
    · refine leaves_byte rfl hs (hmul.mono fun c c' hd => (low_product hd).trans ?_)
      exact congrArg (c.b * ·) (BitVec.setWidth_setWidth_of_le v (by decide))
    · exact leaves_word rfl hs hmul
    · exact absurd hfast.1 (by omega)
  · cases hf

theorem slash_none (hv : (v.setWidth h.intBits).toNat ≠ 2) : genDirect o (DirectNode.mk .SLASH t rt v) = none := by
  simp only [genDirect, genFastDiv, if_pos hv, ite_self]

/-- Two is two in every width. -/
theorem two_value {w : Nat} (hw : w ≤ h.intBits) (hv : (v.setWidth h.intBits).toNat = 2) :
    v.setWidth w = 2 := by
  rw [← BitVec.setWidth_setWidth_of_le v hw]
  apply BitVec.eq_of_toNat_eq
  rw [BitVec.toNat_setWidth, hv]
  rfl

theorem slash_iff (ht : IntType t) : (DirectNode.mk .SLASH t rt v).Right o ↔
    ((v.setWidth h.intBits).toNat = 2 → getSize t ≠ 1 ∧ (getSize t = 2 → isUnsigned t)) := by
  by_cases hv : (v.setWidth h.intBits).toNat = 2
  · have hint := h.int_wide
    rcases int_sizes ht with hs | hs | hs
    · refine iff_of_false ?_ (by simp [hv, hs])
      rw [right_some (f := printf []) (by simp [genDirect, genFastDiv, hv, hs])]
      intro hleaves
      have hgot := (result_byte rfl hs).mp (hleaves.2 freshTrack (Cpu.ofWord 2) (freshTrack_sound _))
      have hwant : arithmetic .SLASH (unsignedValue t) (2 : Byte) v = 1 := by
        simp only [arithmetic, two_value (show 8 ≤ h.intBits by omega) hv]
        split <;> decide
      exact absurd (hgot.trans hwant) (by decide)
    · by_cases hu : isUnsigned t = true
      · refine iff_of_true ?_ (by simp [hs, hu])
        rw [right_iff_leaves]
        intro f hf
        simp only [genDirect, hs, hv, hu, if_pos (show 2 ≤ 2 by decide)] at hf
        refine leaves_word rfl hs ((leaves_genFastDiv hf).mono fun c c' hd => hd.trans ?_)
        simp only [arithmetic, two_value hint hv, int_value ht, hu, if_true]
        apply BitVec.eq_of_toNat_eq
        rw [BitVec.toNat_ushiftRight, BitVec.toNat_udiv, Nat.shiftRight_eq_div_pow]
        rfl
      · refine iff_of_false ?_ (by simp [hv, hs, hu])
        rw [right_some (f := Printer.andThen (printf [plain .asra, plain .rorb]) (note Track.invalidateWork))
          (by simp [genDirect, genFastDiv, halvings, hv, hs, hu])]
        intro hleaves
        have hgot := (result_word rfl hs).mp (hleaves.2 freshTrack (Cpu.ofWord (-1)) (freshTrack_sound _))
        have hwant : arithmetic .SLASH (unsignedValue t) (-1 : BitVec 16) v = 0 := by
          simp only [arithmetic, two_value hint hv, int_value ht, hu]
          decide
        have hrun := run_halve_signed (Cpu.ofWord (-1))
        exact absurd (hrun.symm.trans (hgot.trans hwant)) (by decide)
    · exact iff_of_true (right_none (by simp [genDirect, hs])) (by simp [hs])
  · exact iff_of_true (right_none (slash_none hv)) fun htwo => absurd htwo hv

/-! ## Comparisons -/

/-- The routine for operands without a sign. -/
def unsignedRoutine : Op → BoolRoutine
  | .EQEQ => .booleq
  | .BANGEQ => .boolne
  | .LT => .boolult
  | .GT => .boolugt
  | .LTEQ => .boolule
  | _ => .booluge

def signedRoutine : Op → BoolRoutine
  | .EQEQ => .booleq
  | .BANGEQ => .boolne
  | .LT => .boollt
  | .GT => .boolgt
  | .LTEQ => .boolle
  | _ => .boolge

theorem comparison_cases {op : Op} (hop : isComparison op) :
    op = .LT ∨ op = .LTEQ ∨ op = .GT ∨ op = .GTEQ ∨ op = .EQEQ ∨ op = .BANGEQ := by
  simpa [isComparison, compareOps, equalOps] using hop

theorem genDirect_comparison {op : Op} (hop : isComparison op) :
    genDirect o ⟨op, t, rt, v⟩ = cmpDirect ⟨op, t, rt, v⟩ (unsignedRoutine op) (signedRoutine op) := by
  rcases comparison_cases hop with rfl | rfl | rfl | rfl | rfl | rfl <;> rfl

theorem tells_comparison {op : Op} (hop : isComparison op) (u : Bool) {w : Nat} (x y : BitVec w) :
    (if u then unsignedRoutine op else signedRoutine op).tells x y = comparison op u x y := by
  rcases comparison_cases hop with rfl | rfl | rfl | rfl | rfl | rfl <;> cases u <;> rfl

theorem truth_unique {b b' : Bool} (hb : Truth c b) (hb' : Truth c b') : b = b' :=
  Bool.not_inj (hb.2.symm.trans hb'.2)

/-- What the code for a comparison finds out of the number in D, by the type of the constant. -/
def told (op : Op) (rt : CType) {m : Nat} (v : BitVec m) (d : BitVec 16) : Bool :=
  if getSize rt = 1 then comparison op (isUnsigned rt) (loByte d) (v.setWidth 8)
  else comparison op (isUnsigned rt) d (v.setWidth 16)

theorem told_byte (op : Op) (hrt : getSize rt = 1) (d : BitVec 16) :
    told op rt v d = comparison op (isUnsigned rt) (loByte d) (v.setWidth 8) := if_pos hrt

theorem told_word (op : Op) (hrt : getSize rt = 2) (d : BitVec 16) :
    told op rt v d = comparison op (isUnsigned rt) d (v.setWidth 16) := if_neg (by omega)

theorem ofNat_value {w k : Nat} (hw : w ≤ k) (v : BitVec h.longBits) :
    BitVec.ofNat w ((v.setWidth k).toNat % 2 ^ w) = v.setWidth w := by
  rw [← BitVec.setWidth_setWidth_of_le v hw]
  apply BitVec.eq_of_toNat_eq
  rw [BitVec.toNat_ofNat, Nat.mod_mod, ← BitVec.toNat_setWidth]

theorem leaves_cmp {op : Op} (hop : isComparison op) (hrt : getSize rt = 1 ∨ getSize rt = 2) :
    ∃ f, genDirect o ⟨op, t, rt, v⟩ = some f ∧ f.Leaves fun c c' => Truth c' (told op rt v c.d) := by
  have hint := h.int_wide
  rw [genDirect_comparison hop]
  have hpair (m : Mnemonic) (hm : m.kind = some .THI ∨ m.kind = some .THIW) (k : Nat) (r : BoolRoutine) (u : Track → Track) :
      (Printer.andThen (printf [immediate m k, ⟨.lbsr, .routine r⟩]) (note u)).Accepted := by
    refine accepted_andThen (accepted_printf ?_) (accepted_note u)
    rintro l (_ | ⟨_, _ | ⟨_, hl⟩⟩)
    · rcases hm with hm | hm <;> simp [accepts, immediate, hm]
    · rfl
    · cases hl
  rcases hrt with hrt | hrt
  · refine ⟨Printer.andThen (printf [immediate .cmpb ((v.setWidth h.intBits).toNat % 2 ^ 8),
      ⟨.lbsr, .routine (if isUnsigned rt then unsignedRoutine op else signedRoutine op)⟩]) (note Track.invalidateB),
      by simp only [cmpDirect, hrt, if_true], hpair _ (.inl rfl) _ _ _, ?_⟩
    intro t c _
    have htruth := routine_truth (by decide) c c.b (v.setWidth 8)
      (if isUnsigned rt then unsignedRoutine op else signedRoutine op)
    rw [tells_comparison hop, ← ofNat_value (show 8 ≤ h.intBits by omega) v] at htruth
    rw [told_byte op hrt, loByte_d, ← ofNat_value (show 8 ≤ h.intBits by omega) v]
    exact htruth
  · refine ⟨Printer.andThen (printf [immediate .subd ((v.setWidth h.intBits).toNat % 2 ^ 16),
      ⟨.lbsr, .routine (if isUnsigned rt then unsignedRoutine op else signedRoutine op)⟩]) (note Track.invalidateWork),
      by simp [cmpDirect, hrt], hpair _ (.inr rfl) _ _ _, ?_⟩
    intro t c _
    have htruth := routine_truth (by decide) (c.setD (c.d - v.setWidth 16)) c.d (v.setWidth 16)
      (if isUnsigned rt then unsignedRoutine op else signedRoutine op)
    rw [tells_comparison hop, ← ofNat_value hint v] at htruth
    rw [told_word op hrt, ← ofNat_value hint v]
    exact htruth

/-- What the comparison is of the number in D, by the type of the node. -/
def wanted (op : Op) (t : CType) {m : Nat} (v : BitVec m) (d : BitVec 16) : Bool :=
  if getSize t = 1 then comparison op (unsignedValue t) (loByte d) (v.setWidth 8)
  else comparison op (unsignedValue t) d (v.setWidth 16)

theorem result_comparison {op : Op} (hop : isComparison op) (hs : getSize t = 1 ∨ getSize t = 2) :
    (DirectNode.mk op t rt v).Result c c' ↔ Truth c' (wanted op t v c.d) := by
  rcases hs with hs | hs
  · simp only [DirectNode.Result, wanted, hs, hop, if_true, loByte_d]
  · simp [DirectNode.Result, wanted, hs, hop]

/-- A comparison is right if what is told is what is wanted of every number. -/
theorem comparison_iff {op : Op} (hop : isComparison op) (hs : getSize t = 1 ∨ getSize t = 2)
    (hrt : getSize rt = 1 ∨ getSize rt = 2) :
    (DirectNode.mk op t rt v).Right o ↔ ∀ d, told op rt v d = wanted op t v d := by
  obtain ⟨f, hf, hleaves⟩ := leaves_cmp (o := o) (t := t) (v := v) hop hrt
  rw [right_some hf]
  constructor
  · intro hright d
    have hgot : Truth _ (told op rt v (Cpu.ofWord d).d) := hleaves.2 freshTrack (Cpu.ofWord d) (freshTrack_sound _)
    have hwant := (result_comparison hop hs).mp (hright.2 freshTrack (Cpu.ofWord d) (freshTrack_sound _))
    rw [ofWord_d] at hgot hwant
    exact truth_unique hgot hwant
  · intro hsame
    apply hleaves.mono
    intro c c' htruth
    rw [result_comparison hop hs, ← hsame]
    exact htruth

theorem right_int_comparison {op : Op} (hop : isComparison op) (ht : IntType t) : (DirectNode.mk op t t v).Right o := by
  have hsmall (hs : getSize t = 1 ∨ getSize t = 2) : (DirectNode.mk op t t v).Right o := by
    rw [comparison_iff hop hs hs]
    intro d
    rw [told, wanted, int_value ht]
  rcases int_sizes ht with hs | hs | hs
  · exact hsmall (.inl hs)
  · exact hsmall (.inr hs)
  · apply right_none
    rw [genDirect_comparison hop]
    simp [cmpDirect, hs]

/-- Where the signs differ the order of the signed numbers is the other one. -/
theorem order_turned {w : Nat} {x y : BitVec w} (hmsb : x.msb = !y.msb) :
    x.slt y = !x.ult y ∧ x.sle y = !x.ule y := by
  rw [BitVec.slt_eq_ult, BitVec.sle_eq_ule, hmsb]
  cases y.msb <;> exact ⟨by simp, by simp⟩

/-- With the other sign the order is another one. -/
theorem order_differs {op : Op} (hop : op ∈ orderOps) (k : BitVec 16) :
    ∃ d, comparison op false d k ≠ comparison op true d k := by
  have hmsb : (k ^^^ 0x8000).msb = !k.msb := by
    rw [BitVec.msb_xor, show (0x8000 : BitVec 16).msb = true by decide, Bool.xor_true]
  obtain ⟨hslt, hsle⟩ := order_turned hmsb
  obtain ⟨hslt', hsle'⟩ := order_turned (x := k) (y := k ^^^ 0x8000) (by rw [hmsb, Bool.not_not])
  refine ⟨k ^^^ 0x8000, ?_⟩
  generalize k ^^^ 0x8000 = d at hslt hsle hslt' hsle'
  simp only [orderOps, List.mem_cons, List.not_mem_nil, or_false] at hop
  rcases hop with rfl | rfl | rfl | rfl <;> simp [comparison, hslt, hsle, hslt', hsle']

/-- A pointer and a word. -/
theorem word_iff {op : Op} (hop : isComparison op) (ht : PTR t ≠ 0) (hrt : getSize rt = 2) :
    (DirectNode.mk op t rt v).Right o ↔ (op ∈ orderOps → isUnsigned rt) := by
  rw [comparison_iff hop (.inr (pointer_size ht)) (.inr hrt)]
  have hwanted (d : BitVec 16) : wanted op t v d = comparison op true d (v.setWidth 16) := by
    rw [wanted, if_neg (by rw [pointer_size ht]; decide), pointer_value ht]
  simp only [told_word op hrt, hwanted]
  constructor
  · intro hsame horder
    by_contra hsigned
    obtain ⟨d, hd⟩ := order_differs horder (v.setWidth 16)
    rw [Bool.not_eq_true] at hsigned
    exact hd (hsigned ▸ hsame d)
  · intro hunsigned d
    rcases comparison_cases hop with rfl | rfl | rfl | rfl | rfl | rfl
    · rw [hunsigned (by decide)]
    · rw [hunsigned (by decide)]
    · rw [hunsigned (by decide)]
    · rw [hunsigned (by decide)]
    · rfl
    · rfl

/-- A pointer and a zero that is a character. -/
theorem byte_iff {op : Op} (hop : isComparison op) (ht : PTR t ≠ 0) (hrt : getSize rt = 1) :
    (DirectNode.mk op t rt (0 : BitVec h.longBits)).Right o ↔ (op = .LT ∨ op = .GTEQ) ∧ isUnsigned rt := by
  rw [comparison_iff hop (.inr (pointer_size ht)) (.inl hrt)]
  have hzero (w : Nat) : (0 : BitVec h.longBits).setWidth w = 0 := BitVec.setWidth_zero _ _
  have hwanted (d : BitVec 16) : wanted op t (0 : BitVec h.longBits) d = comparison op true d 0 := by
    rw [wanted, if_neg (by rw [pointer_size ht]; decide), pointer_value ht, hzero]
  simp only [told_byte op hrt, hwanted, hzero]
  constructor
  · intro hsame
    have hlow := hsame 0x80
    have hhigh := hsame 0x100
    rcases comparison_cases hop with rfl | rfl | rfl | rfl | rfl | rfl <;> cases hu : isUnsigned rt <;> rw [hu] at hlow hhigh
    all_goals first
      | exact absurd hlow (by decide)
      | exact absurd hhigh (by decide)
      | exact ⟨.inl rfl, rfl⟩
      | exact ⟨.inr rfl, rfl⟩
  · rintro ⟨rfl | rfl, hu⟩ d
    · rw [hu]
      simp [comparison, BitVec.ult]
    · rw [hu]
      simp [comparison, BitVec.ule]

/-- A comparison with a pointer on the left. -/
theorem pointer_comparison {op : Op} (hop : isComparison op) (ht : PTR t ≠ 0)
    (hrt : PTR rt ≠ 0 ∨ (IntType rt ∧ v = 0)) : (DirectNode.mk op t rt v).Right o ↔
      (getSize rt = 4 ∨ (getSize rt = 2 ∧ (op ∈ orderOps → isUnsigned rt)) ∨
        (getSize rt = 1 ∧ (op = .LT ∨ op = .GTEQ) ∧ isUnsigned rt)) := by
  have hsizes : getSize rt = 2 ∨ (getSize rt = 1 ∧ v = 0) ∨ getSize rt = 4 := by
    rcases hrt with hrt | ⟨hrt, hv⟩
    · exact .inl (pointer_size hrt)
    · rcases int_sizes hrt with hs | hs | hs
      · exact .inr (.inl ⟨hs, hv⟩)
      · exact .inl hs
      · exact .inr (.inr hs)
  rcases hsizes with hs | ⟨hs, rfl⟩ | hs
  · rw [word_iff hop ht hs]
    simp [hs]
  · rw [byte_iff hop ht hs]
    simp [hs]
  · refine iff_of_true (right_none ?_) (.inl hs)
    rw [genDirect_comparison hop]
    simp [cmpDirect, hs]

theorem comparison_right_iff {op : Op} (hop : isComparison op) (htyped : (IntType t ∧ rt = t) ∨
    (PTR t ≠ 0 ∧ (PTR rt ≠ 0 ∨ (IntType rt ∧ v = 0)))) : (DirectNode.mk op t rt v).Right o ↔
      (PTR t = 0 ∨ getSize rt = 4 ∨ (getSize rt = 2 ∧ (op ∈ orderOps → isUnsigned rt)) ∨
        (getSize rt = 1 ∧ (op = .LT ∨ op = .GTEQ) ∧ isUnsigned rt)) := by
  rcases htyped with ⟨ht, rfl⟩ | ⟨ht, hrt⟩
  · exact iff_of_true (right_int_comparison hop ht) (.inl (int_not_pointer ht))
  · rw [pointer_comparison hop ht hrt]
    exact ⟨.inr, fun hor => hor.resolve_left ht⟩

/-- What `gen_direct` prints is accepted and leaves the result of C for these nodes and no others. -/
theorem direct_right_iff (o : Options) (n : { n : DirectNode h // n.Typed }) : n.val.Right o ↔ n.val.Suits := by
  obtain ⟨⟨op, t, rt, v⟩, htyped⟩ := n
  cases op <;> simp only [DirectNode.Typed] at htyped <;> simp only [DirectNode.Suits]
  case PLUS => exact iff_of_true (right_plus (scalar_sizes htyped)) trivial
  case MINUS => exact iff_of_true (right_minus (scalar_sizes htyped)) trivial
  case AND => exact iff_of_true (right_and (int_sizes htyped)) trivial
  case HAT => exact iff_of_true (right_hat (int_sizes htyped)) trivial
  case STAR => exact iff_of_true (right_star htyped) trivial
  case OR => exact or_iff (int_sizes htyped)
  case LTLT => exact lshift_iff htyped.1 htyped.2
  case GTGT => exact rshift_iff htyped.1 htyped.2
  case SLASH => exact slash_iff htyped.1
  all_goals
    rw [comparison_right_iff (by decide) htyped]
    rcases htyped with ⟨ht, rfl⟩ | ⟨ht, hrt⟩
    · simp [int_not_pointer ht, int_value ht]
    · have hpointer : PTR t = 0 ↔ False := iff_false_intro ht
      simp only [ne_eq, hpointer, pointer_value ht, orderOps]
      rcases scalar_sizes (hrt.symm.imp And.left id) with hs | hs | hs <;> simp [hs]

/-- `x | 0x12340000`: the third byte is put in twice. -/
theorem or_repeats_byte : let n : DirectNode Host.linux := ⟨.OR, CLONG, CLONG, 0x12340000⟩
    n.Typed ∧ ¬ n.Right ⟨0, false⟩ := by
  refine ⟨show CLONG ∈ _ by decide, ?_⟩
  intro hright
  have hsame := (or_iff (.inr (.inr rfl))).mp hright rfl
  exact absurd hsame (by decide)

end Fuzemsys.Fcc.Code6800
