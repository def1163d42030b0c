import Mathlib.Data.BitVec
import Fuzemsys.Lib.Keeps
import Fuzemsys.Emulators.Cpu6809.Step

/-!
# What the helpers leave alone

A part of the machine that is neither the condition codes, nor a 16-bit register,
nor the surroundings is not changed by the stack, by memory access outside of the
instruction stream, or by what happens before an instruction.
-/

namespace Fuzemsys.Emulators.Cpu6809

open Fuzemsys.Emulators Fuzemsys.Lib

variable {H μ : Type} {f : Machine H → μ}

/-- `f` only looks at the accumulators, the direct page and the count of fetched bytes. -/
def Untouched (f : Machine H → μ) : Prop :=
  ∀ m m', (∀ r, r ≠ .cc → m'.reg8 r = m.reg8 r) → m'.fetched = m.fetched → f m' = f m

theorem untouched_regA : Untouched (H := H) fun m => m.reg8 .a :=
  fun _ _ h8 _ => h8 .a (by decide)

@[simp]
theorem untouched_fetched : Untouched (H := H) Machine.fetched :=
  fun _ _ _ hfetched => hfetched

@[simp]
theorem keeps_get8 (r : Reg8) : Keeps f (get8 r) := keeps_gets

@[simp]
theorem keeps_get16 (r : Reg16) : Keeps f (get16 r) := keeps_gets

@[simp]
theorem keeps_getPc : Keeps f getPc := keeps_gets

@[simp]
theorem keeps_getIrqStatus : Keeps f getIrqStatus := keeps_gets

@[simp]
theorem keeps_getCc (flag : Flag) : Keeps f (getCc flag) :=
  keeps_bind (keeps_get8 .cc) fun _ => keeps_pure _

@[simp]
theorem keeps_getRegD : Keeps f getRegD :=
  keeps_bind (keeps_get8 .a) fun _ => keeps_bind (keeps_get8 .b) fun _ => keeps_pure _

@[simp]
theorem keeps_whenBit (op bit : BitVec 32) {c : M H Unit} (hc : Keeps f c) : Keeps f (whenBit op bit c) :=
  keeps_ite hc (keeps_pure _)

section
variable (hf : Untouched f)
include hf

theorem keeps_update {g : Machine H → Machine H} (h8 : ∀ m r, r ≠ .cc → (g m).reg8 r = m.reg8 r)
    (hfetched : ∀ m, (g m).fetched = m.fetched) :
    Keeps (E := Stop) f (fun m => .ok PUnit.unit (g m)) :=
  keeps_modify fun m => hf _ _ (h8 m) (hfetched m)

@[simp]
theorem keeps_set16 (r : Reg16) (v : BitVec 32) : Keeps f (set16 r v) :=
  keeps_update hf (fun _ _ _ => rfl) fun _ => rfl

@[simp]
theorem keeps_setPc (v : BitVec 32) : Keeps f (setPc v) :=
  keeps_update hf (fun _ _ _ => rfl) fun _ => rfl

@[simp]
theorem keeps_addCycles (n : BitVec 32) : Keeps f (addCycles n) :=
  keeps_update hf (fun _ _ _ => rfl) fun _ => rfl

@[simp]
theorem keeps_setIrqStatus (st : IrqStatus) : Keeps f (setIrqStatus st) :=
  keeps_update hf (fun _ _ _ => rfl) fun _ => rfl

@[simp]
theorem keeps_setCc (flag : Flag) (v : BitVec 32) : Keeps f (setCc flag v) :=
  keeps_bind (keeps_get8 .cc) fun _ =>
    keeps_update hf (fun _ _ hr => Function.update_of_ne hr _ _) fun _ => rfl

@[simp]
theorem keeps_addPc (n : BitVec 32) : Keeps f (addPc n) :=
  keeps_bind keeps_getPc fun _ => keeps_setPc hf _

@[simp]
theorem keeps_read8 (a : BitVec 32) : Keeps f (read8 a) :=
  fun _ => hf _ _ (fun _ _ => rfl) rfl

@[simp]
theorem keeps_write8 (a v : BitVec 32) : Keeps f (write8 a v) := by
  intro s
  simp only [EStateM.run, write8]
  split
  · exact hf _ _ (fun _ _ => rfl) rfl
  · exact hf _ _ (fun _ _ => rfl) rfl

@[simp]
theorem keeps_read16 (a : BitVec 32) : Keeps f (read16 a) :=
  keeps_bind (keeps_read8 hf _) fun _ => keeps_bind (keeps_read8 hf _) fun _ => keeps_pure _

@[simp]
theorem keeps_write16 (a v : BitVec 32) : Keeps f (write16 a v) :=
  keeps_bind (keeps_write8 hf _ _) fun _ => keeps_write8 hf _ _

@[simp]
theorem keeps_push8 (sp : Reg16) (v : BitVec 32) : Keeps f (push8 sp v) :=
  keeps_bind (keeps_get16 sp) fun _ => keeps_bind (keeps_set16 hf sp _) fun _ =>
    keeps_bind (keeps_get16 sp) fun _ => keeps_write8 hf _ _

@[simp]
theorem keeps_pull8 (sp : Reg16) : Keeps f (pull8 sp) :=
  keeps_bind (keeps_get16 sp) fun _ => keeps_bind (keeps_read8 hf _) fun _ =>
    keeps_bind (keeps_get16 sp) fun _ => keeps_bind (keeps_set16 hf sp _) fun _ => keeps_pure _

@[simp]
theorem keeps_push16 (sp : Reg16) (v : BitVec 32) : Keeps f (push16 sp v) :=
  keeps_bind (keeps_push8 hf sp _) fun _ => keeps_push8 hf sp _

@[simp]
theorem keeps_pull16 (sp : Reg16) : Keeps f (pull16 sp) :=
  keeps_bind (keeps_pull8 hf sp) fun _ => keeps_bind (keeps_pull8 hf sp) fun _ => keeps_pure _

@[simp]
theorem keeps_instPsh (op : BitVec 32) (sp : Reg16) (data : BitVec 32) : Keeps f (instPsh op sp data) := by
  have hpush16 := fun q r => keeps_whenBit op r (keeps_bind (keeps_get16 q) fun v =>
    keeps_bind (keeps_push16 hf sp v) fun _ => keeps_addCycles hf 2)
  have hpush8 := fun q r => keeps_whenBit op r (keeps_bind (keeps_get8 q) fun v =>
    keeps_bind (keeps_push8 hf sp v) fun _ => keeps_addCycles hf 1)
  refine keeps_bind (keeps_whenBit op 0x80 ?_) fun _ =>
    keeps_bind (keeps_whenBit op 0x40 ?_) fun _ => ?_
  · exact keeps_bind keeps_getPc fun _ => keeps_bind (keeps_push16 hf sp _) fun _ => keeps_addCycles hf 2
  · exact keeps_bind (keeps_push16 hf sp _) fun _ => keeps_addCycles hf 2
  · exact keeps_bind (hpush16 _ _) fun _ => keeps_bind (hpush16 _ _) fun _ =>
      keeps_bind (hpush8 _ _) fun _ => keeps_bind (hpush8 _ _) fun _ =>
        keeps_bind (hpush8 _ _) fun _ => hpush8 _ _

@[simp]
theorem keeps_breakpointHit : Keeps f breakpointHit := by
  intro s
  simp only [EStateM.run, breakpointHit]
  split
  · rfl
  · exact hf _ _ (fun _ _ => rfl) rfl

@[simp]
theorem keeps_runMonitor (world : World H) : Keeps f (runMonitor world) := by
  intro s
  simp only [EStateM.run, runMonitor]
  split
  · exact hf _ _ (fun _ _ => rfl) rfl
  · exact hf _ _ (fun _ _ => rfl) rfl

@[simp]
theorem keeps_checkBreakpoint (world : World H) : Keeps f (checkBreakpoint world) :=
  keeps_bind (keeps_breakpointHit hf) fun _ => keeps_ite (keeps_runMonitor hf world) (keeps_pure _)

@[simp]
theorem keeps_enterInterrupt (vector : BitVec 32) : Keeps f (enterInterrupt vector) :=
  keeps_bind (keeps_read16 hf _) fun _ => keeps_bind (keeps_setPc hf _) fun _ =>
    keeps_bind (keeps_setIrqStatus hf _) fun _ => keeps_addCycles hf 7

@[simp]
theorem keeps_interruptF : Keeps f interruptF := by
  have hlet : Keeps f (do setCc .I 1; setCc .F 1; enterInterrupt 0xfff6) :=
    keeps_bind (keeps_setCc hf _ _) fun _ => keeps_bind (keeps_setCc hf _ _) fun _ =>
      keeps_enterInterrupt hf _
  refine keeps_bind (keeps_getCc .F) fun _ => keeps_ite ?_ ?_
  · refine keeps_bind keeps_getIrqStatus fun _ => keeps_ite ?_ hlet
    exact keeps_bind (keeps_setCc hf _ _) fun _ => keeps_bind (keeps_get16 _) fun _ =>
      keeps_bind (keeps_instPsh hf _ _ _) fun _ => hlet
  · exact keeps_bind keeps_getIrqStatus fun _ => keeps_ite (keeps_setIrqStatus hf _) (keeps_pure _)

@[simp]
theorem keeps_interruptI : Keeps f interruptI := by
  have hlet : Keeps f (do setCc .I 1; enterInterrupt 0xfff8) :=
    keeps_bind (keeps_setCc hf _ _) fun _ => keeps_enterInterrupt hf _
  refine keeps_bind (keeps_getCc .I) fun _ => keeps_ite ?_ ?_
  · refine keeps_bind keeps_getIrqStatus fun _ => keeps_ite ?_ hlet
    exact keeps_bind (keeps_setCc hf _ _) fun _ => keeps_bind (keeps_get16 _) fun _ =>
      keeps_bind (keeps_instPsh hf _ _ _) fun _ => hlet
  · exact keeps_bind keeps_getIrqStatus fun _ => keeps_ite (keeps_setIrqStatus hf _) (keeps_pure _)

/-- What happens before an instruction leaves `f` alone. -/
@[simp]
theorem keeps_prologue (world : World H) (irqI irqF : Bool) : Keeps f (prologue world irqI irqF) := by
  have hi : Keeps f (if irqI then interruptI else pure ()) :=
    keeps_ite (keeps_interruptI hf) (keeps_pure _)
  refine keeps_bind (keeps_update hf (fun _ _ _ => rfl) fun _ => rfl) fun _ => ?_
  refine keeps_bind (keeps_checkBreakpoint hf world) fun _ => keeps_ite ?_ hi
  exact keeps_bind (keeps_interruptF hf) fun _ => hi

end

/-! ## Fetching a byte -/

/-- The byte that the next fetch reads. -/
def opcodeAt (m : Machine H) : BitVec 8 := m.mem.ram m.regPc

def afterFetch (m : Machine H) : Machine H :=
  { m with
    regPc := m.regPc + 1
    accesses := .read (m.regPc.setWidth 32) (opcodeAt m) :: m.accesses
    fetched := m.fetched + 1 }

theorem pcRead8_run (m : Machine H) :
    pcRead8.run m = .ok ((opcodeAt m).setWidth 32) (afterFetch m) := by
  have haddr : (m.regPc.setWidth 32 : BitVec 32) &&& 0xffff = m.regPc.setWidth 32 := by
    apply BitVec.eq_of_toNat_eq
    have hpc := m.regPc.isLt
    rw [BitVec.toNat_and, BitVec.toNat_setWidth, Nat.mod_eq_of_lt (by omega : m.regPc.toNat < 2 ^ 32),
      show (0xffff : BitVec 32).toNat = 2 ^ 16 - 1 from rfl, Nat.and_two_pow_sub_one_eq_mod,
      Nat.mod_eq_of_lt hpc]
  have hnext : (m.regPc.setWidth 32 + 1 : BitVec 32).setWidth 16 = m.regPc + 1 := by
    rw [BitVec.setWidth_add _ _ (by decide)]
    simp
  have hrun : pcRead8.run m = .ok ((e6809Read8 m.mem (m.regPc.setWidth 32 &&& 0xffff)).setWidth 32)
      { m with
        regPc := (m.regPc.setWidth 32 + 1 : BitVec 32).setWidth 16
        accesses := .read (m.regPc.setWidth 32 &&& 0xffff)
          (e6809Read8 m.mem (m.regPc.setWidth 32 &&& 0xffff)) :: m.accesses
        fetched := m.fetched + 1 } := rfl
  rw [hrun, haddr, hnext]
  simp [afterFetch, opcodeAt, e6809Read8]

/-! ## The rest of the step -/

theorem decode_mem {page : List (BitVec 8 × Instr)} {op : BitVec 8} {i : Instr}
    (h : decode page op = some i) : (op, i) ∈ page := by
  induction page with
  | nil => cases h
  | cons e page ih =>
    obtain ⟨op', i'⟩ := e
    rw [decode, List.lookup_cons] at h
    split at h
    · next heq =>
      cases h
      rw [beq_iff_eq.mp heq]
      exact List.mem_cons_self
    · exact List.mem_cons_of_mem _ (ih h)

/-- The prefixes, as a question about the byte. -/
theorem dispatchOn_byte (world : World H) (op : BitVec 8) :
    dispatchOn world (op.setWidth 32) =
      if op = 0x10 then pcRead8 >>= execFrom world page1 "1"
      else if op = 0x11 then pcRead8 >>= execFrom world page2 "2"
      else execFrom world page0 "0" (op.setWidth 32) := by
  have hwide : ∀ v : BitVec 8, op.setWidth 32 = v.setWidth 32 ↔ op = v := by
    intro v
    refine ⟨fun h => ?_, fun h => h ▸ rfl⟩
    simpa using congrArg (BitVec.setWidth 8) h
  unfold dispatchOn
  simp only [show (0x10 : BitVec 32) = (0x10 : BitVec 8).setWidth 32 from rfl,
    show (0x11 : BitVec 32) = (0x11 : BitVec 8).setWidth 32 from rfl, hwide]

theorem dispatch_run (world : World H) (m : Machine H) :
    (dispatch world).run m = (dispatchOn world ((opcodeAt m).setWidth 32)).run (afterFetch m) := by
  have hfetch := pcRead8_run m
  simp only [EStateM.run] at hfetch ⊢
  simp only [dispatch, bind, EStateM.bind, hfetch]

/-- `e6809_sstep` after the prologue. -/
def sstepRest (world : World H) : M H (BitVec 32) := do
  if (← getIrqStatus) ≠ .normal then
    return (← fun m => .ok m.cycles m) + 1
  else
    dispatch world
    return (← getPc).setWidth 32

end Fuzemsys.Emulators.Cpu6809
