import Fuzemsys.Lib.Moves
import Fuzemsys.Emulators.Cpu6809.Frame

/-!
# What an instruction does to the breakpoints

An instruction looks for a write breakpoint at every byte it writes. With no
address to ignore it does not change the breakpoints, and the flag tells whether
any of the bytes had one.
-/

namespace Fuzemsys.Emulators.Cpu6809

open Fuzemsys.Emulators Fuzemsys.Lib

variable {H : Type}

/-- Whether the monitor's list has a breakpoint of that kind at the address. -/
def Brkpoints.has (l : Brkpoints) (type : BrkType) (addr : BitVec 32) : Bool :=
  l.brkpointlist.any fun p => p.brktype = type ∧ p.addr = addr

/-- With no address to ignore the list decides. -/
theorem isBreakpoint_free {l : Brkpoints} (hfree : l.ignoredAddr = -1) (addr : BitVec 16) (type : BrkType) :
    isBreakpoint l addr type = (l.has type (addr.setWidth 32), l) := by
  unfold isBreakpoint
  rw [if_neg (by omega)]
  rfl

/-- Whether one of these accesses wrote where there is a write breakpoint. -/
def Brkpoints.watches (l : Brkpoints) (accesses : List Access) : Prop :=
  ∃ addr val, .write addr val ∈ accesses ∧ l.has .write addr

/-- The breakpoints are the same, and what was written is reported. -/
def Watched (m m' : Machine H) : Prop :=
  m.brkpoints.ignoredAddr = -1 → m'.brkpoints = m.brkpoints ∧ ∃ new, m'.accesses = new ++ m.accesses ∧
    (m'.writeBrkpt ↔ m.writeBrkpt ∨ m.brkpoints.watches new)

instance : Std.Refl (Watched (H := H)) where
  refl m _ := ⟨rfl, [], rfl, by simp [Brkpoints.watches]⟩

theorem watches_append (l : Brkpoints) (new old : List Access) :
    l.watches (new ++ old) ↔ l.watches new ∨ l.watches old := by
  simp only [Brkpoints.watches, List.mem_append]
  constructor
  · rintro ⟨addr, val, hmem | hmem, hhas⟩
    · exact .inl ⟨addr, val, hmem, hhas⟩
    · exact .inr ⟨addr, val, hmem, hhas⟩
  · rintro (⟨addr, val, hmem, hhas⟩ | ⟨addr, val, hmem, hhas⟩)
    · exact ⟨addr, val, .inl hmem, hhas⟩
    · exact ⟨addr, val, .inr hmem, hhas⟩

instance : IsTrans (Machine H) Watched where
  trans m m' m'' h h' hfree := by
    obtain ⟨hbrk, new, hnew, hflag⟩ := h hfree
    obtain ⟨hbrk', new', hnew', hflag'⟩ := h' (hbrk ▸ hfree)
    refine ⟨hbrk'.trans hbrk, new' ++ new, by rw [hnew', hnew, List.append_assoc], ?_⟩
    rw [hflag', hflag, hbrk, watches_append, or_assoc, or_comm (a := m.brkpoints.watches new)]

/-- What does not concern the breakpoints. -/
theorem moves_quiet {g : Machine H → Machine H} (hbrk : ∀ m, (g m).brkpoints = m.brkpoints)
    (hflag : ∀ m, (g m).writeBrkpt = m.writeBrkpt) (haccesses : ∀ m, (g m).accesses = m.accesses) :
    Moves (E := Stop) Watched (fun m => .ok PUnit.unit (g m)) :=
  moves_modify fun m _ => ⟨hbrk m, [], haccesses m, by simp [hflag, Brkpoints.watches]⟩

section
variable (r : Reg16) (v a : BitVec 32)

@[simp]
theorem watched_get8 (r : Reg8) : Moves Watched (get8 (H := H) r) := moves_gets _

@[simp]
theorem watched_get16 : Moves Watched (get16 (H := H) r) := moves_gets _

@[simp]
theorem watched_getPc : Moves Watched (getPc (H := H)) := moves_gets _

@[simp]
theorem watched_set8 (r : Reg8) : Moves Watched (set8 (H := H) r v) :=
  moves_quiet (fun _ => rfl) (fun _ => rfl) fun _ => rfl

@[simp]
theorem watched_set16 : Moves Watched (set16 (H := H) r v) :=
  moves_quiet (fun _ => rfl) (fun _ => rfl) fun _ => rfl

@[simp]
theorem watched_setPc : Moves Watched (setPc (H := H) v) :=
  moves_quiet (fun _ => rfl) (fun _ => rfl) fun _ => rfl

@[simp]
theorem watched_addCycles : Moves Watched (addCycles (H := H) v) :=
  moves_quiet (fun _ => rfl) (fun _ => rfl) fun _ => rfl

@[simp]
theorem watched_countFetched (n : Nat) : Moves Watched (countFetched (H := H) n) :=
  moves_quiet (fun _ => rfl) (fun _ => rfl) fun _ => rfl

@[simp]
theorem watched_setIrqStatus (st : IrqStatus) : Moves Watched (setIrqStatus (H := H) st) :=
  moves_quiet (fun _ => rfl) (fun _ => rfl) fun _ => rfl

@[simp]
theorem watched_read8 : Moves Watched (read8 (H := H) a) := by
  intro m x m' h
  cases h
  exact fun _ => ⟨rfl, [.read _ _], rfl, by simp [Brkpoints.watches]⟩

theorem masked_address : ((a &&& 0xffff).setWidth 16).setWidth 32 = a &&& 0xffff := by
  apply BitVec.eq_of_toNat_eq
  rw [BitVec.toNat_setWidth, BitVec.toNat_setWidth, BitVec.toNat_and, show (0xffff : BitVec 32).toNat = 2 ^ 16 - 1 from rfl,
    Nat.and_two_pow_sub_one_eq_mod]
  omega

/-- The one place that looks for write breakpoints. -/
@[simp]
theorem watched_write8 : Moves Watched (write8 (H := H) a v) := by
  intro m x m' h hfree
  simp only [EStateM.run, write8] at h
  split at h
  · cases h
  cases h
  rw [isBreakpoint_free hfree, masked_address]
  refine ⟨rfl, [.write (a &&& 0xffff) (v.setWidth 8)], rfl, ?_⟩
  simp [Brkpoints.watches]

@[simp]
theorem watched_getCc (flag : Flag) : Moves Watched (getCc (H := H) flag) :=
  moves_bind (watched_get8 _) fun _ => moves_pure _

@[simp]
theorem watched_setCc (flag : Flag) : Moves Watched (setCc (H := H) flag v) :=
  moves_bind (watched_get8 _) fun _ => watched_set8 _ _

@[simp]
theorem watched_getRegD : Moves Watched (getRegD (H := H)) :=
  moves_bind (watched_get8 _) fun _ => moves_bind (watched_get8 _) fun _ => moves_pure _

@[simp]
theorem watched_setRegD : Moves Watched (setRegD (H := H) v) :=
  moves_bind (watched_set8 _ _) fun _ => watched_set8 _ _

@[simp]
theorem watched_read16 : Moves Watched (read16 (H := H) a) :=
  moves_bind (watched_read8 _) fun _ => moves_bind (watched_read8 _) fun _ => moves_pure _

@[simp]
theorem watched_write16 : Moves Watched (write16 (H := H) a v) :=
  moves_bind (watched_write8 _ _) fun _ => watched_write8 _ _

@[simp]
theorem watched_push8 : Moves Watched (push8 (H := H) r v) := by
  unfold push8
  repeat' first | with_reducible refine moves_bind ?_ fun _ => ?_ | simp

@[simp]
theorem watched_pull8 : Moves Watched (pull8 (H := H) r) := by
  unfold pull8
  repeat' first | with_reducible exact moves_pure _ | with_reducible refine moves_bind ?_ fun _ => ?_ | simp

@[simp]
theorem watched_push16 : Moves Watched (push16 (H := H) r v) :=
  moves_bind (watched_push8 _ _) fun _ => watched_push8 _ _

@[simp]
theorem watched_pull16 : Moves Watched (pull16 (H := H) r) :=
  moves_bind (watched_pull8 _) fun _ => moves_bind (watched_pull8 _) fun _ => moves_pure _

@[simp]
theorem watched_addPc : Moves Watched (addPc (H := H) v) :=
  moves_bind watched_getPc fun _ => watched_setPc _

@[simp]
theorem watched_pcRead8 : Moves Watched (pcRead8 (H := H)) := by
  unfold pcRead8
  repeat' first | with_reducible exact moves_pure _ | with_reducible refine moves_bind ?_ fun _ => ?_ | simp

@[simp]
theorem watched_pcRead16 : Moves Watched (pcRead16 (H := H)) := by
  unfold pcRead16
  repeat' first | with_reducible exact moves_pure _ | with_reducible refine moves_bind ?_ fun _ => ?_ | simp

/-! ## The instructions -/

@[simp]
theorem watched_indirectly (indirect : Bool) : Moves Watched (indirectly (H := H) indirect a) :=
  moves_ite (watched_read16 _) (moves_pure _)

@[simp]
theorem watched_eaIndexed : Moves Watched (eaIndexed (H := H)) := by
  unfold eaIndexed
  refine moves_bind watched_pcRead8 fun op => ?_
  dsimp only
  split <;> repeat' first | with_reducible exact moves_pure _ | with_reducible exact moves_throw _ | with_reducible refine moves_bind ?_ fun _ => ?_ | simp

@[simp]
theorem watched_ea (mode : EaMode) : Moves Watched (ea (H := H) mode) := by
  cases mode with
  | direct => exact moves_bind (watched_get8 _) fun _ => moves_bind watched_pcRead8 fun _ => moves_pure _
  | indexed => exact watched_eaIndexed
  | extended => exact watched_pcRead16

@[simp]
theorem watched_source8 (src : Source) : Moves Watched (source8 (H := H) src) := by
  unfold source8
  cases src with
  | immediate => simp
  | memory mode => exact moves_bind (watched_ea _) fun _ => watched_read8 _

@[simp]
theorem watched_source16 (src : Source) : Moves Watched (source16 (H := H) src) := by
  unfold source16
  cases src with
  | immediate => simp
  | memory mode => exact moves_bind (watched_ea _) fun _ => watched_read16 _

@[simp]
theorem watched_instTst8 : Moves Watched (instTst8 (H := H) v) := by
  unfold instTst8
  repeat' first | with_reducible refine moves_bind ?_ fun _ => ?_ | simp

@[simp]
theorem watched_instUnary (f : Unary) : Moves Watched (instUnary (H := H) f v) := by
  unfold instUnary instNeg instCom instLsr instRor instAsr instAsl instRol instDec instInc
  cases f <;> repeat' first | with_reducible exact moves_pure _ | with_reducible refine moves_bind ?_ fun _ => ?_ | simp

@[simp]
theorem watched_instBinary8 (f : Binary8) : Moves Watched (instBinary8 (H := H) f a v) := by
  unfold instBinary8 instSub8 instSbc instAnd instEor instAdc instOr instAdd8
  cases f <;> repeat' first | with_reducible exact moves_pure _ | with_reducible refine moves_bind ?_ fun _ => ?_ | simp

@[simp]
theorem watched_instTst16 : Moves Watched (instTst16 (H := H) v) := by
  unfold instTst16
  repeat' first | with_reducible refine moves_bind ?_ fun _ => ?_ | simp

@[simp]
theorem watched_instClr : Moves Watched (instClr (H := H)) := by
  unfold instClr
  repeat' first | with_reducible refine moves_bind ?_ fun _ => ?_ | simp

@[simp]
theorem watched_instAdd16 : Moves Watched (instAdd16 (H := H) a v) := by
  unfold instAdd16
  repeat' first | with_reducible exact moves_pure _ | with_reducible refine moves_bind ?_ fun _ => ?_ | simp

@[simp]
theorem watched_instSub16 : Moves Watched (instSub16 (H := H) a v) := by
  unfold instSub16
  repeat' first | with_reducible exact moves_pure _ | with_reducible refine moves_bind ?_ fun _ => ?_ | simp

@[simp]
theorem watched_instBra8 : Moves Watched (instBra8 (H := H) a v) := by
  unfold instBra8
  repeat' first | with_reducible refine moves_bind ?_ fun _ => ?_ | simp

@[simp]
theorem watched_instBra16 : Moves Watched (instBra16 (H := H) a v) := by
  unfold instBra16
  repeat' first | with_reducible refine moves_bind ?_ fun _ => ?_ | simp

@[simp]
theorem watched_instDaa : Moves Watched (instDaa (H := H)) := by
  unfold instDaa
  repeat' first | with_reducible refine moves_bind ?_ fun _ => ?_ | simp

@[simp]
theorem watched_instPsh (op : BitVec 32) : Moves Watched (instPsh (H := H) op r v) := by
  unfold instPsh whenBit
  repeat' first | with_reducible exact moves_pure _ | with_reducible refine moves_ite ?_ ?_ | with_reducible refine moves_bind ?_ fun _ => ?_ | simp

@[simp]
theorem watched_instPul (op : BitVec 32) (sp osp : Reg16) : Moves Watched (instPul (H := H) op sp osp) := by
  unfold instPul whenBit
  repeat' first | with_reducible exact moves_pure _ | with_reducible refine moves_ite ?_ ?_ | with_reducible refine moves_bind ?_ fun _ => ?_ | simp

@[simp]
theorem watched_exgtfrRead : Moves Watched (exgtfrRead (H := H) a) := by
  unfold exgtfrRead
  split <;> repeat' first | with_reducible exact moves_pure _ | with_reducible exact moves_throw _ | with_reducible refine moves_bind ?_ fun _ => ?_ | simp

@[simp]
theorem watched_exgtfrWrite : Moves Watched (exgtfrWrite (H := H) a v) := by
  unfold exgtfrWrite
  split <;> first | with_reducible exact moves_throw _ | simp

@[simp]
theorem watched_instExg : Moves Watched (instExg (H := H)) := by
  unfold instExg
  repeat' first | with_reducible refine moves_bind ?_ fun _ => ?_ | simp

@[simp]
theorem watched_instTfr : Moves Watched (instTfr (H := H)) := by
  unfold instTfr
  repeat' first | with_reducible refine moves_bind ?_ fun _ => ?_ | simp

/-- What the system call stores is not looked at. -/
@[simp]
theorem watched_instSwi (world : World H) : Moves Watched (instSwi world) := by
  have hafter : ∀ result longresult errno, Moves Watched (afterSyscall (H := H) result longresult errno) := by
    intro result longresult errno
    unfold afterSyscall
    repeat' first | with_reducible exact moves_pure _ | with_reducible refine moves_ite ?_ ?_ | with_reducible refine moves_bind ?_ fun _ => ?_ | simp
  unfold instSwi
  refine moves_bind watched_getRegD fun op => ?_
  intro m x m' h
  simp only [EStateM.run] at h
  split at h
  · cases h
  intro hfree
  obtain ⟨hbrk, new, hnew, hflag⟩ := hafter _ _ _ _ _ _ h hfree
  refine ⟨hbrk, new ++ [.syscall op], by rw [hnew, List.append_assoc]; rfl, ?_⟩
  rw [hflag, watches_append]
  simp [Brkpoints.watches]

@[simp]
theorem watched_branchTest (test : BranchTest) : Moves Watched (branchTest (H := H) test) := by
  unfold branchTest
  cases test <;> repeat' first | with_reducible exact moves_pure _ | with_reducible refine moves_bind ?_ fun _ => ?_ | simp

@[simp]
theorem watched_getWide (w : Wide) : Moves Watched (getWide (H := H) w) := by
  cases w with
  | d => exact watched_getRegD
  | reg r => exact watched_get16 _

@[simp]
theorem watched_setWide (w : Wide) : Moves Watched (setWide (H := H) w v) := by
  cases w with
  | d => exact watched_setRegD _
  | reg r => exact watched_set16 _ _

theorem watched_exec (world : World H) (op : BitVec 32) (i : Instr) : Moves Watched (exec world op i) := by
  cases i <;> simp only [exec] <;>
    repeat' first | with_reducible exact moves_pure _ | with_reducible refine moves_ite ?_ ?_ | with_reducible refine moves_bind ?_ fun _ => ?_ | simp

theorem watched_execFrom (world : World H) (page : List (BitVec 8 × Instr)) (name : String) (op : BitVec 32) :
    Moves Watched (execFrom world page name op) := by
  unfold execFrom
  split
  · exact watched_exec _ _ _
  · exact moves_throw _

theorem watched_dispatch (world : World H) : Moves Watched (dispatch world) := by
  unfold dispatch dispatchOn
  refine moves_bind watched_pcRead8 fun op => ?_
  apply moves_ite (moves_bind watched_pcRead8 fun _ => watched_execFrom _ _ _ _)
  apply moves_ite (moves_bind watched_pcRead8 fun _ => watched_execFrom _ _ _ _)
  apply watched_execFrom

/-- An instruction returns the program counter; a processor that waits returns a count of cycles. -/
theorem sstepRest_ok (world : World H) {m m' : Machine H} {addr : BitVec 32}
    (h : (sstepRest world).run m = .ok addr m') :
    (m.irqStatus = .normal ∧ Watched m m' ∧ addr = m'.regPc.setWidth 32) ∨ (m.irqStatus ≠ .normal ∧ m' = m) := by
  unfold sstepRest at h
  simp only [EStateM.run, bind, EStateM.bind, getIrqStatus] at h
  by_cases hirq : m.irqStatus = .normal
  · left
    simp only [hirq, ne_eq, not_true_eq_false, if_false] at h
    simp only [EStateM.bind] at h
    split at h
    · next u m1 hrun =>
      cases h
      exact ⟨hirq, watched_dispatch world _ _ _ hrun, rfl⟩
    · cases h
  · right
    simp only [hirq, ne_eq, not_false_eq_true, if_true] at h
    cases h
    exact ⟨hirq, rfl⟩

end

end Fuzemsys.Emulators.Cpu6809
