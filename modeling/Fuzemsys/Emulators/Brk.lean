import Fuzemsys.Lib.Run
import Fuzemsys.Emulators.Memory

/-!
# The program break

The brk (30) and sbrk (31) cases of the system call handler. A call sees the
memory and the stack pointer of its own moment, so a run is a list of calls.
-/

open Fuzemsys.Lib

namespace Fuzemsys.Emulators

/-! ## The two system calls -/

/-- Current and initial brk value. -/
structure Brk where
  curbrk : BitVec 16
  initbrk : BitVec 16
  deriving DecidableEq

def setInitialBrk (addr : BitVec 16) : Brk := { curbrk := addr, initbrk := addr }

inductive BreakOp where
  | brk
  | sbrk
  deriving DecidableEq, Repr

/-- One system call: what the handler can read of the emulated process. -/
structure BreakCall where
  op : BreakOp
  cpu : Cpu
  mem : Mem
  sp : BitVec 16

/-- What a call leaves behind: the break, the host errno and the value for the process. -/
structure Outcome where
  state : Brk
  errno : Nat
  longresult : Bool
  sres : BitVec 32

def ENOMEM : Nat := 12

/-- Below the initial brk or in the stack. -/
def brkRefused (b : Brk) (brkval sp : BitVec 16) : Prop := brkval < b.initbrk ∨ brkval ≥ sp

instance (b : Brk) (brkval sp : BitVec 16) : Decidable (brkRefused b brkval sp) :=
  inferInstanceAs (Decidable (_ ∨ _))

/-- The end of `do_syscall`: the result is cut to 16 bits. -/
def finish (b : Brk) (errno : Nat) (result : BitVec 32) : Outcome :=
  { state := b, errno := errno, longresult := false, sres := result &&& 0xffff }

def brk (b : Brk) (c : BreakCall) : Outcome :=
  let brkval := (uiarg c.cpu c.mem c.sp 0).setWidth 16
  if brkRefused b brkval c.sp then finish b ENOMEM (-1)
  else finish { b with curbrk := brkval } 0 0

def sbrk (b : Brk) (c : BreakCall) : Outcome :=
  let oldbrkval := b.curbrk
  let brkval := BitVec.ofInt 16 (b.curbrk.toNat + siarg c.cpu c.mem c.sp 0)
  if brkRefused b brkval c.sp then finish b ENOMEM (-1)
  else finish { b with curbrk := brkval } 0 (oldbrkval.setWidth 32)

def doSyscall (b : Brk) (c : BreakCall) : Outcome :=
  match c.op with
  | .brk => brk b c
  | .sbrk => sbrk b c

def brkStep (b : Brk) (c : BreakCall) : Brk := (doSyscall b c).state

/-! ## What a call has to do -/

/-- The 16-bit argument of a call, as a signed number. -/
def BreakCall.arg (c : BreakCall) : Int := (getui c.cpu c.mem (c.sp + 2)).toInt

/-- The break law of one call, made in state `b` after `set_initial_brk(b0)`. -/
structure BreakLaw (b0 : BitVec 16) (b : Brk) (c : BreakCall) : Prop where
  above : b0 ≤ (doSyscall b c).state.curbrk
  below : (doSyscall b c).state.curbrk ≠ b.curbrk → (doSyscall b c).state.curbrk < c.sp
  exact : c.op = .sbrk → (doSyscall b c).errno = 0 →
    (doSyscall b c).sres = b.curbrk.setWidth 32 ∧
      ((doSyscall b c).state.curbrk.toNat : Int) = b.curbrk.toNat + c.arg
  refused : (doSyscall b c).errno ≠ 0 →
    (doSyscall b c).sres = 0xFFFF ∧ (doSyscall b c).errno = ENOMEM ∧
      (doSyscall b c).state.curbrk = b.curbrk

/-- The sum of the break and the argument stays in 16 bits, or it wraps to where the guard
refuses it. -/
def SbrkCaught (b : Brk) (c : BreakCall) : Prop :=
  c.op = .sbrk →
    ¬ (b.curbrk.toNat + c.arg < 0 ∧ b.initbrk.toNat ≤ b.curbrk.toNat + c.arg + 65536 ∧
        b.curbrk.toNat + c.arg + 65536 < c.sp.toNat) ∧
    ¬ (65536 ≤ b.curbrk.toNat + c.arg ∧ b.initbrk.toNat ≤ b.curbrk.toNat + c.arg - 65536 ∧
        b.curbrk.toNat + c.arg - 65536 < c.sp.toNat)

/-- What holds between calls: the first break is fixed and the break is not below it. -/
def BrkInv (b0 : BitVec 16) (b : Brk) : Prop := b.initbrk = b0 ∧ b0 ≤ b.curbrk

/-! ## One call -/

/-- The new break that sbrk tries, as an integer. -/
theorem sbrk_brkval_toNat (b : Brk) (c : BreakCall) :
    ((BitVec.ofInt 16 (b.curbrk.toNat + siarg c.cpu c.mem c.sp 0)).toNat : Int) =
      (b.curbrk.toNat + c.arg) % 65536 := by
  have hmod := siarg_emod c.cpu c.mem c.sp 0
  rw [show c.sp + 2 + 0 = c.sp + 2 from BitVec.add_zero _] at hmod
  rw [BitVec.toNat_ofInt, Int.toNat_of_nonneg (by omega)]
  simp only [BreakCall.arg]
  omega

theorem setWidth_low16 (x : BitVec 16) : (x.setWidth 32 : BitVec 32) &&& 0xffff = x.setWidth 32 := by
  apply BitVec.eq_of_toNat_eq
  have hx := x.isLt
  have hmask : x.toNat &&& 65535 = x.toNat % 2 ^ 16 := Nat.and_two_pow_sub_one_eq_mod _ 16
  rw [BitVec.toNat_and, BitVec.toNat_setWidth, Nat.mod_eq_of_lt (by omega : x.toNat < 2 ^ 32)]
  exact hmask.trans (Nat.mod_eq_of_lt hx)

/-- A call is refused as a whole, or it moves the break to a value the guard let through. -/
theorem doSyscall_cases (b : Brk) (c : BreakCall) :
    (doSyscall b c = finish b ENOMEM (-1)) ∨
      ∃ brkval, b.initbrk ≤ brkval ∧ brkval < c.sp ∧
        (doSyscall b c).state = { b with curbrk := brkval } ∧ (doSyscall b c).errno = 0 := by
  cases hop : c.op
  · simp only [doSyscall, hop, brk]
    split
    · exact .inl rfl
    · next h =>
      obtain ⟨hlo, hhi⟩ := not_or.mp h
      exact .inr ⟨_, BitVec.not_lt.mp hlo, BitVec.not_le.mp hhi, rfl, rfl⟩
  · simp only [doSyscall, hop, sbrk]
    split
    · exact .inl rfl
    · next h =>
      obtain ⟨hlo, hhi⟩ := not_or.mp h
      exact .inr ⟨_, BitVec.not_lt.mp hlo, BitVec.not_le.mp hhi, rfl, rfl⟩

theorem brkStep_inv (b0 : BitVec 16) (b : Brk) (c : BreakCall) (hb : BrkInv b0 b) :
    BrkInv b0 (brkStep b c) := by
  obtain ⟨hinit, hcur⟩ := hb
  rcases doSyscall_cases b c with h | ⟨brkval, hlo, -, hstate, -⟩
  · simp [brkStep, h, finish, BrkInv, hinit, hcur]
  · rw [hinit] at hlo
    simp [brkStep, hstate, BrkInv, hinit, hlo]

/-- The parts of the law that hold of every call. -/
theorem breakLaw_of_exact (b0 : BitVec 16) (b : Brk) (c : BreakCall) (hb : BrkInv b0 b)
    (hexact : c.op = .sbrk → (doSyscall b c).errno = 0 →
      (doSyscall b c).sres = b.curbrk.setWidth 32 ∧
        ((doSyscall b c).state.curbrk.toNat : Int) = b.curbrk.toNat + c.arg) :
    BreakLaw b0 b c := by
  refine ⟨(brkStep_inv b0 b c hb).2, ?_, hexact, ?_⟩
  · intro hchanged
    rcases doSyscall_cases b c with h | ⟨brkval, -, hhi, hstate, -⟩
    · simp [h, finish] at hchanged
    · simpa [hstate] using hhi
  · intro herr
    rcases doSyscall_cases b c with h | ⟨brkval, -, -, -, hok⟩
    · rw [h]
      exact ⟨by simp [finish], rfl, rfl⟩
    · exact absurd hok herr

/-- The law holds of a call exactly when the wrapped sum is caught. -/
theorem breakLaw_iff (b0 : BitVec 16) (b : Brk) (c : BreakCall) (hb : BrkInv b0 b) :
    BreakLaw b0 b c ↔ SbrkCaught b c := by
  have hval := sbrk_brkval_toNat b c
  have hcur := b.curbrk.isLt
  constructor
  · intro hlaw hop
    have hexact := hlaw.exact hop
    simp only [doSyscall, hop, sbrk] at hexact
    split at hexact
    · next href =>
      simp only [brkRefused, BitVec.lt_def, ge_iff_le, BitVec.le_def] at href
      omega
    · have := (hexact rfl).2
      simp only [finish] at this
      omega
  · intro hcaught
    apply breakLaw_of_exact b0 b c hb
    intro hop hok
    have hc := hcaught hop
    simp only [doSyscall, hop, sbrk] at hok ⊢
    split at hok
    · simp [finish, ENOMEM] at hok
    · next hnot =>
      rw [if_neg hnot]
      simp only [brkRefused, BitVec.lt_def, ge_iff_le, BitVec.le_def] at hnot
      refine ⟨setWidth_low16 b.curbrk, ?_⟩
      simp only [finish]
      have hlo : -32768 ≤ c.arg ∧ c.arg < 32768 := by
        have h1 := BitVec.le_toInt (getui c.cpu c.mem (c.sp + 2))
        have h2 := BitVec.toInt_lt (x := getui c.cpu c.mem (c.sp + 2))
        simp only [BreakCall.arg]
        omega
      omega

/-! ## Runs of calls -/

/-- Over any run, the break law holds at every call exactly when no accepted sum wrapped. -/
theorem break_law_run_iff (b0 : BitVec 16) (calls : List BreakCall) :
    AllSteps brkStep (BreakLaw b0) (setInitialBrk b0) calls ↔
      AllSteps brkStep SbrkCaught (setInitialBrk b0) calls :=
  allSteps_iff (brkStep_inv b0) (breakLaw_iff b0) ⟨rfl, BitVec.le_refl b0⟩ calls

/-- A memory whose only non-zero bytes are the two of one big-endian word. -/
def oneWordMem (addr val : BitVec 16) : Mem where
  ram := fun a =>
    if a = addr then (val >>> 8).setWidth 8 else if a = addr + 1 then val.setWidth 8 else 0
  fefcval := 0
  printed := []

/-- `brk(40000)`, then `sbrk(32767)`, with the stack at 50000. -/
def wrappingCalls : List BreakCall :=
  [{ op := .brk, cpu := .cpu6809, mem := oneWordMem 50002 40000, sp := 50000 },
   { op := .sbrk, cpu := .cpu6809, mem := oneWordMem 50002 32767, sp := 50000 }]

/-- The sum 72767 wraps to 7231, and the guard takes it. -/
theorem wrapping_sbrk_breaks_law :
    ¬ AllSteps brkStep (BreakLaw 100) (setInitialBrk 100) wrappingCalls := by
  intro h
  have hexact := h.2.1.exact rfl (by decide)
  exact absurd hexact.2 (by decide)

end Fuzemsys.Emulators
