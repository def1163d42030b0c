import Fuzemsys.Emulators.D6809
import Fuzemsys.Emulators.Cpu6809.Frame

/-!
# How long an instruction is

The interpreter counts the bytes it reads through the program counter, the
disassembler returns a length. They agree on every instruction that the interpreter
executes but one: it takes 0x10 0x20 for a long branch, which the disassembler does
not know.
-/

namespace Fuzemsys.Emulators.Cpu6809

open Fuzemsys.Emulators Fuzemsys.Lib D6809

variable {H α β : Type}

/-! ## What the interpreter fetches -/

/-- What follows an opcode: so many bytes, or an indexed post-byte with its offset. -/
inductive Operand where
  | bytes (n : Nat)
  | indexed
  deriving DecidableEq, Repr

/-- `post` is the number of bytes behind the post-byte. -/
def Operand.size (post : Nat) : Operand → Nat
  | .bytes n => n
  | .indexed => 1 + post

def EaMode.operand : EaMode → Operand
  | .direct => .bytes 1
  | .indexed => .indexed
  | .extended => .bytes 2

def Source.operand (width : Nat) : Source → Operand
  | .immediate => .bytes width
  | .memory mode => mode.operand

def Instr.operand : Instr → Operand
  | .unaryMem _ mode _ | .tstMem mode _ | .jmp mode _ | .clrMem mode _ => mode.operand
  | .st8 _ mode _ | .st16 _ mode _ | .jsr mode _ => mode.operand
  | .binary8 _ _ _ src _ | .ld8 _ src _ => src.operand 1
  | .subd src _ | .addd src _ | .cmp16 _ src _ | .ld16 _ src _ => src.operand 2
  | .lea _ _ => .indexed
  | .bra8 _ | .bsr | .psh _ _ | .pul _ _ | .orcc | .andcc | .exg | .tfr | .cwai => .bytes 1
  | .bra16 _ | .lbra | .lbsr => .bytes 2
  | .unaryReg _ _ | .tstReg _ | .clrReg _ | .nop | .mul | .rts | .abx | .sex => .bytes 0
  | .rti | .swi | .sync | .daa | .swiVector _ => .bytes 0

def IndexMode.size : IndexMode → Nat
  | .byteR _ | .bytePc _ => 1
  | .wordR _ | .wordPc _ | .address => 2
  | _ => 0

/-- The bytes behind a post-byte. -/
def postSize (op : BitVec 8) : Nat := ((indexMode op).map IndexMode.size).getD 0

theorem postSize_le (op : BitVec 8) : postSize op ≤ 2 := by
  unfold postSize
  cases indexMode op with
  | none => exact Nat.zero_le 2
  | some mode => cases mode <;> simp [IndexMode.size]

theorem operand_size_le (i : Instr) (post : Nat) : i.operand.size post ≤ 2 + post := by
  have hmode : ∀ mode : EaMode, mode.operand.size post ≤ 2 + post := by
    intro mode
    cases mode <;> simp only [EaMode.operand, Operand.size] <;> omega
  have hsrc : ∀ (src : Source) (width : Nat), width ≤ 2 → (src.operand width).size post ≤ 2 + post := by
    intro src width hwidth
    cases src with
    | immediate => exact hwidth.trans (Nat.le_add_right 2 post)
    | memory mode => exact hmode mode
  cases i with
  | unaryMem | tstMem | jmp | clrMem | st8 | st16 | jsr => exact hmode _
  | binary8 | ld8 | subd | addd | cmp16 | ld16 => exact hsrc _ _ (by omega)
  | _ =>
    simp only [Instr.operand, Operand.size]
    omega

/-- The run ends at an undefined instruction. -/
def Rejected (r : EStateM.Result Stop (Machine H) α) : Prop := ∃ msg m, r = .error (.rejected msg) m

/-- Unless it rejects the instruction, `c` fetches an operand. A post-byte is defined then. -/
def Fetches (o : Operand) (c : M H α) : Prop :=
  ∀ m, ¬ Rejected (c.run m) →
    (o = .indexed → ∃ mode, indexMode (opcodeAt m) = some mode) ∧
      (endState (c.run m)).fetched = m.fetched + o.size (postSize (opcodeAt m))

theorem Rejected.bind {c : M H α} {m : Machine H} (k : α → M H β) (h : Rejected (c.run m)) :
    Rejected ((c >>= k).run m) := by
  obtain ⟨msg, m', h⟩ := h
  exact ⟨msg, m', run_bind_error h⟩

theorem fetches_bind {o : Operand} {c : M H α} {k : α → M H β} (hc : Fetches o c)
    (hk : ∀ a, Keeps Machine.fetched (k a)) : Fetches o (c >>= k) := by
  intro m hm
  rw [endState_bind c hk m]
  exact hc m fun h => hm (h.bind k)

theorem fetches_none {c : M H α} (hc : Keeps Machine.fetched c) : Fetches (.bytes 0) c :=
  fun m _ => ⟨nofun, hc m⟩

/-! ## Programs that fetch nothing -/

@[simp]
theorem keeps_fetched_set8 (r : Reg8) (v : BitVec 32) : Keeps Machine.fetched (set8 (H := H) r v) :=
  fun _ => rfl

@[simp]
theorem keeps_fetched_setRegD (v : BitVec 32) : Keeps Machine.fetched (setRegD (H := H) v) := by
  unfold setRegD
  repeat refine keeps_bind (by simp) fun _ => ?_
  simp

@[simp]
theorem keeps_fetched_instTst8 (v : BitVec 32) : Keeps Machine.fetched (instTst8 (H := H) v) := by
  unfold instTst8
  repeat refine keeps_bind (by simp) fun _ => ?_
  simp

@[simp]
theorem keeps_fetched_instTst16 (v : BitVec 32) : Keeps Machine.fetched (instTst16 (H := H) v) := by
  unfold instTst16
  repeat refine keeps_bind (by simp) fun _ => ?_
  simp

@[simp]
theorem keeps_fetched_instClr : Keeps Machine.fetched (instClr (H := H)) := by
  unfold instClr
  repeat refine keeps_bind (by simp) fun _ => ?_
  simp

@[simp]
theorem keeps_fetched_instUnary (f : Unary) (v : BitVec 32) :
    Keeps Machine.fetched (instUnary (H := H) f v) := by
  cases f <;>
    simp only [instUnary, instNeg, instCom, instLsr, instRor, instAsr, instAsl, instRol, instDec, instInc] <;>
    repeat refine keeps_bind (by simp) fun _ => ?_
  all_goals simp

@[simp]
theorem keeps_fetched_instBinary8 (f : Binary8) (v w : BitVec 32) :
    Keeps Machine.fetched (instBinary8 (H := H) f v w) := by
  cases f <;>
    simp only [instBinary8, instSub8, instSbc, instAnd, instEor, instAdc, instOr, instAdd8] <;>
    repeat refine keeps_bind (by simp) fun _ => ?_
  all_goals simp

@[simp]
theorem keeps_fetched_instAdd16 (v w : BitVec 32) : Keeps Machine.fetched (instAdd16 (H := H) v w) := by
  unfold instAdd16
  repeat refine keeps_bind (by simp) fun _ => ?_
  simp

@[simp]
theorem keeps_fetched_instSub16 (v w : BitVec 32) : Keeps Machine.fetched (instSub16 (H := H) v w) := by
  unfold instSub16
  repeat refine keeps_bind (by simp) fun _ => ?_
  simp

@[simp]
theorem keeps_fetched_getWide (r : Wide) : Keeps Machine.fetched (getWide (H := H) r) := by
  cases r <;> simp [getWide]

@[simp]
theorem keeps_fetched_setWide (r : Wide) (v : BitVec 32) : Keeps Machine.fetched (setWide (H := H) r v) := by
  cases r <;> simp [setWide]

@[simp]
theorem keeps_fetched_branchTest (test : BranchTest) : Keeps Machine.fetched (branchTest (H := H) test) := by
  cases test <;> unfold branchTest <;> dsimp only <;> repeat refine keeps_bind (by simp) fun _ => ?_
  all_goals simp

@[simp]
theorem keeps_fetched_instPul (op : BitVec 32) (sp osp : Reg16) :
    Keeps Machine.fetched (instPul (H := H) op sp osp) := by
  have hpull8 := fun q r => keeps_whenBit (f := Machine.fetched (H := H)) op r
    (keeps_bind (keeps_pull8 untouched_fetched sp) fun v =>
      keeps_bind (keeps_fetched_set8 q v) fun _ => keeps_addCycles untouched_fetched 1)
  have hpull16 := fun q r => keeps_whenBit (f := Machine.fetched (H := H)) op r
    (keeps_bind (keeps_pull16 untouched_fetched sp) fun v =>
      keeps_bind (keeps_set16 untouched_fetched q v) fun _ => keeps_addCycles untouched_fetched 2)
  unfold instPul
  repeat refine keeps_bind (by first | exact hpull8 _ _ | exact hpull16 _ _) fun _ => ?_
  refine keeps_whenBit op 0x80 (keeps_bind (by simp) fun _ => keeps_bind (by simp) fun _ => by simp)

@[simp]
theorem keeps_fetched_exgtfrRead (reg : BitVec 32) : Keeps Machine.fetched (exgtfrRead (H := H) reg) := by
  unfold exgtfrRead
  split
  · exact keeps_getRegD
  iterate 4 exact keeps_get16 _
  · exact keeps_bind keeps_getPc fun _ => keeps_pure _
  iterate 4 exact keeps_bind (keeps_get8 _) fun _ => keeps_pure _
  · exact keeps_throw _

@[simp]
theorem keeps_fetched_exgtfrWrite (reg v : BitVec 32) :
    Keeps Machine.fetched (exgtfrWrite (H := H) reg v) := by
  unfold exgtfrWrite
  split <;> simp

@[simp]
theorem keeps_fetched_afterSyscall (result longresult errno : BitVec 32) :
    Keeps Machine.fetched (afterSyscall (H := H) result longresult errno) := by
  unfold afterSyscall
  repeat refine keeps_bind (by simp) fun _ => ?_
  exact keeps_ite (by simp) (by simp)

@[simp]
theorem keeps_fetched_instSwi (world : World H) : Keeps Machine.fetched (instSwi world) := by
  refine keeps_bind keeps_getRegD fun op m => ?_
  simp only [EStateM.run]
  split
  · rfl
  · exact keeps_fetched_afterSyscall _ _ _ _

@[simp]
theorem keeps_fetched_instDaa : Keeps Machine.fetched (instDaa (H := H)) := by
  unfold instDaa
  repeat refine keeps_bind (by simp) fun _ => ?_
  simp

@[simp]
theorem keeps_fetched_indirectly (indirect : Bool) (ea : BitVec 32) :
    Keeps Machine.fetched (indirectly (H := H) indirect ea) := by
  simp [indirectly]

/-! ## Operands -/

/-- Whatever the state, `c` fetches `n` bytes. -/
def Counts (n : Nat) (c : M H α) : Prop := ∀ m, (endState (c.run m)).fetched = m.fetched + n

theorem counts_bind {n : Nat} {c : M H α} {k : α → M H β} (hc : Counts n c)
    (hk : ∀ a, Keeps Machine.fetched (k a)) : Counts n (c >>= k) :=
  fun m => (endState_bind c hk m).trans (hc m)

/-- Looking at the machine first does not fetch. -/
theorem counts_peek {n : Nat} {c : M H α} {k : α → M H β} (hc : ∀ m, ∃ a, c.run m = .ok a m)
    (hk : ∀ a, Counts n (k a)) : Counts n (c >>= k) := by
  intro m
  obtain ⟨a, ha⟩ := hc m
  rw [run_bind_ok ha]
  exact hk a m

theorem branchTest_run (test : BranchTest) (m : Machine H) :
    ∃ v, (branchTest test).run m = .ok v m := by
  cases test <;> exact ⟨_, rfl⟩

theorem counts_pcRead8 : Counts 1 (pcRead8 (H := H)) := fun _ => rfl

theorem counts_pcRead16 : Counts 2 (pcRead16 (H := H)) := fun _ => rfl

theorem fetches_eaIndexed : Fetches .indexed (eaIndexed (H := H)) := by
  intro m hm
  unfold eaIndexed at hm ⊢
  rw [run_bind_ok (pcRead8_run m)] at hm ⊢
  simp only [BitVec.setWidth_setWidth_of_le _ (show 8 ≤ 32 by decide), BitVec.setWidth_eq] at hm ⊢
  cases hmode : indexMode (opcodeAt m) with
  | none =>
    rw [hmode] at hm
    exact absurd ⟨_, _, rfl⟩ hm
  | some mode =>
    have hsize : postSize (opcodeAt m) = mode.size := by simp [postSize, hmode]
    refine ⟨fun _ => ⟨mode, rfl⟩, ?_⟩
    rw [Operand.size, hsize, ← Nat.add_assoc]
    have hkeep : ∀ {c : M H (BitVec 32)}, Keeps Machine.fetched c →
        (endState (c.run (afterFetch m))).fetched = m.fetched + 1 + 0 := fun h => h _
    cases mode with
    | posOffset | negOffset | postInc | preDec | noOffset | accB | accA | accD =>
      refine hkeep ?_
      repeat refine keeps_bind (by simp) fun _ => ?_
      simp
    | byteR indirect =>
      refine counts_peek (fun _ => ⟨_, rfl⟩) (fun a => counts_bind counts_pcRead8 fun b => ?_) (afterFetch m)
      repeat refine keeps_bind (by simp) fun _ => ?_
      simp
    | wordR indirect =>
      refine counts_peek (fun _ => ⟨_, rfl⟩) (fun a => counts_bind counts_pcRead16 fun b => ?_) (afterFetch m)
      repeat refine keeps_bind (by simp) fun _ => ?_
      simp
    | bytePc indirect =>
      refine counts_bind counts_pcRead8 (fun b => ?_) (afterFetch m)
      repeat refine keeps_bind (by simp) fun _ => ?_
      simp
    | wordPc indirect =>
      refine counts_bind counts_pcRead16 (fun b => ?_) (afterFetch m)
      repeat refine keeps_bind (by simp) fun _ => ?_
      simp
    | address =>
      refine counts_bind counts_pcRead16 (fun b => ?_) (afterFetch m)
      repeat refine keeps_bind (by simp) fun _ => ?_
      simp

theorem fetches_of_counts {n : Nat} {c : M H α} (hc : Counts n c) : Fetches (.bytes n) c :=
  fun m _ => ⟨nofun, hc m⟩

theorem fetches_ea (mode : EaMode) : Fetches mode.operand (ea (H := H) mode) := by
  cases mode with
  | direct =>
    exact fetches_of_counts (counts_peek (fun _ => ⟨_, rfl⟩) fun _ =>
      counts_bind counts_pcRead8 fun _ => keeps_pure _)
  | indexed => exact fetches_eaIndexed
  | extended => exact fetches_of_counts counts_pcRead16

theorem fetches_source8 (src : Source) : Fetches (src.operand 1) (source8 (H := H) src) := by
  cases src with
  | immediate => exact fetches_of_counts counts_pcRead8
  | memory mode => exact fetches_bind (fetches_ea mode) fun _ => by simp

theorem fetches_source16 (src : Source) : Fetches (src.operand 2) (source16 (H := H) src) := by
  cases src with
  | immediate => exact fetches_of_counts counts_pcRead16
  | memory mode => exact fetches_bind (fetches_ea mode) fun _ => by simp

/-- Each instruction fetches its operand first and nothing after it. -/
theorem fetches_exec (world : World H) (op : BitVec 32) (i : Instr) :
    Fetches i.operand (exec world op i) := by
  cases i with
  | unaryMem | tstMem | jmp | clrMem | st8 | st16 | jsr =>
    refine fetches_bind (fetches_ea _) fun _ => ?_
    repeat refine keeps_bind (by simp) fun _ => ?_
    simp
  | binary8 f keep r src cyc =>
    refine fetches_bind (fetches_source8 _) fun _ => ?_
    refine keeps_bind (by simp) fun _ => keeps_bind (by simp) fun _ => keeps_ite ?_ ?_
    · exact keeps_bind (by simp) fun _ => by simp
    · simp
  | ld8 =>
    refine fetches_bind (fetches_source8 _) fun _ => ?_
    repeat refine keeps_bind (by simp) fun _ => ?_
    simp
  | subd | addd | cmp16 | ld16 =>
    refine fetches_bind (fetches_source16 _) fun _ => ?_
    repeat refine keeps_bind (by simp) fun _ => ?_
    simp
  | bra8 test =>
    refine fetches_of_counts (counts_peek (branchTest_run test) fun _ => counts_bind counts_pcRead8 fun _ => ?_)
    exact keeps_bind (by simp) fun _ => by simp
  | bra16 test =>
    refine fetches_of_counts (counts_peek (branchTest_run test) fun _ => counts_bind counts_pcRead16 fun _ => ?_)
    exact keeps_bind (by simp) fun _ => by simp
  | lbra | lbsr =>
    refine fetches_bind (fetches_of_counts counts_pcRead16) fun _ => ?_
    repeat refine keeps_bind (by simp) fun _ => ?_
    simp
  | lea r zero =>
    refine fetches_bind fetches_eaIndexed fun _ => keeps_bind (by simp) fun _ => keeps_ite ?_ ?_
    · exact keeps_bind (by simp) fun _ => keeps_bind (by simp) fun _ => by simp
    · simp
  | bsr | psh | pul | orcc | andcc | cwai =>
    refine fetches_bind (fetches_of_counts counts_pcRead8) fun _ => ?_
    repeat refine keeps_bind (by simp) fun _ => ?_
    simp
  | exg =>
    refine fetches_bind (fetches_bind (fetches_of_counts counts_pcRead8) fun _ => ?_) fun _ => by simp
    exact keeps_bind (by simp) fun _ => keeps_bind (by simp) fun _ => keeps_bind (by simp) fun _ => by simp
  | tfr =>
    refine fetches_bind (fetches_bind (fetches_of_counts counts_pcRead8) fun _ => ?_) fun _ => by simp
    exact keeps_bind (by simp) fun _ => by simp
  | rti =>
    refine fetches_none (keeps_bind (by simp) fun _ => keeps_ite ?_ ?_)
    · exact keeps_bind (by simp) fun _ => by simp
    · exact keeps_bind (by simp) fun _ => by simp
  | unaryReg | tstReg | clrReg | nop | mul | rts | abx | sex | swi | sync | daa | swiVector =>
    refine fetches_none ?_
    unfold exec
    repeat refine keeps_bind (by simp) fun _ => ?_
    simp

/-! ## The opcode -/

/-- The instruction at an address, and how many bytes its opcode takes. -/
def instrAt (ram : BitVec 16 → BitVec 8) (pc : BitVec 16) : Option (Nat × Instr) :=
  if ram pc = 0x10 then (decode page1 (ram (pc + 1))).map (2, ·)
  else if ram pc = 0x11 then (decode page2 (ram (pc + 1))).map (2, ·)
  else (decode page0 (ram pc)).map (1, ·)

theorem fetched_execFrom (world : World H) (page : List (BitVec 8 × Instr)) (name : String)
    (op : BitVec 8) (m : Machine H) (hm : ¬ Rejected ((execFrom world page name (op.setWidth 32)).run m)) :
    ∃ i, decode page op = some i ∧
      (i.operand = .indexed → ∃ mode, indexMode (opcodeAt m) = some mode) ∧
      (endState ((execFrom world page name (op.setWidth 32)).run m)).fetched =
        m.fetched + i.operand.size (postSize (opcodeAt m)) := by
  unfold execFrom at hm ⊢
  simp only [BitVec.setWidth_setWidth_of_le _ (show 8 ≤ 32 by decide), BitVec.setWidth_eq] at hm ⊢
  cases hi : decode page op with
  | none =>
    rw [hi] at hm
    exact absurd ⟨_, _, rfl⟩ hm
  | some i =>
    rw [hi] at hm
    exact ⟨i, rfl, fetches_exec world _ i m hm⟩

/-- Behind a prefix there is one more byte of opcode. -/
theorem fetched_prefixed (world : World H) (page : List (BitVec 8 × Instr)) (name : String)
    (m : Machine H) (hm : ¬ Rejected ((pcRead8 >>= execFrom world page name).run (afterFetch m))) :
    ∃ i, decode page (m.mem.ram (m.regPc + 1)) = some i ∧
      (i.operand = .indexed → ∃ mode, indexMode (m.mem.ram (m.regPc + 2)) = some mode) ∧
      (endState ((pcRead8 >>= execFrom world page name).run (afterFetch m))).fetched =
        m.fetched + (2 + i.operand.size (postSize (m.mem.ram (m.regPc + 2)))) := by
  rw [run_bind_ok (pcRead8_run (afterFetch m))] at hm ⊢
  obtain ⟨i, hi, hdef, hfetched⟩ := fetched_execFrom world page name _ _ hm
  have hpost : opcodeAt (afterFetch (afterFetch m)) = m.mem.ram (m.regPc + 2) := by
    change m.mem.ram (m.regPc + 1 + 1) = _
    rw [BitVec.add_assoc]
    rfl
  have hcount : (afterFetch (afterFetch m)).fetched = m.fetched + 2 := rfl
  rw [hpost] at hdef hfetched
  exact ⟨i, hi, hdef, by rw [hfetched, hcount, Nat.add_assoc]⟩

/-- What a whole instruction fetches. -/
theorem fetched_dispatch (world : World H) (m : Machine H) (hm : ¬ Rejected ((dispatch world).run m)) :
    ∃ n i, instrAt m.mem.ram m.regPc = some (n, i) ∧
      (i.operand = .indexed → ∃ mode, indexMode (m.mem.ram (m.regPc + BitVec.ofNat 16 n)) = some mode) ∧
      (endState ((dispatch world).run m)).fetched =
        m.fetched + (n + i.operand.size (postSize (m.mem.ram (m.regPc + BitVec.ofNat 16 n)))) := by
  rw [dispatch_run, dispatchOn_byte] at hm ⊢
  unfold instrAt
  change ∃ n i, (if opcodeAt m = 0x10 then _ else if opcodeAt m = 0x11 then _ else _) = some (n, i) ∧ _
  by_cases h10 : opcodeAt m = 0x10
  · simp only [if_pos h10] at hm ⊢
    obtain ⟨i, hi, hfetched⟩ := fetched_prefixed world page1 "1" m hm
    exact ⟨2, i, by rw [hi]; rfl, hfetched⟩
  · simp only [if_neg h10] at hm ⊢
    by_cases h11 : opcodeAt m = 0x11
    · simp only [if_pos h11] at hm ⊢
      obtain ⟨i, hi, hfetched⟩ := fetched_prefixed world page2 "2" m hm
      exact ⟨2, i, by rw [hi]; rfl, hfetched⟩
    · simp only [if_neg h11] at hm ⊢
      obtain ⟨i, hi, hdef, hfetched⟩ := fetched_execFrom world page0 "0" _ _ hm
      exact ⟨1, i, by rw [show m.mem.ram m.regPc = opcodeAt m from rfl, hi]; rfl, hdef,
        hfetched.trans (Nat.add_assoc _ 1 _)⟩

/-! ## What the disassembler counts -/

/-- The locations that the disassembler cannot read. -/
def Unreadable (a : BitVec 16) : Prop := 0xFE00 ≤ a ∧ a < 0xFF00

instance : DecidablePred Unreadable := fun _ => inferInstanceAs (Decidable (_ ∧ _))

/-- The bytes behind a post-byte, to the disassembler. -/
def indexSize (T : BitVec 8) : Nat :=
  if T = 0x9F then 2
  else if T &&& 0x80 ≠ 0 then
    match (T &&& 0x1F).toNat with
    | 0x08 | 0x0C | 0x18 | 0x1C => 1
    | 0x09 | 0x0D | 0x19 | 0x1D => 2
    | _ => 0
  else 0

/-- What a mode of the 6809 tables asks for. -/
def operandOf : AddrMode → Option Operand
  | .nom | .imp => some (.bytes 0)
  | .imb | .dir | .reb | .r1 | .r2 | .r3 => some (.bytes 1)
  | .imw | .ext | .rew => some (.bytes 2)
  | .ind => some .indexed
  | .bd | .bi | .be | .bt | .t1 | .t2 | .t3 | .t4 | .iml => none

theorem indexString_size (m : Mem) (pc : BitVec 32) :
    (indexString m6809 m pc).2 = pc + 1 + BitVec.ofNat 32 (indexSize (e6809Read8Debug m pc)) := by
  unfold indexString indexSize
  generalize e6809Read8Debug m pc = T
  by_cases hT : T = 0x9F
  · subst hT
    rfl
  · simp only [if_neg hT]
    split
    · generalize (T &&& 0x1F).toNat = n
      split
      case h_29 => simp_all [m6809]
      all_goals simp
    · simp

theorem operands_size {M : AddrMode} {o : Operand} (m : Mem) (PC : BitVec 32) (I : String)
    (hM : operandOf M = some o) :
    (operands m6809 m PC I M).2 = PC + BitVec.ofNat 32 (o.size (indexSize (e6809Read8Debug m PC))) := by
  cases M with
  | ind =>
    cases hM
    change (indexString m6809 m PC).2 = PC + BitVec.ofNat 32 (1 + _)
    rw [indexString_size, BitVec.ofNat_add, BitVec.add_assoc]
    rfl
  | _ => cases hM <;> simp [operands, Operand.size]

/-- Both decoders take the same operand for an opcode, except for 0x10 0x20. -/
theorem pages_agree :
    (page0.all fun e => operandOf (entry m6809Codes e.1).2 = some e.2.operand) ∧
      (page1.all fun e => e.1 = 0x20 || operandOf (entry m6809Codes10 e.1).2 = some e.2.operand) ∧
      (page2.all fun e => operandOf (entry m6809Codes11 e.1).2 = some e.2.operand) := by
  decide +kernel

theorem postBytes_agree : postBytes.all fun e => e.1.all fun T => indexSize T = e.2.size := by
  decide +kernel

/-- Both know the same bytes behind a post-byte. -/
theorem indexSize_eq {T : BitVec 8} {mode : IndexMode} (h : indexMode T = some mode) :
    indexSize T = postSize T := by
  have hsize : postSize T = mode.size := by simp [postSize, h]
  obtain ⟨e, he, rfl⟩ := Option.map_eq_some_iff.mp h
  have hagree := List.all_eq_true.mp postBytes_agree e (List.mem_of_find?_eq_some he)
  have hT : e.1.contains T :=
    List.find?_some (p := fun entry : List (BitVec 8) × IndexMode => entry.1.contains T) he
  rw [hsize]
  simpa using List.all_eq_true.mp hagree T (by simpa using hT)

/-- Reading outside of the special locations is reading the memory. -/
theorem debug_eq (m : Mem) (pc : BitVec 16) {k : Nat}
    (h : ¬ Unreadable (pc + BitVec.ofNat 16 k)) :
    e6809Read8Debug m (pc.setWidth 32 + BitVec.ofNat 32 k) = m.ram (pc + BitVec.ofNat 16 k) := by
  have haddr : (pc.setWidth 32 + BitVec.ofNat 32 k).setWidth 16 = pc + BitVec.ofNat 16 k := by
    bv_omega
  have hout : pc.setWidth 32 + BitVec.ofNat 32 k < (0xFE00 : BitVec 32) ∨
      pc.setWidth 32 + BitVec.ofNat 32 k ≥ (0xFF00 : BitVec 32) := by
    unfold Unreadable at h
    bv_omega
  rw [e6809Read8Debug, if_pos hout, haddr]

theorem pages_operand {m : BitVec 16 → BitVec 8} {pc : BitVec 16} {n : Nat} {i : Instr}
    (hi : instrAt m pc = some (n, i)) (hlbra : ¬ (m pc = 0x10 ∧ m (pc + 1) = 0x20)) :
    (n = 2 ∧ m pc = 0x10 ∧ operandOf (entry m6809Codes10 (m (pc + 1))).2 = some i.operand) ∨
      (n = 2 ∧ m pc = 0x11 ∧ operandOf (entry m6809Codes11 (m (pc + 1))).2 = some i.operand) ∨
      (n = 1 ∧ m pc ≠ 0x10 ∧ m pc ≠ 0x11 ∧ operandOf (entry m6809Codes (m pc)).2 = some i.operand) := by
  obtain ⟨h0, h1, h2⟩ := pages_agree
  rw [List.all_eq_true] at h0 h1 h2
  unfold instrAt at hi
  split at hi
  · next h10 =>
    obtain ⟨i', hi', heq⟩ := Option.map_eq_some_iff.mp hi
    cases heq
    have hagree := Bool.or_eq_true _ _ ▸ h1 _ (decode_mem hi')
    have hne : m (pc + 1) ≠ 0x20 := fun h => hlbra ⟨h10, h⟩
    refine .inl ⟨rfl, h10, ?_⟩
    simpa using hagree.resolve_left (by simpa using hne)
  · next h10 =>
    split at hi
    · next h11 =>
      obtain ⟨i', hi', heq⟩ := Option.map_eq_some_iff.mp hi
      cases heq
      exact .inr (.inl ⟨rfl, h11, by simpa using h2 _ (decode_mem hi')⟩)
    · next h11 =>
      obtain ⟨i', hi', heq⟩ := Option.map_eq_some_iff.mp hi
      cases heq
      exact .inr (.inr ⟨rfl, h10, h11, by simpa using h0 _ (decode_mem hi')⟩)

/-- The length of a known instruction, once its bytes can be read. -/
theorem dasm_length (m : Mem) (pc : BitVec 16) {n : Nat} {i : Instr}
    (hi : instrAt m.ram pc = some (n, i)) (hlbra : ¬ (m.ram pc = 0x10 ∧ m.ram (pc + 1) = 0x20))
    (hdef : i.operand = .indexed → ∃ mode, indexMode (m.ram (pc + BitVec.ofNat 16 n)) = some mode)
    (hread : ∀ k < n + i.operand.size (postSize (m.ram (pc + BitVec.ofNat 16 n))),
      ¬ Unreadable (pc + BitVec.ofNat 16 k)) :
    (d6809Disassemble m (pc.setWidth 32)).2 =
      BitVec.ofNat 32 (n + i.operand.size (postSize (m.ram (pc + BitVec.ofNat 16 n)))) := by
  have hn : n = 1 ∨ n = 2 := by
    rcases pages_operand hi hlbra with ⟨h, -⟩ | ⟨h, -⟩ | ⟨h, -⟩ <;> omega
  have h0 : e6809Read8Debug m (pc.setWidth 32) = m.ram pc := by
    simpa using debug_eq m pc (k := 0) (hread 0 (by omega))
  have h1 : n = 2 → e6809Read8Debug m (pc.setWidth 32 + 1) = m.ram (pc + 1) :=
    fun h => debug_eq m pc (k := 1) (hread 1 (by omega))
  have hsize : ∀ (M : AddrMode) (I : String), operandOf M = some i.operand →
      (operands m6809 m (pc.setWidth 32 + BitVec.ofNat 32 n) I M).2 - pc.setWidth 32 =
        BitVec.ofNat 32 (n + i.operand.size (postSize (m.ram (pc + BitVec.ofNat 16 n)))) := by
    intro M I hM
    have hpost : i.operand.size (indexSize (e6809Read8Debug m (pc.setWidth 32 + BitVec.ofNat 32 n))) =
        i.operand.size (postSize (m.ram (pc + BitVec.ofNat 16 n))) := by
      cases ho : i.operand with
      | bytes => rfl
      | indexed =>
        rw [ho] at hread
        obtain ⟨mode, hmode⟩ := hdef ho
        rw [debug_eq m pc (hread n (by simp only [Operand.size]; omega)), indexSize_eq hmode]
    rw [operands_size m _ I hM, hpost, BitVec.ofNat_add]
    bv_omega
  unfold d6809Disassemble dasm
  simp only [h0]
  rcases pages_operand hi hlbra with ⟨rfl, h10, hM⟩ | ⟨rfl, h11, hM⟩ | ⟨rfl, h10, h11, hM⟩
  · simp only [if_pos h10, h1 rfl]
    exact hsize _ _ hM
  · simp only [h11, h1 rfl]
    exact hsize _ _ hM
  · simp only [if_neg h10, if_neg h11]
    exact hsize _ _ hM

/-- The disassembler does not know 0x10 0x20. -/
theorem lbra_length (m : Mem) (pc : BitVec 16) (h10 : m.ram pc = 0x10) (h20 : m.ram (pc + 1) = 0x20)
    (hread : ∀ k < 2, ¬ Unreadable (pc + BitVec.ofNat 16 k)) :
    (d6809Disassemble m (pc.setWidth 32)).2 = 2 := by
  have h0 : e6809Read8Debug m (pc.setWidth 32) = 0x10 := by
    simpa [h10] using debug_eq m pc (k := 0) (hread 0 (by omega))
  have h1 : e6809Read8Debug m (pc.setWidth 32 + 1) = 0x20 :=
    (debug_eq m pc (k := 1) (hread 1 (by omega))).trans h20
  unfold d6809Disassemble dasm
  simp only [h0, h1]
  change pc.setWidth 32 + 2 - pc.setWidth 32 = 2
  bv_omega

/-! ## The step -/

/-- How many bytes a step reads through the program counter. -/
def fetchedBy (world : World H) (irqI irqF : Bool) (m : Machine H) : Nat :=
  (endState ((e6809Sstep world irqI irqF).run m)).fetched - m.fetched

/-- A step that is not held back by an interrupt is its instruction. -/
theorem sstep_run (world : World H) {irqI irqF : Bool} {m m1 : Machine H}
    (hpro : (prologue world irqI irqF).run m = .ok () m1) (hirq : m1.irqStatus = .normal) :
    (e6809Sstep world irqI irqF).run m =
      (dispatch world >>= fun _ => do return (← getPc).setWidth 32).run m1 := by
  have hsplit : e6809Sstep world irqI irqF = prologue world irqI irqF >>= fun _ => sstepRest world := rfl
  rw [hsplit, run_bind_ok hpro]
  simp only [sstepRest, EStateM.run, bind, EStateM.bind, getIrqStatus, hirq, ne_eq, not_true_eq_false,
    if_false]

theorem fetchedBy_eq (world : World H) {irqI irqF : Bool} {m m1 : Machine H}
    (hpro : (prologue world irqI irqF).run m = .ok () m1) (hirq : m1.irqStatus = .normal) :
    fetchedBy world irqI irqF m = (endState ((dispatch world).run m1)).fetched - m1.fetched := by
  have hkeep := keeps_prologue (f := Machine.fetched) untouched_fetched world irqI irqF m
  rw [hpro] at hkeep
  rw [fetchedBy, sstep_run world hpro hirq, endState_bind (f := Machine.fetched) (dispatch world)
    (fun _ => keeps_bind keeps_getPc fun _ => keeps_pure _) m1, ← hkeep]
  rfl

/-- The disassembler returns what the interpreter fetches, for every instruction that the
interpreter executes and that the disassembler can read, except for 0x10 0x20. -/
theorem disassemble_length_iff (world : World H) (irqI irqF : Bool) (m m1 : Machine H)
    (hpro : (prologue world irqI irqF).run m = .ok () m1) (hirq : m1.irqStatus = .normal)
    (hexec : ¬ Rejected ((e6809Sstep world irqI irqF).run m))
    (hread : ∀ k < fetchedBy world irqI irqF m, ¬ Unreadable (m1.regPc + BitVec.ofNat 16 k)) :
    (d6809Disassemble m1.mem (m1.regPc.setWidth 32)).2.toNat = fetchedBy world irqI irqF m ↔
      ¬ (m1.mem.ram m1.regPc = 0x10 ∧ m1.mem.ram (m1.regPc + 1) = 0x20) := by
  rw [sstep_run world hpro hirq] at hexec
  obtain ⟨n, i, hi, hdef, hfetched⟩ := fetched_dispatch world m1 fun h => hexec (h.bind _)
  have hby : fetchedBy world irqI irqF m =
      n + i.operand.size (postSize (m1.mem.ram (m1.regPc + BitVec.ofNat 16 n))) := by
    rw [fetchedBy_eq world hpro hirq, hfetched, Nat.add_sub_cancel_left]
  rw [hby] at hread ⊢
  constructor
  · rintro hlen ⟨h10, h20⟩
    rw [instrAt, if_pos h10, h20] at hi
    cases hi
    rw [lbra_length m1.mem m1.regPc h10 h20 fun k hk => hread k (by simp only [Instr.operand, Operand.size]; omega)]
      at hlen
    exact absurd (show 2 = 2 + 2 from hlen) (by decide)
  · intro hlbra
    have hpost := postSize_le (m1.mem.ram (m1.regPc + BitVec.ofNat 16 n))
    have hsize := operand_size_le i (postSize (m1.mem.ram (m1.regPc + BitVec.ofNat 16 n)))
    have hn : n ≤ 2 := by
      rcases pages_operand hi hlbra with ⟨h, -⟩ | ⟨h, -⟩ | ⟨h, -⟩ <;> omega
    rw [dasm_length m1.mem m1.regPc hi hlbra hdef hread, BitVec.toNat_ofNat, Nat.mod_eq_of_lt (by omega)]

/-! ## The defect at work -/

/-- A machine that is about to execute 0x10 0x20 0x00 0x00. -/
def lbraMachine : Machine Unit :=
  clearMachine fun a => if a = 0 then 0x10 else if a = 1 then 0x20 else 0

/-- The interpreter takes 0x10 0x20 for a long branch of four bytes. To the disassembler it is
an invalid instruction of two. -/
theorem lbra_behind_prefix :
    (prologue quietWorld false false).run lbraMachine = .ok () lbraMachine ∧
      lbraMachine.irqStatus = .normal ∧
      ¬ Rejected ((e6809Sstep quietWorld false false).run lbraMachine) ∧
      (∀ k < fetchedBy quietWorld false false lbraMachine,
        ¬ Unreadable (lbraMachine.regPc + BitVec.ofNat 16 k)) ∧
      fetchedBy quietWorld false false lbraMachine = 4 ∧
      (d6809Disassemble lbraMachine.mem (lbraMachine.regPc.setWidth 32)).2.toNat = 2 := by
  refine ⟨rfl, rfl, ?_, ?_, rfl, rfl⟩
  · rintro ⟨msg, m', h⟩
    cases h
  · change ∀ k < 4, _
    decide

/-- LDA A,Y: two bytes for both. -/
theorem disassemble_length_iff_lda :
    (d6809Disassemble (clearMachine fun _ => 0xA6).mem 0).2.toNat =
        fetchedBy quietWorld false false (clearMachine fun _ => 0xA6) ↔
      ¬ ((clearMachine fun _ => 0xA6).mem.ram 0 = 0x10 ∧ (clearMachine fun _ => 0xA6).mem.ram (0 + 1) = 0x20) :=
  disassemble_length_iff quietWorld false false _ _ rfl rfl
    (by rintro ⟨msg, m', h⟩; cases h)
    (by change ∀ k < 2, _; decide)

end Fuzemsys.Emulators.Cpu6809
