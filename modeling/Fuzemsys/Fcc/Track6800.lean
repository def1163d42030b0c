import Fuzemsys.Lib.Run
import Fuzemsys.Fcc.Token

/-!
# Register tracking

The helpers of the 6800 family code generator that emit register operations, and the
byte values they remember so that a later constant load can be left out. What is
remembered is right after every call, except that `add_d_const` misses the carry and
`swap_d_y` forgets nothing.
-/

open Fuzemsys.Lib

namespace Fuzemsys.Fcc.Code6800

/-! ## What is remembered -/

/-- What D is a copy of, as far as `invalidate_mem` asks. -/
inductive DNode where
  | lref
  | lbref
  | nref
  | other
  deriving DecidableEq, Repr

structure Track where
  xFprel : Bool
  aVal : Byte
  bVal : Byte
  aValid : Bool
  bValid : Bool
  dValid : Bool
  dNode : DNode
  deriving DecidableEq, Repr

namespace Track

def invalidateAll (t : Track) : Track := { t with xFprel := false, aValid := false, bValid := false, dValid := false }

def invalidateX (t : Track) : Track := { t with xFprel := false }

def invalidateA (t : Track) : Track := { t with aValid := false }

def invalidateB (t : Track) : Track := { t with bValid := false }

def invalidateD (t : Track) : Track := { t with dValid := false }

def invalidateWork (t : Track) : Track := { t with aValid := false, bValid := false, dValid := false }

/-- If memory changes it might be an alias to the value cached in AB. -/
def invalidateMem (t : Track) : Track :=
  match t.dNode with
  | .lref | .lbref | .nref => { t with dValid := false }
  | .other => t

end Track

/-! ## What is emitted -/

/-- A shift that is printed without a register. -/
inductive Bare where
  | lsl
  | asr
  | lsr
  deriving DecidableEq, Repr

inductive Inst where
  | clra
  | clrb
  | ldd (n : BitVec 16)
  | lda (n : Byte)
  | ldb (n : Byte)
  | tfrBA
  | tfrAB
  | tba
  | tab
  | addd (n : BitVec 16)
  | adda (n : Byte)
  | addb (n : Byte)
  | adca (n : Byte)
  | exgDY
  | exgDX
  | xgdy
  | xgdx
  | lslb
  | rola
  | asra
  | asrb
  | lsra
  | lsrb
  | rorb
  | bare (op : Bare)
  deriving DecidableEq, Repr

/-- The flags of the target that the helpers ask for. -/
structure Target where
  cpuHasD : Bool
  cpuIs09 : Bool
  deriving DecidableEq, Repr

def Target.m6809 : Target := ⟨true, true⟩

/-- A helper prints instructions and changes what is remembered. -/
abbrev Helper := Track → List Inst × Track

def Helper.andThen (f g : Helper) : Helper := fun t =>
  let (code, t) := f t
  let (code', t) := g t
  (code ++ code', t)

def emit (code : List Inst) : Helper := fun t => (code, t)

def update (f : Track → Track) : Helper := fun t => ([], f t)

def hiByte (n : BitVec 16) : Byte := (n >>> 8).setWidth 8

def loByte (n : BitVec 16) : Byte := n.setWidth 8

/-- 16bit constant load -/
def loadDConst (cpu : Target) (n : BitVec 16) : Helper := fun t =>
  let lo := loByte n
  let hi := hiByte n
  let known := { t with aValid := true, bValid := true, dValid := false, aVal := hi, bVal := lo }
  if cpu.cpuHasD then
    if n = 0 then
      ((if ¬ t.aValid ∨ t.aVal ≠ 0 then [.clra] else []) ++ (if ¬ t.bValid ∨ t.bVal ≠ 0 then [.clrb] else []), known)
    else if ¬ t.aValid ∨ ¬ t.bValid ∨ t.aVal ≠ hi ∨ t.bVal ≠ lo then ([.ldd n], known)
    else ([], known)
  else
    let code :=
      if ¬ t.aValid ∨ hi ≠ t.aVal then
        if hi = 0 then [.clra]
        else if hi = t.bVal then [if cpu.cpuIs09 then .tfrBA else .tba, .lda hi]
        else []
      else []
    if ¬ t.bValid ∨ lo ≠ t.bVal then
      (code ++ if lo = 0 then [.clrb] else if lo = hi then [if cpu.cpuIs09 then .tfrAB else .tab] else [], t)
    else (code ++ [.ldb lo], known)

def loadAConst (cpu : Target) (n : Byte) : Helper := fun t =>
  if t.aValid ∧ n = t.aVal then ([], t)
  else
    (if n = 0 then [.clra]
      else if t.bValid ∧ n = t.bVal then [if cpu.cpuIs09 then .tfrBA else .tba]
      else [.lda n],
      { t with aValid := true, aVal := n, dValid := false })

def loadBConst (cpu : Target) (n : Byte) : Helper := fun t =>
  if t.bValid ∧ n = t.bVal then ([], t)
  else
    (if n = 0 then [.clrb]
      else if t.aValid ∧ n = t.aVal then [if cpu.cpuIs09 then .tfrAB else .tab]
      else [.ldb n],
      { t with bValid := true, bVal := n, dValid := false })

def addDConst (cpu : Target) (n : BitVec 16) : Helper := fun t =>
  if n = 0 then ([], t)
  else
    (if cpu.cpuHasD then [.addd n]
      else if loByte n ≠ 0 then [.addb (loByte n), .adca (hiByte n)]
      else [.adda (hiByte n)],
      { t with
        dValid := false
        -- the sum is an int, so it is never below b_val
        aVal := if t.bVal.toNat + (loByte n).toNat < t.bVal.toNat then t.aVal + (hiByte n + 1) else t.aVal + hiByte n
        bVal := t.bVal + loByte n })

def addBConst (n : Byte) : Helper := fun t =>
  if n = 0 then ([], t) else ([.addb n], { t with bVal := t.bVal + n, dValid := false })

def loadAB (cpu : Target) : Helper := fun t =>
  ([if cpu.cpuIs09 then .tfrBA else .tba], { t with aVal := t.bVal, aValid := t.bValid, dValid := false })

def loadBA (cpu : Target) : Helper := fun t =>
  ([if cpu.cpuIs09 then .tfrAB else .tab], { t with bVal := t.aVal, bValid := t.aValid, dValid := false })

def swapDY (cpu : Target) : Helper := emit [if cpu.cpuIs09 then .exgDY else .xgdy]

def swapDX (cpu : Target) : Helper :=
  (emit [if cpu.cpuIs09 then .exgDX else .xgdx]).andThen (update fun t => t.invalidateWork.invalidateX)

/-! ## Shifts by a constant -/

/-- What `left_shift` and `right_shift` read of a node: `right` is the value of a constant. -/
structure ShiftNode where
  size : Nat
  unsigned : Bool
  right : Option Nat

def repeatedOp (n : Nat) (op : Inst) : Helper := emit (List.replicate n op)

def pairs (n : Nat) (op1 op2 : Inst) : Helper := emit (List.replicate n [op1, op2]).flatten

/-- No helper if the shift is left to the caller. -/
def leftShift (cpu : Target) (n : ShiftNode) : Option Helper :=
  match n.right with
  | none => none
  | some v =>
    if n.size > 2 then none
    else if n.size = 1 then
      if v ≥ 8 then some (loadBConst cpu 0)
      else some ((update Track.invalidateWork).andThen (repeatedOp v .lslb))
    else if n.size = 2 then
      if v ≥ 16 then some (loadDConst cpu 0)
      else if v ≥ 8 then
        let moved := (loadAB cpu).andThen (loadBConst cpu 0)
        if v - 8 ≠ 0 then
          some (moved.andThen ((update Track.invalidateWork).andThen (repeatedOp (v - 8) (.bare .lsl))))
        else some moved
      else some ((pairs v .lslb .rola).andThen (update Track.invalidateWork))
    else none

def rightShift (cpu : Target) (n : ShiftNode) : Option Helper :=
  match n.right with
  | none => none
  | some v =>
    if n.size > 2 then none
    else if n.size = 1 then
      if v ≥ 8 then some (loadBConst cpu 0)
      else some ((update Track.invalidateWork).andThen (repeatedOp v (.bare (if n.unsigned then .lsr else .asr))))
    else if n.size = 2 then
      if v ≥ 16 then some (loadDConst cpu 0)
      else if v ≥ 8 ∧ n.unsigned then
        let moved := (loadBA cpu).andThen (loadAConst cpu 0)
        if v - 8 ≠ 0 then
          some (moved.andThen ((repeatedOp (v - 8) .lsrb).andThen (update Track.invalidateWork)))
        else some moved
      else
        some ((pairs v (if n.unsigned then .lsra else .asra) .rorb).andThen (update Track.invalidateWork))
    else none

/-! ## What the instructions do -/

structure Regs where
  a : Byte
  b : Byte
  x : BitVec 16
  y : BitVec 16
  carry : Bool
  deriving DecidableEq, Repr

def Regs.d (r : Regs) : BitVec 16 := r.a ++ r.b

def Regs.setD (r : Regs) (d : BitVec 16) : Regs := { r with a := hiByte d, b := loByte d }

def carryBit (c : Bool) : Byte := if c then 1 else 0

/-- `B` is what the assembler makes of a shift without a register. -/
def execInst (B : Bare → Regs → Regs) (r : Regs) : Inst → Regs
  | .clra => { r with a := 0, carry := false }
  | .clrb => { r with b := 0, carry := false }
  | .ldd n => r.setD n
  | .lda n => { r with a := n }
  | .ldb n => { r with b := n }
  | .tfrBA => { r with a := r.b }
  | .tfrAB => { r with b := r.a }
  | .tba => { r with a := r.b }
  | .tab => { r with b := r.a }
  | .addd n => { r.setD (r.d + n) with carry := decide (2 ^ 16 ≤ r.d.toNat + n.toNat) }
  | .adda n => { r with a := r.a + n, carry := decide (2 ^ 8 ≤ r.a.toNat + n.toNat) }
  | .addb n => { r with b := r.b + n, carry := decide (2 ^ 8 ≤ r.b.toNat + n.toNat) }
  | .adca n =>
    { r with a := r.a + n + carryBit r.carry
             carry := decide (2 ^ 8 ≤ r.a.toNat + n.toNat + (carryBit r.carry).toNat) }
  | .exgDY => { r.setD r.y with y := r.d }
  | .exgDX => { r.setD r.x with x := r.d }
  | .xgdy => { r.setD r.y with y := r.d }
  | .xgdx => { r.setD r.x with x := r.d }
  | .lslb => { r with b := r.b <<< 1, carry := r.b.msb }
  | .rola => { r with a := r.a <<< 1 ||| carryBit r.carry, carry := r.a.msb }
  | .asra => { r with a := r.a.sshiftRight 1, carry := r.a.getLsbD 0 }
  | .asrb => { r with b := r.b.sshiftRight 1, carry := r.b.getLsbD 0 }
  | .lsra => { r with a := r.a >>> 1, carry := r.a.getLsbD 0 }
  | .lsrb => { r with b := r.b >>> 1, carry := r.b.getLsbD 0 }
  | .rorb => { r with b := carryBit r.carry <<< 7 ||| r.b >>> 1, carry := r.b.getLsbD 0 }
  | .bare op => B op r

def exec (B : Bare → Regs → Regs) (code : List Inst) (r : Regs) : Regs := code.foldl (execInst B) r

/-! ## What is remembered is right -/

structure Track.Sound (t : Track) (r : Regs) : Prop where
  a : t.aValid = true → r.a = t.aVal
  b : t.bValid = true → r.b = t.bVal

/-- A helper that keeps what is remembered right. -/
def Helper.Keeps (B : Bare → Regs → Regs) (f : Helper) : Prop :=
  ∀ t r, t.Sound r → (f t).2.Sound (exec B (f t).1 r)

variable {B : Bare → Regs → Regs}

/-- A byte that is not remembered needs no value. -/
theorem forgotten {x y : Byte} (hvalid : false = true) : x = y := absurd hvalid Bool.false_ne_true

theorem exec_append (code code' : List Inst) (r : Regs) :
    exec B (code ++ code') r = exec B code' (exec B code r) :=
  List.foldl_append

theorem Helper.Keeps.andThen {f g : Helper} (hf : f.Keeps B) (hg : g.Keeps B) : (f.andThen g).Keeps B := by
  intro t r hs
  simp only [Helper.andThen, exec_append]
  exact hg _ _ (hf t r hs)

/-- Whatever was emitted, nothing is remembered. -/
theorem keeps_forget (f : Helper) {g : Track → Track} (hg : ∀ t, (g t).aValid = false ∧ (g t).bValid = false) :
    (f.andThen (update g)).Keeps B := by
  intro t r hs
  obtain ⟨ha, hb⟩ := hg (f t).2
  constructor
  · intro hvalid
    exact absurd hvalid (by simp [Helper.andThen, update, ha])
  · intro hvalid
    exact absurd hvalid (by simp [Helper.andThen, update, hb])

theorem keeps_forgotten {g : Track → Track} (hg : ∀ t, (g t).aValid = false ∧ (g t).bValid = false) (code : List Inst) :
    ((update g).andThen (emit code)).Keeps B := by
  intro t r hs
  obtain ⟨ha, hb⟩ := hg t
  constructor
  · intro hvalid
    exact absurd hvalid (by simp [Helper.andThen, update, emit, ha])
  · intro hvalid
    exact absurd hvalid (by simp [Helper.andThen, update, emit, hb])

@[simp]
theorem exec_nil (r : Regs) : exec B [] r = r := rfl

@[simp]
theorem exec_cons (i : Inst) (code : List Inst) (r : Regs) : exec B (i :: code) r = exec B code (execInst B r i) :=
  rfl

theorem hi_append_lo (n : BitVec 16) : hiByte n ++ loByte n = n := by
  apply BitVec.eq_of_getLsbD_eq
  intro i hi
  rw [BitVec.getLsbD_append]
  simp [hiByte, loByte]
  grind

/-! ## The helpers on the 6809 -/

theorem clear_a {t : Track} {r : Regs} (ha : t.aValid = true → r.a = t.aVal) :
    (exec B (if ¬ t.aValid ∨ t.aVal ≠ 0 then [.clra] else []) r).a = 0 ∧
      (exec B (if ¬ t.aValid ∨ t.aVal ≠ 0 then [.clra] else []) r).b = r.b := by
  split
  · exact ⟨rfl, rfl⟩
  · next hzero =>
    simp only [not_or, not_not] at hzero
    exact ⟨(ha hzero.1).trans hzero.2, rfl⟩

theorem clear_b {t : Track} {r : Regs} (hb : t.bValid = true → r.b = t.bVal) :
    (exec B (if ¬ t.bValid ∨ t.bVal ≠ 0 then [.clrb] else []) r).b = 0 ∧
      (exec B (if ¬ t.bValid ∨ t.bVal ≠ 0 then [.clrb] else []) r).a = r.a := by
  split
  · exact ⟨rfl, rfl⟩
  · next hzero =>
    simp only [not_or, not_not] at hzero
    exact ⟨(hb hzero.1).trans hzero.2, rfl⟩

theorem loadDConst_bytes (n : BitVec 16) {t : Track} {r : Regs} (hs : t.Sound r) :
    (exec B (loadDConst .m6809 n t).1 r).a = hiByte n ∧ (exec B (loadDConst .m6809 n t).1 r).b = loByte n := by
  unfold loadDConst
  simp only [Target.m6809, if_true]
  by_cases hn : n = 0
  · subst hn
    obtain ⟨ha, hkept⟩ := clear_a (B := B) hs.a
    obtain ⟨hb, hakept⟩ := clear_b (B := B) (t := t) (r := exec B _ r) (hkept ▸ hs.b)
    rw [if_pos rfl, exec_append]
    exact ⟨hakept.trans ha, hb⟩
  · rw [if_neg hn]
    split
    · exact ⟨rfl, rfl⟩
    · next hknown =>
      simp only [not_or, not_not] at hknown
      obtain ⟨havalid, hbvalid, ha, hb⟩ := hknown
      exact ⟨(hs.a havalid).trans ha, (hs.b hbvalid).trans hb⟩

/-- D is the constant, also where nothing was emitted. -/
theorem loadDConst_d (n : BitVec 16) {t : Track} {r : Regs} (hs : t.Sound r) :
    (exec B (loadDConst .m6809 n t).1 r).d = n := by
  obtain ⟨ha, hb⟩ := loadDConst_bytes (B := B) n hs
  rw [Regs.d, ha, hb, hi_append_lo]

theorem loadDConst_track (n : BitVec 16) (t : Track) : (loadDConst .m6809 n t).2.aVal = hiByte n ∧
    (loadDConst .m6809 n t).2.bVal = loByte n := by
  unfold loadDConst
  simp only [Target.m6809, if_true]
  split
  · exact ⟨rfl, rfl⟩
  · split <;> exact ⟨rfl, rfl⟩

theorem keeps_loadDConst (n : BitVec 16) : (loadDConst .m6809 n).Keeps B := by
  intro t r hs
  obtain ⟨ha, hb⟩ := loadDConst_bytes (B := B) n hs
  obtain ⟨hta, htb⟩ := loadDConst_track n t
  exact ⟨fun _ => ha.trans hta.symm, fun _ => hb.trans htb.symm⟩

theorem keeps_loadAConst (n : Byte) : (loadAConst .m6809 n).Keeps B := by
  intro t r hs
  unfold loadAConst
  split
  · exact hs
  · refine ⟨fun _ => ?_, fun hb => ?_⟩
    · dsimp only
      split
      · next hn => exact hn.symm
      · split
        · next hn => exact (hs.b hn.1).trans hn.2.symm
        · rfl
    · dsimp only
      split
      · exact hs.b hb
      · split <;> exact hs.b hb

theorem keeps_loadBConst (n : Byte) : (loadBConst .m6809 n).Keeps B := by
  intro t r hs
  unfold loadBConst
  split
  · exact hs
  · refine ⟨fun ha => ?_, fun _ => ?_⟩
    · dsimp only
      split
      · exact hs.a ha
      · split <;> exact hs.a ha
    · dsimp only
      split
      · next hn => exact hn.symm
      · split
        · next hn => exact (hs.a hn.1).trans hn.2.symm
        · rfl

theorem keeps_addBConst (n : Byte) : (addBConst n).Keeps B := by
  intro t r hs
  unfold addBConst
  split
  · exact hs
  · refine ⟨hs.a, fun hb => ?_⟩
    exact congrArg (· + n) (hs.b hb)

theorem keeps_loadAB : (loadAB .m6809).Keeps B := fun _ _ hs => ⟨hs.b, hs.b⟩

theorem keeps_loadBA : (loadBA .m6809).Keeps B := fun _ _ hs => ⟨hs.a, hs.a⟩

theorem invalidateWork_forgets (t : Track) : t.invalidateWork.aValid = false ∧ t.invalidateWork.bValid = false := ⟨rfl, rfl⟩

theorem keeps_leftShift {n : ShiftNode} {f : Helper} (hf : leftShift .m6809 n = some f) : f.Keeps B := by
  have hmoved := keeps_loadAB.andThen (keeps_loadBConst (B := B) 0)
  unfold leftShift at hf
  split at hf
  · cases hf
  · next v =>
    split at hf
    · cases hf
    · split at hf
      · split at hf
        · cases hf
          exact keeps_loadBConst 0
        · cases hf
          exact keeps_forgotten invalidateWork_forgets _
      · split at hf
        · split at hf
          · cases hf
            exact keeps_loadDConst 0
          · split at hf
            · dsimp only at hf
              split at hf
              · cases hf
                exact hmoved.andThen (keeps_forgotten invalidateWork_forgets _)
              · cases hf
                exact hmoved
            · cases hf
              exact keeps_forget _ invalidateWork_forgets
        · cases hf

theorem keeps_rightShift {n : ShiftNode} {f : Helper} (hf : rightShift .m6809 n = some f) : f.Keeps B := by
  have hmoved := keeps_loadBA.andThen (keeps_loadAConst (B := B) 0)
  unfold rightShift at hf
  split at hf
  · cases hf
  · next v =>
    split at hf
    · cases hf
    · split at hf
      · split at hf
        · cases hf
          exact keeps_loadBConst 0
        · cases hf
          exact keeps_forgotten invalidateWork_forgets _
      · split at hf
        · split at hf
          · cases hf
            exact keeps_loadDConst 0
          · split at hf
            · dsimp only at hf
              split at hf
              · cases hf
                exact hmoved.andThen (keeps_forget _ invalidateWork_forgets)
              · cases hf
                exact hmoved
            · cases hf
              exact keeps_forget _ invalidateWork_forgets
        · cases hf

/-! ## A constant added to D -/

theorem hiByte_toNat (n : BitVec 16) : (hiByte n).toNat = n.toNat / 256 := by
  have hn := n.isLt
  rw [hiByte, BitVec.toNat_setWidth, BitVec.toNat_ushiftRight, Nat.shiftRight_eq_div_pow]
  omega

theorem loByte_toNat (n : BitVec 16) : (loByte n).toNat = n.toNat % 256 := BitVec.toNat_setWidth _ _

theorem d_toNat (r : Regs) : r.d.toNat = r.a.toNat * 256 + r.b.toNat := by
  have hb := r.b.isLt
  rw [Regs.d, BitVec.toNat_append, Nat.shiftLeft_eq, Nat.mul_comm, ← Nat.two_pow_add_eq_or_of_lt hb, Nat.mul_comm]

/-- The low byte of a sum, and the high byte with its carry. -/
theorem d_add (r : Regs) (n : BitVec 16) : loByte (r.d + n) = r.b + loByte n ∧
    hiByte (r.d + n) = r.a + hiByte n + carryBit (decide (256 ≤ r.b.toNat + (loByte n).toNat)) := by
  have ha := r.a.isLt
  have hb := r.b.isLt
  have hd := d_toNat r
  constructor
  · apply BitVec.eq_of_toNat_eq
    rw [loByte_toNat, BitVec.toNat_add, BitVec.toNat_add, loByte_toNat, hd]
    omega
  · apply BitVec.eq_of_toNat_eq
    rw [hiByte_toNat, BitVec.toNat_add, BitVec.toNat_add, BitVec.toNat_add, hiByte_toNat, loByte_toNat, hd]
    by_cases hcarry : 256 ≤ r.b.toNat + n.toNat % 256
    · rw [decide_eq_true hcarry]
      change _ = ((r.a.toNat + n.toNat / 256) % 256 + 1) % 256
      omega
    · rw [decide_eq_false hcarry]
      change _ = ((r.a.toNat + n.toNat / 256) % 256 + 0) % 256
      omega

theorem addDConst_eq {n : BitVec 16} (hn : n ≠ 0) (t : Track) : addDConst .m6809 n t =
    ([.addd n], { t with dValid := false, aVal := t.aVal + hiByte n, bVal := t.bVal + loByte n }) := by
  unfold addDConst
  rw [if_neg hn, if_neg (show ¬ t.bVal.toNat + (loByte n).toNat < t.bVal.toNat by omega)]
  rfl

/-- There is no carry into a byte that is remembered. -/
def AddFits (n : BitVec 16) (t : Track) : Prop :=
  t.aValid = false ∨ loByte n = 0 ∨ (t.bValid = true ∧ t.bVal.toNat + (loByte n).toNat < 256)

theorem no_carry {n : BitVec 16} {t : Track} {r : Regs} (hs : t.Sound r) (ha : t.aValid = true) (hfits : AddFits n t) :
    ¬ 256 ≤ r.b.toNat + (loByte n).toNat := by
  have hb := r.b.isLt
  rcases hfits with hnone | hzero | ⟨hvalid, hlow⟩
  · rw [ha] at hnone
    cases hnone
  · rw [hzero]
    change ¬ 256 ≤ r.b.toNat + 0
    omega
  · rw [hs.b hvalid]
    omega

theorem carry_reached {n : BitVec 16} {t : Track} (hfits : ¬ AddFits n t) : t.aValid = true ∧
    ∃ b : Byte, (t.bValid = true → b = t.bVal) ∧ 256 ≤ b.toNat + (loByte n).toNat := by
  unfold AddFits at hfits
  simp only [not_or, not_and, Bool.not_eq_false, not_lt] at hfits
  obtain ⟨ha, hlow, hcarry⟩ := hfits
  refine ⟨ha, ?_⟩
  by_cases hvalid : t.bValid = true
  · exact ⟨t.bVal, fun _ => rfl, hcarry hvalid⟩
  · refine ⟨0xFF, fun hb => absurd hb hvalid, ?_⟩
    have hpos : (loByte n).toNat ≠ 0 := fun hzero => hlow (BitVec.eq_of_toNat_eq hzero)
    change 256 ≤ 255 + _
    omega

theorem addDConst_iff (n : BitVec 16) (t : Track) :
    (∀ r, t.Sound r → (addDConst .m6809 n t).2.Sound (exec B (addDConst .m6809 n t).1 r)) ↔ AddFits n t := by
  by_cases hn : n = 0
  · subst hn
    exact ⟨fun _ => .inr (.inl rfl), fun _ r hs => hs⟩
  · rw [addDConst_eq hn]
    constructor
    · intro hkeeps
      by_contra hfits
      obtain ⟨ha, b, hb, hcarry⟩ := carry_reached hfits
      have hsound := (hkeeps ⟨t.aVal, b, 0, 0, false⟩ ⟨fun _ => rfl, hb⟩).a ha
      have hadd := (d_add ⟨t.aVal, b, 0, 0, false⟩ n).2
      rw [decide_eq_true hcarry] at hadd
      have hone : t.aVal + hiByte n + 1 = t.aVal + hiByte n := hadd.symm.trans hsound
      exact absurd (add_eq_left.mp hone) (by decide)
    · intro hfits r hs
      obtain ⟨hlo, hhi⟩ := d_add r n
      constructor
      · intro ha
        rw [decide_eq_false (no_carry hs ha hfits)] at hhi
        rw [← hs.a ha]
        exact hhi.trans (BitVec.add_zero _)
      · intro hb
        rw [← hs.b hb]
        exact hlo

/-! ## Calls -/

inductive Call where
  | loadDConst (n : BitVec 16)
  | loadAConst (n : Byte)
  | loadBConst (n : Byte)
  | addDConst (n : BitVec 16)
  | addBConst (n : Byte)
  | loadAB
  | loadBA
  | leftShift (n : ShiftNode)
  | rightShift (n : ShiftNode)
  | swapDY
  | swapDX
  | invalidateAll
  | invalidateX
  | invalidateA
  | invalidateB
  | invalidateD
  | invalidateWork
  | invalidateMem

def Call.helper (cpu : Target) : Call → Helper
  | loadDConst n => Code6800.loadDConst cpu n
  | loadAConst n => Code6800.loadAConst cpu n
  | loadBConst n => Code6800.loadBConst cpu n
  | addDConst n => Code6800.addDConst cpu n
  | addBConst n => Code6800.addBConst n
  | loadAB => Code6800.loadAB cpu
  | loadBA => Code6800.loadBA cpu
  | leftShift n => (Code6800.leftShift cpu n).getD (emit [])
  | rightShift n => (Code6800.rightShift cpu n).getD (emit [])
  | swapDY => Code6800.swapDY cpu
  | swapDX => Code6800.swapDX cpu
  | invalidateAll => update Track.invalidateAll
  | invalidateX => update Track.invalidateX
  | invalidateA => update Track.invalidateA
  | invalidateB => update Track.invalidateB
  | invalidateD => update Track.invalidateD
  | invalidateWork => update Track.invalidateWork
  | invalidateMem => update Track.invalidateMem

/-- No carry gets lost, and nothing is remembered of a D that goes to Y. -/
def Call.Fits (t : Track) : Call → Prop
  | addDConst n => AddFits n t
  | swapDY => t.aValid = false ∧ t.bValid = false
  | _ => True

theorem swapDY_iff (t : Track) :
    (∀ r, t.Sound r → (swapDY .m6809 t).2.Sound (exec B (swapDY .m6809 t).1 r)) ↔
      t.aValid = false ∧ t.bValid = false := by
  constructor
  · intro hkeeps
    have hswap (y : BitVec 16) := hkeeps ⟨t.aVal, t.bVal, 0, y, false⟩ ⟨fun _ => rfl, fun _ => rfl⟩
    constructor
    · by_contra ha
      rw [Bool.not_eq_false] at ha
      have h0 : hiByte 0 = t.aVal := (hswap 0).a ha
      have h1 : hiByte 0x101 = t.aVal := (hswap 0x101).a ha
      exact absurd (h0.trans h1.symm) (by decide)
    · by_contra hb
      rw [Bool.not_eq_false] at hb
      have h0 : loByte 0 = t.bVal := (hswap 0).b hb
      have h1 : loByte 0x101 = t.bVal := (hswap 0x101).b hb
      exact absurd (h0.trans h1.symm) (by decide)
  · rintro ⟨ha, hb⟩ r hs
    exact ⟨fun hvalid => forgotten (ha.symm.trans hvalid), fun hvalid => forgotten (hb.symm.trans hvalid)⟩

theorem keeps_emit_nil : (emit []).Keeps B := fun _ _ hs => hs

/-- One call keeps what is remembered right, whatever the registers hold, exactly if it fits. -/
theorem call_iff (c : Call) (t : Track) :
    (∀ r, t.Sound r → (c.helper .m6809 t).2.Sound (exec B (c.helper .m6809 t).1 r)) ↔ c.Fits t := by
  have hkeeps {f : Helper} (hf : f.Keeps B) (P : Prop) (hP : P) :
      (∀ r, t.Sound r → (f t).2.Sound (exec B (f t).1 r)) ↔ P := ⟨fun _ => hP, fun _ => hf t⟩
  cases c with
  | addDConst n => exact addDConst_iff n t
  | swapDY => exact swapDY_iff t
  | loadDConst n => exact hkeeps (keeps_loadDConst n) _ trivial
  | loadAConst n => exact hkeeps (keeps_loadAConst n) _ trivial
  | loadBConst n => exact hkeeps (keeps_loadBConst n) _ trivial
  | addBConst n => exact hkeeps (keeps_addBConst n) _ trivial
  | loadAB => exact hkeeps keeps_loadAB _ trivial
  | loadBA => exact hkeeps keeps_loadBA _ trivial
  | leftShift n =>
    refine hkeeps ?_ _ trivial
    cases hf : Code6800.leftShift .m6809 n with
    | none => simpa [Call.helper, hf] using keeps_emit_nil
    | some f => simpa [Call.helper, hf] using keeps_leftShift hf
  | rightShift n =>
    refine hkeeps ?_ _ trivial
    cases hf : Code6800.rightShift .m6809 n with
    | none => simpa [Call.helper, hf] using keeps_emit_nil
    | some f => simpa [Call.helper, hf] using keeps_rightShift hf
  | swapDX => exact hkeeps (keeps_forget _ fun t => ⟨rfl, rfl⟩) _ trivial
  | invalidateAll => exact hkeeps (fun t r hs => ⟨forgotten, forgotten⟩) _ trivial
  | invalidateX => exact hkeeps (fun t r hs => ⟨hs.a, hs.b⟩) _ trivial
  | invalidateA => exact hkeeps (fun t r hs => ⟨forgotten, hs.b⟩) _ trivial
  | invalidateB => exact hkeeps (fun t r hs => ⟨hs.a, forgotten⟩) _ trivial
  | invalidateD => exact hkeeps (fun t r hs => ⟨hs.a, hs.b⟩) _ trivial
  | invalidateWork => exact hkeeps (fun t r hs => ⟨forgotten, forgotten⟩) _ trivial
  | invalidateMem =>
    refine hkeeps (fun t r hs => ?_) _ trivial
    simp only [Call.helper, update, Track.invalidateMem]
    split
    · exact ⟨hs.a, hs.b⟩
    · exact ⟨hs.a, hs.b⟩
    · exact ⟨hs.a, hs.b⟩
    · exact hs

/-! ## Runs of calls -/

def callStep (B : Bare → Regs → Regs) (s : Track × Regs) (c : Call) : Track × Regs :=
  ((c.helper .m6809 s.1).2, exec B (c.helper .m6809 s.1).1 s.2)

def Right (s : Track × Regs) : Prop := s.1.Sound s.2

theorem right_callStep (s : Track × Regs) (c : Call) (hs : Right s) (hc : c.Fits s.1) : Right (callStep B s c) :=
  (call_iff c s.1).mpr hc s.2 hs

/-- After any run of calls that fit, what is remembered is right, and a constant load leaves its
constant in D even when it emits nothing. -/
theorem track_sound (t : Track) (r : Regs) (calls : List Call)
    (hfits : AllSteps (callStep B) (fun s c => c.Fits s.1) (t.invalidateAll, r) calls) :
    Right (runState (callStep B) (t.invalidateAll, r) calls) ∧
      ∀ n, (callStep B (runState (callStep B) (t.invalidateAll, r) calls) (.loadDConst n)).2.d = n := by
  have hstart : Right (t.invalidateAll, r) := ⟨forgotten, forgotten⟩
  have hrun := inv_runState right_callStep hstart hfits
  exact ⟨hrun, fun n => loadDConst_d n hrun⟩

def freshTrack : Track := ⟨false, 0, 0, false, false, false, .other⟩

/-- 0x1234 + 0x10, and the low byte for both. -/
theorem track_sound_low_sum : Right (runState (callStep fun _ r => r) (freshTrack.invalidateAll, ⟨1, 2, 3, 4, false⟩)
    [.loadDConst 0x1234, .addDConst 0x10, .loadAB]) :=
  (track_sound freshTrack ⟨1, 2, 3, 4, false⟩ [.loadDConst 0x1234, .addDConst 0x10, .loadAB]
    ⟨trivial, .inr (.inr ⟨by decide, by decide⟩), trivial, trivial⟩).1

/-- 0xFF + 1 is remembered as zero, so that a load of zero is left out. -/
theorem lost_carry_skips_load : (runState (callStep fun _ r => r) (freshTrack.invalidateAll, ⟨1, 2, 3, 4, false⟩)
    [.loadDConst 0xFF, .addDConst 1, .loadDConst 0]).2.d = 0x100 := by
  decide

end Fuzemsys.Fcc.Code6800
