import Fuzemsys.Fcc.Stack6809

/-!
# What a stacked operand leaves

The operators come out right but for sums of words and longs, and a cast that has to fill Y
from a signed character. A sum of words adds the high bytes first, one of longs leaves Y alone.
-/

open Fuzemsys.Lib

namespace Fuzemsys.Fcc.Code6800

open Fuzemsys.Fcc.Tree

variable {c c₁ : Cpu} {n : StackNode} {t rt : CType}

/-! ## The working register -/

theorem working_byte (c : Cpu) : c.working 8 = c.b := by
  apply BitVec.eq_of_getLsbD_eq
  intro i hi
  simp [Cpu.working, Cpu.long, Regs.d]
  grind

theorem working_word (c : Cpu) : c.working 16 = c.d := by
  apply BitVec.eq_of_getLsbD_eq
  intro i hi
  simp [Cpu.working, Cpu.long]
  grind

theorem working_long (c : Cpu) : c.working 32 = c.y ++ c.d := BitVec.setWidth_eq _

theorem hiByte_d (r : Regs) : hiByte r.d = r.a := hiByte_append _ _

/-! ## What was pushed -/

theorem pushed_byte (hkept : Cpu.Kept 1 (execLines [⟨.pshs, .list .b⟩] c) c₁) :
    c₁.mem c₁.s = c.b ∧ c₁.s + 1 = c.s := by
  obtain ⟨hs, hmem⟩ := hkept
  have hs' : c₁.s = c.s - 1 := hs
  have hlow := hmem 0 (by decide)
  rw [BitVec.add_zero, ← hs] at hlow
  refine ⟨hlow.trans ?_, ?_⟩
  · rw [hs']
    exact if_pos rfl
  · rw [hs']
    exact BitVec.sub_add_cancel _ _

theorem pushed_word (hkept : Cpu.Kept 2 (c.pushWord c.d) c₁) :
    c₁.mem c₁.s = c.a ∧ c₁.mem (c₁.s + 1) = c.b ∧ c₁.s + 2 = c.s := by
  obtain ⟨hs, hmem⟩ := hkept
  have hs' : c₁.s = c.s - 2 := hs
  have hhigh := hmem 0 (by decide)
  have hlow := hmem 1 (by decide)
  rw [← hs] at hhigh hlow
  rw [BitVec.add_zero, pushWord_mem, if_pos hs', hiByte_d] at hhigh
  rw [pushWord_mem, if_neg (by bv_omega), if_pos (by bv_omega), loByte_d] at hlow
  exact ⟨hhigh, hlow, by bv_omega⟩

theorem pushed_long (hkept : Cpu.Kept 4 ((c.pushWord c.d).pushWord c.y) c₁) :
    c₁.mem c₁.s = hiByte c.y ∧ c₁.mem (c₁.s + 1) = loByte c.y ∧ c₁.mem (c₁.s + 2) = c.a ∧
      c₁.mem (c₁.s + 3) = c.b ∧ c₁.s + 4 = c.s := by
  obtain ⟨hs, hmem⟩ := hkept
  have hs' : c₁.s = c.s - 2 - 2 := hs
  have h₀ := hmem 0 (by decide)
  have h₁ := hmem 1 (by decide)
  have h₂ := hmem 2 (by decide)
  have h₃ := hmem 3 (by decide)
  rw [← hs] at h₀ h₁ h₂ h₃
  rw [BitVec.add_zero, pushWord_mem, pushWord_s, if_pos hs'] at h₀
  rw [pushWord_mem, pushWord_s, if_neg (by bv_omega), if_pos (by bv_omega)] at h₁
  rw [pushWord_mem, pushWord_s, if_neg (by bv_omega), if_neg (by bv_omega), pushWord_mem, if_pos (by bv_omega),
    hiByte_d] at h₂
  rw [pushWord_mem, pushWord_s, if_neg (by bv_omega), if_neg (by bv_omega), pushWord_mem, if_neg (by bv_omega),
    if_pos (by bv_omega), loByte_d] at h₃
  exact ⟨h₀, h₁, h₂, h₃, by bv_omega⟩

/-! ## Bit operations -/

/-- What a byte operation does with the byte on the stack. -/
structure ByteOp.Does (op : ByteOp) (g : Byte → Byte → Byte) : Prop where
  onA : ∀ c : Cpu, let c' := execLine c ⟨op.onA, .postInc .s⟩
    c'.a = g c.a (c.mem c.s) ∧ c'.b = c.b ∧ c'.y = c.y ∧ c'.s = c.s + 1 ∧ c'.mem = c.mem
  onB : ∀ c : Cpu, let c' := execLine c ⟨op.onB, .postInc .s⟩
    c'.a = c.a ∧ c'.b = g c.b (c.mem c.s) ∧ c'.y = c.y ∧ c'.s = c.s + 1 ∧ c'.mem = c.mem

theorem does_and : ByteOp.Does ⟨.anda, .andb⟩ (· &&& ·) := ⟨fun _ => ⟨rfl, rfl, rfl, rfl, rfl⟩, fun _ => ⟨rfl, rfl, rfl, rfl, rfl⟩⟩

theorem does_or : ByteOp.Does ⟨.ora, .orb⟩ (· ||| ·) := ⟨fun _ => ⟨rfl, rfl, rfl, rfl, rfl⟩, fun _ => ⟨rfl, rfl, rfl, rfl, rfl⟩⟩

theorem does_eor : ByteOp.Does ⟨.eora, .eorb⟩ (· ^^^ ·) := ⟨fun _ => ⟨rfl, rfl, rfl, rfl, rfl⟩, fun _ => ⟨rfl, rfl, rfl, rfl, rfl⟩⟩

variable {op : ByteOp} {g : Byte → Byte → Byte}

theorem run_op16 (hop : op.Does g) (c : Cpu) : let c' := execLines (op16OnSpi op op) c
    c'.a = g c.a (c.mem c.s) ∧ c'.b = g c.b (c.mem (c.s + 1)) ∧ c'.y = c.y ∧ c'.s = c.s + 2 ∧ c'.mem = c.mem := by
  obtain ⟨ha, hb, hy, hs, hmem⟩ := hop.onA c
  obtain ⟨ha', hb', hy', hs', hmem'⟩ := hop.onB (execLine c ⟨op.onA, .postInc .s⟩)
  refine ⟨ha'.trans ha, hb'.trans ?_, hy'.trans hy, hs'.trans ?_, hmem'.trans hmem⟩
  · rw [hb, hmem, hs]
  · rw [hs, BitVec.add_assoc]
    rfl

theorem run_op8 (hop : op.Does g) (t : Track) (c : Cpu) : let c' := execLines (writeTosOp 1 op op t).1 c
    c'.b = g c.b (c.mem c.s) ∧ c'.s = c.s + 1 := by
  obtain ⟨-, hb, -, hs, -⟩ := hop.onB { c with x := c.s }
  exact ⟨hb, hs⟩

theorem run_writeTosOp_word (hop : op.Does g) (t : Track) (c : Cpu) : let c' := execLines (writeTosOp 2 op op t).1 c
    c'.d = g c.a (c.mem c.s) ++ g c.b (c.mem (c.s + 1)) ∧ c'.s = c.s + 2 := by
  obtain ⟨ha, hb, -, hs, -⟩ := run_op16 hop c
  exact ⟨congrArg₂ (· ++ ·) ha hb, hs⟩

theorem run_writeTosOp_long (hop : op.Does g) (t : Track) (c : Cpu) : let c' := execLines (writeTosOp 4 op op t).1 c
    c'.long = (g (hiByte c.y) (c.mem c.s) ++ g (loByte c.y) (c.mem (c.s + 1))) ++
      (g c.a (c.mem (c.s + 2)) ++ g c.b (c.mem (c.s + 3))) ∧ c'.s = c.s + 4 := by
  intro c'
  let swap (c : Cpu) : Cpu := { c.setD c.y with y := c.d }
  have hc' : c' = execLines (op16OnSpi op op) (swap (execLines (op16OnSpi op op) (swap c))) := rfl
  obtain ⟨ha, hb, hy, hs, hmem⟩ := run_op16 hop (swap c)
  generalize execLines (op16OnSpi op op) (swap c) = c₂ at hc' ha hb hy hs hmem
  obtain ⟨ha', hb', hy', hs', -⟩ := run_op16 hop (swap c₂)
  rw [← hc'] at ha' hb' hy' hs'
  have hy₂ : c₂.y = c.a ++ c.b := hy
  have hs₂ : c₂.s = c.s + 2 := hs
  have hmem₂ : c₂.mem = c.mem := hmem
  have ha₂ : (swap c₂).a = c.a := by
    show hiByte c₂.y = c.a
    rw [hy₂, hiByte_append]
  have hb₂ : (swap c₂).b = c.b := by
    show loByte c₂.y = c.b
    rw [hy₂, loByte_append]
  have hd₂ : (swap c₂).y = g (hiByte c.y) (c.mem c.s) ++ g (loByte c.y) (c.mem (c.s + 1)) := congrArg₂ (· ++ ·) ha hb
  have hstack : (swap c₂).s = c.s + 2 := hs₂
  have hmemory : (swap c₂).mem = c.mem := hmem₂
  have hnext : c.s + 2 + 1 = c.s + 3 := by bv_omega
  have hlast : c.s + 2 + 2 = c.s + 4 := by bv_omega
  rw [ha₂, hstack, hmemory] at ha'
  rw [hb₂, hstack, hmemory, hnext] at hb'
  rw [hstack, hlast] at hs'
  refine ⟨?_, hs'⟩
  rw [Cpu.long, Regs.d, hy', hd₂, ha', hb']

/-- What an operator on integers has to do, width by width. -/
theorem operates_of {o : Op} {f : Printer} (hop : isComparison o = false) (ht : IntType t)
    (hbyte : getSize t = 1 → ∀ t' c₁, let c' := execLines (f t').1 c₁
      c'.b = arithmetic o (isUnsigned t) (c₁.mem c₁.s) c₁.b ∧ c'.s = c₁.s + 1)
    (hword : getSize t = 2 → ∀ t' c₁, let c' := execLines (f t').1 c₁
      c'.d = arithmetic o (isUnsigned t) (c₁.mem c₁.s ++ c₁.mem (c₁.s + 1) : BitVec 16) c₁.d ∧ c'.s = c₁.s + 2)
    (hlong : getSize t = 4 → ∀ t' c₁, let c' := execLines (f t').1 c₁
      c'.long = arithmetic o (isUnsigned t) ((c₁.mem c₁.s ++ c₁.mem (c₁.s + 1)) ++
        (c₁.mem (c₁.s + 2) ++ c₁.mem (c₁.s + 3)) : BitVec 32) c₁.long ∧ c'.s = c₁.s + 4) :
    (StackNode.mk o t rt).Operates f := by
  intro t' c c₁ hkept c'
  show c'.s = c.s ∧ if isComparison o then Truth c' (comparison o (isUnsigned t) (c.working (8 * getSize t))
    (c₁.working (8 * getSize t))) else c'.working (8 * getSize t) = arithmetic o (isUnsigned t)
    (c.working (8 * getSize t)) (c₁.working (8 * getSize t))
  rw [if_neg (by rw [hop]; decide)]
  simp only [genPush] at hkept
  rcases int_sizes ht with hs | hs | hs
  · obtain ⟨hleft, hstack⟩ := pushed_byte (by rwa [hs] at hkept)
    obtain ⟨hb, hs'⟩ := hbyte hs t' c₁
    refine ⟨hs'.trans hstack, ?_⟩
    rw [hs, working_byte, working_byte, working_byte, ← hleft]
    exact hb
  · obtain ⟨hhigh, hlow, hstack⟩ := pushed_word (by rwa [hs] at hkept)
    obtain ⟨hd, hs'⟩ := hword hs t' c₁
    refine ⟨hs'.trans hstack, ?_⟩
    have hleft : c.d = c₁.mem c₁.s ++ c₁.mem (c₁.s + 1) := by
      rw [hhigh, hlow]
      rfl
    rw [hs, working_word, working_word, working_word, hleft]
    exact hd
  · obtain ⟨h₀, h₁, h₂, h₃, hstack⟩ := pushed_long (by rwa [hs] at hkept)
    obtain ⟨hd, hs'⟩ := hlong hs t' c₁
    refine ⟨hs'.trans hstack, ?_⟩
    have hleft : c.working 32 = (c₁.mem c₁.s ++ c₁.mem (c₁.s + 1)) ++ (c₁.mem (c₁.s + 2) ++ c₁.mem (c₁.s + 3)) := by
      rw [working_long, h₀, h₁, h₂, h₃, hi_append_lo]
      rfl
    rw [hs, hleft, working_long, working_long]
    exact hd

/-- A bit operation is done on each byte. -/
theorem operates_bits {o : Op} {G : ∀ {w : Nat}, BitVec w → BitVec w → BitVec w} (hop : isComparison o = false)
    (ht : IntType t) (hdoes : op.Does G) (hG : ∀ {w : Nat} (u : Bool) (x y : BitVec w), arithmetic o u x y = G y x)
    (happend : ∀ {v w : Nat} (x x' : BitVec v) (y y' : BitVec w), G (x ++ y) (x' ++ y') = G x x' ++ G y y') :
    (StackNode.mk o t rt).Operates (writeTosOp (getSize t) op op) := by
  apply operates_of hop ht
  · intro hs t' c₁
    rw [hs, hG]
    exact run_op8 hdoes t' c₁
  · intro hs t' c₁
    rw [hs, hG, Regs.d, happend]
    exact run_writeTosOp_word hdoes t' c₁
  · intro hs t' c₁
    have hlong : c₁.long = (hiByte c₁.y ++ loByte c₁.y) ++ (c₁.a ++ c₁.b) := by
      rw [hi_append_lo]
      rfl
    rw [hs, hG, hlong, happend, happend, happend]
    exact run_writeTosOp_long hdoes t' c₁

theorem arithmetic_and {w : Nat} (u : Bool) (x y : BitVec w) : arithmetic .AND u x y = y &&& x := by
  rw [arithmetic, BitVec.setWidth_eq, BitVec.and_comm]

theorem arithmetic_or {w : Nat} (u : Bool) (x y : BitVec w) : arithmetic .OR u x y = y ||| x := by
  rw [arithmetic, BitVec.setWidth_eq, BitVec.or_comm]

theorem arithmetic_hat {w : Nat} (u : Bool) (x y : BitVec w) : arithmetic .HAT u x y = y ^^^ x := by
  rw [arithmetic, BitVec.setWidth_eq, BitVec.xor_comm]

theorem operates_and (ht : IntType t) : (StackNode.mk .AND t rt).Operates (writeTosOp (getSize t) ⟨.anda, .andb⟩ ⟨.anda, .andb⟩) :=
  operates_bits (G := (· &&& ·)) rfl ht does_and arithmetic_and fun _ _ _ _ => BitVec.and_append

theorem operates_or (ht : IntType t) : (StackNode.mk .OR t rt).Operates (writeTosOp (getSize t) ⟨.ora, .orb⟩ ⟨.ora, .orb⟩) :=
  operates_bits (G := (· ||| ·)) rfl ht does_or arithmetic_or fun _ _ _ _ => BitVec.or_append

theorem operates_hat (ht : IntType t) : (StackNode.mk .HAT t rt).Operates (writeTosOp (getSize t) ⟨.eora, .eorb⟩ ⟨.eora, .eorb⟩) :=
  operates_bits (G := (· ^^^ ·)) rfl ht does_eor arithmetic_hat fun _ _ _ _ => BitVec.xor_append

/-! ## Sums -/

theorem operates_plus_byte (ht : IntType t) (hs : getSize t = 1) :
    (StackNode.mk .PLUS t rt).Operates (writeTosOp (getSize t) ⟨.adda, .addb⟩ ⟨.adca, .adcb⟩) := by
  apply operates_of rfl ht
  · intro _ t' c₁
    rw [hs]
    refine ⟨?_, rfl⟩
    show c₁.b + c₁.mem c₁.s = c₁.mem c₁.s + c₁.b.setWidth 8
    rw [BitVec.setWidth_eq, BitVec.add_comm]
  · intro hword
    rw [hs] at hword
    exact absurd hword (by decide)
  · intro hlong
    rw [hs] at hlong
    exact absurd hlong (by decide)

section
variable {o : Op} {f : Printer} (hf : (StackNode.mk o t rt).Operates f) (hop : isComparison o = false)
include hf hop

theorem operates_run (t' : Track) (c c₁ : Cpu) (hkept : Cpu.Kept (getSize t) (execLines (genPush t) c) c₁) :
    (execLines (f t').1 c₁).working (8 * getSize t) =
      arithmetic o (isUnsigned t) (c.working (8 * getSize t)) (c₁.working (8 * getSize t)) := by
  have hrun := (hf t' c c₁ hkept).2
  change if isComparison o then _ else _ at hrun
  rw [hop] at hrun
  exact hrun

theorem operates_word (hs : getSize t = 2) (t' : Track) (c c₁ : Cpu) (hkept : Cpu.Kept 2 (c.pushWord c.d) c₁) :
    (execLines (f t').1 c₁).d = arithmetic o (isUnsigned t) c.d c₁.d := by
  have hrun := operates_run hf hop t' c c₁ (by
    simp only [genPush, hs]
    exact hkept)
  rw [hs, working_word, working_word, working_word] at hrun
  exact hrun

theorem operates_long (hs : getSize t = 4) (t' : Track) (c c₁ : Cpu) (hkept : Cpu.Kept 4 ((c.pushWord c.d).pushWord c.y) c₁) :
    (execLines (f t').1 c₁).long = arithmetic o (isUnsigned t) c.long c₁.long := by
  have hrun := operates_run hf hop t' c c₁ (by
    simp only [genPush, hs]
    exact hkept)
  rw [hs, working_long, working_long, working_long] at hrun
  exact hrun

end

/-- 255 + 1: the carry of the low bytes is lost. -/
theorem sum_word_fails (hs : getSize t = 2) : ¬ (StackNode.mk .PLUS t rt).Right := by
  intro hright
  have hgen : genNode (StackNode.mk .PLUS t rt) = some (writeTosOp 2 ⟨.adda, .addb⟩ ⟨.adca, .adcb⟩) := by
    simp [genNode, hs]
  let c : Cpu := Cpu.ofWord 0x00FF
  let c₁ : Cpu := (c.pushWord c.d).setD 1
  have hsum := operates_word (hright _ hgen) rfl hs freshTrack c c₁ ⟨rfl, fun _ _ => rfl⟩
  have hwant : arithmetic .PLUS (isUnsigned t) c.d c₁.d = 0x0100 := by
    show c.d + c₁.d.setWidth 16 = 0x0100
    decide
  exact absurd (hsum.trans hwant) (by decide)

/-- 0x00010000 + 0: Y stays as it is. -/
theorem sum_long_fails (hs : getSize t = 4) (hfloat : t ≠ FLOAT) : ¬ (StackNode.mk .PLUS t rt).Right := by
  intro hright
  have hgen : genNode (StackNode.mk .PLUS t rt) = some (printf [⟨.addd, .index 2 .s⟩, ⟨.adcb, .index 1 .s⟩,
      ⟨.adca, .index 0 .s⟩, ⟨.leas, .index 4 .s⟩]) := by
    simp [genNode, hs, hfloat]
  let c : Cpu := { Cpu.ofWord 0 with y := 1 }
  let c₁ : Cpu := { (c.pushWord c.d).pushWord c.y with y := 0 }
  have hsum := operates_long (hright _ hgen) rfl hs freshTrack c c₁ ⟨rfl, fun _ _ => rfl⟩
  have hwant : arithmetic .PLUS (isUnsigned t) c.long c₁.long = 0x00010000 := by
    show c.long + c₁.long.setWidth 32 = 0x00010000
    decide
  exact absurd (hsum.trans hwant) (by decide)

theorem plus_right_iff (ht : IntType t) : (StackNode.mk .PLUS t rt).Right ↔ getSize t = 1 := by
  rcases int_sizes ht with hs | hs | hs
  · refine iff_of_true ?_ hs
    intro f hf
    have hgen : genNode (StackNode.mk .PLUS t rt) = some (writeTosOp (getSize t) ⟨.adda, .addb⟩ ⟨.adca, .adcb⟩) := by
      simp [genNode, hs]
    rw [hgen, Option.some.injEq] at hf
    exact hf ▸ operates_plus_byte ht hs
  · exact iff_of_false (sum_word_fails hs) (by omega)
  · refine iff_of_false (sum_long_fails hs ?_) (by omega)
    rintro rfl
    exact absurd ht (show FLOAT ∉ _ by decide)

/-! ## Comparisons -/

/-- The comparison with its sides exchanged. -/
def mirrored : Op → Op
  | .LT => .GT
  | .GT => .LT
  | .LTEQ => .GTEQ
  | .GTEQ => .LTEQ
  | o => o

theorem mirrored_comparison {o : Op} (ho : isComparison o) : isComparison (mirrored o) := by
  rcases comparison_cases ho with rfl | rfl | rfl | rfl | rfl | rfl <;> decide

theorem genNode_comparison {o : Op} (ho : isComparison o) : genNode ⟨o, t, rt⟩ =
    cmpOp rt (unsignedRoutine (mirrored o)) (signedRoutine (mirrored o)) := by
  rcases comparison_cases ho with rfl | rfl | rfl | rfl | rfl | rfl <;> rfl

/-- The operands come the other way round too. -/
theorem mirrored_operands {o : Op} (ho : isComparison o) (u : Bool) {w : Nat} (x y : BitVec w) :
    comparison (mirrored o) u y x = comparison o u x y := by
  rcases comparison_cases ho with rfl | rfl | rfl | rfl | rfl | rfl
  · rfl
  · rfl
  · rfl
  · rfl
  · exact Bool.beq_comm
  · exact congrArg (! ·) Bool.beq_comm

theorem routine_s (c : Cpu) (f : BoolRoutine) : (c.routine f).s = c.s := by
  cases f <;> unfold Cpu.routine <;> dsimp only <;> repeat (first | rfl | split)

theorem comparison_operates {o : Op} (ho : isComparison o) (ht : IntType t) : (StackNode.mk o t t).Right := by
  intro f hf
  rw [genNode_comparison ho] at hf
  have hnot : ¬ o = .CAST := by
    rintro rfl
    exact absurd ho (by decide)
  show if o = .CAST then _ else _
  rw [if_neg hnot]
  intro t' c c₁ hkept c'
  show c'.s = c.s ∧ if isComparison o then Truth c' (comparison o (isUnsigned t) (c.working (8 * getSize t))
    (c₁.working (8 * getSize t))) else _
  rw [if_pos ho, ← mirrored_operands ho, ← tells_comparison (mirrored_comparison ho)]
  simp only [genPush] at hkept
  rcases int_sizes ht with hs | hs | hs
  · obtain ⟨hleft, hstack⟩ := pushed_byte (by rwa [hs] at hkept)
    simp only [cmpOp, hs, if_neg (show ¬ 1 > 2 by decide), if_true, Option.some.injEq] at hf
    subst hf
    have hc' : c' = ({ c₁ with s := c₁.s + 1 }.differenceFlags c₁.b (c₁.mem c₁.s)).routine
      (if isUnsigned t then unsignedRoutine (mirrored o) else signedRoutine (mirrored o)) := rfl
    rw [hc', routine_s, hs, working_byte, working_byte, ← hleft]
    exact ⟨hstack, routine_truth (by decide) _ _ _ _⟩
  · obtain ⟨hhigh, hlow, hstack⟩ := pushed_word (by rwa [hs] at hkept)
    simp only [cmpOp, hs, if_neg (show ¬ 2 > 2 by decide), if_neg (show ¬ 2 = 1 by decide), if_true,
      Option.some.injEq] at hf
    subst hf
    have hc' : c' = (({ c₁ with s := c₁.s + 2 }.setD (c₁.d - c₁.wordAt c₁.s)).differenceFlags c₁.d
      (c₁.wordAt c₁.s)).routine (if isUnsigned t then unsignedRoutine (mirrored o) else signedRoutine (mirrored o)) := rfl
    have hleft : c.d = c₁.wordAt c₁.s := by
      rw [Cpu.wordAt, hhigh, hlow]
      rfl
    rw [hc', routine_s, hs, working_word, working_word, hleft]
    exact ⟨hstack, routine_truth (by decide) _ _ _ _⟩
  · simp [cmpOp, hs] at hf

/-! ## Casts -/

theorem genCast_int (ht : IntType t) (hrt : IntType rt) : genCast t rt =
    if getSize t ≤ getSize rt then some (printf [])
    else if !isUnsigned rt then
      if getSize rt = 1 then some (printf [plain .sex]) else none
    else some (Printer.andThen (Printer.when (getSize rt = 1) (loadAConst .m6809 0).print)
      (Printer.when (getSize t = 4) (printf [immediate .ldy 0]))) := by
  have harith {t : CType} (ht : IntType t) : IS_INTARITH t = true := by
    simp only [IntType, List.mem_cons, List.not_mem_nil, or_false] at ht
    rcases ht with rfl | rfl | rfl | rfl | rfl | rfl <;> decide
  have hown {t : CType} (ht : IntType t) : (if PTR t ≠ 0 then USHORT else t) = t :=
    if_neg (not_not.mpr (int_not_pointer ht))
  unfold genCast
  dsimp only
  rw [hown ht, hown hrt, harith ht, harith hrt]
  rfl

theorem zero_append {k m : Nat} (x : BitVec m) : (0 : BitVec k) ++ x = x.setWidth (k + m) := by
  apply BitVec.eq_of_toNat_eq
  rw [append_toNat, BitVec.toNat_setWidth, Nat.mod_eq_of_lt]
  · simp
  · exact lt_of_lt_of_le x.isLt (Nat.pow_le_pow_right (by decide) (by omega))

/-- The low part of the register is the low part of its low part. -/
theorem working_working (c : Cpu) {v w : Nat} (hvw : w ≤ v) : (c.working v).setWidth w = c.working w :=
  BitVec.setWidth_setWidth_of_le _ hvw

theorem converts_shrink (hsize : getSize t ≤ getSize rt) : (StackNode.mk .CAST t rt).Converts (printf []) := by
  intro t' c _
  show c.working (8 * getSize t) = if isUnsigned rt then (c.working (8 * getSize rt)).setWidth (8 * getSize t)
    else (c.working (8 * getSize rt)).signExtend (8 * getSize t)
  rw [BitVec.signExtend_eq_setWidth_of_le _ (by omega), working_working c (by omega), ite_self]

/-- The sign goes into A only. -/
theorem converts_sex (hs : getSize t = 2) (hrs : getSize rt = 1) (hsigned : isUnsigned rt = false) :
    (StackNode.mk .CAST t rt).Converts (printf [plain .sex]) := by
  intro t' c _
  show (execLines [plain .sex] c).working (8 * getSize t) = if isUnsigned rt
    then (c.working (8 * getSize rt)).setWidth (8 * getSize t) else (c.working (8 * getSize rt)).signExtend (8 * getSize t)
  rw [hsigned, hs, hrs, working_word, working_byte]
  exact hi_append_lo _

/-- A is cleared for a character, and Y for a long. -/
theorem converts_zeros (hsize : getSize rt < getSize t) (ht : IntType t) (hrt : IntType rt) (hunsigned : isUnsigned rt = true) :
    (StackNode.mk .CAST t rt).Converts (Printer.andThen (Printer.when (getSize rt = 1) (loadAConst .m6809 0).print)
      (Printer.when (getSize t = 4) (printf [immediate .ldy 0]))) := by
  intro t' c hsound
  show (execLines _ c).working (8 * getSize t) = if isUnsigned rt then (c.working (8 * getSize rt)).setWidth (8 * getSize t)
    else _
  rw [if_pos hunsigned]
  rcases int_sizes hrt with hrs | hrs | hrs
  · obtain ⟨hregs, -, -⟩ := (real_loadAConst 0).run (fun _ r => r) t' c
    obtain ⟨ha, hb⟩ := loadAConst_bytes (B := fun _ r => r) 0 hsound
    rw [← hregs] at ha hb
    have hd : (execLines ((loadAConst .m6809 0).print t').1 c).d = c.b.setWidth 16 := by
      rw [Regs.d, ha, hb, zero_append]
    rcases int_sizes ht with hs | hs | hs
    · omega
    · rw [hs, hrs, working_word, working_byte]
      simp only [Printer.when, if_true, if_neg (show ¬ 2 = 4 by decide), run_andThen]
      exact hd
    · rw [hs, hrs, working_long, working_byte]
      simp only [Printer.when, if_true, run_andThen]
      show (BitVec.ofNat 16 0 ++ (execLines ((loadAConst .m6809 0).print t').1 c).d : BitVec 32) = _
      have hwide : (c.b.setWidth 16).setWidth 32 = c.b.setWidth 32 := by
        have hb := c.b.isLt
        apply BitVec.eq_of_toNat_eq
        simp only [BitVec.toNat_setWidth]
        omega
      rw [hd]
      exact (zero_append _).trans hwide
  · rcases int_sizes ht with hs | hs | hs
    · omega
    · omega
    · rw [hs, hrs, working_long, working_word]
      simp only [Printer.when, if_true, if_neg (show ¬ 2 = 1 by decide), run_andThen]
      exact zero_append c.d
  · rcases int_sizes ht with hs | hs | hs <;> omega

/-- Y is not filled with the sign. -/
theorem sign_long_fails (hs : getSize t = 4) : ¬ (StackNode.mk .CAST t CCHAR).Converts (printf [plain .sex]) := by
  intro hconverts
  have hrun := hconverts freshTrack (Cpu.ofWord 0x80) (freshTrack_sound _)
  change (execLines [plain .sex] (Cpu.ofWord 0x80)).working (8 * getSize t) = if isUnsigned CCHAR
    then _ else ((Cpu.ofWord 0x80).working (8 * getSize CCHAR)).signExtend (8 * getSize t) at hrun
  rw [if_neg (by decide), hs, show getSize CCHAR = 1 from rfl, working_long, working_byte] at hrun
  exact absurd hrun (by decide)

theorem signed_char (hrt : IntType rt) : rt = CCHAR ↔ getSize rt = 1 ∧ isUnsigned rt = false := by
  simp only [IntType, List.mem_cons, List.not_mem_nil, or_false] at hrt
  rcases hrt with rfl | rfl | rfl | rfl | rfl | rfl <;> decide

theorem cast_right_iff (ht : IntType t) (hrt : IntType rt) : (StackNode.mk .CAST t rt).Right ↔
    (rt = CCHAR → getSize t ≠ 4) := by
  have hgen : genNode (StackNode.mk .CAST t rt) = genCast t rt := rfl
  have hright : (StackNode.mk .CAST t rt).Right ↔ ∀ f, genCast t rt = some f → (StackNode.mk .CAST t rt).Converts f :=
    Iff.rfl
  rw [hright, genCast_int ht hrt, signed_char hrt]
  have hconverts {f : Printer} (hf : (StackNode.mk .CAST t rt).Converts f) :
      ∀ g, some f = some g → (StackNode.mk .CAST t rt).Converts g := by
    rintro g ⟨rfl⟩
    exact hf
  split
  · next hshrink => exact iff_of_true (hconverts (converts_shrink hshrink)) fun hchar => by omega
  · next hwiden =>
    cases hu : isUnsigned rt with
    | true =>
      rw [if_neg (by decide)]
      exact iff_of_true (hconverts (converts_zeros (by omega) ht hrt hu)) (by simp)
    | false =>
      rw [if_pos (by decide)]
      split
      · next hrs =>
        rcases int_sizes ht with hs | hs | hs
        · omega
        · exact iff_of_true (hconverts (converts_sex hs hrs hu)) fun _ => by omega
        · obtain rfl := (signed_char hrt).mpr ⟨hrs, hu⟩
          exact iff_of_false (fun hall => sign_long_fails hs (hall _ rfl)) fun hsize => hsize ⟨hrs, rfl⟩ hs
      · next hrs => exact iff_of_true (fun f hf => by cases hf) fun hchar => absurd hchar.1 hrs

/-- Each node that `gen_node` has code for, and the condition on which the code is right. -/
theorem stack_right_iff (n : { n : StackNode // n.Typed }) : n.val.Right ↔ n.val.Suits := by
  obtain ⟨⟨o, t, rt⟩, htyped⟩ := n
  obtain ⟨ht, hrt, hop⟩ : IntType t ∧ IntType rt ∧ (o = .CAST ∨ (o ∈ stackOps ∧ rt = t)) := htyped
  show (StackNode.mk o t rt).Right ↔ (StackNode.mk o t rt).Suits
  have hsome {f : Printer} (ho : o ≠ .CAST) (hgen : genNode ⟨o, t, rt⟩ = some f)
      (hf : (StackNode.mk o t rt).Operates f) : (StackNode.mk o t rt).Right := by
    intro g hg
    rw [hgen, Option.some.injEq] at hg
    rw [if_neg ho, ← hg]
    exact hf
  rcases hop with rfl | ⟨hop, rfl⟩
  · exact cast_right_iff ht hrt
  · simp only [stackOps, compareOps, equalOps, List.cons_append, List.nil_append, List.mem_cons, List.not_mem_nil,
      or_false] at hop
    rcases hop with rfl | rfl | rfl | rfl | hop
    · exact plus_right_iff ht
    · exact iff_of_true (hsome (by decide) rfl (operates_and ht)) trivial
    · exact iff_of_true (hsome (by decide) rfl (operates_or ht)) trivial
    · exact iff_of_true (hsome (by decide) rfl (operates_hat ht)) trivial
    · rcases hop with rfl | rfl | rfl | rfl | rfl | rfl <;>
        exact iff_of_true (comparison_operates (by decide) ht) trivial

/-- `(int) 255 + 1` leaves 0 in D. -/
theorem stacked_sum_differs : let n : StackNode := ⟨.PLUS, CINT, CINT⟩
    n.Typed ∧ ¬ n.Right := by
  refine ⟨⟨show CINT ∈ _ by decide, show CINT ∈ _ by decide, .inr ⟨by decide, rfl⟩⟩, ?_⟩
  exact sum_word_fails rfl

end Fuzemsys.Fcc.Code6800
