import Fuzemsys.Fcc.RuntimeWords

/-!
# Products and quotients of longs
-/

open Fuzemsys.Lib

namespace Fuzemsys.Fcc.Runtime

open Code6800 (hiByte loByte carryBit append_toNat hiByte_toNat loByte_toNat carryBit_toNat)

variable {im : Linked} {a : BitVec 16} {s : State}

/-! ## Differences in pieces -/

/-- The borrow of a byte goes on to the next one. -/
theorem sbc_word (h : BitVec 16) (u v : Byte) (c : Bool) :
    (hiByte h - u - carryBit (decide ((loByte h).toNat < v.toNat + (carryBit c).toNat))) ++ (loByte h - v - carryBit c) =
        h - (u ++ v) - (carryBit c).setWidth 16 ∧
      decide ((hiByte h).toNat < u.toNat + (carryBit (decide ((loByte h).toNat < v.toNat + (carryBit c).toNat))).toNat) =
        decide (h.toNat < (u ++ v).toNat + (carryBit c).toNat) := by
  have hh := h.isLt
  have hu := u.isLt
  have hv := v.isLt
  constructor
  · apply BitVec.eq_of_toNat_eq
    rw [append_toNat]
    simp only [BitVec.toNat_sub, BitVec.toNat_setWidth, hiByte_toNat, loByte_toNat, carryBit_toNat, append_toNat,
      decide_eq_true_eq]
    split <;> split <;> omega
  · simp only [hiByte_toNat, loByte_toNat, carryBit_toNat, append_toNat, decide_eq_true_eq, decide_eq_decide]
    split <;> split <;> omega

theorem sub_long (h l u v : BitVec 16) :
    (h - u - (carryBit (l.ult v)).setWidth 16) ++ (l - v) = (h ++ l) - (u ++ v) ∧
      decide (h.toNat < u.toNat + (carryBit (l.ult v)).toNat) = (h ++ l).ult (u ++ v) := by
  have hh := h.isLt
  have hl := l.isLt
  have hu := u.isLt
  have hv := v.isLt
  constructor
  · apply BitVec.eq_of_toNat_eq
    rw [append_toNat]
    simp only [BitVec.toNat_sub, BitVec.toNat_setWidth, carryBit_toNat, append_toNat, BitVec.ult, decide_eq_true_eq]
    split <;> omega
  · simp only [carryBit_toNat, append_toNat, BitVec.ult, decide_eq_true_eq, decide_eq_decide]
    split <;> omega

/-! ## div32x32 -/

@[simp]
theorem rotate_long (b₃ b₂ b₁ b₀ : Byte) (c : Bool) :
    ((b₃ <<< 1 ||| carryBit b₂.msb) ++ (b₂ <<< 1 ||| carryBit b₁.msb)) ++
      ((b₁ <<< 1 ||| carryBit b₀.msb) ++ (b₀ <<< 1 ||| carryBit c)) = ((b₃ ++ b₂) ++ (b₁ ++ b₀)).shiftConcat c := by
  rw [carryBit_or, carryBit_or, carryBit_or, carryBit_or]
  apply BitVec.eq_of_getLsbD_eq
  intro i hi
  simp only [BitVec.getLsbD_append, BitVec.getLsbD_shiftConcat, BitVec.msb_eq_getLsbD_last]
  grind

theorem bit_cleared (b : Byte) : (b <<< 1 ||| carryBit true) - 1#8 = b <<< 1 ||| carryBit false := by
  revert b
  decide

def longAt (m : BitVec 16 → Byte) (t : BitVec 16) : BitVec 32 :=
  (m t ++ m (t + 1#16)) ++ (m (t + 2#16) ++ m (t + 3#16))

/-- The remainder, in `tmp2` and `tmp3`. -/
def remainderOf (p : Nat → Byte) : BitVec 32 := (p 7 ++ p 8) ++ (p 9 ++ p 10)

/-- What the division leaves of the memory from `t` and of dp.s. -/
structure Spares (t : BitVec 16) (s s' : State) : Prop where
  mem (i : BitVec 16) (hi : i.toNat < 6 ∨ 9 < i.toNat) : s'.mem (t + i) = s.mem (t + i)
  page (i : Nat) (hi : i < 5 ∨ i = 6 ∨ 10 < i) : s'.page i = s.page i

/-- What the loop finds with `k` turns to go. -/
structure LongTurns (t : BitVec 16) (s₀ : State) (n d : BitVec 32) (k : Nat) (s : State) : Prop where
  x : s.x = t
  stack : s.s = t + 65534#16
  y : s.y = s₀.y
  count : s.page 5 = BitVec.ofNat 8 k
  divides : Divides n d k (longAt s.mem (t + 6#16)) (remainderOf s.page)
  spares : Spares t s₀ s

section
variable {t : BitVec 16} {s₀ : State} {n d : BitVec 32} {k : Nat}

theorem shift_pair (h l : BitVec 16) (c : Bool) : h.shiftConcat l.msb ++ l.shiftConcat c = (h ++ l).shiftConcat c := by
  apply BitVec.eq_of_getLsbD_eq
  intro i hi
  simp only [BitVec.getLsbD_append, BitVec.getLsbD_shiftConcat, BitVec.msb_eq_getLsbD_last]
  grind

theorem long_msb (b₃ b₂ b₁ b₀ : Byte) : ((b₃ ++ b₂) ++ (b₁ ++ b₀) : BitVec 32).msb = b₃.msb := by
  rw [BitVec.msb_append, append_msb]
  simp [append_msb]

/-- The remainder takes in the bit that the dividend gives up. -/
theorem remainder_shift (p : Nat → Byte) (m : BitVec 16 → Byte) :
    (p 7 ++ p 8).shiftConcat (p 9).msb ++ (p 9 ++ p 10).shiftConcat (m t).msb =
      (remainderOf p).shiftConcat (longAt m t).msb := by
  unfold remainderOf longAt
  rw [long_msb, ← shift_pair, append_msb]

theorem LongTurns.next {a b a' b' : Byte} {x y t' : BitVec 16} {c c' g g' z z' v v' : Bool}
    {mem mem' : BitVec 16 → Byte} {p p' : Nat → Byte}
    (h : LongTurns t s₀ n d (k + 1) ⟨⟨⟨a, b, x, y, c⟩, t', mem, g, z, v⟩, p⟩) (hcount : p' 5 = p 5 - 1#8)
    (hdiv : Divides n d k (longAt mem' (t + 6#16)) (remainderOf p'))
    (hmem : ∀ i : BitVec 16, i ≠ 6#16 → i ≠ 7#16 → i ≠ 8#16 → i ≠ 9#16 → mem' (t + i) = mem (t + i))
    (hpage : ∀ i, i ≠ 5 → i ≠ 7 → i ≠ 8 → i ≠ 9 → i ≠ 10 → p' i = p i) :
    LongTurns t s₀ n d k ⟨⟨⟨a', b', x, y, c'⟩, t', mem', g', z', v'⟩, p'⟩ := by
  refine ⟨h.x, h.stack, h.y, ?_, hdiv, ⟨fun i hi => ?_, fun i hi => ?_⟩⟩
  · have hdown : BitVec.ofNat 8 (k + 1) - 1#8 = BitVec.ofNat 8 k := by
      rw [BitVec.ofNat_add]
      exact BitVec.add_sub_cancel _ _
    rw [← hdown, ← h.count]
    exact hcount
  · refine (hmem i ?_ ?_ ?_ ?_).trans (h.spares.mem i hi) <;> rintro rfl <;> simp at hi
  · exact (hpage i (by omega) (by omega) (by omega) (by omega) (by omega)).trans (h.spares.page i hi)

/-- The register of the dividend, with a bit put in. -/
theorem longAt_shift {m : BitVec 16 → Byte} (bit : Bool) :
    ((m t <<< 1 ||| carryBit (m (t + 1#16)).msb) ++ (m (t + 1#16) <<< 1 ||| carryBit (m (t + 2#16)).msb)) ++
      ((m (t + 2#16) <<< 1 ||| carryBit (m (t + 3#16)).msb) ++ (m (t + 3#16) <<< 1 ||| carryBit bit)) =
      (longAt m t).shiftConcat bit := rotate_long _ _ _ _ _

theorem divide32_turn (hcode : im.Holds a divide32x32) (hk : k < 256) (hd : longAt s₀.mem t = d)
    {Q : BitVec 16 → State → Prop}
    (hnext : ∀ s, LongTurns t s₀ n d k s ∧ 0 < k → mc6809.LeavesAt im divide32x32 ⟨.divide32x32, .loop⟩ s Q)
    (hlast : ∀ s, LongTurns t s₀ n d 0 s → Q (s₀.mem (t + 65534#16) ++ s₀.mem (t + 65535#16)) { s with s := t }) (s : State)
    (hturn : LongTurns t s₀ n d (k + 1) s) : mc6809.LeavesAt im divide32x32 ⟨.divide32x32, .loop⟩ s Q := by
  apply Processor.leaves_wp hcode rfl (Processor.asserts_one (l := ⟨.divide32x32, .loop⟩) rfl hnext) 40 rfl
  have hmem := hturn.spares.mem
  have hdiv := hturn.divides
  have hcount := hturn.count
  obtain ⟨⟨⟨a, b, x, y, c⟩, t', mem, g, z, v⟩, p⟩ := s
  obtain rfl : x = t := hturn.x
  obtain rfl : t' = x + 65534#16 := hturn.stack
  simp only at hmem hdiv hcount
  have hzero : p 5 - 1#8 = 0#8 ↔ k = 0 := by
    rw [hcount]
    constructor
    · intro hzero
      bv_omega
    · rintro rfl
      rfl
  have hret : mem (x + 65534#16) ++ mem (x + 65535#16) = s₀.mem (x + 65534#16) ++ s₀.mem (x + 65535#16) := by
    rw [hmem _ (by simp), hmem _ (by simp)]
  have hdivisor : (mem x ++ mem (x + 1#16)) ++ (mem (x + 2#16) ++ mem (x + 3#16)) = d := by
    have h₀ := hmem 0#16 (by simp)
    rw [BitVec.add_zero] at h₀
    rw [h₀, hmem 1#16 (by simp), hmem 2#16 (by simp), hmem 3#16 (by simp)]
    exact hd
  have hshift := remainder_shift (t := x + 6#16) p mem
  simp [divide32x32, Image.behind, Processor.wp, BitVec.add_assoc, hzero, hret]
  have hregister := longAt_shift (t := x + 6#16) (m := mem)
  simp only [BitVec.add_assoc, BitVec.reduceAdd] at hregister
  have hhigh := rotate_word (p 7) (p 8) (p 9).msb
  generalize (p 7 ++ p 8).shiftConcat (p 9).msb = hi at hshift hhigh ⊢
  generalize (p 9 ++ p 10).shiftConcat (mem (x + 6#16)).msb = lo at hshift ⊢
  obtain ⟨hword, hborrow⟩ := sbc_word hi (mem x) (mem (x + 1#16)) (lo.ult (mem (x + 2#16) ++ mem (x + 3#16)))
  obtain ⟨hlong, hless⟩ := sub_long hi lo (mem x ++ mem (x + 1#16)) (mem (x + 2#16) ++ mem (x + 3#16))
  rw [hless, hdivisor, hshift] at hborrow
  rw [← hword, hdivisor, hshift] at hlong
  split
  · next h =>
    have hge : ¬(remainderOf p).shiftConcat (longAt mem (x + 6#16)).msb < d := by
      intro hlt
      rw [← BitVec.ult_iff_lt, ← hborrow, decide_eq_true_eq] at hlt
      omega
    have hstep := hdiv.subtract hge
    rw [← hlong, ← hregister] at hstep
    generalize hp : Function.update _ 5 _ = p'
    generalize hm : poke (x + 6#16) _ _ = mem'
    have hturns (a' b' : Byte) (c' g' z' v' : Bool) :
        LongTurns x s₀ n d k ⟨⟨⟨a', b', x, y, c'⟩, x + 65534#16, mem', g', z', v'⟩, p'⟩ := by
      refine hturn.next (by simp [← hp]) ?_ ?_ ?_
      · simpa [← hp, ← hm, longAt, remainderOf, BitVec.add_assoc] using hstep
      · intro i h₆ h₇ h₈ h₉
        simp [← hm, h₆, h₇, h₈, h₉]
      · intro i h₅ h₇ h₈ h₉ h₁₀
        simp [← hp, h₅, h₇, h₈, h₉, h₁₀]
    split
    · next hk =>
      subst hk
      exact hlast _ (hturns _ _ _ _ _ _)
    · next hk => exact ⟨hturns _ _ _ _ _ _, Nat.pos_of_ne_zero hk⟩
  · next h =>
    have hlt : (remainderOf p).shiftConcat (longAt mem (x + 6#16)).msb < d := by
      rw [← BitVec.ult_iff_lt, ← hborrow, decide_eq_true_eq]
      omega
    have hstep := hdiv.keep hlt
    rw [← hregister, ← hshift, ← hhigh] at hstep
    generalize hp : Function.update _ 5 _ = p'
    generalize hm : poke (x + 9#16) _ (poke _ _ _) = mem'
    have hturns (a' b' : Byte) (c' g' z' v' : Bool) :
        LongTurns x s₀ n d k ⟨⟨⟨a', b', x, y, c'⟩, x + 65534#16, mem', g', z', v'⟩, p'⟩ := by
      refine hturn.next (by simp [← hp]) ?_ ?_ ?_
      · simpa [← hp, ← hm, longAt, remainderOf, BitVec.add_assoc, bit_cleared] using hstep
      · intro i h₆ h₇ h₈ h₉
        simp [← hm, h₆, h₇, h₈, h₉]
      · intro i h₅ h₇ h₈ h₉ h₁₀
        simp [← hp, h₅, h₇, h₈, h₉, h₁₀]
    split
    · next hk =>
      subst hk
      exact hlast _ (hturns _ _ _ _ _ _)
    · next hk => exact ⟨hturns _ _ _ _ _ _, Nat.pos_of_ne_zero hk⟩

theorem divide32_loop (hcode : im.Holds a divide32x32) (hk : k < 256) (hd : longAt s₀.mem t = d)
    (hturn : LongTurns t s₀ n d (k + 1) s) :
    mc6809.LeavesAt im divide32x32 ⟨.divide32x32, .loop⟩ s fun a' s' =>
      a' = s₀.mem (t + 65534#16) ++ s₀.mem (t + 65535#16) ∧ ∃ s₁, LongTurns t s₀ n d 0 s₁ ∧ s' = { s₁ with s := t } := by
  induction k generalizing s with
  | zero =>
    exact divide32_turn hcode hk hd (fun s hs => absurd hs.2 (Nat.lt_irrefl 0)) (fun s hs => ⟨rfl, s, hs, rfl⟩) s hturn
  | succ k ih =>
    exact divide32_turn hcode hk hd (fun s hs => ih (Nat.lt_of_succ_lt hk) hs.1) (fun s hs => ⟨rfl, s, hs, rfl⟩) s hturn

end

/-- What `div32x32` leaves: the quotient is in the place of the dividend. -/
structure Divided (s s' : State) : Prop where
  x : s'.x = s.x
  stack : s'.s = s.s
  y : s'.y = s.y
  quotient : longAt s'.mem (s.s + 6#16) = longAt s.mem (s.s + 6#16) / longAt s.mem s.s
  remainder : remainderOf s'.page = longAt s.mem (s.s + 6#16) % longAt s.mem s.s
  mem (i : BitVec 16) (hi : i.toNat < 6 ∨ 9 < i.toNat) (hlt : i.toNat < 65534) : s'.mem (s.s + i) = s.mem (s.s + i)
  page (i : Nat) (hi : i < 5 ∨ i = 6 ∨ 10 < i) : s'.page i = s.page i

theorem div32x32_calls (hcode : im.Holds a divide32x32) (s : State) (hx : s.x = s.s) (hd : 0 < longAt s.mem s.s) :
    mc6809.Calls im ⟨.divide32x32, .div32x32⟩ s (Divided s) := by
  apply Processor.calls_of_leaves hcode rfl
  intro r
  let P (s₁ : State) : Prop := LongTurns s.s s₁ (longAt s.mem (s.s + 6#16)) (longAt s.mem s.s) 32 s₁ ∧
    s₁.mem (s.s + 65534#16) ++ s₁.mem (s.s + 65535#16) = r ∧ s₁.y = s.y ∧
    (∀ i : BitVec 16, i.toNat < 65534 → s₁.mem (s.s + i) = s.mem (s.s + i)) ∧
    ∀ i, i < 5 ∨ i = 6 ∨ 10 < i → s₁.page i = s.page i
  have hloop : ∀ s₁, P s₁ → mc6809.LeavesAt im divide32x32 ⟨.divide32x32, .loop⟩ s₁ fun a' s' => a' = r ∧ Divided s s' := by
    rintro s₁ ⟨hturn, hret, hy, hmem, hpage⟩
    intro b hb
    have hdivisor : longAt s₁.mem s.s = longAt s.mem s.s := by
      have h₀ := hmem 0#16 (by simp)
      rw [BitVec.add_zero] at h₀
      unfold longAt
      rw [h₀, hmem 1#16 (by simp), hmem 2#16 (by simp), hmem 3#16 (by simp)]
    obtain ⟨a', s', hrun, ha', s₂, hturns, rfl⟩ := divide32_loop hcode (by simp) hdivisor hturn b hb
    obtain ⟨hquotient, hremainder⟩ := hturns.divides.ends
    exact ⟨a', _, hrun, ha'.trans hret, hturns.x.trans hx.symm, rfl, hturns.y.trans hy, hquotient, hremainder,
      fun i hi hlt => (hturns.spares.mem i hi).trans (hmem i hlt),
      fun i hi => (hturns.spares.page i hi).trans (hpage i hi)⟩
  apply Processor.leaves_wp hcode rfl (Processor.asserts_one (l := ⟨.divide32x32, .loop⟩) rfl hloop) 20 rfl
  obtain ⟨⟨⟨a, b, x, y, c⟩, t, mem, g, z, v⟩, p⟩ := s
  obtain rfl : x = t := hx
  simp [divide32x32, Image.behind, Processor.wp, BitVec.add_assoc, P]
  generalize hp : Function.update _ 9 _ = p'
  generalize hm : poke (x + 65534#16) _ _ = mem'
  have hmem (i : BitVec 16) (hi : i.toNat < 65534) : mem' (x + i) = mem (x + i) := by
    have h₁ : i ≠ 65534#16 := by
      rintro rfl
      simp at hi
    have h₂ : i ≠ 65535#16 := by
      rintro rfl
      simp at hi
    simp [← hm, h₁, h₂]
  have hstart := divides_start (longAt mem (x + 6#16)) hd
  refine ⟨⟨rfl, rfl, rfl, by simp [← hp], ?_, ⟨fun i hi => rfl, fun i hi => rfl⟩⟩, fun i hi => ?_, fun i hi => ?_⟩
  · have hdividend : longAt mem' (x + 6#16) = longAt mem (x + 6#16) := by
      unfold longAt
      simp only [BitVec.add_assoc]
      rw [hmem _ (by simp), hmem _ (by simp), hmem _ (by simp), hmem _ (by simp)]
    have hnone : remainderOf p' = 0 := by simp [← hp, remainderOf]
    rw [hdividend, hnone]
    exact hstart
  · simpa [← hm] using hmem i hi
  · rw [← hp]
    have h₅ : i ≠ 5 := by omega
    have h₇ : i ≠ 7 := by omega
    have h₈ : i ≠ 8 := by omega
    have h₉ : i ≠ 9 := by omega
    have h₁₀ : i ≠ 10 := by omega
    simp [h₅, h₇, h₈, h₉, h₁₀]

/-! ## Routines with the left operand on the stack -/

/-- The long that the caller has left on the stack. -/
def leftLong (s : State) : BitVec 32 := longAt s.mem s.s

/-- The right operand. -/
def rightLong (s : State) : BitVec 32 := s.y ++ s.d

/-- What a routine leaves that takes a long off the stack, with `n` bytes of stack below it. -/
structure ComputesLong (n : Nat) (v : BitVec 32) (s s' : State) : Prop where
  long : s'.y ++ s'.d = v
  stack : s'.s = s.s + 4
  mem (i : BitVec 16) (hi : 4 ≤ i.toNat) (hlt : i.toNat < 2 ^ 16 - n) : s'.mem (s.s + i) = s.mem (s.s + i)
  page (i : Nat) (hi : i < 5) : s'.page i = s.page i

/-- A division whose divisor lies on the stack below a return address and the dividend at `t`. -/
theorem Divided.frame {t : BitVec 16} {s s' : State} (h : Divided s s') (hs : s.s = t + 65530#16) :
    longAt s'.mem t = longAt s.mem t / longAt s.mem (t + 65530#16) ∧
      remainderOf s'.page = longAt s.mem t % longAt s.mem (t + 65530#16) ∧
      s'.mem (t + 65534#16) = s.mem (t + 65534#16) ∧ s'.mem (t + 65535#16) = s.mem (t + 65535#16) ∧
      ∀ i : BitVec 16, 4 ≤ i.toNat → i.toNat < 65528 → s'.mem (t + i) = s.mem (t + i) := by
  obtain ⟨-, -, -, hquotient, hremainder, hmem, -⟩ := h
  rw [hs] at hquotient hremainder hmem
  have hbase : t + 65530#16 + 6#16 = t := by bv_omega
  rw [hbase] at hquotient hremainder
  refine ⟨hquotient, hremainder, ?_, ?_, fun i hi hlt => ?_⟩
  · have h₄ := hmem 4#16 (by simp) (by simp)
    rw [BitVec.add_assoc] at h₄
    exact h₄
  · have h₅ := hmem 5#16 (by simp) (by simp)
    rw [BitVec.add_assoc] at h₅
    exact h₅
  · have hat : t + 65530#16 + (i + 6#16) = t + i := by bv_omega
    rw [← hat]
    exact hmem _ (by bv_omega) (by bv_omega)

/-- The stack before a division: the divisor, the return address and the dividend at `t`. -/
structure Stacked (t r : BitVec 16) (n d : BitVec 32) (m m' : BitVec 16 → Byte) : Prop where
  divisor : longAt m' (t + 65530#16) = d
  ret : m' (t + 65534#16) ++ m' (t + 65535#16) = r
  dividend : longAt m' t = n
  above (i : BitVec 16) (hi : 4 ≤ i.toNat) (hlt : i.toNat < 65528) : m' (t + i) = m (t + i)

/-- And after it. -/
theorem Stacked.divided {t r : BitVec 16} {n d : BitVec 32} {m : BitVec 16 → Byte} {s s' : State}
    (h : Stacked t r n d m s.mem) (hdiv : Divided s s') (hs : s.s = t + 65530#16) :
    longAt s'.mem t = n / d ∧ remainderOf s'.page = n % d ∧ s'.mem (t + 65534#16) ++ s'.mem (t + 65535#16) = r ∧
      ∀ i : BitVec 16, 4 ≤ i.toNat → i.toNat < 65528 → s'.mem (t + i) = m (t + i) := by
  obtain ⟨hquotient, hremainder, hhigh, hlow, hmem⟩ := hdiv.frame hs
  rw [h.dividend, h.divisor] at hquotient hremainder
  refine ⟨hquotient, hremainder, ?_, fun i hi hlt => (hmem i hi hlt).trans (h.above i hi hlt)⟩
  rw [hhigh, hlow]
  exact h.ret

theorem stacked_push (t r h l : BitVec 16) (m : BitVec 16 → Byte) : Stacked t r (longAt m t) (h ++ l) m
    (poke (t + 65530#16) (hiByte h) (poke (t + 65531#16) (loByte h) (poke (t + 65532#16) (hiByte l)
      (poke (t + 65533#16) (loByte l) (poke (t + 65534#16) (hiByte r) (poke (t + 65535#16) (loByte r) m)))))) := by
  refine ⟨by simp [longAt, BitVec.add_assoc], by simp, by simp [longAt], fun i hi hlt => ?_⟩
  have hne (j : BitVec 16) (hj : 65528 ≤ j.toNat) : i ≠ j := by
    rintro rfl
    omega
  simp [hne]

theorem divul_calls (hcode : im.Holds a divul) {b : BitVec 16} (hdivide : im.Holds b divide32x32) (s : State)
    (hd : 0 < rightLong s) :
    mc6809.Calls im ⟨.__divul, .__divul⟩ s (ComputesLong 8 (leftLong s / rightLong s) s) := by
  apply Processor.calls_of_wp hcode rfl rfl 20
  intro r
  obtain ⟨⟨⟨a, b, x, y, c⟩, t, mem, g, z, v⟩, p⟩ := s
  have hstack := stacked_push t r y (a ++ b) mem
  simp [divul, Image.behind, Processor.wp, BitVec.add_assoc] at hstack ⊢
  generalize poke (t + 65530#16) _ _ = mem₀ at hstack ⊢
  refine Processor.Calls.mono (div32x32_calls hdivide _ rfl (by rw [hstack.divisor]; exact hd)) ?_
  rintro ⟨⟨⟨a₁, b₁, x₁, y₁, c₁⟩, t₁, mem₁, g₁, z₁, v₁⟩, p₁⟩ h
  obtain ⟨hquotient, -, hret, hmem⟩ := hstack.divided h rfl
  obtain rfl : x₁ = t + 65530#16 := h.x
  obtain rfl : t₁ = t + 65530#16 := h.stack
  simp [BitVec.add_assoc]
  exact ⟨hret, hquotient, rfl, hmem, fun i hi => h.page i (.inl hi)⟩

theorem remul_calls (hcode : im.Holds a remul) {b : BitVec 16} (hdivide : im.Holds b divide32x32) (s : State)
    (hd : 0 < rightLong s) :
    mc6809.Calls im ⟨.__remul, .__remul⟩ s (ComputesLong 8 (leftLong s % rightLong s) s) := by
  apply Processor.calls_of_wp hcode rfl rfl 20
  intro r
  obtain ⟨⟨⟨a, b, x, y, c⟩, t, mem, g, z, v⟩, p⟩ := s
  have hstack := stacked_push t r y (a ++ b) mem
  simp [remul, Image.behind, Processor.wp, BitVec.add_assoc] at hstack ⊢
  generalize poke (t + 65530#16) _ _ = mem₀ at hstack ⊢
  refine Processor.Calls.mono (div32x32_calls hdivide _ rfl (by rw [hstack.divisor]; exact hd)) ?_
  rintro ⟨⟨⟨a₁, b₁, x₁, y₁, c₁⟩, t₁, mem₁, g₁, z₁, v₁⟩, p₁⟩ h
  obtain ⟨-, hremainder, hret, hmem⟩ := hstack.divided h rfl
  obtain rfl : x₁ = t + 65530#16 := h.x
  obtain rfl : t₁ = t + 65530#16 := h.stack
  simp [BitVec.add_assoc]
  exact ⟨hret, hremainder, rfl, hmem, fun i hi => h.page i (.inl hi)⟩

/-! ## Signs -/

theorem complement_bytes (w : BitVec 16) : ~~~hiByte w ++ ~~~loByte w = ~~~w := by
  rw [← BitVec.not_append, Code6800.hi_append_lo]

theorem complement_long (h l : BitVec 16) :
    (~~~h + (carryBit (decide (2 ^ 16 ≤ (~~~l).toNat + 1))).setWidth 16) ++ (~~~l + 1#16) = -(h ++ l) := by
  have hadd := Code6800.add_long (~~~h) (~~~l) 0 1
  rw [BitVec.neg_eq_not_add, BitVec.not_append]
  simpa using hadd

theorem negatel_calls (hcode : im.Holds a negatel) (s : State) (hone : OneRight s) :
    mc6809.Calls im ⟨.__negatel, .__negatel⟩ s fun s' =>
      s'.y ++ s'.d = -(s.y ++ s.d) ∧ s'.x = s.x ∧ Leaf 2 s s' := by
  apply Processor.calls_of_wp hcode rfl rfl 20
  intro r
  obtain ⟨⟨⟨a, b, x, y, c⟩, t, mem, g, z, v⟩, p⟩ := s
  rw [oneRight_iff] at hone
  have hneg := complement_long y (a ++ b)
  rw [BitVec.not_append] at hneg
  simp [negatel, Image.behind, Processor.wp, BitVec.add_assoc, hone, leaf_iff, complement_bytes]
  split
  · next h =>
    have hno : decide (2 ^ 16 ≤ (~~~a ++ ~~~b).toNat + 1) = false := decide_eq_false (Nat.not_le.2 h)
    rw [hno] at hneg
    simpa [carryBit] using hneg
  · next h =>
    have hyes : decide (2 ^ 16 ≤ (~~~a ++ ~~~b).toNat + 1) = true := decide_eq_true (Nat.not_lt.1 h)
    rw [hyes] at hneg
    simpa [carryBit] using hneg

theorem negated_bytes (b₃ b₂ b₁ b₀ : Byte) :
    (~~~(b₃ - carryBit (decide (b₂.toNat < (carryBit ((b₁ ++ b₀).ult 1#16)).toNat))) ++
      ~~~(b₂ - carryBit ((b₁ ++ b₀).ult 1#16))) ++
      (~~~hiByte ((b₁ ++ b₀) - 1#16) ++ ~~~loByte ((b₁ ++ b₀) - 1#16)) = -((b₃ ++ b₂) ++ (b₁ ++ b₀)) := by
  have hword := (sbc_word (b₃ ++ b₂) 0 0 ((b₁ ++ b₀).ult 1#16)).1
  have hlong := (sub_long (b₃ ++ b₂) (b₁ ++ b₀) 0 1).1
  simp at hword hlong
  rw [complement_bytes, ← BitVec.not_append, ← BitVec.not_append, hword, hlong, BitVec.not_eq_neg_add]
  bv_omega

/-! ## Signed divisions -/

/-- Before the division of a signed routine, which began in `s`. -/
structure Signed (s : State) (r : BitVec 16) (n d : BitVec 32) (s₁ : State) : Prop where
  stack : s₁.s = s.s + 65530#16
  stacked : Stacked s.s r n d s.mem s₁.mem
  page (i : Nat) (hi : i < 5) : s₁.page i = s.page i

theorem Signed.oneRight {r : BitVec 16} {n d : BitVec 32} {s₁ : State} (h : Signed s r n d s₁) (hone : OneRight s) :
    OneRight s₁ := by
  rw [oneRight_iff] at hone ⊢
  rw [h.page 3 (by decide), h.page 4 (by decide)]
  exact hone

/-- What is called with the divisor on the stack. -/
theorem below_kept {t : BitVec 16} {m m' : BitVec 16 → Byte} (h : Above 2 (t + 65530#16) m m') :
    m' (t + 65534#16) ++ m' (t + 65535#16) = m (t + 65534#16) ++ m (t + 65535#16) ∧
      ∀ i : BitVec 16, 4 ≤ i.toNat → i.toNat < 65528 → m' (t + i) = m (t + i) := by
  have hat (i : BitVec 16) (hi : i.toNat < 65534) : m' (t + (65530#16 + i)) = m (t + (65530#16 + i)) := by
    rw [← BitVec.add_assoc]
    exact h i hi
  refine ⟨congr (congrArg _ (hat 4#16 (by simp))) (hat 5#16 (by simp)), fun i hi hlt => ?_⟩
  have hsame := hat (i + 6#16) (by bv_omega)
  have hi' : t + (65530#16 + (i + 6#16)) = t + i := by bv_omega
  rw [hi'] at hsame
  exact hsame

theorem divl_tail (hcode : im.Holds a divl) {b b' : BitVec 16} (hdivide : im.Holds b divide32x32)
    (hnegate : im.Holds b' negatel) {r : BitVec 16} {n d : BitVec 32} {s₁ : State} (hone : OneRight s) (hd : 0 < d)
    (h : Signed s r n d s₁) :
    mc6809.LeavesAt im divl ⟨.__divl, .nosignfix2⟩ s₁ fun a' s' =>
      a' = r ∧ ComputesLong 8 (if (s₁.page 11).getLsbD 0 then -(n / d) else n / d) s s' := by
  apply Processor.leaves_wp hcode rfl Processor.asserts_none 20 rfl
  have hone₁ := oneRight_iff.mp (h.oneRight hone)
  obtain ⟨hs, hstacked, hpage⟩ := h
  obtain ⟨⟨⟨a, b, x, y, c⟩, t, mem, g, z, v⟩, p⟩ := s₁
  simp only at hs hstacked hpage
  subst hs
  simp [divl, negateLeft, Image.behind, Processor.wp, BitVec.add_assoc]
  refine Processor.Calls.mono (div32x32_calls hdivide _ rfl (by rw [hstacked.divisor]; exact hd)) ?_
  rintro ⟨⟨⟨a₁, b₁, x₁, y₁, c₁⟩, t₁, mem₁, g₁, z₁, v₁⟩, p₁⟩ hdiv
  obtain ⟨hquotient, -, hret, hmem⟩ := hstacked.divided hdiv rfl
  obtain rfl : t₁ = s.s + 65530#16 := hdiv.stack
  obtain rfl : x₁ = s.s + 65530#16 := hdiv.x
  have hpage₁ := hdiv.page
  simp only at hquotient hret hmem hpage₁
  have hsign := hpage₁ 11 (by simp)
  simp [BitVec.add_assoc, hsign]
  split
  · next hbit =>
    have hone₂ : p₁ 3 ++ p₁ 4 = 1#16 := by
      rw [hpage₁ 3 (by simp), hpage₁ 4 (by simp)]
      exact hone₁
    refine Processor.Calls.mono (negatel_calls hnegate _ ?_) ?_
    · exact oneRight_iff.mpr hone₂
    rintro ⟨⟨⟨a₂, b₂, x₂, y₂, c₂⟩, t₂, mem₂, g₂, z₂, v₂⟩, p₂⟩ ⟨hneg, -, hs₂, hmem₂, hp₂⟩
    simp at hneg hs₂ hmem₂ hp₂
    subst hs₂ hp₂
    obtain ⟨hret₂, hsame⟩ := below_kept hmem₂
    have hfour := hret₂.trans hret
    simp [BitVec.add_assoc]
    refine ⟨hfour, ?_, rfl, fun i hi hlt => (hsame i hi hlt).trans (hmem i hi hlt),
      fun i hi => (hpage₁ i (.inl hi)).trans (hpage i hi)⟩
    rw [← hquotient]
    exact hneg
  · next hbit =>
    exact ⟨hret, hquotient, rfl, hmem, fun i hi => (hpage₁ i (.inl hi)).trans (hpage i hi)⟩

theorem counted {u : Byte} {negative sign : Bool} (hu : u = if negative then 1 else 0) (hsign : sign = false) :
    u[0] = (sign != negative) := by
  subst hu hsign
  cases negative <;> rfl

theorem counted_up {u : Byte} {negative sign : Bool} (hu : u = if negative then 1 else 0) (hsign : sign = true) :
    (u + 1#8)[0] = (sign != negative) := by
  subst hu hsign
  cases negative <;> rfl

/-- Before the left operand of a signed routine has been looked at. D is the high word of the divisor, and Y the low
one. -/
structure Halfway (s : State) (r : BitVec 16) (d : BitVec 32) (s₁ : State) : Prop where
  stack : s₁.s = s.s + 65534#16
  divisor : s₁.d ++ s₁.y = d
  under : Under 8 s.s r s.mem s₁.mem
  page (i : Nat) (hi : i < 5) : s₁.page i = s.page i

theorem Under.long {t r : BitVec 16} {m m₁ : BitVec 16 → Byte} (h : Under 8 t r m m₁) :
    longAt m₁ t = longAt m t ∧ m₁ (t + 65534#16) ++ m₁ (t + 65535#16) = r ∧
      ∀ i : BitVec 16, i.toNat < 65528 → m₁ (t + i) = m (t + i) := by
  have hmem : ∀ i : BitVec 16, i.toNat < 65528 → m₁ (t + i) = m (t + i) := h.above
  have h₀ := hmem 0#16 (by simp)
  rw [BitVec.add_zero] at h₀
  refine ⟨?_, h.ret, hmem⟩
  unfold longAt
  rw [h₀, hmem 1#16 (by simp), hmem 2#16 (by simp), hmem 3#16 (by simp)]

/-- The divisor is put on the stack. -/
theorem Under.push_divisor {t r y : BitVec 16} {a b : Byte} {m m₁ : BitVec 16 → Byte} (h : Under 8 t r m m₁) :
    Stacked t r (longAt m t) ((a ++ b) ++ y) m (poke (t + 65530#16) a (poke (t + 65531#16) b
      (poke (t + 65532#16) (hiByte y) (poke (t + 65533#16) (loByte y) m₁)))) := by
  obtain ⟨hlong, hret, hmem⟩ := h.long
  refine ⟨by simp [longAt, BitVec.add_assoc], by simpa using hret, ?_, fun i hi hlt => ?_⟩
  · rw [← hlong]
    simp [longAt]
  · have hne (j : BitVec 16) (hj : 65528 ≤ j.toNat) : i ≠ j := by
      rintro rfl
      omega
    simp [hne, hmem i hlt]

/-- The same with the left operand negated. -/
theorem Stacked.negated {t r : BitVec 16} {d : BitVec 32} {m m₁ : BitVec 16 → Byte} {b₃ b₂ b₁ b₀ b₁' b₀' : Byte}
    {n : BitVec 32} (h : Stacked t r (longAt m t) d m m₁) (hbytes : (b₃ ++ b₂) ++ (b₁ ++ b₀) = -longAt m t)
    (hn : n = -longAt m t) : Stacked t r n d m (poke (t + 3#16) b₀ (poke (t + 2#16) b₁ (poke t b₃ (poke (t + 1#16) b₂
      (poke (t + 2#16) b₁' (poke (t + 3#16) b₀' m₁)))))) := by
  obtain ⟨hd, hret, -, hmem⟩ := h
  refine ⟨?_, by simpa using hret, ?_, fun i hi hlt => ?_⟩
  · simpa [longAt, BitVec.add_assoc] using hd
  · rw [hn, ← hbytes]
    simp [longAt]
  · have hne (j : BitVec 16) (hj : j.toNat < 4) : i ≠ j := by
      rintro rfl
      omega
    simp [hne, hmem i hi hlt]

theorem divl_left (hcode : im.Holds a divl) {b b' : BitVec 16} (hdivide : im.Holds b divide32x32)
    (hnegate : im.Holds b' negatel) {r : BitVec 16} {d : BitVec 32} {s₁ : State} (hone : OneRight s) (hd : 0 < d)
    (h : Halfway s r d s₁) (negative : Bool) (hsign : s₁.page 11 = if negative then 1 else 0) :
    mc6809.LeavesAt im divl ⟨.__divl, .nosignfix⟩ s₁ fun a' s' => a' = r ∧
      ComputesLong 8 (if (leftLong s).msb == negative then (leftLong s).abs / d else -((leftLong s).abs / d)) s s' := by
  let P (s₂ : State) : Prop := Signed s r (leftLong s).abs d s₂ ∧
    (s₂.page 11).getLsbD 0 = ((leftLong s).msb != negative)
  have htail : ∀ s₂, P s₂ → mc6809.LeavesAt im divl ⟨.__divl, .nosignfix2⟩ s₂ fun a' s' => a' = r ∧
      ComputesLong 8 (if (leftLong s).msb == negative then (leftLong s).abs / d else -((leftLong s).abs / d)) s s' := by
    rintro s₂ ⟨hsigned, hbit⟩
    have hruns := divl_tail hcode hdivide hnegate hone hd hsigned
    rw [hbit] at hruns
    cases hm : (leftLong s).msb <;> cases negative <;> simpa [hm] using hruns
  apply Processor.leaves_wp hcode rfl (Processor.asserts_one (l := ⟨.__divl, .nosignfix2⟩) rfl htail) 30 rfl
  obtain ⟨hs, hdiv, hunder, hpage⟩ := h
  obtain ⟨⟨⟨a, b, x, y, c⟩, t, mem, g, z, v⟩, p⟩ := s₁
  simp only at hs hunder hpage hsign
  change (a ++ b) ++ y = d at hdiv
  subst hs hdiv
  have hstacked := hunder.push_divisor (a := a) (b := b) (y := y)
  obtain ⟨hlong, -, -⟩ := hunder.long
  have hbytes := negated_bytes (mem s.s) (mem (s.s + 1#16)) (mem (s.s + 2#16)) (mem (s.s + 3#16))
  change _ = -longAt mem s.s at hbytes
  have hmsb : (leftLong s).msb = (mem s.s).msb := by
    show (longAt s.mem s.s).msb = _
    rw [← hlong]
    exact long_msb _ _ _ _
  rw [hlong] at hbytes
  simp [divl, negateLeft, Image.behind, Processor.wp, BitVec.add_assoc, P, hmsb]
  split
  · next hneg =>
    rw [hneg] at hmsb
    have habs : (leftLong s).abs = -longAt s.mem s.s := by
      unfold BitVec.abs
      rw [hmsb]
      rfl
    refine ⟨⟨rfl, hstacked.negated hbytes habs, fun i hi => ?_⟩, ?_⟩
    · have hne : i ≠ 11 := by omega
      simp [hne, hpage i hi]
    · exact counted_up hsign hneg
  · next hneg =>
    rw [Bool.not_eq_true] at hneg
    rw [hneg] at hmsb
    have habs : (leftLong s).abs = longAt s.mem s.s := by
      unfold BitVec.abs
      rw [hmsb]
      rfl
    exact ⟨⟨rfl, habs ▸ hstacked, hpage⟩, counted hsign hneg⟩

theorem sign_word (y d : BitVec 16) : hiByte y &&& 128#8 = 0#8 ↔ (y ++ d).msb = false := by
  rw [and_sign, hiByte_msb, BitVec.msb_append]
  simp

theorem divl_calls (hcode : im.Holds a divl) {b b' : BitVec 16} (hdivide : im.Holds b divide32x32)
    (hnegate : im.Holds b' negatel) (s : State) (hone : OneRight s) (hd : 0 < rightLong s) :
    mc6809.Calls im ⟨.__divl, .__divl⟩ s (ComputesLong 8 ((leftLong s).sdiv (rightLong s)) s) := by
  apply Processor.calls_of_leaves hcode rfl
  intro r
  let P (s₁ : State) : Prop := Halfway s r (rightLong s).abs s₁ ∧ s₁.page 11 = if (rightLong s).msb then 1 else 0
  have hleft : ∀ s₁, P s₁ → mc6809.LeavesAt im divl ⟨.__divl, .nosignfix⟩ s₁ fun a' s' =>
      a' = r ∧ ComputesLong 8 ((leftLong s).sdiv (rightLong s)) s s' := by
    rintro s₁ ⟨hhalf, hsign⟩
    rw [sdiv_abs]
    exact divl_left hcode hdivide hnegate hone (abs_pos hd) hhalf _ hsign
  apply Processor.leaves_wp hcode rfl (Processor.asserts_one (l := ⟨.__divl, .nosignfix⟩) rfl hleft) 30 rfl
  have hone' := oneRight_iff.mp hone
  obtain ⟨⟨⟨a, b, x, y, c⟩, t, mem, g, z, v⟩, p⟩ := s
  simp only at hone'
  have hunder := under_push (n := 8) (t := t) (r := r) (m := mem) (by decide) (by decide)
  have hright := sign_word y (a ++ b)
  simp [divl, negateLeft, Image.behind, Processor.wp, BitVec.add_assoc, P]
  generalize poke (t + 65534#16) _ _ = mem₀ at hunder ⊢
  split
  · next h =>
    have hsign := hright.1 (of_decide_eq_true h)
    have habs : (hiByte y ++ loByte y) ++ (a ++ b) = (y ++ (a ++ b)).abs := by
      rw [Code6800.hi_append_lo, BitVec.abs, hsign]
      rfl
    refine ⟨⟨rfl, habs, hunder, fun i hi => ?_⟩, hsign⟩
    have hne : i ≠ 11 := by omega
    simp [hne]
  · next h =>
    have hsign : (y ++ (a ++ b)).msb = true := by
      rw [← Bool.not_eq_false, ← hright]
      exact fun heq => h (decide_eq_true heq)
    refine Processor.Calls.mono (negatel_calls hnegate _ ?_) ?_
    · exact oneRight_iff.mpr (by simpa using hone')
    rintro ⟨⟨⟨a₂, b₂, x₂, y₂, c₂⟩, t₂, mem₂, g₂, z₂, v₂⟩, p₂⟩ ⟨hneg, -, hs₂, hmem₂, hp₂⟩
    simp at hneg hs₂ hmem₂ hp₂
    subst hs₂ hp₂
    have habs : (hiByte y₂ ++ loByte y₂) ++ (a₂ ++ b₂) = (y ++ (a ++ b)).abs := by
      rw [Code6800.hi_append_lo, BitVec.abs, hsign, hneg]
      rfl
    refine ⟨⟨rfl, habs, hunder.call hmem₂ (by decide) (by decide), fun i hi => ?_⟩, ?_⟩
    · have hne : i ≠ 11 := by omega
      simp [hne]
    · have hcount : Function.update p 11 0#8 11 + 1#8 = if (y ++ (a ++ b)).msb then 1 else 0 := by simp [hsign]
      exact hcount

theorem reml_tail (hcode : im.Holds a reml) {b b' : BitVec 16} (hdivide : im.Holds b divide32x32)
    (hnegate : im.Holds b' negatel) {r : BitVec 16} {n d : BitVec 32} {s₁ : State} (hone : OneRight s) (hd : 0 < d)
    (h : Signed s r n d s₁) :
    mc6809.LeavesAt im reml ⟨.__reml, .nosignfix2⟩ s₁ fun a' s' =>
      a' = r ∧ ComputesLong 8 (if (s₁.page 11).msb then -(n % d) else n % d) s s' := by
  apply Processor.leaves_wp hcode rfl Processor.asserts_none 20 rfl
  have hone₁ := oneRight_iff.mp (h.oneRight hone)
  obtain ⟨hs, hstacked, hpage⟩ := h
  obtain ⟨⟨⟨a, b, x, y, c⟩, t, mem, g, z, v⟩, p⟩ := s₁
  simp only at hs hstacked hpage
  subst hs
  simp [reml, negateLeft, Image.behind, Processor.wp, BitVec.add_assoc]
  refine Processor.Calls.mono (div32x32_calls hdivide _ rfl (by rw [hstacked.divisor]; exact hd)) ?_
  rintro ⟨⟨⟨a₁, b₁, x₁, y₁, c₁⟩, t₁, mem₁, g₁, z₁, v₁⟩, p₁⟩ hdiv
  obtain ⟨-, hremainder, hret, hmem⟩ := hstacked.divided hdiv rfl
  obtain rfl : t₁ = s.s + 65530#16 := hdiv.stack
  obtain rfl : x₁ = s.s + 65530#16 := hdiv.x
  have hpage₁ := hdiv.page
  simp only at hremainder hret hmem hpage₁
  have hsign := hpage₁ 11 (by simp)
  simp [BitVec.add_assoc, hsign]
  split
  · next hbit =>
    have hone₂ : p₁ 3 ++ p₁ 4 = 1#16 := by
      rw [hpage₁ 3 (by simp), hpage₁ 4 (by simp)]
      exact hone₁
    refine Processor.Calls.mono (negatel_calls hnegate _ ?_) ?_
    · exact oneRight_iff.mpr hone₂
    rintro ⟨⟨⟨a₂, b₂, x₂, y₂, c₂⟩, t₂, mem₂, g₂, z₂, v₂⟩, p₂⟩ ⟨hneg, -, hs₂, hmem₂, hp₂⟩
    simp at hneg hs₂ hmem₂ hp₂
    subst hs₂ hp₂
    obtain ⟨hret₂, hsame⟩ := below_kept hmem₂
    simp [BitVec.add_assoc]
    refine ⟨hret₂.trans hret, ?_, rfl, fun i hi hlt => (hsame i hi hlt).trans (hmem i hi hlt),
      fun i hi => (hpage₁ i (.inl hi)).trans (hpage i hi)⟩
    rw [← hremainder]
    exact hneg
  · next hbit =>
    exact ⟨hret, hremainder, rfl, hmem, fun i hi => (hpage₁ i (.inl hi)).trans (hpage i hi)⟩

theorem reml_left (hcode : im.Holds a reml) {b b' : BitVec 16} (hdivide : im.Holds b divide32x32)
    (hnegate : im.Holds b' negatel) {r : BitVec 16} {d : BitVec 32} {s₁ : State} (hone : OneRight s) (hd : 0 < d)
    (h : Halfway s r d s₁) :
    mc6809.LeavesAt im reml ⟨.__reml, .nosignfix⟩ s₁ fun a' s' => a' = r ∧
      ComputesLong 8 (if (leftLong s).msb then -((leftLong s).abs % d) else (leftLong s).abs % d) s s' := by
  let P (s₂ : State) : Prop := Signed s r (leftLong s).abs d s₂ ∧ (s₂.page 11).msb = (leftLong s).msb
  have htail : ∀ s₂, P s₂ → mc6809.LeavesAt im reml ⟨.__reml, .nosignfix2⟩ s₂ fun a' s' => a' = r ∧
      ComputesLong 8 (if (leftLong s).msb then -((leftLong s).abs % d) else (leftLong s).abs % d) s s' := by
    rintro s₂ ⟨hsigned, hbit⟩
    rw [← hbit]
    exact reml_tail hcode hdivide hnegate hone hd hsigned
  apply Processor.leaves_wp hcode rfl (Processor.asserts_one (l := ⟨.__reml, .nosignfix2⟩) rfl htail) 30 rfl
  obtain ⟨hs, hdiv, hunder, hpage⟩ := h
  obtain ⟨⟨⟨a, b, x, y, c⟩, t, mem, g, z, v⟩, p⟩ := s₁
  simp only at hs hunder hpage
  change (a ++ b) ++ y = d at hdiv
  subst hs hdiv
  have hstacked := hunder.push_divisor (a := a) (b := b) (y := y)
  obtain ⟨hlong, -, -⟩ := hunder.long
  have hbytes := negated_bytes (mem s.s) (mem (s.s + 1#16)) (mem (s.s + 2#16)) (mem (s.s + 3#16))
  change _ = -longAt mem s.s at hbytes
  have hmsb : (leftLong s).msb = (mem s.s).msb := by
    show (longAt s.mem s.s).msb = _
    rw [← hlong]
    exact long_msb _ _ _ _
  rw [hlong] at hbytes
  have hp (i : Nat) (hi : i < 5) : Function.update p 11 (mem s.s) i = s.page i := by
    have hne : i ≠ 11 := by omega
    simp [hne, hpage i hi]
  simp [reml, negateLeft, Image.behind, Processor.wp, BitVec.add_assoc, P, hmsb]
  split
  · next hneg =>
    rw [hneg] at hmsb
    have habs : (leftLong s).abs = -longAt s.mem s.s := by
      unfold BitVec.abs
      rw [hmsb]
      rfl
    exact ⟨rfl, hstacked.negated hbytes habs, hp⟩
  · next hneg =>
    rw [Bool.not_eq_true] at hneg
    rw [hneg] at hmsb
    have habs : (leftLong s).abs = longAt s.mem s.s := by
      unfold BitVec.abs
      rw [hmsb]
      rfl
    exact ⟨rfl, habs ▸ hstacked, hp⟩

theorem reml_calls (hcode : im.Holds a reml) {b b' : BitVec 16} (hdivide : im.Holds b divide32x32)
    (hnegate : im.Holds b' negatel) (s : State) (hone : OneRight s) (hd : 0 < rightLong s) :
    mc6809.Calls im ⟨.__reml, .__reml⟩ s (ComputesLong 8 ((leftLong s).srem (rightLong s)) s) := by
  apply Processor.calls_of_leaves hcode rfl
  intro r
  let P (s₁ : State) : Prop := Halfway s r (rightLong s).abs s₁
  have hleft : ∀ s₁, P s₁ → mc6809.LeavesAt im reml ⟨.__reml, .nosignfix⟩ s₁ fun a' s' =>
      a' = r ∧ ComputesLong 8 ((leftLong s).srem (rightLong s)) s s' := by
    intro s₁ hhalf
    have hruns := reml_left hcode hdivide hnegate hone (abs_pos hd) hhalf
    rw [srem_abs]
    cases hm : (leftLong s).msb <;> simpa [hm, BitVec.abs] using hruns
  apply Processor.leaves_wp hcode rfl (Processor.asserts_one (l := ⟨.__reml, .nosignfix⟩) rfl hleft) 30 rfl
  have hone' := oneRight_iff.mp hone
  obtain ⟨⟨⟨a, b, x, y, c⟩, t, mem, g, z, v⟩, p⟩ := s
  simp only at hone'
  have hunder := under_push (n := 8) (t := t) (r := r) (m := mem) (by decide) (by decide)
  have hright := sign_word y (a ++ b)
  simp [reml, negateLeft, Image.behind, Processor.wp, BitVec.add_assoc, P]
  generalize poke (t + 65534#16) _ _ = mem₀ at hunder ⊢
  split
  · next h =>
    have hsign := hright.1 (of_decide_eq_true h)
    have habs : (hiByte y ++ loByte y) ++ (a ++ b) = (y ++ (a ++ b)).abs := by
      rw [Code6800.hi_append_lo, BitVec.abs, hsign]
      rfl
    exact ⟨rfl, habs, hunder, fun i hi => rfl⟩
  · next h =>
    have hsign : (y ++ (a ++ b)).msb = true := by
      rw [← Bool.not_eq_false, ← hright]
      exact fun heq => h (decide_eq_true heq)
    refine Processor.Calls.mono (negatel_calls hnegate _ ?_) ?_
    · exact oneRight_iff.mpr hone'
    rintro ⟨⟨⟨a₂, b₂, x₂, y₂, c₂⟩, t₂, mem₂, g₂, z₂, v₂⟩, p₂⟩ ⟨hneg, -, hs₂, hmem₂, hp₂⟩
    simp at hneg hs₂ hmem₂ hp₂
    subst hs₂ hp₂
    have habs : (hiByte y₂ ++ loByte y₂) ++ (a₂ ++ b₂) = (y ++ (a ++ b)).abs := by
      rw [Code6800.hi_append_lo, BitVec.abs, hsign, hneg]
      rfl
    exact ⟨rfl, habs, hunder.call hmem₂ (by decide) (by decide), fun i hi => rfl⟩

/-! ## What C says -/

inductive LongRoutine where
  | divl
  | reml
  | divul
  | remul
  deriving DecidableEq, Repr

namespace LongRoutine

def code : LongRoutine → Code
  | divl => Runtime.divl
  | reml => Runtime.reml
  | divul => Runtime.divul
  | remul => Runtime.remul

def entry : LongRoutine → Label
  | divl => ⟨.__divl, .__divl⟩
  | reml => ⟨.__reml, .__reml⟩
  | divul => ⟨.__divul, .__divul⟩
  | remul => ⟨.__remul, .__remul⟩

def answer (x y : BitVec 32) : LongRoutine → BitVec 32
  | divl => BitVec.ofInt 32 (x.toInt.tdiv y.toInt)
  | reml => BitVec.ofInt 32 (x.toInt.tmod y.toInt)
  | divul => BitVec.ofNat 32 (x.toNat / y.toNat)
  | remul => BitVec.ofNat 32 (x.toNat % y.toNat)

end LongRoutine

/-- Every routine comes back to its caller with the value of C in Y and D and the left operand off the stack. Only
eight bytes of stack are used. -/
theorem long_routines (f : LongRoutine) {b b' : BitVec 16} (hcode : im.Holds a f.code) (hdivide : im.Holds b divide32x32)
    (hnegate : im.Holds b' negatel) (hone : OneRight s) (hd : 0 < rightLong s) :
    mc6809.Calls im f.entry s (ComputesLong 8 (f.answer (leftLong s) (rightLong s)) s) := by
  cases f with
  | divl =>
    unfold LongRoutine.answer
    rw [← sdiv_toInt]
    exact divl_calls hcode hdivide hnegate s hone hd
  | reml =>
    unfold LongRoutine.answer
    rw [← srem_toInt]
    exact reml_calls hcode hdivide hnegate s hone hd
  | divul =>
    unfold LongRoutine.answer
    rw [← div_toNat]
    exact divul_calls hcode hdivide s hd
  | remul =>
    unfold LongRoutine.answer
    rw [← mod_toNat]
    exact remul_calls hcode hdivide s hd

/-- Y and D are -3 and the long on the stack is 100000. -/
def dividingLongs : State :=
  { a := 0xFF, b := 0xFD, x := 0, y := 0xFFFF, carry := false, s := 0x8000, negative := false, zero := false
    overflow := false
    mem := fun i => if i = 0x8001 then 0x01 else if i = 0x8002 then 0x86 else if i = 0x8003 then 0xA0 else 0
    page := fun i => if i = 4 then 1 else 0 }

theorem hundred_thousand_by_three :
    mc6809.Calls (Image.link 16 (divl ++ (divide32x32 ++ negatel))) ⟨.__divl, .__divl⟩ dividingLongs
      (ComputesLong 8 (-33333) dividingLongs) := by
  have hlinked : (Image.link 16 (divl ++ (divide32x32 ++ negatel))).Holds 0 (divl ++ (divide32x32 ++ negatel)) :=
    Image.holds_link (by decide) (by decide)
  obtain ⟨b, hrest⟩ := Image.holds_append hlinked
  obtain ⟨b', hnegate⟩ := Image.holds_append hrest
  exact long_routines .divl (Image.holds_prefix hlinked) (Image.holds_prefix hrest) hnegate (by unfold OneRight; decide)
    (by decide)

end Fuzemsys.Fcc.Runtime
