import Fuzemsys.Lib.ShiftDivide
import Fuzemsys.Fcc.RuntimeRuns

/-!
# Products and quotients of words
-/

open Fuzemsys.Lib

namespace Fuzemsys.Fcc.Runtime

open Code6800 (hiByte loByte carryBit append_toNat hiByte_toNat loByte_toNat carryBit_toNat)

variable {im : Linked} {a : BitVec 16} {s : State}

/-! ## __mul -/

theorem mul_toNat (x y : Byte) : (x.setWidth 16 * y.setWidth 16).toNat = x.toNat * y.toNat := by
  have hle : x.toNat * y.toNat ≤ 255 * 255 := Nat.mul_le_mul (Nat.le_of_lt_succ x.isLt) (Nat.le_of_lt_succ y.isLt)
  rw [BitVec.toNat_mul, BitVec.toNat_setWidth_of_le (by simp), BitVec.toNat_setWidth_of_le (by simp)]
  exact Nat.mod_eq_of_lt (Nat.lt_of_le_of_lt hle (by simp))

theorem word_product (lh ll rh rl : Byte) :
    loByte (lh.setWidth 16 * rl.setWidth 16) + (loByte (ll.setWidth 16 * rh.setWidth 16) + hiByte (ll.setWidth 16 * rl.setWidth 16)) ++
      loByte (ll.setWidth 16 * rl.setWidth 16) = (lh ++ ll) * (rh ++ rl) := by
  apply BitVec.eq_of_toNat_eq
  rw [append_toNat, BitVec.toNat_mul, append_toNat, append_toNat]
  simp only [BitVec.toNat_add, loByte_toNat, hiByte_toNat, mul_toNat]
  have hright : (lh.toNat * 2 ^ 8 + ll.toNat) * (rh.toNat * 2 ^ 8 + rl.toNat) =
      lh.toNat * rh.toNat * 65536 + (lh.toNat * rl.toNat + ll.toNat * rh.toNat) * 256 + ll.toNat * rl.toNat := by ring
  rw [hright]
  generalize lh.toNat * rh.toNat = hh
  generalize lh.toNat * rl.toNat = hl
  generalize ll.toNat * rh.toNat = lh
  generalize ll.toNat * rl.toNat = ll
  omega

theorem mul_calls (hcode : im.Holds a mul) (s : State) :
    mc6809.Calls im ⟨.__mul, .__mul⟩ s (Computes 6 (leftWord s * s.d) s) := by
  apply Processor.calls_of_wp hcode rfl rfl 20
  intro r
  obtain ⟨⟨⟨a, b, x, y, c⟩, t, mem, n, z, v⟩, p⟩ := s
  simp [mul, Image.behind, Processor.wp, BitVec.add_assoc]
  exact ⟨by simp [leftWord, word_product], rfl, by simp, rfl⟩

/-! ## div16x16 -/

theorem carryBit_or (a : Byte) (c : Bool) : a <<< 1 ||| carryBit c = a.shiftConcat c := by
  apply BitVec.eq_of_getLsbD_eq
  intro i hi
  rw [BitVec.getLsbD_or, BitVec.getLsbD_shiftLeft, BitVec.getLsbD_shiftConcat]
  cases i with
  | zero => cases c <;> simp [carryBit]
  | succ i => cases c <;> simp [carryBit]

@[simp]
theorem rotate_word (a b : Byte) (c : Bool) :
    (a <<< 1 ||| carryBit b.msb) ++ (b <<< 1 ||| carryBit c) = (a ++ b).shiftConcat c := by
  rw [carryBit_or, carryBit_or]
  apply BitVec.eq_of_getLsbD_eq
  intro i hi
  simp only [BitVec.getLsbD_append, BitVec.getLsbD_shiftConcat, BitVec.msb_eq_getLsbD_last]
  grind

@[simp]
theorem hiByte_msb (x : BitVec 16) : (hiByte x).msb = x.msb := by
  simp [hiByte, BitVec.msb_eq_getLsbD_last]

@[simp]
theorem shiftConcat_add_one (x : BitVec 16) : x.shiftConcat false + 1#16 = x.shiftConcat true := by
  apply BitVec.eq_of_toNat_eq
  rw [BitVec.toNat_add, BitVec.toNat_shiftConcat, BitVec.toNat_shiftConcat, Nat.mod_add_mod]
  rfl

@[simp]
theorem shiftConcat_sub_one (x : BitVec 16) : x.shiftConcat true + 65535#16 = x.shiftConcat false := by
  rw [← shiftConcat_add_one, BitVec.add_assoc]
  exact BitVec.add_zero _

/-- What the loop finds with `k` turns to go: the counter, the divisor and the return address are on the stack. -/
structure Turns (s₀ : State) (n d : BitVec 16) (k : Nat) (s : State) : Prop where
  stack : s.s = s₀.s
  count : s.mem s₀.s = BitVec.ofNat 8 k
  divisor : s.mem (s₀.s + 1) ++ s.mem (s₀.s + 2) = d
  mem : Above 1 (s₀.s + 1) s₀.mem s.mem
  divides : Divides n d k s.x s.d
  y : s.y = s₀.y
  page : s.page = s₀.page

/-- The quotient is in X and the remainder in D. -/
structure Quotient (s₀ : State) (n d : BitVec 16) (s : State) : Prop where
  x : s.x = n / d
  d : s.d = n % d
  stack : s.s = s₀.s + 5
  mem : Above 1 (s₀.s + 1) s₀.mem s.mem
  y : s.y = s₀.y
  page : s.page = s₀.page

section
variable {s₀ : State} {n d : BitVec 16} {k : Nat}

/-- The counter goes down. -/
theorem Turns.next {a b a' b' : Byte} {x y x' t : BitVec 16} {c c' g g' z z' v v' : Bool} {mem : BitVec 16 → Byte} {p : Nat → Byte}
    (hturn : Turns s₀ n d (k + 1) ⟨⟨⟨a, b, x, y, c⟩, t, mem, g, z, v⟩, p⟩) (hdiv : Divides n d k x' (a' ++ b')) :
    Turns s₀ n d k ⟨⟨⟨a', b', x', y, c'⟩, t, poke t (mem t - 1#8) mem, g', z', v'⟩, p⟩ := by
  obtain ⟨rfl, hcount, hd, hmem, -, hy, hp⟩ := hturn
  have hcount : mem s₀.s = BitVec.ofNat 8 (k + 1) := hcount
  have hd : mem (s₀.s + 1) ++ mem (s₀.s + 2) = d := hd
  have hmem' : Above 1 (s₀.s + 1) s₀.mem (poke (s₀.s + 1 + 65535#16) (mem s₀.s - 1#8) mem) :=
    (above_poke (by simp)).mpr hmem
  rw [BitVec.add_assoc, show (1 : BitVec 16) + 65535#16 = 0#16 from rfl, BitVec.add_zero] at hmem'
  refine ⟨rfl, ?_, ?_, hmem', hdiv, hy, hp⟩
  · have hdown : BitVec.ofNat 8 (k + 1) - 1#8 = BitVec.ofNat 8 k := by
      rw [BitVec.ofNat_add]
      exact BitVec.add_sub_cancel _ _
    simp [hcount, hdown]
  · simpa using hd

theorem Turns.last (hturn : Turns s₀ n d 0 s) : Quotient s₀ n d { s with s := s.s + 5 } := by
  obtain ⟨hs, -, -, hmem, hdiv, hy, hp⟩ := hturn
  obtain ⟨hx, hd⟩ := hdiv.ends
  exact ⟨hx, hd, congrArg (· + 5) hs, hmem, hy, hp⟩

theorem divide_turn (hcode : im.Holds a divide) (hk : k < 256) {Q : BitVec 16 → State → Prop}
    (hnext : ∀ s, Turns s₀ n d k s ∧ 0 < k → mc6809.LeavesAt im divide ⟨.divide, .loop⟩ s Q)
    (hlast : ∀ s, Turns s₀ n d 0 s → Q (s₀.mem (s₀.s + 3#16) ++ s₀.mem (s₀.s + 4#16)) { s with s := s.s + 5#16 }) (s : State)
    (hturn : Turns s₀ n d (k + 1) s) : mc6809.LeavesAt im divide ⟨.divide, .loop⟩ s Q := by
  apply Processor.leaves_wp hcode rfl (Processor.asserts_one (l := ⟨.divide, .loop⟩) rfl hnext) 20 rfl
  obtain ⟨⟨⟨a, b, x, y, c⟩, t, mem, g, z, v⟩, p⟩ := s
  have hdiv : Divides n d (k + 1) x (a ++ b) := hturn.divides
  have hs : t = s₀.s := hturn.stack
  have hcount : mem t = BitVec.ofNat 8 (k + 1) := by
    rw [hs]
    exact hturn.count
  have hdivisor : mem (t + 1#16) ++ mem (t + 2#16) = d := by
    rw [hs]
    exact hturn.divisor
  have hret : mem (t + 3#16) ++ mem (t + 4#16) = s₀.mem (s₀.s + 3#16) ++ s₀.mem (s₀.s + 4#16) := by
    have hhigh := hturn.mem 2#16 (by simp)
    have hlow := hturn.mem 3#16 (by simp)
    rw [BitVec.add_assoc, ← hs] at hhigh hlow
    rw [← hs]
    exact congr (congrArg _ hhigh) hlow
  have hzero : mem t - 1#8 = 0#8 ↔ k = 0 := by
    rw [hcount]
    constructor
    · intro hzero
      bv_omega
    · rintro rfl
      rfl
  simp [divide, Image.behind, Processor.wp, BitVec.add_assoc, hdivisor, hret, hzero]
  simp only [BitVec.ult_iff_lt]
  by_cases hlt : (a ++ b).shiftConcat x.msb < d
  · have hnext := hdiv.keep hlt
    rw [if_pos hlt]
    split
    · next hk =>
      subst hk
      exact hlast _ (hturn.next (by simpa using hnext))
    · next hk => exact ⟨hturn.next (by simpa using hnext), Nat.pos_of_ne_zero hk⟩
  · have hnext := hdiv.subtract hlt
    rw [if_neg hlt]
    split
    · next hk =>
      subst hk
      exact hlast _ (hturn.next (by simpa using hnext))
    · next hk => exact ⟨hturn.next (by simpa using hnext), Nat.pos_of_ne_zero hk⟩

theorem divide_loop (hcode : im.Holds a divide) (hk : k < 256) (hturn : Turns s₀ n d (k + 1) s) :
    mc6809.LeavesAt im divide ⟨.divide, .loop⟩ s fun a' s' =>
      a' = s₀.mem (s₀.s + 3) ++ s₀.mem (s₀.s + 4) ∧ Quotient s₀ n d s' := by
  induction k generalizing s with
  | zero => exact divide_turn hcode hk (fun s hs => absurd hs.2 (Nat.lt_irrefl 0)) (fun s hs => ⟨rfl, hs.last⟩) s hturn
  | succ k ih =>
    exact divide_turn hcode hk (fun s hs => ih (Nat.lt_of_succ_lt hk) hs.1) (fun s hs => ⟨rfl, hs.last⟩) s hturn

theorem div16x16_calls (hcode : im.Holds a divide) (s : State) (hd : 0 < s.d) :
    mc6809.Calls im ⟨.divide, .div16x16⟩ s fun s' =>
      s'.x = s.x / s.d ∧ s'.d = s.x % s.d ∧ s'.y = s.y ∧ Leaf 5 s s' := by
  apply Processor.calls_of_leaves hcode rfl
  intro r
  let P (s₁ : State) : Prop := Turns s₁ s.x s.d 16 s₁ ∧ s₁.s = s.s + 65531#16 ∧
    s₁.mem (s₁.s + 3) ++ s₁.mem (s₁.s + 4) = r ∧ Above 5 s.s s.mem s₁.mem ∧ s₁.y = s.y ∧ s₁.page = s.page
  have hloop : ∀ s₁, P s₁ → mc6809.LeavesAt im divide ⟨.divide, .loop⟩ s₁ fun a' s' => a' = r ∧
      (s'.x = s.x / s.d ∧ s'.d = s.x % s.d ∧ s'.y = s.y ∧ Leaf 5 s s') := by
    rintro s₁ ⟨hturn, hs, hret, hmem, hy, hp⟩
    intro b hb
    obtain ⟨a', s', hrun, ha', hq⟩ := divide_loop hcode (by simp) hturn b hb
    refine ⟨a', s', hrun, ha'.trans hret, hq.x, hq.d, hq.y.trans hy, ?_, ?_, hq.page.trans hp⟩
    · rw [hq.stack, hs]
      bv_omega
    · have hq' := hq.mem
      rw [hs, BitVec.add_assoc] at hq'
      exact hmem.trans (hq'.raise (by simp))
  apply Processor.leaves_wp hcode rfl (Processor.asserts_one (l := ⟨.divide, .loop⟩) rfl hloop) 20 rfl
  obtain ⟨⟨⟨a, b, x, y, c⟩, t, mem, g, z, v⟩, p⟩ := s
  have hstart : Divides x (a ++ b) 16 x (0#8 ++ 0#8) := divides_start x hd
  simp [divide, Image.behind, Processor.wp, BitVec.add_assoc, P]
  exact ⟨rfl, by simp, by simp [BitVec.add_assoc], Above.refl, hstart, rfl, rfl⟩

end

/-! ## Signs -/

theorem complement_word (w : BitVec 16) : ~~~hiByte (w - 1#16) ++ ~~~loByte (w - 1#16) = -w := by
  have hnot (u : BitVec 16) : ~~~hiByte u ++ ~~~loByte u = ~~~u := by
    rw [← BitVec.not_append, Code6800.hi_append_lo]
  rw [hnot, BitVec.not_eq_neg_add]
  bv_omega

theorem and_sign (b : Byte) : b &&& 128#8 = 0#8 ↔ b.msb = false := by
  revert b
  decide

theorem append_msb (a b : Byte) : (a ++ b).msb = a.msb := by
  rw [BitVec.msb_append]
  simp

theorem negd_calls {file : File} (hcode : im.Holds a (absolute file)) (s : State) (hone : OneRight s) :
    mc6809.Calls im ⟨file, .negd⟩ s fun s' =>
      s'.d = -s.d ∧ s'.x = s.x ∧ s'.y = s.y ∧ Leaf 2 s s' := by
  apply Processor.calls_of_wp hcode (by simp [Processor.Closed, Image.Defines, absolute]) (by simp [Image.Defines, absolute]) 20
  intro r
  obtain ⟨⟨⟨a, b, x, y, c⟩, t, mem, g, z, v⟩, p⟩ := s
  rw [oneRight_iff] at hone
  simp [absolute, Image.behind, Processor.wp, BitVec.add_assoc, hone, complement_word, leaf_iff]

theorem absd_calls {file : File} (hcode : im.Holds a (absolute file)) (s : State) (hone : OneRight s) :
    mc6809.Calls im ⟨file, .absd⟩ s fun s' =>
      s'.d = s.d.abs ∧ s'.x = s.x ∧ s'.y = (if s.d.msb then s.y + 1 else s.y) ∧ Leaf 2 s s' := by
  apply Processor.calls_of_wp hcode (by simp [Processor.Closed, Image.Defines, absolute]) (by simp [Image.Defines, absolute]) 20
  intro r
  obtain ⟨⟨⟨a, b, x, y, c⟩, t, mem, g, z, v⟩, p⟩ := s
  rw [oneRight_iff] at hone
  simp [absolute, Image.behind, Processor.wp, BitVec.add_assoc, hone, BitVec.abs, complement_word, leaf_iff]
  split
  · next h =>
    have hsign := (and_sign a).1 (of_decide_eq_true h)
    simp [append_msb, hsign]
  · next h =>
    have hsign : a.msb = true := by
      rw [← Bool.not_eq_false, ← and_sign]
      exact fun heq => h (decide_eq_true heq)
    simp [append_msb, hsign]

theorem srem_abs {n : Nat} (x y : BitVec n) : x.srem y = if x.msb then -(-x % y.abs) else x % y.abs := by
  rw [BitVec.srem_eq]
  unfold BitVec.abs
  cases x.msb <;> cases y.msb <;> rfl

theorem sdiv_abs {n : Nat} (x y : BitVec n) : x.sdiv y = if x.msb == y.msb then x.abs / y.abs else -(x.abs / y.abs) := by
  rw [BitVec.sdiv_eq]
  unfold BitVec.abs
  cases x.msb <;> cases y.msb <;> rfl

theorem abs_pos {n : Nat} {x : BitVec n} (hx : 0 < x) : 0 < x.abs := by
  unfold BitVec.abs
  split
  · show 0 < -x
    rw [BitVec.lt_def] at hx ⊢
    rw [BitVec.toNat_neg]
    have := x.isLt
    simp only [BitVec.ofNat_eq_ofNat, BitVec.toNat_ofNat, Nat.zero_mod] at hx ⊢
    rw [Nat.mod_eq_of_lt (by omega)]
    omega
  · exact hx

/-- The object of a compound assignment. -/
def wordAtX (s : State) : BitVec 16 := s.mem s.x ++ s.mem (s.x + 1)

/-! ## Routines with the left operand on the stack -/

theorem divu_calls (hcode : im.Holds a divu) {b : BitVec 16} (hdivide : im.Holds b divide) (s : State) (hd : 0 < s.d) :
    mc6809.Calls im ⟨.__divu, .__divu⟩ s (Computes 9 (leftWord s / s.d) s) := by
  apply Processor.calls_of_wp hcode rfl rfl 20
  intro r
  obtain ⟨⟨⟨a, b, x, y, c⟩, t, mem, g, z, v⟩, p⟩ := s
  have hu := under_push (n := 9) (t := t) (r := r) (m := mem) (by decide) (by decide)
  simp [divu, Image.behind, Processor.wp, leftWord, BitVec.add_assoc]
  refine Processor.Calls.mono (div16x16_calls hdivide _ hd) ?_
  rintro ⟨⟨⟨a₁, b₁, x₁, y₁, c₁⟩, t₁, mem₁, g₁, z₁, v₁⟩, p₁⟩ ⟨hx₁, -, -, hs₁, hmem₁, hp₁⟩
  simp at hx₁ hs₁ hmem₁ hp₁
  subst hs₁ hp₁
  have hu₁ := hu.call hmem₁ (by decide) (by decide)
  simp [BitVec.add_assoc, hu₁.ret]
  exact ⟨by simp [hx₁], by simp, hu₁.above, rfl⟩

theorem remu_calls (hcode : im.Holds a divu) {b : BitVec 16} (hdivide : im.Holds b divide) (s : State) (hd : 0 < s.d) :
    mc6809.Calls im ⟨.__divu, .__remu⟩ s (Computes 9 (leftWord s % s.d) s) := by
  apply Processor.calls_of_wp hcode rfl rfl 20
  intro r
  obtain ⟨⟨⟨a, b, x, y, c⟩, t, mem, g, z, v⟩, p⟩ := s
  have hu := under_push (n := 9) (t := t) (r := r) (m := mem) (by decide) (by decide)
  simp [divu, Image.behind, Processor.wp, leftWord, BitVec.add_assoc]
  refine Processor.Calls.mono (div16x16_calls hdivide _ hd) ?_
  rintro ⟨⟨⟨a₁, b₁, x₁, y₁, c₁⟩, t₁, mem₁, g₁, z₁, v₁⟩, p₁⟩ ⟨-, hd₁, -, hs₁, hmem₁, hp₁⟩
  simp at hd₁ hs₁ hmem₁ hp₁
  subst hs₁ hp₁
  have hu₁ := hu.call hmem₁ (by decide) (by decide)
  simp [BitVec.add_assoc, hu₁.ret]
  exact ⟨by simp [hd₁], by simp, hu₁.above, rfl⟩

theorem rem_calls (hcode : im.Holds a div) {b : BitVec 16} (hdivide : im.Holds b divide) (s : State) (hone : OneRight s)
    (hd : 0 < s.d) : mc6809.Calls im ⟨.__div, .__rem⟩ s (Computes 9 ((leftWord s).srem s.d) s) := by
  obtain ⟨b', habs⟩ := Image.holds_append hcode
  apply Processor.calls_of_wp hcode rfl rfl 20
  intro r
  obtain ⟨⟨⟨a, b, x, y, c⟩, t, mem, g, z, v⟩, p⟩ := s
  rw [oneRight_iff] at hone
  have hu := under_push (n := 9) (t := t) (r := r) (m := mem) (by decide) (by decide)
  simp [div, Image.behind, Processor.wp, leftWord, BitVec.add_assoc]
  generalize poke (t + 65534#16) (hiByte r) (poke (t + 65535#16) (loByte r) mem) = mem₀ at hu ⊢
  refine Processor.Calls.mono (absd_calls habs _ (oneRight_iff.mpr hone)) ?_
  rintro ⟨⟨⟨a₁, b₁, x₁, y₁, c₁⟩, t₁, mem₁, g₁, z₁, v₁⟩, p₁⟩ ⟨hd₁, -, -, hs₁, hmem₁, hp₁⟩
  simp at hd₁ hs₁ hmem₁ hp₁
  subst hs₁ hp₁
  have hu₁ := hu.call hmem₁ (by decide) (by decide)
  obtain ⟨hlh, hll⟩ := hu₁.left (by decide)
  simp [BitVec.add_assoc, hlh, hll]
  rw [srem_abs]
  have hpos := abs_pos hd
  simp at hpos
  split
  · next hsign =>
    refine Processor.Calls.mono (negd_calls habs _ (oneRight_iff.mpr hone)) ?_
    rintro ⟨⟨⟨a₂, b₂, x₂, y₂, c₂⟩, t₂, mem₂, g₂, z₂, v₂⟩, p₂⟩ ⟨hd₂, hx₂, -, hs₂, hmem₂, hp₂⟩
    simp at hd₂ hx₂ hs₂ hmem₂ hp₂
    subst hs₂ hp₂ hx₂
    have hu₂ := hu₁.call hmem₂ (by decide) (by decide)
    refine Processor.Calls.mono (div16x16_calls hdivide _ (by simp [hd₁, hpos])) ?_
    rintro ⟨⟨⟨a₃, b₃, x₃, y₃, c₃⟩, t₃, mem₃, g₃, z₃, v₃⟩, p₃⟩ ⟨-, hd₃, -, hs₃, hmem₃, hp₃⟩
    simp at hd₃ hs₃ hmem₃ hp₃
    subst hs₃ hp₃
    have hu₃ := hu₂.call hmem₃ (by decide) (by decide)
    refine Processor.Calls.mono (negd_calls habs _ (oneRight_iff.mpr hone)) ?_
    rintro ⟨⟨⟨a₄, b₄, x₄, y₄, c₄⟩, t₄, mem₄, g₄, z₄, v₄⟩, p₄⟩ ⟨hd₄, -, -, hs₄, hmem₄, hp₄⟩
    simp at hd₄ hs₄ hmem₄ hp₄
    subst hs₄ hp₄
    have hu₄ := hu₃.call hmem₄ (by decide) (by decide)
    simp [BitVec.add_assoc, hu₄.ret]
    exact ⟨by simp [hd₄, hd₃, hd₂, hd₁], by simp, hu₄.above, rfl⟩
  · next hsign =>
    refine Processor.Calls.mono (div16x16_calls hdivide _ (by simp [hd₁, hpos])) ?_
    rintro ⟨⟨⟨a₃, b₃, x₃, y₃, c₃⟩, t₃, mem₃, g₃, z₃, v₃⟩, p₃⟩ ⟨-, hd₃, -, hs₃, hmem₃, hp₃⟩
    simp at hd₃ hs₃ hmem₃ hp₃
    subst hs₃ hp₃
    have hu₃ := hu₁.call hmem₃ (by decide) (by decide)
    simp [BitVec.add_assoc, hu₃.ret]
    exact ⟨by simp [hd₃, hd₁], by simp, hu₃.above, rfl⟩

/-- Y has counted the signs. -/
theorem signs_counted {x y n : BitVec 16}
    (hn : n = if x.msb then (if y.msb then 1#16 else 0#16) + 1#16 else if y.msb then 1#16 else 0#16) :
    n - 1#16 = 0#16 ↔ x.msb ≠ y.msb := by
  subst hn
  cases x.msb <;> cases y.msb <;> decide

theorem div_calls (hcode : im.Holds a div) {b : BitVec 16} (hdivide : im.Holds b divide) (s : State) (hone : OneRight s)
    (hd : 0 < s.d) : mc6809.Calls im ⟨.__div, .__div⟩ s (Computes 9 ((leftWord s).sdiv s.d) s) := by
  obtain ⟨b', habs⟩ := Image.holds_append hcode
  apply Processor.calls_of_wp hcode rfl rfl 20
  intro r
  obtain ⟨⟨⟨a, b, x, y, c⟩, t, mem, g, z, v⟩, p⟩ := s
  rw [oneRight_iff] at hone
  have hu := under_push (n := 9) (t := t) (r := r) (m := mem) (by decide) (by decide)
  simp [div, Image.behind, Processor.wp, leftWord, BitVec.add_assoc]
  generalize poke (t + 65534#16) (hiByte r) (poke (t + 65535#16) (loByte r) mem) = mem₀ at hu ⊢
  refine Processor.Calls.mono (absd_calls habs _ (oneRight_iff.mpr hone)) ?_
  rintro ⟨⟨⟨a₁, b₁, x₁, y₁, c₁⟩, t₁, mem₁, g₁, z₁, v₁⟩, p₁⟩ ⟨hd₁, -, hy₁, hs₁, hmem₁, hp₁⟩
  simp at hd₁ hy₁ hs₁ hmem₁ hp₁
  subst hs₁ hp₁
  have hu₁ := hu.call hmem₁ (by decide) (by decide)
  obtain ⟨hlh, hll⟩ := hu₁.left (by decide)
  simp [BitVec.add_assoc, hlh, hll]
  refine Processor.Calls.mono (absd_calls habs _ (oneRight_iff.mpr hone)) ?_
  rintro ⟨⟨⟨a₂, b₂, x₂, y₂, c₂⟩, t₂, mem₂, g₂, z₂, v₂⟩, p₂⟩ ⟨hd₂, hx₂, hy₂, hs₂, hmem₂, hp₂⟩
  simp at hd₂ hx₂ hy₂ hs₂ hmem₂ hp₂
  subst hs₂ hp₂ hx₂
  have hu₂ := hu₁.call hmem₂ (by decide) (by decide)
  have hpos := abs_pos hd
  simp at hpos
  refine Processor.Calls.mono (div16x16_calls hdivide _ (by simp [hd₁, hpos])) ?_
  rintro ⟨⟨⟨a₃, b₃, x₃, y₃, c₃⟩, t₃, mem₃, g₃, z₃, v₃⟩, p₃⟩ ⟨hx₃, -, hy₃, hs₃, hmem₃, hp₃⟩
  simp at hx₃ hy₃ hs₃ hmem₃ hp₃
  subst hs₃ hp₃ hy₃
  have hu₃ := hu₂.call hmem₃ (by decide) (by decide)
  rw [hy₁] at hy₂
  have hcount := signs_counted hy₂
  rw [sdiv_abs]
  split
  · next h =>
    have hsign := hcount.1 (of_decide_eq_true h)
    simp [hsign]
    refine Processor.Calls.mono (negd_calls habs _ (oneRight_iff.mpr hone)) ?_
    rintro ⟨⟨⟨a₄, b₄, x₄, y₄, c₄⟩, t₄, mem₄, g₄, z₄, v₄⟩, p₄⟩ ⟨hd₄, -, -, hs₄, hmem₄, hp₄⟩
    simp at hd₄ hs₄ hmem₄ hp₄
    subst hs₄ hp₄
    have hu₄ := hu₃.call hmem₄ (by decide) (by decide)
    simp [BitVec.add_assoc, hu₄.ret]
    exact ⟨by simp [hd₄, hx₃, hd₂, hd₁], by simp, hu₄.above, rfl⟩
  · next h =>
    have hsign : (mem t ++ mem (t + 1#16)).msb = (a ++ b).msb :=
      not_not.1 fun hne => h (decide_eq_true (hcount.2 hne))
    simp [BitVec.add_assoc, hu₃.ret, hsign]
    exact ⟨by simp [hx₃, hd₂, hd₁], by simp, hu₃.above, rfl⟩

/-! ## Compound assignments -/

/-- X and the return address are below `t`, and from `t` up memory is as it was. -/
structure Entered (t r x : BitVec 16) (m m' : BitVec 16 → Byte) : Prop where
  pointer : m' (t + 65532#16) ++ m' (t + 65533#16) = x
  ret : m' (t + 65534#16) ++ m' (t + 65535#16) = r
  above : Above 11 t m m'

section
variable {t r x i : BitVec 16} {m m₁ m₂ : BitVec 16 → Byte}

theorem entered_push (t r x : BitVec 16) (m : BitVec 16 → Byte) :
    Entered t r x m (poke (t + 65532#16) (hiByte x) (poke (t + 65533#16) (loByte x)
      (poke (t + 65534#16) (hiByte r) (poke (t + 65535#16) (loByte r) m)))) :=
  ⟨by simp, by simp, by simp⟩

theorem Entered.call (h : Entered t r x m m₁) {k : Nat} (h' : Above k (t + 65532#16) m₁ m₂) (hk : k ≤ 7) :
    Entered t r x m m₂ := by
  have hat (j : BitVec 16) (hj : j.toNat < 4) : m₂ (t + (65532#16 + j)) = m₁ (t + (65532#16 + j)) := by
    rw [← BitVec.add_assoc]
    exact h' j (by omega)
  have h₁ := hat 1 (by decide)
  have h₂ := hat 2 (by decide)
  have h₃ := hat 3 (by decide)
  refine ⟨?_, ?_, h.above.trans (h'.raise (by simp; omega))⟩
  · rw [← h.pointer]
    exact congr (congrArg _ (hat 0 (by decide))) h₁
  · rw [← h.ret]
    exact congr (congrArg _ h₂) h₃

/-- The object is not on the stack of the routine. -/
theorem Entered.object (h : Entered t r x m m₁) (hi : i.toNat + 1 < 2 ^ 16 - 11) :
    m₁ (t + i) = m (t + i) ∧ m₁ (t + (i + 1#16)) = m (t + (i + 1#16)) :=
  ⟨h.above i (by omega), h.above (i + 1#16) (by bv_omega)⟩

/-- The object changes and the return address does not. -/
theorem Entered.store (h : Entered t r (t + i) m m₁) (hi : i.toNat + 1 < 2 ^ 16 - 11) {u v : Byte} {w : BitVec 16}
    (hw : u ++ v = w) :
    (poke (t + i) u (poke (t + (i + 1#16)) v m₁) (t + 65534#16) ++
      poke (t + i) u (poke (t + (i + 1#16)) v m₁) (t + 65535#16) = r) ∧
    Above 11 t (poke (t + i) (hiByte w) (poke (t + i + 1) (loByte w) m)) (poke (t + i) u (poke (t + (i + 1#16)) v m₁)) := by
  have hne (j : BitVec 16) (hj : 65534 ≤ j.toNat) : ¬j = i ∧ ¬j = i + 1#16 := by
    constructor <;> rintro rfl <;> bv_omega
  constructor
  · simp only [poke_add, hne 65534#16 (by decide), hne 65535#16 (by decide), if_false]
    exact h.ret
  · rw [← hw, Code6800.hiByte_append, Code6800.loByte_append, BitVec.add_assoc]
    exact h.above.poke.poke

end

theorem xremeq_calls (hcode : im.Holds a xdiveq) {b : BitVec 16} (hdivide : im.Holds b divide) (s : State)
    (hone : OneRight s) (hd : 0 < s.d) (hx : Clear 11 s) :
    mc6809.Calls im ⟨.__xdiveq, .__xremeq⟩ s (Stores 11 ((wordAtX s).srem s.d) s) := by
  obtain ⟨b', habs⟩ := Image.holds_append hcode
  apply Processor.calls_of_wp hcode rfl rfl 20
  intro r
  obtain ⟨⟨⟨a, b, x, y, c⟩, t, mem, g, z, v⟩, p⟩ := s
  rw [oneRight_iff] at hone
  obtain ⟨i, rfl⟩ : ∃ i, x = t + i := ⟨x - t, by bv_omega⟩
  have hi : i.toNat + 1 < 2 ^ 16 - 11 := by simpa [Clear] using hx
  have hu := entered_push t r (t + i) mem
  simp [xdiveq, Image.behind, Processor.wp, wordAtX, BitVec.add_assoc]
  generalize poke (t + 65532#16) _ _ = mem₀ at hu ⊢
  refine Processor.Calls.mono (absd_calls habs _ (oneRight_iff.mpr hone)) ?_
  rintro ⟨⟨⟨a₁, b₁, x₁, y₁, c₁⟩, t₁, mem₁, g₁, z₁, v₁⟩, p₁⟩ ⟨hd₁, hx₁, -, hs₁, hmem₁, hp₁⟩
  simp at hd₁ hx₁ hs₁ hmem₁ hp₁
  subst hs₁ hp₁ hx₁
  have hu₁ := hu.call hmem₁ (by decide)
  obtain ⟨hhigh, hlow⟩ := hu₁.object hi
  have hpos := abs_pos hd
  simp at hpos
  rw [srem_abs]
  split
  · next h =>
    have hsign : (mem (t + i)).msb = false := by
      rw [← hhigh]
      exact (and_sign _).1 (of_decide_eq_true h)
    simp [BitVec.add_assoc, hhigh, hlow, append_msb, hsign]
    refine Processor.Calls.mono (div16x16_calls hdivide _ (by simp [hd₁, hpos])) ?_
    rintro ⟨⟨⟨a₃, b₃, x₃, y₃, c₃⟩, t₃, mem₃, g₃, z₃, v₃⟩, p₃⟩ ⟨-, hd₃, -, hs₃, hmem₃, hp₃⟩
    simp at hd₃ hs₃ hmem₃ hp₃
    subst hs₃ hp₃
    have hu₃ := hu₁.call hmem₃ (by decide)
    obtain ⟨hret, hstored⟩ := hu₃.store hi (hd₃.trans (congrArg _ hd₁))
    simp only [poke_add] at hret
    simp [BitVec.add_assoc, hu₃.pointer, hret]
    exact ⟨hd₃.trans (congrArg _ hd₁), rfl, hstored, rfl⟩
  · next h =>
    have hsign : (mem (t + i)).msb = true := by
      rw [← hhigh, ← Bool.not_eq_false, ← and_sign]
      exact fun heq => h (decide_eq_true heq)
    simp [BitVec.add_assoc, hhigh, hlow, append_msb, hsign]
    refine Processor.Calls.mono (negd_calls habs _ (oneRight_iff.mpr hone)) ?_
    rintro ⟨⟨⟨a₂, b₂, x₂, y₂, c₂⟩, t₂, mem₂, g₂, z₂, v₂⟩, p₂⟩ ⟨hd₂, hx₂, -, hs₂, hmem₂, hp₂⟩
    simp at hd₂ hx₂ hs₂ hmem₂ hp₂
    subst hs₂ hp₂ hx₂
    have hu₂ := hu₁.call hmem₂ (by decide)
    refine Processor.Calls.mono (div16x16_calls hdivide _ (by simp [hd₁, hpos])) ?_
    rintro ⟨⟨⟨a₃, b₃, x₃, y₃, c₃⟩, t₃, mem₃, g₃, z₃, v₃⟩, p₃⟩ ⟨-, hd₃, -, hs₃, hmem₃, hp₃⟩
    simp at hd₃ hs₃ hmem₃ hp₃
    subst hs₃ hp₃
    have hu₃ := hu₂.call hmem₃ (by decide)
    refine Processor.Calls.mono (negd_calls habs _ (oneRight_iff.mpr hone)) ?_
    rintro ⟨⟨⟨a₄, b₄, x₄, y₄, c₄⟩, t₄, mem₄, g₄, z₄, v₄⟩, p₄⟩ ⟨hd₄, -, -, hs₄, hmem₄, hp₄⟩
    simp at hd₄ hs₄ hmem₄ hp₄
    subst hs₄ hp₄
    have hu₄ := hu₃.call hmem₄ (by decide)
    have hw : a₄ ++ b₄ = -(-(mem (t + i) ++ mem (t + (i + 1#16))) % (a ++ b).abs) := by rw [hd₄, hd₃, hd₂, hd₁]
    obtain ⟨hret, hstored⟩ := hu₄.store hi hw
    simp only [poke_add] at hret
    simp [BitVec.add_assoc, hu₄.pointer, hret]
    exact ⟨hw, rfl, hstored, rfl⟩

theorem xdiveq_calls (hcode : im.Holds a xdiveq) {b : BitVec 16} (hdivide : im.Holds b divide) (s : State)
    (hone : OneRight s) (hd : 0 < s.d) (hx : Clear 11 s) :
    mc6809.Calls im ⟨.__xdiveq, .__xdiveq⟩ s (Stores 11 ((wordAtX s).sdiv s.d) s) := by
  obtain ⟨b', habs⟩ := Image.holds_append hcode
  apply Processor.calls_of_wp hcode rfl rfl 20
  intro r
  obtain ⟨⟨⟨a, b, x, y, c⟩, t, mem, g, z, v⟩, p⟩ := s
  rw [oneRight_iff] at hone
  obtain ⟨i, rfl⟩ : ∃ i, x = t + i := ⟨x - t, by bv_omega⟩
  have hi : i.toNat + 1 < 2 ^ 16 - 11 := by simpa [Clear] using hx
  have hu := entered_push t r (t + i) mem
  obtain ⟨hhigh, hlow⟩ := hu.object hi
  simp [xdiveq, Image.behind, Processor.wp, wordAtX, BitVec.add_assoc]
  simp only [poke_add] at hhigh hlow
  rw [hhigh, hlow]
  generalize poke (t + 65532#16) _ _ = mem₀ at hu ⊢
  refine Processor.Calls.mono (absd_calls habs _ (oneRight_iff.mpr hone)) ?_
  rintro ⟨⟨⟨a₁, b₁, x₁, y₁, c₁⟩, t₁, mem₁, g₁, z₁, v₁⟩, p₁⟩ ⟨hd₁, hx₁, hy₁, hs₁, hmem₁, hp₁⟩
  simp at hd₁ hx₁ hy₁ hs₁ hmem₁ hp₁
  subst hs₁ hp₁ hx₁
  have hu₁ := hu.call hmem₁ (by decide)
  simp
  refine Processor.Calls.mono (absd_calls habs _ (oneRight_iff.mpr hone)) ?_
  rintro ⟨⟨⟨a₂, b₂, x₂, y₂, c₂⟩, t₂, mem₂, g₂, z₂, v₂⟩, p₂⟩ ⟨hd₂, hx₂, hy₂, hs₂, hmem₂, hp₂⟩
  simp at hd₂ hx₂ hy₂ hs₂ hmem₂ hp₂
  subst hs₂ hp₂ hx₂
  have hu₂ := hu₁.call hmem₂ (by decide)
  have hpos := abs_pos hd
  simp at hpos
  refine Processor.Calls.mono (div16x16_calls hdivide _ (by simp [hd₁, hpos])) ?_
  rintro ⟨⟨⟨a₃, b₃, x₃, y₃, c₃⟩, t₃, mem₃, g₃, z₃, v₃⟩, p₃⟩ ⟨hx₃, -, hy₃, hs₃, hmem₃, hp₃⟩
  simp at hx₃ hy₃ hs₃ hmem₃ hp₃
  subst hs₃ hp₃ hy₃
  have hu₃ := hu₂.call hmem₃ (by decide)
  rw [hy₁] at hy₂
  have hcount := signs_counted hy₂
  rw [sdiv_abs]
  split
  · next h =>
    have hsign := hcount.1 (of_decide_eq_true h)
    simp [hsign]
    refine Processor.Calls.mono (negd_calls habs _ (oneRight_iff.mpr hone)) ?_
    rintro ⟨⟨⟨a₄, b₄, x₄, y₄, c₄⟩, t₄, mem₄, g₄, z₄, v₄⟩, p₄⟩ ⟨hd₄, -, -, hs₄, hmem₄, hp₄⟩
    simp at hd₄ hs₄ hmem₄ hp₄
    subst hs₄ hp₄
    have hu₄ := hu₃.call hmem₄ (by decide)
    have hw : a₄ ++ b₄ = -((mem (t + i) ++ mem (t + (i + 1#16))).abs / (a ++ b).abs) := by rw [hd₄, hx₃, hd₂, hd₁]
    obtain ⟨hret, hstored⟩ := hu₄.store hi hw
    simp only [poke_add] at hret
    simp [BitVec.add_assoc, hu₄.pointer, hret]
    exact ⟨hw, rfl, hstored, rfl⟩
  · next h =>
    have hsign : (mem (t + i) ++ mem (t + (i + 1#16))).msb = (a ++ b).msb :=
      not_not.1 fun hne => h (decide_eq_true (hcount.2 hne))
    have hw : hiByte x₃ ++ loByte x₃ = (mem (t + i) ++ mem (t + (i + 1#16))).abs / (a ++ b).abs := by
      rw [Code6800.hi_append_lo, hx₃, hd₂, hd₁]
    obtain ⟨hret, hstored⟩ := hu₃.store hi hw
    simp only [poke_add] at hret
    simp [BitVec.add_assoc, hu₃.pointer, hret, hsign]
    exact ⟨hw, rfl, hstored, rfl⟩

/-! ## What C says -/

inductive WordRoutine where
  | mul
  | div
  | rem
  | divu
  | remu
  deriving DecidableEq, Repr

namespace WordRoutine

def code : WordRoutine → Code
  | mul => Runtime.mul
  | div | rem => Runtime.div
  | divu | remu => Runtime.divu

def entry : WordRoutine → Label
  | mul => ⟨.__mul, .__mul⟩
  | div => ⟨.__div, .__div⟩
  | rem => ⟨.__div, .__rem⟩
  | divu => ⟨.__divu, .__divu⟩
  | remu => ⟨.__divu, .__remu⟩

/-- The operators of C. Quotients of signed words are truncated, and remainders have the sign of the dividend. -/
def answer (x y : BitVec 16) : WordRoutine → BitVec 16
  | mul => BitVec.ofInt 16 (x.toInt * y.toInt)
  | div => BitVec.ofInt 16 (x.toInt.tdiv y.toInt)
  | rem => BitVec.ofInt 16 (x.toInt.tmod y.toInt)
  | divu => BitVec.ofNat 16 (x.toNat / y.toNat)
  | remu => BitVec.ofNat 16 (x.toNat % y.toNat)

end WordRoutine

theorem mul_toInt {n : Nat} (x y : BitVec n) : x * y = BitVec.ofInt n (x.toInt * y.toInt) := by
  rw [BitVec.ofInt_mul, BitVec.ofInt_toInt, BitVec.ofInt_toInt]

theorem sdiv_toInt {n : Nat} (x y : BitVec n) : x.sdiv y = BitVec.ofInt n (x.toInt.tdiv y.toInt) := by
  apply BitVec.eq_of_toInt_eq
  rw [BitVec.toInt_sdiv, BitVec.toInt_ofInt]

theorem srem_toInt {n : Nat} (x y : BitVec n) : x.srem y = BitVec.ofInt n (x.toInt.tmod y.toInt) := by
  rw [← BitVec.toInt_srem, BitVec.ofInt_toInt]

theorem div_toNat {n : Nat} (x y : BitVec n) : x / y = BitVec.ofNat n (x.toNat / y.toNat) := by
  rw [← BitVec.toNat_udiv, BitVec.ofNat_toNat, BitVec.setWidth_eq]

theorem mod_toNat {n : Nat} (x y : BitVec n) : x % y = BitVec.ofNat n (x.toNat % y.toNat) := by
  rw [← BitVec.toNat_umod, BitVec.ofNat_toNat, BitVec.setWidth_eq]

theorem Computes.mono {n k : Nat} {v : BitVec 16} {s s' : State} (h : Computes n v s s') (hk : n ≤ k) : Computes k v s s' :=
  ⟨h.d, h.stack, h.mem.mono hk, h.page⟩

/-- Every routine comes back to its caller with the value of C in D and the left operand off the stack. Only nine
bytes of stack are used. -/
theorem word_routines (f : WordRoutine) {b : BitVec 16} (hcode : im.Holds a f.code) (hdivide : im.Holds b divide)
    (hone : OneRight s) (hd : f = .mul ∨ 0 < s.d) :
    mc6809.Calls im f.entry s (Computes 9 (f.answer (leftWord s) s.d) s) := by
  cases f with
  | mul =>
    unfold WordRoutine.answer
    rw [← mul_toInt]
    exact (mul_calls hcode s).mono fun s' hs' => hs'.mono (by decide)
  | div =>
    unfold WordRoutine.answer
    rw [← sdiv_toInt]
    exact div_calls hcode hdivide s hone (hd.resolve_left (by decide))
  | rem =>
    unfold WordRoutine.answer
    rw [← srem_toInt]
    exact rem_calls hcode hdivide s hone (hd.resolve_left (by decide))
  | divu =>
    unfold WordRoutine.answer
    rw [← div_toNat]
    exact divu_calls hcode hdivide s (hd.resolve_left (by decide))
  | remu =>
    unfold WordRoutine.answer
    rw [← mod_toNat]
    exact remu_calls hcode hdivide s (hd.resolve_left (by decide))

/-- D is 2 and the word on the stack is -7. -/
def dividing : State :=
  { a := 0, b := 2, x := 0x9000, y := 0, carry := false, s := 0x8000, negative := false, zero := false, overflow := false,
    mem := fun i => if i = 0x8000 ∨ i = 0x9000 then 0xFF else if i = 0x8001 ∨ i = 0x9001 then 0xF9 else 0
    page := fun i => if i = 4 then 1 else 0 }

theorem holds_div : (Image.link 16 (div ++ divide)).Holds 0 (div ++ divide) :=
  Image.holds_link (by decide) (by decide)

theorem minus_seven_halved :
    mc6809.Calls (Image.link 16 (div ++ divide)) ⟨.__div, .__div⟩ dividing (Computes 9 (-3) dividing) := by
  obtain ⟨b, hdivide⟩ := Image.holds_append holds_div
  exact word_routines .div (Image.holds_prefix holds_div) hdivide (by unfold OneRight; decide) (.inr (by decide))

/-- The remainder and the quotient that are stored where X points, and left in D. -/
theorem compound_words {b : BitVec 16} (hcode : im.Holds a xdiveq) (hdivide : im.Holds b divide) (hone : OneRight s)
    (hd : 0 < s.d) (hx : Clear 11 s) :
    mc6809.Calls im ⟨.__xdiveq, .__xremeq⟩ s (Stores 11 (WordRoutine.rem.answer (wordAtX s) s.d) s) ∧
      mc6809.Calls im ⟨.__xdiveq, .__xdiveq⟩ s (Stores 11 (WordRoutine.div.answer (wordAtX s) s.d) s) := by
  unfold WordRoutine.answer
  dsimp only
  rw [← srem_toInt, ← sdiv_toInt]
  exact ⟨xremeq_calls hcode hdivide s hone hd hx, xdiveq_calls hcode hdivide s hone hd hx⟩

theorem minus_seven_stored :
    mc6809.Calls (Image.link 16 (xdiveq ++ divide)) ⟨.__xdiveq, .__xremeq⟩ dividing (Stores 11 (-1) dividing) := by
  have hlinked : (Image.link 16 (xdiveq ++ divide)).Holds 0 (xdiveq ++ divide) :=
    Image.holds_link (by decide) (by decide)
  obtain ⟨b, hdivide⟩ := Image.holds_append hlinked
  exact (compound_words (Image.holds_prefix hlinked) hdivide (by unfold OneRight; decide) (by decide) (by unfold Clear; decide)).1

end Fuzemsys.Fcc.Runtime
