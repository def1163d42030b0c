import Fuzemsys.Fcc.RuntimeArith
import Fuzemsys.Fcc.RuntimeCompare
import Fuzemsys.Fcc.DirectProofs

/-!
# Runs of the arithmetic routines

States are written out, so that memory is a row of stores over what was there.
-/

open Fuzemsys.Lib

namespace Fuzemsys.Fcc.Runtime

open Code6800 (Reg Regs Cpu hiByte loByte carryBit)

/-! ## Memory -/

/-- One byte is stored. -/
def poke (a : BitVec 16) (v : Byte) (m : BitVec 16 → Byte) : BitVec 16 → Byte := fun i => if i = a then v else m i

section
variable {t c d : BitVec 16} {v : Byte} {m m' : BitVec 16 → Byte} {n : Nat}

@[simp]
theorem poke_same : poke t v m t = v := if_pos rfl

@[simp]
theorem poke_add : poke (t + c) v m (t + d) = if d = c then v else m (t + d) := by
  unfold poke
  simp

@[simp]
theorem poke_base_add : poke t v m (t + d) = if d = 0 then v else m (t + d) := by
  unfold poke
  simp

@[simp]
theorem poke_add_base : poke (t + c) v m t = if c = 0 then v else m t := by
  have h : poke (t + c) v m (t + 0#16) = if 0#16 = c then v else m (t + 0#16) := poke_add
  rw [BitVec.add_zero] at h
  rw [h]
  simp only [eq_comm]
  rfl

/-- The same from `t` up, but for the last `n` bytes. -/
def Above (n : Nat) (t : BitVec 16) (m m' : BitVec 16 → Byte) : Prop :=
  ∀ i : BitVec 16, i.toNat < 2 ^ 16 - n → m' (t + i) = m (t + i)

@[simp]
theorem Above.refl : Above n t m m := fun _ _ => rfl

theorem Above.mono {k : Nat} (h : Above n t m m') (hk : n ≤ k) : Above k t m m' := fun i hi => h i (by omega)

theorem Above.poke (h : Above n t m m') : Above n t (poke (t + c) v m) (poke (t + c) v m') := by
  intro i hi
  rw [poke_add, poke_add, h i hi]

theorem Above.trans {m'' : BitVec 16 → Byte} (h : Above n t m m') (h' : Above n t m' m'') : Above n t m m'' :=
  fun i hi => (h' i hi).trans (h i hi)

/-- Seen from a place above. -/
theorem Above.raise {k : Nat} (h : Above n (t + c) m m') (hk : n + (2 ^ 16 - c.toNat) ≤ k) : Above k t m m' := by
  intro i hi
  have hat : t + i = t + c + (i - c) := by bv_omega
  rw [hat]
  exact h (i - c) (by bv_omega)

/-- What a return finds. -/
theorem Above.top (h : Above n t m m') (hn : n < 2 ^ 16 - 1) : m' t = m t ∧ m' (t + 1) = m (t + 1) := by
  have hzero := h 0 (by simp; omega)
  rw [show t + 0 = t from BitVec.add_zero t] at hzero
  exact ⟨hzero, h 1 (by simp; omega)⟩

@[simp]
theorem above_poke (hc : 2 ^ 16 - n ≤ c.toNat) : Above n t m (poke (t + c) v m') ↔ Above n t m m' := by
  refine forall₂_congr fun i hi => ?_
  have hne : i ≠ c := by
    rintro rfl
    omega
  rw [poke_add, if_neg hne]

end

/-- The return address is below `t`, and from `t` up memory is as it was. -/
structure Under (n : Nat) (t r : BitVec 16) (m m' : BitVec 16 → Byte) : Prop where
  high : m' (t + 65534#16) = hiByte r
  low : m' (t + 65535#16) = loByte r
  above : Above n t m m'

section
variable {n k : Nat} {t r : BitVec 16} {m m₁ m₂ : BitVec 16 → Byte}

theorem under_push (hn : 2 ≤ n) (hlt : n < 2 ^ 16) :
    Under n t r m (poke (t + 65534#16) (hiByte r) (poke (t + 65535#16) (loByte r) m)) := by
  have hhigh : 2 ^ 16 - n ≤ (65534#16).toNat := by simp; omega
  have hlow : 2 ^ 16 - n ≤ (65535#16).toNat := by simp; omega
  refine ⟨by simp, by simp, ?_⟩
  rw [above_poke hhigh, above_poke hlow]
  exact Above.refl

/-- What is called uses the stack below. -/
theorem Under.call (h : Under n t r m m₁) (h' : Above k (t + 65534#16) m₁ m₂) (hk : k + 2 ≤ n) (hn : n < 2 ^ 15) :
    Under n t r m m₂ := by
  obtain ⟨hhigh, hlow⟩ := h'.top (by omega)
  refine ⟨hhigh.trans h.high, ?_, h.above.trans (h'.raise (by simp; omega))⟩
  rw [BitVec.add_assoc] at hlow
  exact hlow.trans h.low

theorem Under.left (h : Under n t r m m₁) (hn : n < 2 ^ 15) : m₁ t = m t ∧ m₁ (t + 1#16) = m (t + 1#16) :=
  h.above.top (by omega)

theorem Under.ret (h : Under n t r m m₁) : m₁ (t + 65534#16) ++ m₁ (t + 65535#16) = r := by
  rw [h.high, h.low, Code6800.hi_append_lo]

theorem under_poke {c : BitVec 16} {v : Byte} (hc : c.toNat < 65534)
    (hn : 2 ^ 16 - n ≤ c.toNat) : Under n t r m (poke (t + c) v m₁) ↔ Under n t r m m₁ := by
  have h₀ : ¬65534#16 = c := by
    rintro rfl
    simp at hc
  have h₁ : ¬65535#16 = c := by
    rintro rfl
    simp at hc
  constructor <;> rintro ⟨hhigh, hlow, habove⟩
  · rw [poke_add, if_neg h₀] at hhigh
    rw [poke_add, if_neg h₁] at hlow
    exact ⟨hhigh, hlow, (above_poke hn).mp habove⟩
  · exact ⟨by rw [poke_add, if_neg h₀, hhigh], by rw [poke_add, if_neg h₁, hlow], (above_poke hn).mpr habove⟩

end

/-! ## Lines -/

section
variable (l : Line) (q : Cond) (r : BitVec 16) (s : State)

@[simp] theorem mc6809_exec : mc6809.exec l s = exec l s := rfl
@[simp] theorem mc6809_holds : mc6809.holds q s = holds q s := rfl
@[simp] theorem mc6809_push : mc6809.push r s = s.push r := rfl
@[simp] theorem mc6809_target : mc6809.target s = s.x := rfl
@[simp] theorem mc6809_pull : mc6809.pull s = s.pull := rfl

end

attribute [simp] op exec holds State.byteOf State.wordOf State.address State.advance State.push State.pull State.on
  State.transfer State.exchange State.rotate State.borrowFlags Direct.offset

attribute [simp] Cpu.index Cpu.setIndex Cpu.test Cpu.setD Cpu.sumFlags Cpu.differenceFlags Regs.d Code6800.hi_append_lo

section
variable (s : State) (v : Byte) (w : BitVec 16) (i : Int) (n : Nat) (r : Reg) (u : Direct)

@[simp]
theorem putByte_index : s.putByte v (.index i r) = { s with mem := poke (s.index r + BitVec.ofInt 16 i) v s.mem } := rfl

@[simp]
theorem putByte_preDec : s.putByte v (.preDec r) =
    { s.advance (.preDec r) with mem := poke (s.index r + BitVec.ofInt 16 (-1)) v s.mem } := rfl

@[simp]
theorem putByte_direct : s.putByte v (.direct u n) = { s with page := Function.update s.page (u.offset + n) v } := by
  have hpage : Function.update s.page (u.offset + n) v = fun i => if i = u.offset + n then v else s.page i := by
    funext i
    rw [Function.update_apply]
  rw [hpage]
  rfl

theorem putWord_mem (o : Operand) (h : ∀ u n, o ≠ .direct u n) : s.putWord w o =
    { s.advance o with mem := poke (s.address o) (hiByte w) (poke (s.address o + 1) (loByte w) s.mem) } := by
  cases o with
  | direct u n => exact absurd rfl (h u n)
  | _ => rfl

@[simp]
theorem putWord_index : s.putWord w (.index i r) =
    { s with
      mem := poke (s.index r + BitVec.ofInt 16 i) (hiByte w)
        (poke (s.index r + BitVec.ofInt 16 i + 1) (loByte w) s.mem) } := putWord_mem s w _ (by simp)

@[simp]
theorem putWord_preDec2 : s.putWord w (.preDec2 r) =
    { s.advance (.preDec2 r) with
      mem := poke (s.index r + BitVec.ofInt 16 (-2)) (hiByte w)
        (poke (s.index r + BitVec.ofInt 16 (-2) + 1) (loByte w) s.mem) } := putWord_mem s w _ (by simp)

@[simp]
theorem putWord_direct : s.putWord w (.direct u n) =
    { s with
      page := Function.update (Function.update s.page (u.offset + n + 1) (loByte w)) (u.offset + n) (hiByte w) } := by
  have hpage : Function.update (Function.update s.page (u.offset + n + 1) (loByte w)) (u.offset + n) (hiByte w) =
      fun i => if i = u.offset + n then hiByte w else if i = u.offset + n + 1 then loByte w else s.page i := by
    funext i
    rw [Function.update_apply, Function.update_apply]
  rw [hpage]
  rfl

end

/-! ## Routines -/

/-- The word that the caller has left on the stack. -/
def leftWord (s : State) : BitVec 16 := s.mem s.s ++ s.mem (s.s + 1)

/-- What a routine leaves that uses `n` bytes of the stack. -/
structure Leaf (n : Nat) (s s' : State) : Prop where
  stack : s'.s = s.s
  mem : Above n s.s s.mem s'.mem
  page : s'.page = s.page

theorem leaf_iff {n : Nat} {s s' : State} : Leaf n s s' ↔ s'.s = s.s ∧ Above n s.s s.mem s'.mem ∧ s'.page = s.page :=
  ⟨fun h => ⟨h.stack, h.mem, h.page⟩, fun ⟨hs, hmem, hp⟩ => ⟨hs, hmem, hp⟩⟩

/-- What a routine leaves that takes a word off the stack. -/
structure Computes (n : Nat) (v : BitVec 16) (s s' : State) : Prop where
  d : s'.d = v
  stack : s'.s = s.s + 2
  mem : Above n s.s s.mem s'.mem
  page : s'.page = s.page

/-- What a routine leaves that stores its word where X points. -/
structure Stores (n : Nat) (v : BitVec 16) (s s' : State) : Prop where
  d : s'.d = v
  stack : s'.s = s.s
  mem : Above n s.s (poke s.x (hiByte v) (poke (s.x + 1) (loByte v) s.mem)) s'.mem
  page : s'.page = s.page

/-- The word at X lies outside the `n` bytes of stack that the routine uses. -/
def Clear (n : Nat) (s : State) : Prop := (s.x - s.s).toNat + 1 < 2 ^ 16 - n

end Fuzemsys.Fcc.Runtime
