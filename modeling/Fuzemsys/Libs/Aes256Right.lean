import Fuzemsys.Libs.Aes256
import Mathlib.Data.Fintype.Pi
import Mathlib.Data.Fintype.EquivFin
import Mathlib.Data.FinEnum
import Mathlib.Tactic.FinCases

/-!
# What is encrypted is decrypted

Each step of a round is taken back by its inverse, and so is each step from one round key to the next.
-/

namespace Fuzemsys.Libs.Aes256

/-! ## Bytes -/

theorem sboxinv_sbox (x : Byte) : sboxinv (sbox x) = x := by
  revert x
  decide +kernel

theorem fd_xtime (x : Byte) : FD (rj_xtime x) = x := by
  revert x
  decide +kernel

theorem xor_left_comm (x y z : Byte) : x ^^^ (y ^^^ z) = y ^^^ (x ^^^ z) := by
  rw [← BitVec.xor_assoc, BitVec.xor_comm x y, BitVec.xor_assoc]

theorem xtime_msb (x : Byte) : rj_xtime x = (x <<< 1) ^^^ (if x.msb then 0x1b else 0) := by
  revert x
  decide +kernel

theorem xtime_xor (x y : Byte) : rj_xtime (x ^^^ y) = rj_xtime x ^^^ rj_xtime y := by
  rw [xtime_msb, xtime_msb, xtime_msb, BitVec.msb_xor, BitVec.shiftLeft_xor_distrib]
  cases x.msb <;> cases y.msb <;> simp [BitVec.xor_assoc, BitVec.xor_comm, xor_left_comm]

/-! ## Blocks -/

theorem subBytes_inv (buf : Block) : aes_subBytes_inv (aes_subBytes buf) = buf := by
  funext i
  exact sboxinv_sbox (buf i)

/-- The rows go back where they came from. -/
theorem shiftRows_inv (buf : Block) : aes_shiftRows_inv (aes_shiftRows buf) = buf := by
  funext i
  fin_cases i <;> rfl

theorem xor_cancel (x y : Byte) : x ^^^ y ^^^ y = x := by
  rw [BitVec.xor_assoc, BitVec.xor_self, BitVec.xor_zero]

theorem addRoundKey_twice (buf : Block) (key : Key) (start : Fin 32) :
    aes_addRoundKey (aes_addRoundKey buf key start) key start = buf := by
  funext i
  exact xor_cancel _ _

theorem xor_self_left (x y : Byte) : x ^^^ (x ^^^ y) = y := by
  rw [← BitVec.xor_assoc, BitVec.xor_self, BitVec.zero_xor]

section

attribute [local simp] BitVec.xor_assoc BitVec.xor_comm xor_left_comm xor_self_left xtime_xor

/-- The four bytes of a column after `mixColumn`. -/
structure Mixed (a b c d p q r s : Byte) : Prop where
  p : p = a ^^^ (a ^^^ b ^^^ c ^^^ d ^^^ rj_xtime (a ^^^ b))
  q : q = b ^^^ (a ^^^ b ^^^ c ^^^ d ^^^ rj_xtime (b ^^^ c))
  r : r = c ^^^ (a ^^^ b ^^^ c ^^^ d ^^^ rj_xtime (c ^^^ d))
  s : s = d ^^^ (a ^^^ b ^^^ c ^^^ d ^^^ rj_xtime (d ^^^ a))

/-- The first byte of a column, mixed back. -/
def back (a b c d : Byte) : Byte :=
  a ^^^ (a ^^^ b ^^^ c ^^^ d ^^^ rj_xtime (rj_xtime (rj_xtime (a ^^^ b ^^^ c ^^^ d) ^^^ a ^^^ c)) ^^^
    rj_xtime (a ^^^ b))

theorem back_mixed {a b c d p q r s : Byte} (h : Mixed a b c d p q r s) : back p q r s = a := by
  rw [h.p, h.q, h.r, h.s]
  simp [back]

theorem mixed_rotated {a b c d p q r s : Byte} (h : Mixed a b c d p q r s) : Mixed b c d a q r s p := by
  obtain ⟨rfl, rfl, rfl, rfl⟩ := h
  constructor <;> simp

theorem back_second (a b c d : Byte) : b ^^^ (a ^^^ b ^^^ c ^^^ d ^^^
    rj_xtime (rj_xtime (rj_xtime (a ^^^ b ^^^ c ^^^ d) ^^^ b ^^^ d)) ^^^ rj_xtime (b ^^^ c)) = back b c d a := by
  simp [back]

theorem back_third (a b c d : Byte) : c ^^^ (a ^^^ b ^^^ c ^^^ d ^^^
    rj_xtime (rj_xtime (rj_xtime (a ^^^ b ^^^ c ^^^ d) ^^^ a ^^^ c)) ^^^ rj_xtime (c ^^^ d)) = back c d a b := by
  simp [back]

theorem back_fourth (a b c d : Byte) : d ^^^ (a ^^^ b ^^^ c ^^^ d ^^^
    rj_xtime (rj_xtime (rj_xtime (a ^^^ b ^^^ c ^^^ d) ^^^ b ^^^ d)) ^^^ rj_xtime (d ^^^ a)) = back d a b c := by
  simp [back]

/-- Where the columns start. -/
def columns : List (Fin 16) := [0, 4, 8, 12]

theorem mixAt_at (buf : Block) {i : Fin 16} (hi : i ∈ columns) (p q r s : Byte) :
    mixAt buf i p q r s i = buf i ^^^ p ∧ mixAt buf i p q r s (i + 1) = buf (i + 1) ^^^ q ∧
      mixAt buf i p q r s (i + 2) = buf (i + 2) ^^^ r ∧ mixAt buf i p q r s (i + 3) = buf (i + 3) ^^^ s := by
  simp only [columns, List.mem_cons, List.not_mem_nil, or_false] at hi
  rcases hi with rfl | rfl | rfl | rfl <;> exact ⟨rfl, rfl, rfl, rfl⟩

theorem mixAt_other (buf : Block) {i j : Fin 16} (hi : i ∈ columns) (hj : ¬(j - i).val < 4) (p q r s : Byte) :
    mixAt buf i p q r s j = buf j := by
  have hne : j ≠ i ∧ j ≠ i + 1 ∧ j ≠ i + 2 ∧ j ≠ i + 3 := by
    revert i j
    decide
  simp [mixAt, put, Function.update, hne]

theorem mixColumnInv_other (buf : Block) {i j : Fin 16} (hi : i ∈ columns) (hj : ¬(j - i).val < 4) :
    mixColumnInv buf i j = buf j :=
  mixAt_other buf hi hj _ _ _ _

theorem mixColumnInv_at (buf : Block) {i : Fin 16} (hi : i ∈ columns) :
    mixColumnInv buf i i = back (buf i) (buf (i + 1)) (buf (i + 2)) (buf (i + 3)) ∧
      mixColumnInv buf i (i + 1) = back (buf (i + 1)) (buf (i + 2)) (buf (i + 3)) (buf i) ∧
      mixColumnInv buf i (i + 2) = back (buf (i + 2)) (buf (i + 3)) (buf i) (buf (i + 1)) ∧
      mixColumnInv buf i (i + 3) = back (buf (i + 3)) (buf i) (buf (i + 1)) (buf (i + 2)) := by
  unfold mixColumnInv
  obtain ⟨h₀, h₁, h₂, h₃⟩ := mixAt_at buf hi _ _ _ _
  exact ⟨h₀, h₁.trans (back_second _ _ _ _), h₂.trans (back_third _ _ _ _), h₃.trans (back_fourth _ _ _ _)⟩

theorem mixColumn_other (buf : Block) {i j : Fin 16} (hi : i ∈ columns) (hj : ¬(j - i).val < 4) :
    mixColumn buf i j = buf j :=
  mixAt_other buf hi hj _ _ _ _

theorem mixColumn_at (buf : Block) {i : Fin 16} (hi : i ∈ columns) :
    Mixed (buf i) (buf (i + 1)) (buf (i + 2)) (buf (i + 3)) (mixColumn buf i i) (mixColumn buf i (i + 1))
      (mixColumn buf i (i + 2)) (mixColumn buf i (i + 3)) := by
  unfold mixColumn
  obtain ⟨h₀, h₁, h₂, h₃⟩ := mixAt_at buf hi _ _ _ _
  exact ⟨h₀, h₁, h₂, h₃⟩

end

theorem in_column {i j : Fin 16} (hj : (j - i).val < 4) : j = i ∨ j = i + 1 ∨ j = i + 2 ∨ j = i + 3 := by
  revert i j
  decide

/-- Each column is mixed back on its own. -/
theorem mixColumn_inv (buf : Block) {i : Fin 16} (hi : i ∈ columns) : mixColumnInv (mixColumn buf i) i = buf := by
  have hmixed := mixColumn_at buf hi
  obtain ⟨h₀, h₁, h₂, h₃⟩ := mixColumnInv_at (mixColumn buf i) hi
  funext j
  by_cases hj : (j - i).val < 4
  · rcases in_column hj with rfl | rfl | rfl | rfl
    · rw [h₀, back_mixed hmixed]
    · rw [h₁, back_mixed (mixed_rotated hmixed)]
    · rw [h₂, back_mixed (mixed_rotated (mixed_rotated hmixed))]
    · rw [h₃, back_mixed (mixed_rotated (mixed_rotated (mixed_rotated hmixed)))]
  · rw [mixColumnInv_other _ hi hj, mixColumn_other buf hi hj]

theorem near (i : Fin 16) : (i + 1 - i).val < 4 ∧ (i + 2 - i).val < 4 ∧ (i + 3 - i).val < 4 := by
  revert i
  decide

theorem columns_apart {i j : Fin 16} (hi : i ∈ columns) (hj : j ∈ columns) (hne : i ≠ j) :
    ∀ l : Fin 16, (l - i).val < 4 → ¬(l - j).val < 4 := by
  revert i j
  decide

/-- What has to do with one column only. -/
structure Local (f : Block → Block) (i : Fin 16) : Prop where
  other : ∀ buf j, ¬(j - i).val < 4 → f buf j = buf j
  here : ∀ buf buf', (∀ j, (j - i).val < 4 → buf j = buf' j) → ∀ j, (j - i).val < 4 → f buf j = f buf' j

theorem local_comm {f g : Block → Block} {i j : Fin 16} (hf : Local f i) (hg : Local g j)
    (hapart : ∀ l : Fin 16, (l - i).val < 4 → ¬(l - j).val < 4) (buf : Block) : f (g buf) = g (f buf) := by
  funext l
  by_cases hl : (l - i).val < 4
  · rw [hg.other _ l (hapart l hl)]
    exact hf.here _ _ (fun l hl => hg.other buf l (hapart l hl)) l hl
  · rw [hf.other _ l hl]
    by_cases hm : (l - j).val < 4
    · exact hg.here _ _ (fun l hm => (hf.other buf l (fun hl => hapart l hl hm)).symm) l hm
    · rw [hg.other buf l hm, hg.other _ l hm, hf.other buf l hl]

theorem mixColumn_local {i : Fin 16} (hi : i ∈ columns) : Local (mixColumn · i) i where
  other := fun buf _ hj => mixColumn_other buf hi hj
  here := by
    intro buf buf' heq j hj
    have h := mixColumn_at buf hi
    have h' := mixColumn_at buf' hi
    have h₀ := heq i (by simp)
    have hnear := near i
    rw [h₀, heq _ hnear.1, heq _ hnear.2.1, heq _ hnear.2.2] at h
    rcases in_column hj with rfl | rfl | rfl | rfl
    · exact h.p.trans h'.p.symm
    · exact h.q.trans h'.q.symm
    · exact h.r.trans h'.r.symm
    · exact h.s.trans h'.s.symm

theorem mixColumnInv_local {i : Fin 16} (hi : i ∈ columns) : Local (mixColumnInv · i) i where
  other := fun buf _ hj => mixColumnInv_other buf hi hj
  here := by
    intro buf buf' heq j hj
    have h := mixColumnInv_at buf hi
    have h' := mixColumnInv_at buf' hi
    have h₀ := heq i (by simp)
    have hnear := near i
    rw [h₀, heq _ hnear.1, heq _ hnear.2.1, heq _ hnear.2.2] at h
    rcases in_column hj with rfl | rfl | rfl | rfl
    · exact h.1.trans h'.1.symm
    · exact h.2.1.trans h'.2.1.symm
    · exact h.2.2.1.trans h'.2.2.1.symm
    · exact h.2.2.2.trans h'.2.2.2.symm

/-- Two columns have nothing to do with each other. -/
theorem mixColumn_comm (buf : Block) {i j : Fin 16} (hi : i ∈ columns) (hj : j ∈ columns) (hne : i ≠ j) :
    mixColumnInv (mixColumn buf j) i = mixColumn (mixColumnInv buf i) j :=
  local_comm (mixColumnInv_local hi) (mixColumn_local hj) (columns_apart hi hj hne) buf

theorem mixColumns_inv (buf : Block) : aes_mixColumns_inv (aes_mixColumns buf) = buf := by
  have h₀ : (0 : Fin 16) ∈ columns := by decide
  have h₄ : (4 : Fin 16) ∈ columns := by decide
  have h₈ : (8 : Fin 16) ∈ columns := by decide
  have h₁₂ : (12 : Fin 16) ∈ columns := by decide
  simp only [aes_mixColumns_inv, aes_mixColumns, List.foldl]
  rw [mixColumn_comm _ h₀ h₁₂ (by decide), mixColumn_comm _ h₀ h₈ (by decide), mixColumn_comm _ h₀ h₄ (by decide),
    mixColumn_inv _ h₀, mixColumn_comm _ h₄ h₁₂ (by decide), mixColumn_comm _ h₄ h₈ (by decide), mixColumn_inv _ h₄,
    mixColumn_comm _ h₈ h₁₂ (by decide), mixColumn_inv _ h₈, mixColumn_inv _ h₁₂]

/-! ## Keys -/

/-- Where the chains start. -/
def chains : List (Fin 32) := [4, 8, 12, 20, 24, 28]

theorem chain_at (k : Key) {i : Fin 32} (hi : i ∈ chains) (j : Fin 32) :
    chain k i j = if (j - i).val < 4 then k j ^^^ k (j - 4) else k j := by
  simp only [chains, List.mem_cons, List.not_mem_nil, or_false] at hi
  rcases hi with rfl | rfl | rfl | rfl | rfl | rfl <;> fin_cases j <;> rfl

theorem chain_source {i : Fin 32} (hi : i ∈ chains) {j : Fin 32} (hj : (j - i).val < 4) : ¬(j - 4 - i).val < 4 := by
  revert i j
  decide

theorem chain_twice (k : Key) {i : Fin 32} (hi : i ∈ chains) : chain (chain k i) i = k := by
  funext j
  rw [chain_at _ hi]
  by_cases hj : (j - i).val < 4
  · rw [if_pos hj, chain_at k hi, chain_at k hi, if_pos hj, if_neg (chain_source hi hj), xor_cancel]
  · rw [if_neg hj, chain_at k hi, if_neg hj]

/-- What the first four bytes get. -/
def firstGets (k : Key) (rc : Byte) (j : Fin 32) : Byte :=
  if j = 0 then sbox (k 29) ^^^ rc else if j = 1 then sbox (k 30) else if j = 2 then sbox (k 31) else sbox (k 28)

theorem first_at (k : Key) (rc : Byte) (j : Fin 32) :
    first k rc j = if j.val < 4 then k j ^^^ firstGets k rc j else k j := by
  fin_cases j <;> rfl

theorem first_twice (k : Key) (rc : Byte) : first (first k rc) rc = k := by
  have hkeep : ∀ j : Fin 32, ¬j.val < 4 → first k rc j = k j := fun j hj => by rw [first_at, if_neg hj]
  have hgets : ∀ j, firstGets (first k rc) rc j = firstGets k rc j := fun j => by
    simp only [firstGets, hkeep 28 (by decide), hkeep 29 (by decide), hkeep 30 (by decide), hkeep 31 (by decide)]
  funext j
  rw [first_at, first_at, hgets]
  by_cases hj : j.val < 4
  · rw [if_pos hj, if_pos hj, xor_cancel]
  · rw [if_neg hj, if_neg hj]

theorem middle_at (k : Key) (j : Fin 32) :
    middle k j = if (j - 16).val < 4 then k j ^^^ sbox (k (j - 4)) else k j := by
  fin_cases j <;> rfl

theorem middle_twice (k : Key) : middle (middle k) = k := by
  have hsource : ∀ j : Fin 32, (j - 16).val < 4 → ¬(j - 4 - 16).val < 4 := by decide
  funext j
  rw [middle_at]
  by_cases hj : (j - 16).val < 4
  · rw [if_pos hj, middle_at k, middle_at k, if_pos hj, if_neg (hsource j hj), xor_cancel]
  · rw [if_neg hj, middle_at k, if_neg hj]

theorem expandDec_expandEnc (k : Key) (rc : Byte) :
    aes_expandDecKey (aes_expandEncKey k rc).1 (aes_expandEncKey k rc).2 = (k, rc) := by
  simp only [aes_expandDecKey, aes_expandEncKey, List.foldl, fd_xtime]
  simp only [chain_twice _ (by decide : (28 : Fin 32) ∈ chains), chain_twice _ (by decide : (24 : Fin 32) ∈ chains),
    chain_twice _ (by decide : (20 : Fin 32) ∈ chains), middle_twice,
    chain_twice _ (by decide : (12 : Fin 32) ∈ chains),
    chain_twice _ (by decide : (8 : Fin 32) ∈ chains), chain_twice _ (by decide : (4 : Fin 32) ∈ chains), first_twice]

/-! ## The cipher -/

namespace Work

variable (w : Work)

@[simp] theorem add_add (start : Fin 32) : (w.add start).add start = w := by
  simp only [add, addRoundKey_twice]

@[simp] theorem subInv_sub : w.sub.subInv = w := by
  simp only [sub, subInv, subBytes_inv]

@[simp] theorem shiftInv_shift : w.shift.shiftInv = w := by
  simp only [shift, shiftInv, shiftRows_inv]

@[simp] theorem mixInv_mix : w.mix.mixInv = w := by
  simp only [mix, mixInv, mixColumns_inv]

@[simp] theorem expandInv_expand : w.expand.expandInv = w := by
  simp only [expand, expandInv, expandDec_expandEnc]

/-- The key is worked on apart from the block. -/
@[simp] theorem expand_shiftInv : w.expand.shiftInv = w.shiftInv.expand := rfl

@[simp] theorem expand_subInv : w.expand.subInv = w.subInv.expand := rfl

@[simp] theorem expand_mixInv : w.expand.mixInv = w.mixInv.expand := rfl

end Work

namespace Work

variable (w : Work)

@[simp] theorem sub_key : w.sub.key = w.key := rfl
@[simp] theorem shift_key : w.shift.key = w.key := rfl
@[simp] theorem mix_key : w.mix.key = w.key := rfl
@[simp] theorem add_key (start : Fin 32) : (w.add start).key = w.key := rfl
@[simp] theorem expand_key : w.expand.key = (aes_expandEncKey w.key w.rcon).1 := rfl
@[simp] theorem sub_rcon : w.sub.rcon = w.rcon := rfl
@[simp] theorem shift_rcon : w.shift.rcon = w.rcon := rfl
@[simp] theorem mix_rcon : w.mix.rcon = w.rcon := rfl
@[simp] theorem add_rcon (start : Fin 32) : (w.add start).rcon = w.rcon := rfl
@[simp] theorem expand_rcon : w.expand.rcon = rj_xtime w.rcon := rfl

end Work

/-- A context of zeros. -/
def blank : Context := ⟨fun _ => 0, fun _ => 0, fun _ => 0⟩

end Fuzemsys.Libs.Aes256
