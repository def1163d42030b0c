import Fuzemsys.Fcc.Frontend
import Fuzemsys.Fcc.Lex

/-!
# Quoted bytes

In the token stream and behind it the bytes of a string are quoted: a zero is FF FE,
an FF is FF FF. So the first zero is the end.
-/

namespace Fuzemsys.Fcc

variable {h : Host}

def quoted (chars : List Byte) : List Byte := chars.flatMap outbyteQuoted

@[simp]
theorem quoted_nil : quoted [] = [] := rfl

theorem quoted_cons (c : Byte) (chars : List Byte) : quoted (c :: chars) = outbyteQuoted c ++ quoted chars := rfl

theorem quoted_append (chars chars' : List Byte) : quoted (chars ++ chars') = quoted chars ++ quoted chars' :=
  List.flatMap_append

/-- A quoted byte is a pair that starts with FF, or a byte that is neither FF nor zero. -/
theorem outbyteQuoted_cases (c : Byte) :
    (∃ c2, c2 ≠ 0 ∧ outbyteQuoted c = [0xFF, c2]) ∨ (c ≠ 0 ∧ c ≠ 0xFF ∧ outbyteQuoted c = [c]) := by
  unfold outbyteQuoted
  by_cases h0 : c = 0
  · exact .inl ⟨0xFE, by decide, by simp [h0]⟩
  · by_cases hff : c = 0xFF
    · exact .inl ⟨0xFF, by decide, by simp [hff]⟩
    · exact .inr ⟨h0, hff, by rw [if_neg (by tauto), if_neg h0, List.nil_append]⟩

/-- Past the limit the loop only looks for the end. -/
theorem copyLoop_full {maxlen l : BitVec h.intBits} (hl : ¬ l < maxlen) (chars rest : List Byte) :
    copyLoop maxlen l (quoted chars ++ 0 :: rest) = some ([], l, rest) := by
  induction chars with
  | nil => exact copyLoop_end
  | cons c chars ih =>
    rw [quoted_cons, List.append_assoc]
    rcases outbyteQuoted_cases c with ⟨c2, hc2, hq⟩ | ⟨hc, -, hq⟩
    · rw [hq, List.cons_append, List.cons_append, copyLoop_skip hl (by decide), copyLoop_skip hl hc2]
      exact ih
    · rw [hq, List.cons_append, copyLoop_skip hl hc]
      exact ih

/-- A count below a limit does not wrap. -/
theorem succ_toNat {w : Nat} {l maxlen : BitVec w} (hroom : l < maxlen) : (l + 1).toNat = l.toNat + 1 := by
  have hlt := BitVec.lt_def.mp hroom
  have hmax := maxlen.isLt
  have hone : (1 : BitVec w).toNat = 1 := Nat.mod_eq_of_lt (show 1 < 2 ^ w by omega)
  rw [BitVec.toNat_add, hone, Nat.mod_eq_of_lt (by omega)]

/-- The loop copies as many quoted bytes as there is room for, and reads up to the end. -/
theorem copyLoop_quoted (maxlen l : BitVec h.intBits) (hl : l.toNat ≤ maxlen.toNat) (chars rest : List Byte) :
    copyLoop maxlen l (quoted chars ++ 0 :: rest) =
      some (quoted (chars.take (maxlen.toNat - l.toNat)),
        BitVec.ofNat _ (min maxlen.toNat (l.toNat + chars.length)), rest) := by
  induction chars generalizing l with
  | nil =>
    rw [List.take_nil, List.length_nil, Nat.add_zero, Nat.min_eq_right hl, BitVec.ofNat_toNat,
      BitVec.setWidth_eq]
    exact copyLoop_end
  | cons c chars ih =>
    by_cases hroom : l < maxlen
    · have hlt := BitVec.lt_def.mp hroom
      have hsucc := succ_toNat hroom
      have htake : (c :: chars).take (maxlen.toNat - l.toNat) = c :: chars.take (maxlen.toNat - (l + 1).toNat) := by
        rw [hsucc, show maxlen.toNat - l.toNat = maxlen.toNat - (l.toNat + 1) + 1 by omega, List.take_succ_cons]
      have hlen : l.toNat + (c :: chars).length = (l + 1).toNat + chars.length := by
        rw [hsucc, List.length_cons]
        omega
      have hih := ih (l + 1) (by omega)
      rw [htake, hlen, quoted_cons, quoted_cons, List.append_assoc]
      rcases outbyteQuoted_cases c with ⟨c2, -, hq⟩ | ⟨hc, hff, hq⟩
      · rw [hq, List.cons_append, List.cons_append, copyLoop_pair hroom]
        simp only [List.nil_append, hih]
        rfl
      · rw [hq, List.cons_append, copyLoop_byte hroom hc hff]
        simp only [List.nil_append, hih]
        rfl
    · have hge : maxlen.toNat ≤ l.toNat := by
        rw [BitVec.lt_def] at hroom
        omega
      rw [copyLoop_full hroom, show maxlen.toNat - l.toNat = 0 by omega, List.take_zero, quoted_nil,
        Nat.min_eq_left (by omega), show maxlen.toNat = l.toNat by omega, BitVec.ofNat_toNat]
      simp

end Fuzemsys.Fcc
