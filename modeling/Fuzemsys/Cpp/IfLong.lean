import Fuzemsys.Cpp.IfConstants
import Mathlib.Tactic.NormNum.Basic

/-!
# The operators on `long`

What the evaluation computes with 32 bits is what C means, up to unsigned operands.
-/

namespace Fuzemsys.Cpp

section
attribute [local simp] Op.meaning Op.apply Op.isTruth Op.signSensitive Op.unsignedOperands fits convert ofBits truth
end

variable {a b v : Int} {u : Bool} {o : Op}

/-- The values of a type. -/
def InRange (u : Bool) (v : Int) : Prop := if u then 0 ≤ v ∧ v < 2 ^ 32 else -2 ^ 31 ≤ v ∧ v < 2 ^ 31

abbrev bits (v : Int) : BitVec 32 := BitVec.ofInt 32 v

theorem toInt_bits (h : InRange false a) : (bits a).toInt = a := by
  unfold InRange at h
  simp only [Bool.false_eq_true, if_false] at h
  rw [bits, BitVec.toInt_ofInt]
  exact Int.bmod_eq_of_le (by omega) (by omega)

theorem toInt_srem (ha : InRange false a) (hb : InRange false b) : ((bits a).srem (bits b)).toInt = a.tmod b := by
  rw [BitVec.toInt_srem, toInt_bits ha, toInt_bits hb]

theorem toInt_sshiftRight (ha : InRange false a) (n : Nat) : ((bits a).sshiftRight n).toInt = a / 2 ^ n := by
  rw [BitVec.toInt_sshiftRight, toInt_bits ha, Int.shiftRight_eq_div_pow]
  norm_cast

/-- What the code computes when it takes the operands that C takes. -/
def Exp.bits (M : Macros) (signedChar : Bool) : Exp → BitVec 32
  | num c => strtoul (c.radix.mark ++ c.digits ++ c.suffix)
  | quot c => quotValue signedChar ((0x27 :: c.text ++ [0x27]).take 128)
  | defined x => long (M x).isSome
  | definedIn x => long (M x).isSome
  | word _ => 0
  | paren e => e.bits M signedChar
  | plus e => e.bits M signedChar
  | minus e => -e.bits M signedChar
  | not e => long (e.bits M signedChar = 0)
  | compl e => ~~~e.bits M signedChar
  | binary o l r => o.apply (l.bits M signedChar) (r.bits M signedChar)

variable {M : Macros} {signedChar : Bool}

end Fuzemsys.Cpp
