import Fuzemsys.Libs.StrtolRight

/-!
# ltoa

Numbers are printed from the last digit on, towards the front of a buffer. A text is what
stands between the returned pointer and the NUL.
-/

namespace Fuzemsys.Libs.Ltostr

open Fuzemsys.Libs.Strtol

/-- `char buf[34]`, whose last byte is the NUL. -/
def bufSize : Nat := 34

def charOf (c : Nat) : Byte := if c > 9 then BitVec.ofNat 8 (97 - 10 + c) else BitVec.ofNat 8 (48 + c)

/-- `do { … } while (val)`, where `p` is the text already there. -/
def ultostrLoop (radix val : Nat) (p : List Byte) : List Byte :=
  let p := charOf (val % radix) :: p
  if radix < 2 ∨ val / radix = 0 then p else ultostrLoop radix (val / radix) p
termination_by val
decreasing_by
  rename_i h
  exact Nat.div_lt_self (Nat.pos_of_ne_zero fun hz => h (Or.inr (by simp [hz]))) (by omega)

/-- `none` is the null pointer. -/
def __ultostr_r (val : BitVec 32) (radix : Int) : Option (List Byte) :=
  if radix > 36 ∨ radix < 2 then none else some (ultostrLoop radix.toNat val.toNat [])

def __ltostr_r (val : BitVec 32) (radix : Int) : Option (List Byte) :=
  let flg := val.msb
  let val := if flg then -val else val
  (__ultostr_r val radix).map fun p => if flg then 0x2d :: p else p

/-- `strcpy(strP, __ltostr_r(buf, value, radix))`. -/
def ltoa (value : BitVec 32) (radix : Int) : Option (List Byte) := __ltostr_r value radix

/-! ## The digits printed -/

variable {radix : Nat} {p : List Byte} {v : BitVec 32}

/-- The digits of a number, the last one last. -/
def digitsOf (radix val : Nat) : List Nat :=
  if radix < 2 ∨ val / radix = 0 then [val % radix] else digitsOf radix (val / radix) ++ [val % radix]
termination_by val
decreasing_by
  rename_i h
  exact Nat.div_lt_self (Nat.pos_of_ne_zero fun hz => h (Or.inr (by simp [hz]))) (by omega)

theorem ultostrLoop_eq (radix val : Nat) (p : List Byte) :
    ultostrLoop radix val p = (digitsOf radix val).map charOf ++ p := by
  fun_induction ultostrLoop radix val p with
  | case1 val p q h =>
    rw [digitsOf, if_pos h]
    rfl
  | case2 val p q h ih =>
    rw [ih, digitsOf.eq_def radix val, if_neg h, List.map_append, List.append_assoc]
    rfl

theorem digitsOf_value (h : 2 ≤ radix) (val : Nat) : valueOf radix (digitsOf radix val) = val := by
  fun_induction digitsOf radix val with
  | case1 val h =>
    have hsmall : val % radix = val := by
      rcases h with h | h
      · omega
      · exact Nat.mod_eq_of_lt (Nat.lt_of_div_eq_zero (by omega) h)
    simp [valueOf, hsmall]
  | case2 val h ih =>
    unfold valueOf at ih ⊢
    rw [List.foldl_append, ih, List.foldl_cons, List.foldl_nil, Nat.mul_comm]
    exact Nat.div_add_mod val radix

theorem digitsOf_lt (h : 2 ≤ radix) (val : Nat) : ∀ d ∈ digitsOf radix val, d < radix := by
  fun_induction digitsOf radix val with
  | case1 val _ =>
    intro d hd
    rw [List.mem_singleton.1 hd]
    exact Nat.mod_lt _ (by omega)
  | case2 val _ ih =>
    intro d hd
    rcases List.mem_append.1 hd with hd | hd
    · exact ih d hd
    · rw [List.mem_singleton.1 hd]
      exact Nat.mod_lt _ (by omega)

/-- A number below 2^n has at most n digits, in any base. -/
theorem digitsOf_length (h : 2 ≤ radix) (n val : Nat) (hval : val < 2 ^ (n + 1)) :
    (digitsOf radix val).length ≤ n + 1 := by
  induction n generalizing val with
  | zero =>
    rw [digitsOf, if_pos (Or.inr (Nat.div_eq_of_lt (by omega)))]
    simp
  | succ n ih =>
    rw [digitsOf]
    split_ifs with hlast
    · simp
    · have hless : val / radix < 2 ^ (n + 1) := by
        apply Nat.div_lt_of_lt_mul
        calc val < 2 * 2 ^ (n + 1) := by rw [← Nat.pow_succ']; exact hval
          _ ≤ radix * 2 ^ (n + 1) := Nat.mul_le_mul_right _ h
      have hlen := ih _ hless
      simp only [List.length_append, List.length_singleton]
      omega

/-- No digit in front of the others is a zero. -/
theorem digitsOf_head (h : 2 ≤ radix) (val : Nat) (hval : 0 < val) : (digitsOf radix val).head? ≠ some 0 := by
  fun_induction digitsOf radix val with
  | case1 val hlast =>
    have hsmall : val % radix = val := by
      rcases hlast with hlast | hlast
      · omega
      · exact Nat.mod_eq_of_lt (Nat.lt_of_div_eq_zero (by omega) hlast)
    simp only [List.head?_cons, hsmall, ne_eq, Option.some.injEq]
    omega
  | case2 val hlast ih =>
    have hpos : 0 < val / radix := Nat.pos_of_ne_zero fun hz => hlast (Or.inr hz)
    have hfront := ih hpos
    rcases hd : digitsOf radix (val / radix) with _ | ⟨d, ds⟩
    · have hv := digitsOf_value h (val / radix)
      rw [hd] at hv
      simp only [valueOf, List.foldl_nil] at hv
      omega
    · rw [hd] at hfront
      simpa using hfront

/-! ## Reading them back -/

theorem charOf_digit : ∀ d < 36, digitOf (charOf d) = some d ∧ isspace (charOf d) = false ∧
    charOf d ≠ 0x2d ∧ charOf d ≠ 0x2b ∧ (charOf d = 0x30 → d = 0) := by
  decide

/-- The text of a number: an optional sign and its digits. -/
def textOf (neg : Bool) (radix val : Nat) : List Byte :=
  (if neg then [0x2d] else []) ++ (digitsOf radix val).map charOf

theorem digitsOf_ne_nil (radix val : Nat) : digitsOf radix val ≠ [] := by
  rw [digitsOf]
  split_ifs <;> simp

theorem digitsOf_zero (radix : Nat) : digitsOf radix 0 = [0] := by
  rw [digitsOf]
  simp

theorem filterMap_charOf {ds : List Nat} (h : ∀ d ∈ ds, d < 36) : (ds.map charOf).filterMap digitOf = ds := by
  induction ds with
  | nil => rfl
  | cons d ds ih =>
    rw [List.map_cons, List.filterMap_cons_some (charOf_digit d (h d (by simp))).1,
      ih fun e he => h e (by simp [he])]

theorem sign_text (neg : Bool) {d : Nat} {r : List Byte} (hd : d < 36) :
    sign (((if neg then [0x2d] else []) ++ charOf d :: r).dropWhile isspace) = (neg, charOf d :: r) := by
  obtain ⟨-, hspace, hminus, hplus, -⟩ := charOf_digit d hd
  rcases neg with _ | _
  · change sign ((charOf d :: r).dropWhile isspace) = _
    rw [List.dropWhile_cons_of_neg (by simp [hspace]), sign, if_neg hminus, if_neg hplus]
  · change sign ((0x2d :: charOf d :: r).dropWhile isspace) = _
    rw [List.dropWhile_cons_of_neg (by decide), sign, if_pos rfl]

theorem no_mark {ds : List Nat} (hds : ∀ d ∈ ds, d < 36) (hzero : ds.head? = some 0 → ds = [0]) :
    hexMark radix (ds.map charOf) = none := by
  unfold hexMark
  apply if_neg
  rintro ⟨-, hstart, hx⟩
  rcases ds with _ | ⟨d, ds⟩
  · exact absurd hstart (by decide)
  · obtain ⟨r, hr⟩ := startsZero_cons hstart
    rw [List.map_cons, List.cons.injEq] at hr
    obtain rfl := (charOf_digit d (hds d (by simp))).2.2.2.2 hr.1
    rw [hzero rfl] at hx
    exact absurd hx (by decide)

theorem do_conv_text (neg endptr : Bool) {val : Nat} (h : 2 ≤ radix) (h36 : radix ≤ 36)
    (hval : val < 2 ^ 32) :
    (do_conv (textOf neg radix val) endptr radix true).value =
      if neg then -BitVec.ofNat 32 val else BitVec.ofNat 32 val := by
  have hlt : ∀ d ∈ digitsOf radix val, d < 36 := fun d hd => by
    have := digitsOf_lt h val d hd
    omega
  have hzero : (digitsOf radix val).head? = some 0 → digitsOf radix val = [0] := by
    intro hhead
    rcases Nat.eq_zero_or_pos val with rfl | hpos
    · exact digitsOf_zero radix
    · exact absurd hhead (digitsOf_head h val hpos)
  have hbelow : ∀ c ∈ (digitsOf radix val).map charOf, isDigitBelow (radix + 1) c = true := by
    intro c hc
    obtain ⟨d, hd, rfl⟩ := List.mem_map.1 hc
    have := digitsOf_lt h val d hd
    simp only [isDigitBelow, (charOf_digit d (hlt d hd)).1, Option.any_some, decide_eq_true_eq]
    omega
  have hsign : sign ((textOf neg radix val).dropWhile isspace) = (neg, (digitsOf radix val).map charOf) := by
    unfold textOf
    rcases hds : digitsOf radix val with _ | ⟨d, ds⟩
    · exact absurd hds (digitsOf_ne_nil radix val)
    · exact sign_text neg (hlt d (by simp [hds]))
  have hmark : markOf (radix : Int) ((digitsOf radix val).map charOf) =
      ((radix : Int), (digitsOf radix val).map charOf) := by
    rw [markOf_plain (no_mark hlt hzero) (by omega), if_neg (by omega)]
  have hconv : conv radix (digitsOf radix val) 0 false = (BitVec.ofNat 32 val, false) := by
    have hexact := conv_exact radix (by omega) (digitsOf radix val) 0 false
    rw [show (digitsOf radix val).foldl (fun n d => n * radix + d) 0 = val from digitsOf_value h val] at hexact
    exact hexact hval
  have hvalid : ¬ ((radix : Int) = 1 ∨ (radix : Int) > 36 ∨ (radix : Int) < 0) := by omega
  simp only [do_conv, if_neg hvalid, hsign, hmark, convLoop_eq, List.takeWhile_eq_self_iff.2 hbelow,
    filterMap_charOf hlt, hconv]
  simp [done]

/-- What a number prints as. -/
theorem ltoa_text (v : BitVec 32) (h : 2 ≤ radix) (h36 : radix ≤ 36) :
    ltoa v radix = some (textOf v.msb radix (if v.msb then (-v).toNat else v.toNat)) := by
  have hvalid : ¬ ((radix : Int) > 36 ∨ (radix : Int) < 2) := by omega
  simp only [ltoa, __ltostr_r, __ultostr_r, if_neg hvalid, Option.map_some, ultostrLoop_eq, textOf,
    Int.toNat_natCast, List.append_nil]
  rcases v.msb with _ | _ <;> rfl

theorem textOf_ne_nil (neg : Bool) (radix val : Nat) : textOf neg radix val ≠ [] := by
  have hne := digitsOf_ne_nil radix val
  unfold textOf
  rcases neg with _ | _ <;> simp [hne]

theorem magnitude_le (v : BitVec 32) : (if v.msb then (-v).toNat else v.toNat) ≤ 2 ^ 31 := by
  rcases h : v.msb with _ | _
  · have := BitVec.msb_eq_false_iff_two_mul_lt.1 h
    simp only [Bool.false_eq_true, if_false]
    omega
  · have := BitVec.msb_eq_true_iff_two_mul_ge.1 h
    simp only [if_true, BitVec.toNat_neg]
    omega

theorem textOf_length (neg : Bool) {val : Nat} (h : 2 ≤ radix) (hval : val < 2 ^ 32) :
    (textOf neg radix val).length ≤ bufSize - 1 := by
  have hlen := digitsOf_length h 31 val hval
  unfold textOf bufSize
  rcases neg with _ | _ <;> simp <;> omega

end Fuzemsys.Libs.Ltostr
