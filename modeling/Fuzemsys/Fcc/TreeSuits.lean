import Fuzemsys.Fcc.TreeConvert

/-!
# The types that each conversion suits

An operator and the types of its operands decide whether the tree has the type and the
value that C gives it.
-/

open Fuzemsys.Lib

namespace Fuzemsys.Fcc.Tree

variable {h : Host} {op : Op} {t lt rt : CType} {x y z : Int}

abbrev IntTy := { t : CType // IntType t }

/-- A construct without its operands. -/
inductive Shape where
  | negate (t : IntTy)
  | tilde (t : IntTy)
  | assignOp (fc : { op : Op // op ∈ assignOps }) (lt rt : IntTy)
  | prefixed (up : Bool) (t : IntTy)
  | postfixed (up : Bool) (t : IntTy)
  | compare (op : { op : Op // op ∈ compareOps ++ equalOps }) (lt rt : IntTy)
  | question (c a1 a2 : IntTy)

def Rval.type (x : Rval h) : IntTy := ⟨x.node.type, x.int⟩

def Lval.type (x : Lval h) : IntTy := ⟨x.node.type, x.int⟩

def Construct.shape : Construct h → Shape
  | negate x => .negate x.type
  | tilde x => .tilde x.type
  | assignOp fc l r => .assignOp fc l.type r.type
  | prefixed up l => .prefixed up l.type
  | postfixed up l => .postfixed up l.type
  | compare op l r => .compare op l.type r.type
  | question c a1 a2 => .question c.type a1.type a2.type

/-- A division by what was cut to the type of the left side is no division by the right side. A shift
is one of an int at least. -/
def AssignSuits (op : Op) (lt rt : CType) : Prop :=
  if op = .SLASH ∨ op = .PERCENT then canHold lt rt ∨ usual lt rt = lt else isShift op → promote lt = lt

instance (op : Op) (lt rt : CType) : Decidable (AssignSuits op lt rt) := inferInstanceAs (Decidable (ite _ _ _))

/-- What is equal is equal in any type that is wide enough, but not what is less. -/
def CompareSuits (op : Op) (lt rt : CType) : Prop := op ∈ equalOps ∨ ¬ LendsSign lt rt ∨ lt = UCHAR

instance (op : Op) (lt rt : CType) : Decidable (CompareSuits op lt rt) := inferInstanceAs (Decidable (_ ∨ _))

def Shape.Suits : Shape → Prop
  | negate t => promote t.1 = t.1
  | tilde t => promote t.1 = t.1
  | assignOp fc lt rt => AssignSuits fc.1.plain lt.1 rt.1
  | prefixed _ _ => True
  | postfixed _ _ => True
  | compare op lt rt => CompareSuits op.1 lt.1 rt.1
  | question _ a1 a2 => usual a1.1 a2.1 = a1.1

/-! ## Arithmetic in the common type -/

section
variable (hlt : IntType lt) (hrt : IntType rt)
include hlt

theorem format_signed : (format lt).signed = !isUnsigned lt := by
  rcases intType_cases hlt with rfl | rfl | rfl | rfl | rfl | rfl <;> decide

include hrt

theorem width_usual : (format lt).width ≤ (format (usual lt rt)).width := by
  rcases intType_cases hlt with rfl | rfl | rfl | rfl | rfl | rfl <;>
    rcases intType_cases hrt with rfl | rfl | rfl | rfl | rfl | rfl <;> decide

theorem usual_holds (hhold : canHold lt rt = true) :
    canHold (usual lt rt) lt = true ∧ canHold (usual lt rt) rt = true := by
  revert hhold
  rcases intType_cases hlt with rfl | rfl | rfl | rfl | rfl | rfl <;>
    rcases intType_cases hrt with rfl | rfl | rfl | rfl | rfl | rfl <;> decide

theorem width_arithPro : (format (arithPro lt rt)).width = (format (usual lt rt)).width := by
  rcases intType_cases hlt with rfl | rfl | rfl | rfl | rfl | rfl <;>
    rcases intType_cases hrt with rfl | rfl | rfl | rfl | rfl | rfl <;> decide

theorem reduce_of_canHold (hhold : canHold lt rt = true) (hx : reduce rt x = x) : reduce lt x = x := by
  unfold canHold at hhold
  split at hhold
  · next hsame =>
    refine Format.wrap_of_wider ?_ (of_decide_eq_true hhold) hx
    rw [format_signed hlt, format_signed hrt, hsame]
  · rw [Bool.and_eq_true] at hhold
    refine Format.wrap_of_unsigned ?_ (of_decide_eq_true hhold.2) hx
    rw [format_signed hrt, hhold.1]
    rfl

end

/-- The operators that look at no bit above those that they compute. -/
def carryOps : List Op := [.PLUS, .MINUS, .STAR, .AND, .OR, .HAT]

theorem bitwise_congr {f : {n : Nat} → BitVec n → BitVec n → BitVec n}
    (hop : ∀ {n k : Nat} (a b : BitVec n), (f a b).setWidth k = f (a.setWidth k) (b.setWidth k)) {x' y' : Int} {k : Nat}
    (hk : k ≤ 32) (hx : x ≡ x' [ZMOD 2 ^ k]) (hy : y ≡ y' [ZMOD 2 ^ k]) :
    bitwise f x y ≡ bitwise f x' y' [ZMOD 2 ^ k] := by
  have hbits (a b : Int) (hab : a ≡ b [ZMOD 2 ^ k]) : (BitVec.ofInt 32 a).toInt ≡ (BitVec.ofInt 32 b).toInt [ZMOD 2 ^ k] :=
    (Format.toInt_ofInt_modEq a hk).trans (hab.trans (Format.toInt_ofInt_modEq b hk).symm)
  exact Format.bitwise_modEq hop hk hk (hbits x x' hx) (hbits y y' hy)

theorem arith_carry (hop : op ∈ carryOps) {x' y' : Int} {k : Nat} (hk : k ≤ 32) (hx : x ≡ x' [ZMOD 2 ^ k])
    (hy : y ≡ y' [ZMOD 2 ^ k]) (hz : arith op lt x y = some z) :
    ∃ z', arith op rt x' y' = some z' ∧ z ≡ z' [ZMOD 2 ^ k] := by
  simp only [carryOps, List.mem_cons, List.not_mem_nil, or_false] at hop
  rcases hop with rfl | rfl | rfl | rfl | rfl | rfl <;> cases hz
  · exact ⟨_, rfl, hx.add hy⟩
  · exact ⟨_, rfl, hx.sub hy⟩
  · exact ⟨_, rfl, hx.mul hy⟩
  · exact ⟨_, rfl, bitwise_congr (f := (· &&& ·)) (by simp) hk hx hy⟩
  · exact ⟨_, rfl, bitwise_congr (f := (· ||| ·)) (by simp) hk hx hy⟩
  · exact ⟨_, rfl, bitwise_congr (f := (· ^^^ ·)) (by simp) hk hx hy⟩

/-! ## Assignment operators -/

/-- What the tree computes is what C computes and then converts. -/
def Converts (op : Op) (lt rt : CType) : Prop :=
  ∀ x y z, reduce lt x = x → reduce rt y = y → cArith op lt rt x y = some z →
    (arith op lt x (reduce lt y)).map (reduce lt) = some (reduce lt z)

theorem carry_not_shift (hop : op ∈ carryOps) : isShift op = false := by
  simp only [carryOps, List.mem_cons, List.not_mem_nil, or_false] at hop
  rcases hop with rfl | rfl | rfl | rfl | rfl | rfl <;> rfl

theorem plain_cases (hop : op ∈ changeOps) :
    op.plain ∈ carryOps ∨ (op.plain = .SLASH ∨ op.plain = .PERCENT) ∨ isShift op.plain = true := by
  simp only [changeOps, assignOps, List.cons_append, List.nil_append, List.mem_cons, List.not_mem_nil, or_false] at hop
  rcases hop with rfl | rfl | rfl | rfl | rfl | rfl | rfl | rfl | rfl | rfl | rfl | rfl <;> decide

theorem converts_shift (hop : isShift op = true) (hsuits : promote lt = lt) : Converts op lt rt := by
  intro x y z hx hy hz
  rw [cArith, if_pos hop, hsuits] at hz
  obtain ⟨z₁, hz₁, rfl⟩ := Option.map_eq_some_iff.mp hz
  have hcount : reduce lt y = y := by
    have hwidth := (format_width lt).2
    unfold isShift at hop
    simp only [Bool.or_eq_true, decide_eq_true_eq] at hop
    rcases hop with rfl | rfl
    · simp only [arith] at hz₁
      split at hz₁
      · next hrange => exact reduce_small lt hrange.1 (by omega)
      · cases hz₁
    · simp only [arith] at hz₁
      split at hz₁
      · next hrange => exact reduce_small lt hrange.1 (by omega)
      · cases hz₁
  rw [hcount, hz₁, Option.map_some, reduce_reduce]

theorem Converts.map (hconverts : Converts op lt rt) (hx : reduce lt x = x) (hy : reduce rt y = y)
    (hsome : (cArith op lt rt x y).isSome = true) :
    (arith op lt x (reduce lt y)).map (reduce lt) = (cArith op lt rt x y).map (reduce lt) := by
  obtain ⟨z, hz⟩ := Option.isSome_iff_exists.mp hsome
  rw [hz, Option.map_some]
  exact hconverts x y z hx hy hz

section
variable (hlt : IntType lt) (hrt : IntType rt)
include hlt hrt

theorem converts_carry (hop : op ∈ carryOps) : Converts op lt rt := by
  intro x y z hx hy hz
  have hwidth := width_usual hlt hrt
  have hmod (a : Int) : reduce (usual lt rt) a ≡ a [ZMOD 2 ^ (format lt).width] := reduce_modEq hwidth a
  rw [cArith, carry_not_shift hop, if_neg Bool.false_ne_true] at hz
  obtain ⟨z₁, hz₁, rfl⟩ := Option.map_eq_some_iff.mp hz
  have hcarry : ∃ z₂, arith op lt x (reduce lt y) = some z₂ ∧ _ := arith_carry hop (format_width lt).2 (hmod x)
    ((hmod y).trans (reduce_modEq le_rfl y).symm) hz₁
  obtain ⟨z₂, hz₂, heq⟩ := hcarry
  rw [hz₂, Option.map_some, reduce_reduce_of_le hwidth, reduce_eq_iff.mpr heq]

theorem converts_quotient (hop : op = .SLASH ∨ op = .PERCENT) (hsuits : canHold lt rt ∨ usual lt rt = lt) :
    Converts op lt rt := by
  intro x y z hx hy hz
  have hshift : isShift op = false := by rcases hop with rfl | rfl <;> rfl
  have htype (t t' : CType) (a b : Int) : arith op t a b = arith op t' a b := by rcases hop with rfl | rfl <;> rfl
  rw [cArith, hshift, if_neg Bool.false_ne_true] at hz
  obtain ⟨z₁, hz₁, rfl⟩ := Option.map_eq_some_iff.mp hz
  rw [reduce_reduce_of_le (width_usual hlt hrt)]
  rcases hsuits with hhold | hsame
  · -- No value is changed, on either way.
    obtain ⟨hleft, hright⟩ := usual_holds hlt hrt hhold
    have hint := usual_int hlt hrt
    rw [reduce_of_canHold hint hlt hleft hx, reduce_of_canHold hint hrt hright hy] at hz₁
    rw [reduce_of_canHold hlt hrt hhold hy, htype _ (usual lt rt), hz₁, Option.map_some]
  · rw [hsame, hx] at hz₁
    rw [hz₁, Option.map_some]

theorem converts_of_suits (hop : op ∈ changeOps) (hsuits : AssignSuits op.plain lt rt) : Converts op.plain lt rt := by
  unfold AssignSuits at hsuits
  rcases plain_cases hop with hcarry | hquot | hshift
  · exact converts_carry hlt hrt hcarry
  · rw [if_pos hquot] at hsuits
    exact converts_quotient hlt hrt hquot hsuits
  · rw [if_neg] at hsuits
    · exact converts_shift hshift (hsuits hshift)
    · rintro (hquot | hquot) <;> rw [hquot] at hshift <;> cases hshift

/-- Two operands for which a division that does not suit goes wrong. -/
def quotientWitness (lt rt : CType) : Int × Int :=
  if (format lt).width < (format rt).width then (0, 2 ^ (format lt).width) else (1, reduce rt (-1))

theorem suits_of_converts (hop : op ∈ changeOps) (hconverts : Converts op.plain lt rt) : AssignSuits op.plain lt rt := by
  unfold AssignSuits
  rcases plain_cases hop with hcarry | hquot | hshift
  · rw [if_neg]
    · intro hshift
      rw [carry_not_shift hcarry] at hshift
      cases hshift
    · rintro (hquot | hquot) <;> rw [hquot] at hcarry <;> revert hcarry <;> decide
  · rw [if_pos hquot]
    have hwitness := hconverts.map (x := (quotientWitness lt rt).1) (y := (quotientWitness lt rt).2)
    generalize op.plain = op at hquot hwitness
    rcases hquot with rfl | rfl <;>
      rcases intType_cases hlt with rfl | rfl | rfl | rfl | rfl | rfl <;>
      rcases intType_cases hrt with rfl | rfl | rfl | rfl | rfl | rfl <;>
      first
        | decide
        | exact absurd (hwitness (by decide) (by decide) (by decide)) (by decide)
  · rw [if_neg]
    · intro _
      have hwitness := hconverts.map (reduce_zero lt) (reduce_small rt (show 0 ≤ 9 by decide) (by decide))
      generalize op.plain = op at hshift hwitness
      have hop : op = .LTLT ∨ op = .GTGT := by simpa [isShift] using hshift
      have hnine : reduce lt 9 = 9 := reduce_small lt (by decide) (by decide)
      rw [hnine, cArith, if_pos hshift] at hwitness
      rcases hop with rfl | rfl <;>
        rcases intType_cases hlt with rfl | rfl | rfl | rfl | rfl | rfl <;>
        first
          | decide
          | exact absurd (hwitness (by decide)) (by decide)
    · rintro (hquot | hquot) <;> rw [hquot] at hshift <;> cases hshift

end

end Fuzemsys.Fcc.Tree
