import Fuzemsys.Fcc.TreeSettled

/-!
# The types of arithmetic

The type that the first pass gives an operator, beside the one that C gives it.
-/

namespace Fuzemsys.Fcc.Tree

variable {h : Host} {fold : Node h → Result h} {f : Fields h} {n l r : Node h} {op : Op} {t lt rt : CType}

/-! ## What constify returns is a node -/

/-- What stands on both sides. -/
def twoSided : List Op := [.PLUS, .STAR, .SLASH, .ANDAND, .OROR]

/-- Nothing in it lacks its left side. -/
def Node.Whole : Node h → Prop
  | .null => True
  | .node f l r => (f.op ∈ twoSided → l ≠ .null) ∧ l.Whole ∧ r.Whole

/-- A node and all below it. -/
def Node.Sound (n : Node h) : Prop := n ≠ .null ∧ n.Whole

theorem sound_node : (Node.node f l r).Sound ↔ (f.op ∈ twoSided → l ≠ .null) ∧ l.Whole ∧ r.Whole := by
  unfold Node.Sound
  simp [Node.Whole]

theorem sound_constant (v : BitVec h.longBits) (t : CType) : (makeConstant v t).Sound := by
  unfold makeConstant
  simp [sound_node, newNode, Node.Whole, twoSided]

theorem Node.Sound.setType (hn : n.Sound) (t : CType) : (n.setType t).Sound := by
  cases n with
  | null => exact absurd rfl hn.1
  | node f l r => exact ⟨node_ne_null, hn.2⟩

theorem Node.Sound.setValue (hn : n.Sound) (v : BitVec h.longBits) : (n.setValue v).Sound := by
  cases n with
  | null => exact absurd rfl hn.1
  | node f l r => exact ⟨node_ne_null, hn.2⟩

/-- `constify` keeps nodes sound. -/
def KeepsSound (fold : Node h → Result h) : Prop := ∀ n, n.Sound → (fold n).node.Sound

theorem ne_null_of_op (hop : n.op = some op) : n ≠ .null := by
  rintro rfl
  cases hop

theorem sound_boolTree (hfold : KeepsSound fold) (hn : n.Whole) : (boolTree (treeWith fold) n 0).Sound := by
  unfold boolTree
  split
  · next hop => exact ⟨ne_null_of_op hop, hn⟩
  · split
    · exact sound_node.mpr ⟨by simp [newNode, twoSided], trivial, hn⟩
    · apply Node.Sound.setType
      apply hfold
      exact sound_node.mpr ⟨by simp [newNode, twoSided], trivial, hn⟩

theorem sound_castRule {c : Node h} (hr : r.Whole) (hc : castRule f r = some c) : c.Sound := by
  unfold castRule at hc
  split_ifs at hc with hcast hconst hname <;> cases hc
  · rw [replaceConstant_eq]
    exact sound_constant _ _
  · exact Node.Sound.setType ⟨hname.elim ne_null_of_op ne_null_of_op, hr⟩ _

theorem reassociate_whole (hnode : (Node.node f l r).Sound) :
    (reassociate f l r).1.Whole ∧ (reassociate f l r).2.Whole ∧
      (l ≠ .null → (reassociate f l r).1 ≠ .null) := by
  obtain ⟨-, hl, hr⟩ := sound_node.mp hnode
  unfold reassociate
  split
  · next fl ll lr =>
    obtain ⟨hplus, hll, hlr⟩ := hl
    split
    · next hsum =>
      refine ⟨hll, ?_, fun _ => hplus (by rw [hsum.2.1]; decide)⟩
      cases r with
      | null => trivial
      | node g rl rr => exact hr
    · exact ⟨⟨hplus, hll, hlr⟩, hr, id⟩
  · exact ⟨hl, hr, id⟩

theorem sound_simplify {c : Node h} (hfold : KeepsSound fold) (hl : l.Whole) (hnull : f.op ∈ twoSided → l ≠ .null)
    (hc : simplify fold f l r = some c) : c.Sound := by
  have hstar : f.op = .STAR → l.Sound := fun hop => ⟨hnull (by rw [hop]; decide), hl⟩
  have hslash : f.op = .SLASH → l.Sound := fun hop => ⟨hnull (by rw [hop]; decide), hl⟩
  unfold simplify at hc
  split_ifs at hc with hone hzero hdiv hless hgreater <;> cases hc
  · exact hstar hone.1
  · exact sound_constant _ _
  · exact hslash hdiv.1
  · exact sound_boolTree hfold (sound_constant _ _).2
  · exact sound_boolTree hfold (sound_constant _ _).2

theorem sound_replaceConstant (t : CType) (v : BitVec h.longBits) : (replaceConstant t v).Sound := by
  rw [replaceConstant_eq]
  exact sound_constant v t

theorem sound_unaryRule (hnode : (Node.node f l r).Sound) (hr : r.Sound) : (unaryRule f l r).node.Sound := by
  unfold unaryRule
  split
  · exact hnode
  split
  · exact hr.setValue _
  split
  · exact hnode
  split
  · exact sound_replaceConstant _ _
  · exact sound_replaceConstant _ _
  · exact sound_replaceConstant _ _
  · split
    · exact hnode
    · exact sound_replaceConstant _ _
  · exact sound_replaceConstant _ _
  · exact hnode

theorem sound_binaryRule (hfold : KeepsSound fold) (hl : l.Sound) (hr : r.Sound) : (binaryRule fold f l r).node.Sound := by
  have hfolded := hfold l hl
  have hnode (l' : Node h) (hl' : l'.Sound) : (Node.node f l' r).Sound := sound_node.mpr ⟨fun _ => hl'.1, hl'.2, hr.2⟩
  unfold binaryRule
  split
  · split
    · exact hnode l hl
    split
    · split
      · exact hnode l hl
      split
      · exact hl.setValue _
      · exact hl.setValue _
    · exact hr.setValue _
  split
  · exact hl
  split
  · next l' hl' =>
    rw [hl'] at hfolded
    exact hnode l' hfolded
  · next l' hl' =>
    rw [hl'] at hfolded
    split
    · exact hnode l' hfolded
    split
    · split
      · exact sound_replaceConstant _ _
      · exact hnode l' hfolded
    · exact sound_unaryRule (hnode l' hfolded) hr

theorem sound_logicRule (hfold : KeepsSound fold) (hl : l.Sound) (hr : r.Whole) : (logicRule fold f l r).node.Sound := by
  have hfolded := hfold l hl
  have hnode (l' : Node h) (hl' : l'.Sound) : (Node.node f l' r).Sound := sound_node.mpr ⟨fun _ => hl'.1, hl'.2, hr⟩
  unfold logicRule
  split
  · next l' hl' =>
    rw [hl'] at hfolded
    exact hnode l' hfolded
  split
  · exact hnode l hl
  split
  · split
    · exact sound_boolTree hfold (sound_constant _ _).2
    · exact sound_boolTree hfold hr
  split
  · exact sound_boolTree hfold (sound_constant _ _).2
  · exact sound_boolTree hfold hr

theorem sound_constifyNode (hfold : KeepsSound fold) (hnode : (Node.node f l r).Sound) :
    (constifyNode fold f l r).node.Sound := by
  obtain ⟨hsided, hl, hr⟩ := sound_node.mp hnode
  obtain ⟨hl', hr', hne⟩ := reassociate_whole hnode
  unfold constifyNode
  split
  · next c hc => exact sound_castRule hr hc
  -- From here the sides are those that were reassociated.
  generalize reassociate f l r = sides at hl' hr' hne ⊢
  obtain ⟨l', r'⟩ := sides
  have hsided' : f.op ∈ twoSided → l' ≠ .null := fun hop => hne (hsided hop)
  have hnode' (r'' : Node h) (hr'' : r''.Whole) : (Node.node f l' r'').Sound := sound_node.mpr ⟨hsided', hl', hr''⟩
  simp only
  split
  · next c hc => exact sound_simplify hfold hl' hsided' hc
  split
  · next hlogic =>
    refine sound_logicRule hfold ⟨hsided' ?_, hl'⟩ hr'
    rcases hlogic with hop | hop <;> rw [hop] <;> decide
  split
  · split
    · exact hnode' _ hr'
    · exact hnode' _ hr'
  · next hnull =>
    have hfolded := hfold r' ⟨fun hr => hnull hr, hr'⟩
    split
    · next r'' hr'' =>
      rw [hr''] at hfolded
      exact hnode' _ hfolded.2
    · next r'' hr'' =>
      rw [hr''] at hfolded
      split
      · next hl =>
        subst hl
        exact sound_unaryRule (hnode' _ hfolded.2) hfolded
      · next hl => exact sound_binaryRule hfold ⟨hl, hl'⟩ hfolded

theorem constify_sound (k : Nat) : KeepsSound (constify (h := h) k) := by
  induction k with
  | zero =>
    intro n hn
    exact hn
  | succ k ih =>
    intro n hn
    cases n with
    | null => exact absurd rfl hn.1
    | node f l r => exact sound_constifyNode ih hn

theorem tree_sound (hl : op ∈ twoSided → l ≠ .null) (hwl : l.Whole) (hwr : r.Whole) : (tree op l r).Sound :=
  constify_sound _ _ (sound_node.mpr ⟨hl, hwl, hwr⟩)

theorem makeCast_sound (hn : n.Sound) (t : CType) : (makeCast tree n t).Sound ∧ (makeCast tree n t).type = t := by
  unfold makeCast
  split
  · have hcast := tree_sound (l := .null) (show Op.CAST ∈ twoSided → _ by simp [twoSided]) trivial hn.2
    refine ⟨hcast.setType t, ?_⟩
    cases hnode : tree .CAST .null n with
    | null => exact absurd hnode hcast.1
    | node f l r => rfl
  · next hsame => exact ⟨hn, not_not.mp hsame⟩

/-! ## What the operator gets -/

def isShift (op : Op) : Bool := op = .LTLT || op = .GTGT

/-- The type of the whole. -/
def resultType (op : Op) (l r : Node h) : CType := if isShift op then arithPro l.type l.type else arithPro l.type r.type

def leftOperand (op : Op) (l r : Node h) : Node h :=
  if isShift op then if resultType op l r ≠ r.type then makeCast tree l (resultType op l r) else l
  else makeCast tree l (resultType op l r)

def rightOperand (op : Op) (l r : Node h) : Node h := makeCast tree r (if isShift op then CINT else resultType op l r)

theorem intarithTree_eq (op : Op) (l r : Node h) : intarithTree tree op l r =
    (tree op (leftOperand op l r) (rightOperand op l r)).setType (resultType op l r) := by
  unfold intarithTree leftOperand rightOperand resultType isShift
  by_cases hshift : op = .LTLT ∨ op = .GTGT
  · simp [hshift]
  · simp [hshift, arithProTree]

theorem intarithTree_sound (hl : l.Sound) (hr : r.Sound) :
    (intarithTree tree op l r).Sound ∧ (intarithTree tree op l r).type = resultType op l r := by
  have hleft : (leftOperand op l r).Sound := by
    unfold leftOperand
    split_ifs
    · exact (makeCast_sound hl _).1
    · exact hl
    · exact (makeCast_sound hl _).1
  have hright := (makeCast_sound hr (if isShift op then CINT else resultType op l r)).1
  have htree : (tree op (leftOperand op l r) _).Sound := tree_sound (fun _ => hleft.1) hleft.2 hright.2
  rw [intarithTree_eq]
  refine ⟨htree.setType _, ?_⟩
  cases hnode : tree op (leftOperand op l r) (rightOperand op l r) with
  | null => exact absurd hnode htree.1
  | node f l r => rfl

/-! ## The types of C -/

/-- Every value of `rt` is one of `lt`. -/
def canHold (lt rt : CType) : Bool :=
  if isUnsigned lt = isUnsigned rt then (format rt).width ≤ (format lt).width
  else isUnsigned rt && (format rt).width < (format lt).width

/-- Integer promotion: to int, or to unsigned int only when int cannot hold the type. -/
def promote (t : CType) : CType := if t < CINT then (if canHold CINT t then CINT else UINT) else t

/-- The usual arithmetic conversions. -/
def usual (lt rt : CType) : CType :=
  let lt := promote lt
  let rt := promote rt
  if isUnsigned lt = isUnsigned rt then (if (format lt).width < (format rt).width then rt else lt)
  else
    let (signed, unsigned) := if isUnsigned lt then (rt, lt) else (lt, rt)
    if (format signed).width ≤ (format unsigned).width then unsigned
    else if canHold signed unsigned then signed
    else signed ||| UNSIGNED

/-- An expression that is not looked into. -/
structure Operand (h : Host) where
  node : Node h
  sound : node.Sound
  int : IntType node.type

/-- `* / % + - & ^ | << >>` over operands. -/
inductive Arith (h : Host) where
  | operand (x : Operand h)
  | binary (op : { op : Op // op ∈ binaryOps }) (l r : Arith h)

/-- The tree that hier2 to hier9 build. -/
def Arith.node : Arith h → Node h
  | operand x => x.node
  | binary op l r => intarithTree tree op l.node r.node

def Arith.cType : Arith h → CType
  | operand x => x.node.type
  | binary op l r => if isShift op then promote l.cType else usual l.cType r.cType

def commutative : List Op := [.STAR, .PLUS, .AND, .OR, .HAT]

/-- One operator is typed as C types it. -/
structure OperatorTyped (op : { op : Op // op ∈ binaryOps }) (l r : Arith h) : Prop where
  result : (Arith.binary op l r).node.type = (Arith.binary op l r).cType
  swap : op.1 ∈ commutative → (Arith.binary op r l).node.type = (Arith.binary op l r).node.type
  left : (leftOperand op l.node r.node).type = (Arith.binary op l r).cType
  right : (rightOperand op l.node r.node).type = if isShift op then CINT else (Arith.binary op l r).cType

/-- Each operator is. -/
def Arith.TypedAsC : Arith h → Prop
  | operand _ => True
  | binary op l r => l.TypedAsC ∧ r.TypedAsC ∧ OperatorTyped op l r

/-- The unsigned bit of the right type goes into a result that C gives without it. -/
def LendsSign (lt rt : CType) : Prop := (rt = UCHAR ∧ lt ≠ UINT ∧ lt ≠ ULONG) ∨ (rt = UINT ∧ lt = CLONG)

instance (lt rt : CType) : Decidable (LendsSign lt rt) := inferInstanceAs (Decidable (_ ∨ _))

/-- The types of the operands for which the operator is typed as in C. -/
def OperandsSuit (op : Op) (lt rt : CType) : Prop :=
  if isShift op then lt ≠ UCHAR ∧ ¬ (lt = CCHAR ∧ rt = CINT)
  else ¬ LendsSign lt rt ∧ (op ∈ commutative → ¬ LendsSign rt lt)

instance (op : Op) (lt rt : CType) : Decidable (OperandsSuit op lt rt) := inferInstanceAs (Decidable (ite _ _ _))

def Arith.Suits : Arith h → Prop
  | operand _ => True
  | binary op l r => l.Suits ∧ r.Suits ∧ OperandsSuit op l.cType r.cType

/-! ## Typed as in C -/

section
variable (hlt : IntType lt) (hrt : IntType rt)
include hlt

theorem arithPro_self_iff : arithPro lt lt = promote lt ↔ lt ≠ UCHAR := by
  rcases intType_cases hlt with rfl | rfl | rfl | rfl | rfl | rfl <;> decide

theorem promote_int : IntType (promote lt) := by
  rcases intType_cases hlt with rfl | rfl | rfl | rfl | rfl | rfl <;> decide

theorem promote_eq_iff (huchar : lt ≠ UCHAR) : promote lt = lt ↔ lt ≠ CCHAR := by
  rcases intType_cases hlt with rfl | rfl | rfl | rfl | rfl | rfl <;> first | decide | exact absurd rfl huchar

include hrt

theorem arithPro_usual_iff : arithPro lt rt = usual lt rt ↔ ¬ LendsSign lt rt := by
  rcases intType_cases hlt with rfl | rfl | rfl | rfl | rfl | rfl <;>
    rcases intType_cases hrt with rfl | rfl | rfl | rfl | rfl | rfl <;> decide

theorem usual_int : IntType (usual lt rt) := by
  rcases intType_cases hlt with rfl | rfl | rfl | rfl | rfl | rfl <;>
    rcases intType_cases hrt with rfl | rfl | rfl | rfl | rfl | rfl <;> decide

theorem usual_comm : usual lt rt = usual rt lt := by
  rcases intType_cases hlt with rfl | rfl | rfl | rfl | rfl | rfl <;>
    rcases intType_cases hrt with rfl | rfl | rfl | rfl | rfl | rfl <;> decide

end

theorem Arith.cType_int (e : Arith h) : IntType e.cType := by
  induction e with
  | operand x => exact x.int
  | binary op l r ihl ihr =>
    unfold cType
    split
    · exact promote_int ihl
    · exact usual_int ihl ihr

theorem Arith.sound (e : Arith h) : e.node.Sound := by
  induction e with
  | operand x => exact x.sound
  | binary op l r ihl ihr => exact (intarithTree_sound ihl ihr).1

theorem Arith.binary_type (op : { op : Op // op ∈ binaryOps }) (l r : Arith h) :
    (binary op l r).node.type = resultType op l.node r.node :=
  (intarithTree_sound l.sound r.sound).2

theorem Arith.TypedAsC.type {e : Arith h} (he : e.TypedAsC) : e.node.type = e.cType := by
  cases e with
  | operand x => rfl
  | binary op l r => exact he.2.2.result

theorem rightOperand_type (hr : r.Sound) :
    (rightOperand op l r).type = if isShift op then CINT else resultType op l r :=
  (makeCast_sound hr _).2

theorem leftOperand_type (hl : l.Sound) : (leftOperand op l r).type =
    if isShift op ∧ resultType op l r = r.type then l.type else resultType op l r := by
  unfold leftOperand
  by_cases hshift : isShift op = true
  · by_cases hsame : resultType op l r = r.type
    · simp [hshift, hsame]
    · simp [hshift, hsame, (makeCast_sound hl _).2]
  · simp [hshift, (makeCast_sound hl _).2]

theorem shift_not_commutative (hshift : isShift op = true) : op ∉ commutative := by
  unfold isShift at hshift
  simp only [Bool.or_eq_true, decide_eq_true_eq] at hshift
  rcases hshift with rfl | rfl <;> decide

section
variable {op : { op : Op // op ∈ binaryOps }} {l r : Arith h} (hl : l.node.type = l.cType) (hr : r.node.type = r.cType)
include hl hr

theorem shiftTyped_iff (hshift : isShift op = true) : OperatorTyped op l r ↔ OperandsSuit op l.cType r.cType := by
  have hresult : resultType op l.node r.node = arithPro l.cType l.cType := by
    rw [resultType, if_pos hshift, hl]
  have hc : (Arith.binary op l r).cType = promote l.cType := if_pos hshift
  have hself := arithPro_self_iff l.cType_int
  have hleft : (leftOperand op l.node r.node).type = _ := leftOperand_type l.sound
  rw [hresult, hl, hr] at hleft
  unfold OperandsSuit
  rw [if_pos hshift]
  constructor
  · intro htyped
    have huchar : l.cType ≠ UCHAR := hself.mp (hresult.symm.trans ((Arith.binary_type op l r).symm.trans
      (htyped.result.trans hc)))
    refine ⟨huchar, ?_⟩
    rintro ⟨hchar, hint⟩
    have htype := htyped.left
    rw [hleft, hc, hself.mpr huchar, hchar, hint] at htype
    rw [if_pos ⟨hshift, by decide⟩] at htype
    exact absurd htype (by decide)
  · rintro ⟨huchar, hchar⟩
    refine ⟨?_, fun hcomm => absurd hcomm (shift_not_commutative hshift), ?_, ?_⟩
    · rw [Arith.binary_type, hresult, hc, hself.mpr huchar]
    · rw [hleft, hc, hself.mpr huchar]
      split
      · next hsame =>
        refine ((promote_eq_iff l.cType_int huchar).mpr fun hl' => hchar ⟨hl', ?_⟩).symm
        rw [← hsame.2, hl']
        decide
      · rfl
    · rw [rightOperand_type r.sound, if_pos hshift, if_pos hshift]

theorem arithTyped_iff (hshift : isShift op = false) : OperatorTyped op l r ↔ OperandsSuit op l.cType r.cType := by
  have hshift' : ¬ isShift op = true := Bool.eq_false_iff.mp hshift
  have hresult : resultType op l.node r.node = arithPro l.cType r.cType := by
    rw [resultType, if_neg hshift', hl, hr]
  have hswapped : resultType op r.node l.node = arithPro r.cType l.cType := by
    rw [resultType, if_neg hshift', hl, hr]
  have hc : (Arith.binary op l r).cType = usual l.cType r.cType := if_neg hshift'
  have hiff := arithPro_usual_iff l.cType_int r.cType_int
  have hiff' := arithPro_usual_iff r.cType_int l.cType_int
  rw [usual_comm r.cType_int l.cType_int] at hiff'
  unfold OperandsSuit
  rw [if_neg hshift']
  constructor
  · intro htyped
    have hright := hresult.symm.trans ((Arith.binary_type op l r).symm.trans (htyped.result.trans hc))
    refine ⟨hiff.mp hright, fun hcomm => hiff'.mp ?_⟩
    have hswap := htyped.swap hcomm
    rw [Arith.binary_type, Arith.binary_type, hswapped, hresult] at hswap
    exact hswap.trans hright
  · rintro ⟨hlends, hcomm⟩
    refine ⟨?_, fun hop => ?_, ?_, ?_⟩
    · rw [Arith.binary_type, hresult, hc, hiff.mpr hlends]
    · rw [Arith.binary_type, Arith.binary_type, hswapped, hresult, hiff.mpr hlends, hiff'.mpr (hcomm hop)]
    · rw [leftOperand_type l.sound, if_neg fun hboth => hshift' hboth.1, hresult, hc, hiff.mpr hlends]
    · rw [rightOperand_type r.sound, if_neg hshift', if_neg hshift', hresult, hc, hiff.mpr hlends]

end

/-- An expression is typed as in C where the operands of each operator suit it. -/
theorem typedAsC_iff (e : Arith h) : e.TypedAsC ↔ e.Suits := by
  induction e with
  | operand x => exact Iff.rfl
  | binary op l r ihl ihr =>
    unfold Arith.TypedAsC Arith.Suits
    rw [← ihl, ← ihr]
    refine and_congr_right fun hl => and_congr_right fun hr => ?_
    cases hshift : isShift op with
    | true => exact shiftTyped_iff hl.type hr.type hshift
    | false => exact arithTyped_iff hl.type hr.type hshift

/-- The value of an unsigned char. -/
def ucharOperand : Operand Host.linux := ⟨makeConstant 200 UCHAR, sound_constant _ _, by decide⟩

/-- Two unsigned chars are added as unsigned ints. -/
theorem ucharSum_unsigned : ¬ (Arith.binary ⟨.PLUS, by decide⟩ (.operand ucharOperand) (.operand ucharOperand)).TypedAsC := by
  intro htyped
  have hresult := htyped.2.2.result
  exact absurd hresult (by decide)

end Fuzemsys.Fcc.Tree
