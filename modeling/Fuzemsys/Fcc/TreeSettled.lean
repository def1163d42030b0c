import Fuzemsys.Fcc.TreeEval

/-!
# Trees that constify leaves alone

A tree that was built once is settled: `constify` returns a constant or a label as it is
and finds nothing to do in any other. So only the node on top of settled trees is folded.
-/

open Fuzemsys.Lib

namespace Fuzemsys.Fcc.Tree

variable {h : Host} {fold : Node h → Result h} {f : Fields h} {n l r : Node h} {op : Op} {t : CType}

/-! ## Types -/

def ScalarType (t : CType) : Prop := IntType t ∨ PtrType t

theorem intType_cases (ht : IntType t) :
    t = CCHAR ∨ t = UCHAR ∨ t = CINT ∨ t = UINT ∨ t = CLONG ∨ t = ULONG := by
  simpa [IntType] using ht

theorem scalarType_intorptr (ht : ScalarType t) : IS_INTORPTR t = true := by
  rcases ht with ht | rfl
  · rcases intType_cases ht with rfl | rfl | rfl | rfl | rfl | rfl <;> rfl
  · rfl

theorem intType_ne_float (ht : IntType t) : ¬ (t = FLOAT ∨ t = DOUBLE) := by
  rcases intType_cases ht with rfl | rfl | rfl | rfl | rfl | rfl <;> decide

theorem intType_ne_ptr (ht : IntType t) : ¬ PtrType t := by
  rcases intType_cases ht with rfl | rfl | rfl | rfl | rfl | rfl <;> decide

theorem IntType.scalar (ht : IntType t) : ScalarType t := .inl ht

theorem format_width (t : CType) : 8 ≤ (format t).width ∧ (format t).width ≤ 32 := by
  unfold format
  split_ifs <;> simp

theorem width_le_host (t : CType) : (format t).width ≤ h.longBits := (format_width t).2.trans h.long_wide

/-! ## Nodes -/

@[simp] theorem node_ne_null : Node.node f l r ≠ .null := fun hnull => by cases hnull

section
variable (v : BitVec h.longBits)

@[simp] theorem makeConstant_op : (makeConstant v t).op = some .CONSTANT := rfl
@[simp] theorem makeConstant_type : (makeConstant v t).type = t := rfl
@[simp] theorem makeConstant_value : (makeConstant v t).value = v := rfl
@[simp] theorem makeConstant_flags : (makeConstant v t).flags = 0 := rfl
@[simp] theorem makeConstant_size : (makeConstant v t).size = 1 := rfl
@[simp] theorem makeConstant_setType (t' : CType) : (makeConstant v t).setType t' = makeConstant v t' := rfl
@[simp] theorem makeConstant_setValue (v' : BitVec h.longBits) : (makeConstant v t).setValue v' = makeConstant v' t := rfl
@[simp] theorem makeConstant_isConstant : isConstant (makeConstant v t) = true := rfl
@[simp] theorem makeConstant_isName : isName (makeConstant v t) = false := rfl

end

/-- What `constify` returns as it is. -/
def isLeaf (n : Node h) : Bool := n.op = some .CONSTANT || n.op = some .LABEL

@[simp] theorem makeConstant_isLeaf (v : BitVec h.longBits) : isLeaf (makeConstant v t) = true := rfl

def leafResult (n : Node h) : Result h := if isLeaf n then .folded n else .stuck n

/-- It is no leaf and no name. -/
def Op.isOperator : Op → Bool
  | CONSTANT => false
  | NAME => false
  | LOCAL => false
  | LABEL => false
  | ARGUMENT => false
  | REG => false
  | _ => true

theorem isOperator_ne (hop : op.isOperator = true) :
    op ≠ .CONSTANT ∧ op ≠ .NAME ∧ op ≠ .LOCAL ∧ op ≠ .LABEL ∧ op ≠ .ARGUMENT ∧ op ≠ .REG := by
  refine ⟨?_, ?_, ?_, ?_, ?_, ?_⟩ <;> rintro rfl <;> cases hop

theorem isLeaf_operator (hn : n.op = some op) (hop : op.isOperator = true) : isLeaf n = false := by
  simp [isLeaf, hn, isOperator_ne hop]

/-- A sum with a constant on the right. -/
def IsSum : Node h → Prop
  | .null => False
  | .node f _ r => f.op = .PLUS ∧ isConstant r

instance : (n : Node h) → Decidable (IsSum n)
  | .null => inferInstanceAs (Decidable False)
  | .node f _ r => inferInstanceAs (Decidable (f.op = .PLUS ∧ isConstant r))

inductive Settled : Node h → Prop
  | constant (v : BitVec h.longBits) {t : CType} (ht : IntType t) : Settled (makeConstant v t)
  | label {f : Fields h} (hop : f.op = .LABEL) (hflags : f.flags &&& LVAL = 0) (ht : ScalarType f.type) :
      Settled (.node f .null .null)
  | stuck {f : Fields h} {l r : Node h} (hop : f.op.isOperator = true) (ht : ScalarType f.type)
      (hbool : f.op = .BOOL → f.type = CINT) (hl : IsSum (.node f l r) → Settled l)
      (hsum : IsSum (.node f l r) → l.type = f.type ∧ (format f.type).width ≤ (format r.type).width ∧ ¬ IsSum l ∧
        ∃ v t, IntType t ∧ r = makeConstant v t)
      (hstuck : ∀ k, (Node.node f l r).size ≤ k → constify k (.node f l r) = .stuck (.node f l r)) :
      Settled (.node f l r)

namespace Settled

theorem scalar (hn : Settled n) : ScalarType n.type := by
  cases hn with
  | constant v ht => exact .inl ht
  | label hop hflags ht => exact ht
  | stuck hop ht hbool hl hsum hstuck => exact ht

theorem bool (hn : Settled n) (hbool : n.op = some .BOOL) : n.type = CINT := by
  cases hn with
  | constant v ht => cases hbool
  | label hop hflags ht =>
    rw [Node.op, hop] at hbool
    cases hbool
  | stuck hop ht htype hl hsum hstuck => exact htype (Option.some.inj hbool)

theorem ne_null (hn : Settled n) : n ≠ .null := by
  cases hn <;> exact node_ne_null

/-- The names of variables are not settled. -/
theorem op_cases (hn : Settled n) :
    (∃ v t, IntType t ∧ n = makeConstant v t) ∨
      (n.op = some .LABEL ∧ n.flags &&& LVAL = 0 ∧ ∃ f, n = .node f .null .null) ∨
      ∃ op, n.op = some op ∧ op.isOperator = true := by
  cases hn with
  | constant v ht => exact .inl ⟨v, _, ht, rfl⟩
  | label hop hflags ht => exact .inr (.inl ⟨congrArg some hop, hflags, _, rfl⟩)
  | @stuck f l r hop ht hbool hl hsum hstuck => exact .inr (.inr ⟨f.op, rfl, hop⟩)

theorem eq_constant (hn : Settled n) (hconst : isConstant n = true) : ∃ v t, IntType t ∧ n = makeConstant v t := by
  rcases hn.op_cases with hn | ⟨hop, -⟩ | ⟨op, hop, hoper⟩
  · exact hn
  · simp [isConstant, hop] at hconst
  · simp only [isConstant, hop, Option.some.injEq, decide_eq_true_eq] at hconst
    exact absurd hconst (isOperator_ne hoper).1

theorem isName_iff (hn : Settled n) : isName n = true ↔ n.op = some .LABEL := by
  rcases hn.op_cases with ⟨v, t, -, rfl⟩ | ⟨hop, -⟩ | ⟨op, hop, hoper⟩
  · simp
  · simp [isName, hop]
  · simp [isName, hop, isOperator_ne hoper]

end Settled

theorem constify_settled (hn : Settled n) {k : Nat} (hk : n.size ≤ k) : constify k n = leafResult n := by
  cases hn with
  | constant v ht =>
    cases k with
    | zero => cases hk
    | succ k => rfl
  | label hop hflags ht =>
    cases k with
    | zero => cases hk
    | succ k => simp [constify, constifyNode, castRule, reassociate, simplify, isConstant, isConstname, leafResult,
        isLeaf, Node.op, hop]
  | @stuck f l r hop ht hbool hl hsum hstuck =>
    rw [hstuck k hk, leafResult, isLeaf_operator rfl hop, if_neg Bool.false_ne_true]

/-! ## The node on top -/

theorem leaf_cases (hn : Settled n) :
    (∃ v t, IntType t ∧ n = makeConstant v t) ∨ (n.op = some .LABEL ∧ n.flags &&& LVAL = 0) ∨
      (isLeaf n = false ∧ isConstant n = false ∧ isName n = false) := by
  rcases hn.op_cases with hn | ⟨hop, hflags, -⟩ | ⟨op, hop, hoper⟩
  · exact .inl hn
  · exact .inr (.inl ⟨hop, hflags⟩)
  · refine .inr (.inr ⟨isLeaf_operator hop hoper, ?_, ?_⟩)
    · simp [isConstant, hop, isOperator_ne hoper]
    · simp [isName, hop, isOperator_ne hoper]

def unaryOps : List Op := [.NEGATE, .TILDE, .BANG, .BOOL, .CAST]

theorem castRule_of_ne (hop : f.op ≠ .CAST) (r : Node h) : castRule f r = none := if_neg hop

theorem castRule_stuck (hr : Settled r) (hleaf : isLeaf r = false) : castRule f r = none := by
  rcases hr.op_cases with ⟨v, t, -, rfl⟩ | ⟨hop, -⟩ | ⟨op, hop, hoper⟩
  · cases hleaf
  · simp [isLeaf, hop] at hleaf
  · simp [castRule, hop, isOperator_ne hoper]

theorem simplify_left_null (hr : f.op ∈ unaryOps) : simplify fold f .null r = none := by
  simp only [unaryOps, List.mem_cons, List.not_mem_nil, or_false] at hr
  rcases hr with hop | hop | hop | hop | hop <;> simp [simplify, hop]

theorem unary_not_logic (hop : f.op ∈ unaryOps) : ¬ (f.op = .ANDAND ∨ f.op = .OROR) := by
  simp only [unaryOps, List.mem_cons, List.not_mem_nil, or_false] at hop
  rcases hop with hop | hop | hop | hop | hop <;> simp [hop]

/-- Below an operator with one side. -/
theorem constifyNode_unary (hop : f.op ∈ unaryOps) (hcast : castRule f r = none) (hr : Settled r)
    (hfold : fold r = leafResult r) :
    constifyNode fold f .null r = if isLeaf r then unaryRule f .null r else .stuck (.node f .null r) := by
  unfold constifyNode
  rw [hcast]
  simp only [reassociate, simplify_left_null hop, if_neg (unary_not_logic hop)]
  cases r with
  | null => exact absurd rfl hr.ne_null
  | node g ll lr =>
    cases hleaf : isLeaf (.node g ll lr) <;> simp [hfold, leafResult, hleaf]

def arithOps : List Op := binaryOps ++ compareOps

theorem arithOp_ne (hop : op ∈ arithOps) :
    op ≠ .CAST ∧ op ≠ .ANDAND ∧ op ≠ .OROR ∧ op ≠ .NEGATE ∧ op ≠ .TILDE ∧ op ≠ .BANG ∧ op ≠ .BOOL ∧
      op.isOperator = true := by
  simp only [arithOps, binaryOps, compareOps, List.cons_append, List.nil_append, List.mem_cons, List.not_mem_nil,
    or_false] at hop
  rcases hop with rfl | rfl | rfl | rfl | rfl | rfl | rfl | rfl | rfl | rfl | rfl | rfl | rfl | rfl <;> decide

theorem simplify_right_open (hr : isConstant r = false) : simplify fold f l r = none := by
  simp [simplify, hr]

theorem reassociate_right_open (hr : isConstant r = false) : reassociate f l r = (l, r) := by
  cases l <;> simp [reassociate, hr]

theorem unaryRule_arith (hop : f.op ∈ arithOps) (hr : isConstant r = false) (l : Node h) :
    unaryRule f l r = .stuck (.node f l r) := by
  obtain ⟨hcast, -, -, hneg, htilde, hbang, hbool, -⟩ := arithOp_ne hop
  unfold unaryRule
  rw [hr]
  simp only [Bool.false_eq_true, false_and, if_false]
  split
  · rfl
  · split
    · rfl
    · rfl

/-- Only a constant on the right is folded. -/
theorem constifyNode_open (hop : f.op ∈ arithOps) (hl : Settled l) (hr : Settled r) (hconst : isConstant r = false)
    (hfoldl : fold l = leafResult l) (hfoldr : fold r = leafResult r) :
    constifyNode fold f l r = .stuck (.node f l r) := by
  obtain ⟨hcast, hand, hor, -⟩ := arithOp_ne hop
  unfold constifyNode
  rw [castRule_of_ne hcast]
  simp only [reassociate_right_open hconst, simplify_right_open hconst, hand, hor, or_self, if_false]
  cases r with
  | null => exact absurd rfl hr.ne_null
  | node g rl rr =>
    simp only [hfoldr, leafResult]
    split
    · next r' hr' =>
      split at hr' <;> simp_all
    · next r' hr' =>
      split at hr'
      · cases hr'
        rw [if_neg hl.ne_null, binaryRule]
        simp only [hconst, Bool.false_eq_true, false_and, and_false, if_false, hfoldl, leafResult]
        split
        · next l' hl' =>
          split at hl' <;> simp_all
        · next l' hl' =>
          split at hl'
          · cases hl'
            split
            · rfl
            · exact unaryRule_arith hop hconst l
          · cases hl'
      · cases hr'

/-- The end of the fold, with a constant on the right. -/
def coreResult (f : Fields h) (l r : Node h) : Result h :=
  if isName l then
    if f.op = .PLUS then .folded (l.setValue (l.value + r.value))
    else if f.op = .MINUS then .folded (l.setValue (l.value - r.value))
    else .stuck (.node f l r)
  else if (f.op = .PLUS ∨ f.op = .MINUS) ∧ r.value = 0 then .folded l
  else if isConstant l then
    match binaryValue f.op l.type l.value r.value with
    | some value => .folded (makeConstant value l.type)
    | none => .stuck (.node f l r)
  else .stuck (.node f l r)

theorem constifyNode_core {w : BitVec h.longBits} {l' : Node h} {w' : BitVec h.longBits} (hop : f.op ∈ arithOps)
    (hl : Settled l') (hre : reassociate f l (makeConstant w t) = (l', makeConstant w' t))
    (hsimplify : simplify fold f l' (makeConstant w' t) = none) (hfoldl : fold l' = leafResult l')
    (hfoldr : fold (makeConstant w' t) = .folded (makeConstant w' t)) :
    constifyNode fold f l (makeConstant w t) = coreResult f l' (makeConstant w' t) := by
  obtain ⟨hcast, hand, hor, -⟩ := arithOp_ne hop
  unfold constifyNode
  rw [castRule_of_ne hcast]
  simp only [hre, hsimplify, hand, hor, or_self, if_false]
  have hright : (makeConstant w' t : Node h) = .node { newNode .CONSTANT with value := w', type := t } .null .null := rfl
  rw [hright]
  simp only
  rw [← hright, hfoldr]
  simp only [if_neg hl.ne_null]
  unfold binaryRule coreResult
  rcases leaf_cases hl with ⟨v, t', ht', rfl⟩ | ⟨hlabel, hflags⟩ | ⟨hleaf, hconst, hname⟩
  · cases hvalue : binaryValue f.op t' v w' <;>
      simp [hvalue, hfoldl, leafResult, isLeaf, scalarType_intorptr (IntType.scalar ht')]
  · have hname : isName l' = true := by simp [isName, hlabel]
    simp only [makeConstant_isConstant, hname, true_or, and_self, if_true, makeConstant_isName]
    by_cases hplus : f.op = .PLUS
    · simp [hplus]
    · by_cases hminus : f.op = .MINUS <;> simp [hplus, hminus]
  · simp [hname, hconst, hfoldl, leafResult, hleaf]

end Fuzemsys.Fcc.Tree
