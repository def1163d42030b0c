import Fuzemsys.Fcc.TreeFold

/-!
# Trees of expressions

Each function that the first pass builds trees with keeps the values, if its operands fit.
So does the whole expression.
-/

open Fuzemsys.Lib

namespace Fuzemsys.Fcc.Tree

variable {h : Host} {fold : Node h → Result h} {f : Fields h} {n m l r : Node h} {op : Op} {t rt : CType}
  {v w : BitVec h.longBits} {env : Env h} {x y z : Int}

/-- A folded tree and the same tree with nothing folded. -/
structure Agrees (n m : Node h) : Prop extends Means n m where
  ne_null : m ≠ .null
  bool : m.op = some .BOOL → m.type = CINT
  zero : isConstantZero m = true → n = m

/-! ## Operators with one side -/

theorem tree_unary (r : Node h) :
    tree op .null r = (constifyNode (constify r.size) (typedFields op r.type) .null r).node := by
  unfold tree treeWith treeNode
  simp only [Node.size, zero_add]
  rfl

theorem settled_unary (hop : f.op ∈ unaryOps) (ht : ScalarType f.type) (hbool : f.op = .BOOL → f.type = CINT)
    (hstuck : ∀ k, r.size ≤ k → constifyNode (constify k) f .null r = .stuck (.node f .null r)) :
    Settled (.node f .null r) := by
  have hplus : f.op.isOperator = true ∧ f.op ≠ .PLUS := by
    simp only [unaryOps, List.mem_cons, List.not_mem_nil, or_false] at hop
    rcases hop with hop | hop | hop | hop | hop <;> rw [hop] <;> decide
  refine .stuck hplus.1 ht hbool (fun hsum => absurd hsum.1 hplus.2) (fun hsum => absurd hsum.1 hplus.2) fun k hk => ?_
  cases k with
  | zero => cases hk
  | succ k =>
    simp only [Node.size] at hk
    exact hstuck k (by omega)

theorem constify_unary_open (hop : f.op ∈ unaryOps) (hr : Settled r) (hleaf : isLeaf r = false) {k : Nat}
    (hk : r.size ≤ k) : constifyNode (constify k) f .null r = .stuck (.node f .null r) := by
  rw [constifyNode_unary hop (castRule_stuck hr hleaf) hr (constify_settled hr hk), hleaf, if_neg Bool.false_ne_true]

theorem means_unary_open (hop : op ∈ unaryOps) (ht : ScalarType t) (hbool : op = .BOOL → t = CINT) (hr : Settled r)
    (hleaf : isLeaf r = false) : Means ((tree op .null r).setType t) (typedNode op t .null r) := by
  rw [tree_unary, constify_unary_open (f := typedFields op r.type) hop hr hleaf le_rfl]
  refine ⟨settled_unary (f := typedFields op t) hop ht hbool fun k hk => ?_, rfl, fun env z hz => hz⟩
  exact constify_unary_open hop hr hleaf hk

/-- What a constant becomes under the operator. -/
def unaryValue (op : Op) (v : BitVec h.longBits) : BitVec h.longBits :=
  match op with
  | .NEGATE => -v
  | .TILDE => ~~~v
  | .BANG => truthValue (v = 0)
  | _ => v

theorem tree_unary_constant (hop : op ∈ unaryOps) (hrt : IntType rt) :
    tree op .null (makeConstant v rt) = makeConstant (unaryValue op v) rt := by
  rw [tree_unary, makeConstant_type]
  have hfold : constify (makeConstant v rt).size (makeConstant v rt) = leafResult (makeConstant v rt) :=
    constify_settled (.constant v hrt) le_rfl
  by_cases hcast : op = .CAST
  · subst hcast
    simp [constifyNode, castRule, Result.node, unaryValue]
  · rw [constifyNode_unary (f := typedFields op rt) hop (castRule_of_ne hcast _) (.constant v hrt) hfold,
      makeConstant_isLeaf, if_pos rfl]
    simp only [unaryOps, List.mem_cons, List.not_mem_nil, or_false] at hop
    rcases hop with rfl | rfl | rfl | rfl | rfl <;>
      simp [unaryRule, Result.node, unaryValue, intType_ne_float hrt, scalarType_intorptr hrt.scalar, typedFields, newNode]
    rfl

theorem eval_typed_unary (hop : op ∈ unaryOps) :
    eval env (typedNode op t .null r) = (eval env r).bind fun x => (unary op x).map (reduce t) :=
  eval_unary (f := typedFields op t) hop

/-! ## Casts -/

theorem tree_cast_label (hr : r.op = some .LABEL) : tree .CAST .null r = r := by
  rw [tree_unary, constifyNode]
  simp only [castRule, typedFields_op, typedFields_type, hr]
  simp [Result.node, setType_self]

theorem means_cast_label (hn : Settled n) (hlabel : n.op = some .LABEL) (hflags : n.flags &&& LVAL = 0) (ht : IntType t)
    (hfits : (format t).width ≤ (format n.type).width ∨ n.WholeAddress) :
    Means (n.setType t) (typedNode .CAST t .null n) := by
  obtain ⟨v, t', -, rfl⟩ | ⟨-, -, g, rfl⟩ | ⟨op', hop', hoper⟩ := hn.op_cases
  · cases hlabel
  · have hg : g.op = .LABEL := Option.some.inj hlabel
    refine ⟨.label (f := { g with type := t }) hg hflags ht.scalar, rfl, fun env z hz => ?_⟩
    rw [eval_typed_unary (by decide), eval_label hg] at hz
    cases hz
    rw [Node.setType, eval_label (f := { g with type := t }) hg]
    refine congrArg some ?_
    rcases hfits with hle | hwhole
    · exact (reduce_reduce_of_le hle _).symm
    · exact congrArg (reduce t) (hwhole _ (env.address_pos g.val2) (env.address_lt g.val2)).symm
  · rw [hop'] at hlabel
    exact absurd (Option.some.inj hlabel) (isOperator_ne hoper).2.2.2.1

theorem agrees_makeCast (hn : Agrees n m) (ht : IntType t) (hfits : CastFits n t) :
    Agrees (makeCast tree n t) (makeCast bareTree m t) := by
  unfold makeCast
  rw [← hn.type]
  by_cases hsame : n.type = t
  · rw [if_neg (not_not_intro hsame), if_neg (not_not_intro hsame)]
    exact hn
  rw [if_pos hsame, if_pos hsame]
  have hbare : (bareTree .CAST .null m).setType t = typedNode .CAST t .null m := rfl
  rw [hbare]
  refine { toMeans := ?_, ne_null := node_ne_null, bool := fun hbool => (by cases hbool),
           zero := fun hzero => by cases hzero }
  have hmeans : Means ((tree .CAST .null n).setType t) (typedNode .CAST t .null n) := by
    rcases leaf_cases hn.settled with ⟨v, s, hs, rfl⟩ | ⟨hlabel, hflags⟩ | ⟨hleaf, -, -⟩
    · rw [tree_unary_constant (by decide) hs, makeConstant_setType]
      refine means_constant ht rfl fun env z hz => ?_
      rw [eval_typed_unary (by decide)] at hz
      cases hz
      exact (hfits.1 rfl).elim (fun hle => (reduce_reduce_of_le hle _).symm) trimmed_toInt
    · rw [tree_cast_label hlabel]
      exact means_cast_label hn.settled hlabel hflags ht (hfits.2 hlabel)
    · exact means_unary_open (by decide) ht.scalar (fun hbool => by cases hbool) hn.settled hleaf
  refine hmeans.of_value rfl fun env z hz => ?_
  rw [eval_typed_unary (by decide), Option.bind_eq_some_iff] at hz ⊢
  obtain ⟨x, hx, hz⟩ := hz
  exact ⟨x, hn.value env x hx, hz⟩

/-! ## Truth -/

theorem eval_bool (hop : n.op = some .BOOL) (htype : n.type = CINT) (hx : eval env n = some x) : x = truth (x ≠ 0) := by
  cases n with
  | null => cases hop
  | node f l r =>
    have hf : f.op = .BOOL := Option.some.inj hop
    rw [eval] at hx
    simp only [hf] at hx
    split at hx
    · simp only [Option.bind_eq_bind, Option.bind_eq_some_iff] at hx
      obtain ⟨a, -, hx⟩ := hx
      cases hx
      rw [reduce_truth]
      rcases truth_cases (a ≠ 0) with h0 | h1
      · rw [h0]
        rfl
      · rw [h1]
        rfl
    · simp only [Option.bind_eq_bind, Option.bind_eq_some_iff] at hx
      obtain ⟨a, -, b, -, hx⟩ := hx
      cases hx

/-- The value of `boolTree` that folds nothing. -/
theorem eval_boolTree_bare {flags : BitVec 16} (hm : m.op = some .BOOL → m.type = CINT)
    (hz : eval env (boolTree bareTree m flags) = some z) : ∃ x, eval env m = some x ∧ z = truth (x ≠ 0) := by
  unfold boolTree at hz
  split at hz
  · next hbool => exact ⟨z, hz, eval_bool hbool (hm hbool) hz⟩
  · have heval (f : Fields h) (hf : f.op = .BOOL) (hz : eval env (.node f .null m) = some z) :
        ∃ x, eval env m = some x ∧ z = truth (x ≠ 0) := by
      rw [eval_unary (by rw [hf]; decide), Option.bind_eq_some_iff] at hz
      obtain ⟨x, hx, hz⟩ := hz
      rw [hf] at hz
      cases hz
      exact ⟨x, hx, reduce_truth _ _⟩
    split at hz
    · exact heval _ rfl hz
    · exact heval _ rfl hz

theorem boolTree_bare_bool (m : Node h) (flags : BitVec 16) (hm : m.op = some .BOOL → m.type = CINT) :
    (boolTree bareTree m flags).op = some .BOOL ∧ (boolTree bareTree m flags).type = CINT := by
  unfold boolTree
  split
  · next hbool => exact ⟨hbool, hm hbool⟩
  · split <;> exact ⟨rfl, rfl⟩

/-- A T_BOOL that needs the condition codes is kept on top of anything. -/
theorem settled_needcc {flags : BitVec 16} (hn : Settled n) (hneedcc : flags &&& NEEDCC ≠ 0) :
    Settled (.node { newNode .BOOL with type := CINT, flags := flags } .null n) := by
  have hop : Op.BOOL ∈ unaryOps := by decide
  refine settled_unary hop (.inl (show IntType CINT by decide)) (fun _ => rfl) fun k hk => ?_
  rw [constifyNode_unary (f := { newNode .BOOL with type := CINT, flags := flags }) hop
    (castRule_of_ne (show Op.BOOL ≠ .CAST by decide) n) hn (constify_settled hn hk)]
  split
  · unfold unaryRule
    rw [if_neg (c := isConstant n = true ∧ (n.type = FLOAT ∨ n.type = DOUBLE)), if_pos hneedcc]
    · split
      · rfl
      · split <;> rfl
    · rintro ⟨hconst, hfloat⟩
      obtain ⟨v, t, ht, rfl⟩ := hn.eq_constant hconst
      exact intType_ne_float ht hfloat
  · rfl

/-- The value of `boolTree` on a settled tree. -/
theorem boolTree_right {flags : BitVec 16} (hn : Settled n) (hfits : BoolFits n flags) :
    Settled (boolTree tree n flags) ∧ (boolTree tree n flags).type = CINT ∧
      ∀ env x, eval env n = some x → eval env (boolTree tree n flags) = some (truth (x ≠ 0)) := by
  unfold boolTree
  split
  · next hbool =>
    refine ⟨hn, hn.bool hbool, fun env x hx => ?_⟩
    rw [hx]
    exact congrArg some (eval_bool hbool (hn.bool hbool) hx)
  · next hbool =>
    split
    · next hneedcc =>
      refine ⟨?_, rfl, fun env x hx => ?_⟩
      · exact settled_needcc hn hneedcc
      · rw [eval_unary (show Op.BOOL ∈ unaryOps by decide), hx, Option.bind_some]
        exact congrArg some (reduce_truth _ _)
    · next hneedcc =>
      obtain ⟨hlabel, htruth⟩ := (hfits.resolve_left hbool).resolve_left hneedcc
      rcases leaf_cases hn with ⟨v, s, hs, rfl⟩ | ⟨hlabel', -⟩ | ⟨hleaf, -, -⟩
      · rw [tree_unary_constant (by decide) hs, makeConstant_setType]
        refine ⟨.constant v (by decide), rfl, fun env x hx => ?_⟩
        cases hx
        exact congrArg some (htruth rfl)
      · exact absurd hlabel' hlabel
      · have hmeans := means_unary_open (show Op.BOOL ∈ unaryOps by decide) (.inl (by decide)) (fun _ => rfl) hn hleaf
        refine ⟨hmeans.settled, hmeans.type, fun env x hx => hmeans.value env _ ?_⟩
        rw [eval_typed_unary (by decide), hx, Option.bind_some]
        exact congrArg some (reduce_truth _ _)

/-- From the values of the operand to those of its truth. -/
theorem agrees_boolTree {flags : BitVec 16} (hn : Settled n) (hm : m.op = some .BOOL → m.type = CINT)
    (hvalue : ∀ env z, eval env m = some z → eval env n = some z) (hfits : BoolFits n flags) :
    Agrees (boolTree tree n flags) (boolTree bareTree m flags) := by
  obtain ⟨hsettled, htype, hright⟩ := boolTree_right hn hfits
  obtain ⟨hbool, hbare⟩ := boolTree_bare_bool m flags hm
  refine { settled := hsettled, type := htype.trans hbare.symm, value := fun env z hz => ?_, ne_null := ?_,
           bool := fun _ => hbare, zero := fun hzero => ?_ }
  · obtain ⟨x, hx, rfl⟩ := eval_boolTree_bare hm hz
    exact hright env x (hvalue env x hx)
  · intro hnull
    rw [hnull] at hbool
    cases hbool
  · simp [isConstantZero, isConstant, hbool] at hzero

theorem agrees_unary (hn : Agrees n m) (hop : op = .NEGATE ∨ op = .TILDE) (hlabel : n.NoLabel) :
    Agrees (tree op .null n) (bareTree op .null m) := by
  have harith : op ∈ unaryOps ∧ op ≠ .BOOL ∧ op ≠ .CONSTANT := by
    rcases hop with rfl | rfl <;> decide
  have hbare : bareTree op .null m = typedNode op n.type .null m := by
    rw [hn.type]
    rfl
  rw [hbare]
  refine { toMeans := ?_, ne_null := node_ne_null, bool := fun hbool => absurd (Option.some.inj hbool) harith.2.1,
           zero := fun hzero => ?_ }
  · have hmeans : Means (tree op .null n) (typedNode op n.type .null n) := by
      rcases leaf_cases hn.settled with ⟨v, s, hs, rfl⟩ | ⟨hlabel', -⟩ | ⟨hleaf, -, -⟩
      · rw [tree_unary_constant harith.1 hs]
        refine means_constant hs rfl fun env z hz => ?_
        rw [eval_typed_unary harith.1, eval_constant, Option.bind_some] at hz
        have hself := reduce_modEq (le_refl (format s).width) v.toInt
        rcases hop with rfl | rfl
        · cases hz
          exact reduce_eq_iff.mpr ((Format.toInt_neg_modEq v (width_le_host s)).trans hself.neg.symm)
        · cases hz
          exact reduce_eq_iff.mpr ((Format.toInt_not_modEq v (width_le_host s)).trans (hself.neg.sub_right 1).symm)
      · exact absurd hlabel' hlabel
      · have hopen := means_unary_open harith.1 hn.settled.scalar (fun hbool => absurd hbool harith.2.1) hn.settled hleaf
        have htype : (tree op .null n).type = n.type := by
          rw [tree_unary, constify_unary_open (f := typedFields op n.type) harith.1 hn.settled hleaf le_rfl]
          rfl
        rw [setType_self htype] at hopen
        exact hopen
    refine hmeans.of_value rfl fun env z hz => ?_
    rw [eval_typed_unary harith.1, Option.bind_eq_some_iff] at hz ⊢
    obtain ⟨x, hx, hz⟩ := hz
    exact ⟨x, hn.value env x hx, hz⟩
  · simp [isConstantZero, isConstant, typedNode, Node.op, harith.2.2] at hzero

theorem agrees_bangTree (hn : Agrees n m) (hlabel : n.NoLabel) (htruth : n.TruthKept) :
    Agrees (bangTree tree n) (bangTree bareTree m) := by
  have hbare : bareTree .BANG .null m = typedNode .BANG n.type .null m := by
    rw [hn.type]
    rfl
  unfold bangTree
  rw [hbare]
  have hfold : Settled (tree .BANG .null n) ∧ BoolFits (tree .BANG .null n) 0 ∧
      ∀ env x, eval env n = some x → eval env (tree .BANG .null n) = some (truth (x = 0)) := by
    rcases leaf_cases hn.settled with ⟨v, s, hs, rfl⟩ | ⟨hlabel', -⟩ | ⟨hleaf, hconst, hname⟩
    · rw [tree_unary_constant (by decide) hs]
      refine ⟨.constant _ hs, .inr (.inr ⟨fun hlabel => (by cases hlabel), fun _ => ?_⟩), fun env x hx => ?_⟩
      · rw [Node.constValue, makeConstant_type, makeConstant_value, unaryValue, toInt_truthValue, reduce_truth,
          reduce_truth]
        rcases truth_cases (decide (v = 0) = true) with h0 | h1
        · rw [h0]
          rfl
        · rw [h1]
          rfl
      · cases hx
        rw [eval_constant, unaryValue, toInt_truthValue, reduce_truth]
        have hiff : (v = 0 ↔ reduce s v.toInt = 0) := htruth rfl
        simp only [decide_eq_true_eq, truth, hiff]
    · exact absurd hlabel' hlabel
    · have hstuck : tree .BANG .null n = typedNode .BANG n.type .null n := by
        rw [tree_unary, constify_unary_open (f := typedFields .BANG n.type) (show Op.BANG ∈ unaryOps by decide)
          hn.settled hleaf le_rfl]
        rfl
      have hopen := means_unary_open (show Op.BANG ∈ unaryOps by decide) hn.settled.scalar
        (fun hbool => by cases hbool) hn.settled hleaf
      rw [hstuck] at hopen ⊢
      refine ⟨hopen.settled, .inr (.inr ⟨fun hlabel' => (by cases hlabel'), fun hconst' => (by cases hconst')⟩), fun env x hx => ?_⟩
      rw [eval_typed_unary (by decide), hx, Option.bind_some]
      exact congrArg some (reduce_truth _ _)
  obtain ⟨hsettled, hfits, hvalue⟩ := hfold
  refine agrees_boolTree hsettled (fun hbool => by cases hbool) (fun env z hz => ?_) hfits
  rw [eval_typed_unary (by decide), Option.bind_eq_some_iff] at hz
  obtain ⟨x, hx, hz⟩ := hz
  rw [hvalue env x (hn.value env x hx), ← hz]
  exact congrArg some (reduce_truth _ _).symm

/-! ## Operators with two sides -/

theorem arithPro_int {lt : CType} (hlt : IntType lt) (hrt : IntType rt) : IntType (arithPro lt rt) := by
  rcases intType_cases hlt with rfl | rfl | rfl | rfl | rfl | rfl <;>
    rcases intType_cases hrt with rfl | rfl | rfl | rfl | rfl | rfl <;> decide

theorem eval_typed_congr {l' r' : Node h} (hop : op ∈ arithOps) (hl : Agrees l l') (hr : Agrees r r')
    (hz : eval env (typedNode op t l' r') = some z) : eval env (typedNode op t l r) = some z := by
  rw [eval_typed hop hl.ne_null, Option.bind_eq_some_iff] at hz
  obtain ⟨x, hx, hz⟩ := hz
  rw [Option.bind_eq_some_iff] at hz
  obtain ⟨y, hy, hz⟩ := hz
  rw [eval_typed hop hl.settled.ne_null, hl.value env x hx, hr.value env y hy]
  exact hz

/-- An operator on folded operands, for the operator on the same operands with nothing folded. -/
theorem agrees_tree {l' r' : Node h} (hop : op ∈ arithOps) (ht : ScalarType t) (hcompare : op ∈ compareOps → IntType t)
    (hl : Agrees l l') (hr : Agrees r r') (htyped : isConstant r → ConstTyped op l r.type t) (hfits : BothFit op l r) :
    Agrees ((tree op l r).setType t) ((bareTree op l' r').setType t) := by
  have hne := arithOp_ne hop
  have hmeans : Means ((tree op l r).setType t) (typedNode op t l r) := by
    cases hconst : isConstant r with
    | false => exact means_open hop ht hl.settled hr.settled hconst
    | true =>
      obtain ⟨w, rt, hrt, rfl⟩ := hr.settled.eq_constant hconst
      rcases means_tree_constant hop ht hl.settled hrt (htyped rfl) fun hleft => hfits hleft rfl with
        ⟨hmeans, -⟩ | ⟨hop', hdecides⟩
      · exact hmeans
      · exact means_constant_of_decides hdecides (hcompare hop') rfl
  refine { toMeans := hmeans.of_value rfl fun env z hz => eval_typed_congr hop hl hr hz, ne_null := node_ne_null,
           bool := fun hbool => absurd (Option.some.inj hbool) hne.2.2.2.2.2.2.1, zero := fun hzero => ?_ }
  have hop' : op ≠ .CONSTANT := (isOperator_ne hne.2.2.2.2.2.2.2).1
  simp [isConstantZero, isConstant, Node.op, bareTree, treeNode, Node.setType, newNode, hop'] at hzero

theorem isConstant_type (hn : Settled n) (hconst : isConstant n = true) : IntType n.type := by
  obtain ⟨v, t, ht, rfl⟩ := hn.eq_constant hconst
  exact ht

theorem tree_cast_ne (hn : Agrees n m) (ht : IntType t) (hfits : CastFits n t) : (makeCast tree n t).type = t := by
  by_cases hsame : n.type = t
  · rw [makeCast, if_neg (not_not_intro hsame), hsame]
  · have hagrees := (agrees_makeCast hn ht hfits).type
    rw [hagrees, makeCast, ← hn.type, if_pos hsame]
    rfl

theorem agrees_arithProTree {l' r' : Node h} (hop : op ∈ arithOps) (hshift : op ≠ .LTLT ∧ op ≠ .GTGT) (hl : Agrees l l')
    (hr : Agrees r r') (hlt : IntType l.type) (hrt : IntType r.type) (hfits : ProFits op l r) :
    Agrees (arithProTree tree op l r) (arithProTree bareTree op l' r') := by
  have ht := arithPro_int hlt hrt
  obtain ⟨hfitl, hfitr, hboth⟩ := hfits
  have hleft := tree_cast_ne hl ht hfitl
  have hright := tree_cast_ne hr ht hfitr
  unfold arithProTree
  rw [← hl.type, ← hr.type]
  refine agrees_tree hop ht.scalar (fun _ => ht) (agrees_makeCast hl ht hfitl) (agrees_makeCast hr ht hfitr)
    (fun _ => ?_) hboth
  exact { left := fun _ _ => hleft, right := fun _ _ _ => hright.symm ▸ le_rfl,
          compare := fun _ _ => hleft.trans hright.symm,
          shift := fun hop' => (hop'.elim hshift.1 hshift.2).elim, const := fun _ => ht, star := fun _ => ht }

theorem agrees_intarithTree {l' r' : Node h} (hop : op ∈ binaryOps) (hl : Agrees l l') (hr : Agrees r r')
    (hlt : IntType l.type) (hrt : IntType r.type) (hfits : BinaryFits op l r) :
    Agrees (intarithTree tree op l r) (intarithTree bareTree op l' r') := by
  have harith : op ∈ arithOps := List.mem_append_left _ hop
  unfold intarithTree
  unfold BinaryFits at hfits
  by_cases hshift : op = .LTLT ∨ op = .GTGT
  · rw [if_pos hshift] at hfits
    rw [if_pos hshift, if_pos hshift]
    obtain ⟨hfitl, hwide, hfitr, hboth⟩ := hfits
    have ht := arithPro_int hlt hlt
    have hint : IntType CINT := by decide
    have hright := tree_cast_ne hr hint hfitr
    rw [← hl.type, ← hr.type]
    have hcast : Agrees (if arithPro l.type l.type ≠ r.type then makeCast tree l (arithPro l.type l.type) else l)
        (if arithPro l.type l.type ≠ r.type then makeCast bareTree l' (arithPro l.type l.type) else l') := by
      split
      · next hne => exact agrees_makeCast hl ht (hfitl hne)
      · exact hl
    refine agrees_tree harith ht.scalar (fun _ => ht) hcast (agrees_makeCast hr hint hfitr) (fun _ => ?_) hboth
    refine { left := fun hltlt hgtgt => (hshift.elim hltlt hgtgt).elim,
             right := fun hltlt hgtgt => (hshift.elim hltlt hgtgt).elim, compare := fun hcompare => ?_,
             shift := fun _ hconst => ?_, const := fun _ => ht, star := fun _ => ht }
    · rcases hshift with rfl | rfl <;> exact absurd hcompare (by decide)
    · split
      · next hne =>
        rw [tree_cast_ne hl ht (hfitl hne)]
        exact .inl le_rfl
      · next hsame =>
        rw [if_neg hsame] at hconst
        exact hwide hconst
  · rw [if_neg hshift] at hfits
    rw [if_neg hshift, if_neg hshift]
    exact agrees_arithProTree harith (not_or.mp hshift) hl hr hlt hrt hfits

/-! ## Compares -/

theorem ptr_of_int (ht : IntType t) : PTR t = 0 := by
  rcases intType_cases ht with rfl | rfl | rfl | rfl | rfl | rfl <;> rfl

/-- Pointers are compared as they are, in the folded tree and in the other. -/
theorem pointermatch_iff (hcomparable : Comparable l r) : typePointermatch l r = true ↔ ¬ (IntType l.type ∧ IntType r.type) := by
  have hptr : PTR (PTRTO ||| UCHAR) = 1 := rfl
  have hnot : ¬ IntType (PTRTO ||| UCHAR) := by decide
  rcases hcomparable with ⟨hl, hr⟩ | ⟨hl, hr⟩ | ⟨hl, hr⟩ | ⟨hl, hr⟩
  · simp [typePointermatch, ptr_of_int hl, ptr_of_int hr, hl, hr]
  · rw [PtrType] at hl hr
    simp [typePointermatch, hl, hr, hptr, hnot]
  · rw [PtrType] at hl
    simp [typePointermatch, hl, hr, hptr, hnot]
  · rw [PtrType] at hr
    simp [typePointermatch, hl, hr, hptr, hnot]

theorem comparable_folded {l' r' : Node h} (hl : Agrees l l') (hr : Agrees r r') (hcomparable : Comparable l' r') :
    Comparable l r := by
  unfold Comparable
  rw [hl.type, hr.type]
  rcases hcomparable with hints | hptrs | ⟨hl', hr'⟩ | ⟨hl', hr'⟩
  · exact .inl hints
  · exact .inr (.inl hptrs)
  · exact .inr (.inr (.inl ⟨hl', hr.zero hr' ▸ hr'⟩))
  · exact .inr (.inr (.inr ⟨hl.zero hl' ▸ hl', hr'⟩))

theorem truth_fits {b : Bool} : BoolFits (makeConstant (truthValue b : BitVec h.longBits) t) 0 := by
  refine .inr (.inr ⟨fun hlabel => (by cases hlabel), fun _ => ?_⟩)
  rw [Node.constValue, makeConstant_type, makeConstant_value, toInt_truthValue, reduce_truth, reduce_truth]
  cases b <;> rfl

theorem not_sum_of_compare (hop : op ∈ compareOps) : op ≠ .PLUS ∧ op ≠ .MINUS ∧ op ≠ .STAR ∧ op ≠ .SLASH := by
  simp only [compareOps, List.mem_cons, List.not_mem_nil, or_false] at hop
  rcases hop with rfl | rfl | rfl | rfl <;> decide

theorem binaryValue_compare (hop : op ∈ compareOps) (t : CType) (v w : BitVec h.longBits) :
    ∃ b, binaryValue op t v w = some (truthValue b) := by
  simp only [compareOps, List.mem_cons, List.not_mem_nil, or_false] at hop
  rcases hop with rfl | rfl | rfl | rfl <;> exact ⟨_, rfl⟩

/-- A compare is a truth value, or it stays. -/
theorem tree_compare (hop : op ∈ compareOps) (hl : Settled l) (hr : Settled r) :
    (∃ b t, tree op l r = makeConstant (truthValue b) t) ∨ tree op l r = typedNode op l.type l r := by
  have harith : op ∈ arithOps := List.mem_append_right _ hop
  obtain ⟨hplus, hminus, hstar, hslash⟩ := not_sum_of_compare hop
  have hplain : op = .PLUS → ¬ IsSum l := fun hop' => absurd hop' hplus
  cases hconst : isConstant r with
  | false => exact .inr (tree_open harith hl hr hconst)
  | true =>
    obtain ⟨w, rt, hrt, rfl⟩ := hr.eq_constant hconst
    have hsimplify (fold : Node h → Result h) :=
      @simplify_constant h fold l op l.type rt w hrt
    simp only [hstar, hslash, false_and, if_false] at hsimplify
    have hsize := two_le_size hl w rt
    by_cases hless : w = 0 ∧ isUnsigned l.type ∧ op = .LT ∧ !treeImpure l
    · refine .inl ⟨false, CINT, tree_simplified harith hl.ne_null hplain ?_⟩
      rw [hsimplify, if_pos hless, boolTree_constant hsize]
      rfl
    by_cases hgreater : w = 0 ∧ isUnsigned l.type ∧ op = .GTEQ ∧ !treeImpure l
    · refine .inl ⟨true, CINT, tree_simplified harith hl.ne_null hplain ?_⟩
      rw [hsimplify, if_neg hless, if_pos hgreater, boolTree_constant hsize]
      rfl
    have hnone (fold : Node h → Result h) : simplify fold (typedFields op l.type) l (makeConstant w rt) = none := by
      rw [hsimplify, if_neg hless, if_neg hgreater]
    rw [tree_core harith hl.ne_null hl le_rfl hrt (reassociate_plain (f := typedFields op l.type) hplain _) hnone]
    cases hleft : isConstant l with
    | false =>
      rw [core_compare hop hleft]
      exact .inr rfl
    | true =>
      obtain ⟨v, lt, hlt, rfl⟩ := hl.eq_constant hleft
      obtain ⟨b, hvalue⟩ := binaryValue_compare hop lt v w
      refine .inl ⟨b, lt, ?_⟩
      simp [coreResult, hplus, hminus, hvalue, Result.node]

theorem compare_fits (hop : op ∈ compareOps) (hl : Settled l) (hr : Settled r) :
    BoolFits (tree op l r) 0 ∧ ∀ t, BoolFits ((tree op l r).setType t) 0 := by
  rcases tree_compare hop hl hr with ⟨b, t, htree⟩ | htree
  · rw [htree]
    exact ⟨truth_fits, fun _ => truth_fits⟩
  · rw [htree]
    have hop' := isOperator_ne (arithOp_ne (List.mem_append_right _ hop)).2.2.2.2.2.2.2
    have hopen (t : CType) : BoolFits (typedNode op t l r) 0 := by
      refine .inr (.inr ⟨fun hlabel => hop'.2.2.2.1 (Option.some.inj hlabel), fun hconst => ?_⟩)
      simp [isConstant, typedNode, Node.op, hop'] at hconst
    exact ⟨hopen _, hopen⟩

/-- Pointers, or a pointer and a zero. -/
theorem tree_pointers {l' r' : Node h} (hop : op ∈ compareOps) (hl : Agrees l l') (hr : Agrees r r')
    (hptr : ¬ (IntType l.type ∧ IntType r.type)) : Settled (tree op l r) ∧
      ∀ env z, eval env (bareTree op l' r') = some z → eval env (tree op l r) = some z := by
  have harith : op ∈ arithOps := List.mem_append_right _ hop
  have hbare : bareTree op l' r' = typedNode op l.type l' r' := by
    rw [hl.type, bareTree, treeNode, if_pos hl.ne_null]
    rfl
  rw [hbare]
  have hmeans : Settled (tree op l r) ∧
      ∀ env z, eval env (typedNode op l.type l r) = some z → eval env (tree op l r) = some z := by
    cases hconst : isConstant r with
    | false =>
      rw [tree_open harith hl.settled hr.settled hconst]
      exact ⟨settled_open harith hl.settled.scalar hl.settled hr.settled hconst, fun _ _ hz => hz⟩
    | true =>
      obtain ⟨w, rt, hrt, rfl⟩ := hr.settled.eq_constant hconst
      have hleft : isConstant l = false := by
        by_contra hleft
        exact hptr ⟨isConstant_type hl.settled (Bool.eq_true_of_not_eq_false hleft), hrt⟩
      have htyped : ConstTyped op l rt l.type := by
        obtain ⟨hplus, hminus, hstar, hslash⟩ := not_sum_of_compare hop
        refine ⟨fun _ _ => rfl, fun _ _ hcompare => absurd hop hcompare, fun _ hconst => ?_, fun _ hconst => ?_,
          fun hconst => ?_, fun hop' => absurd hop' hstar⟩ <;> simp [hleft] at hconst
      rcases means_tree_constant harith hl.settled.scalar hl.settled hrt htyped (fun hconst => by simp [hleft] at hconst)
        with ⟨hmeans, htype⟩ | ⟨-, b, htree, hvalue⟩
      · rw [setType_self (htype hop hleft)] at hmeans
        exact ⟨hmeans.settled, hmeans.value⟩
      · rw [htree]
        refine ⟨.constant _ (by decide), fun env z hz => ?_⟩
        rw [eval_constant, toInt_truthValue, reduce_truth, hvalue env z hz]
  exact ⟨hmeans.1, fun env z hz => hmeans.2 env z (eval_typed_congr harith hl hr hz)⟩

theorem agrees_ordercompTree {l' r' : Node h} (hop : op ∈ compareOps) (hl : Agrees l l') (hr : Agrees r r')
    (hcomparable : Comparable l' r') (hfits : CompareFits op l r) :
    Agrees (ordercompTree tree op l r) (ordercompTree bareTree op l' r') := by
  have hop' : op ≠ .BOOL := (arithOp_ne (List.mem_append_right _ hop)).2.2.2.2.2.2.1
  have hiff := pointermatch_iff (comparable_folded hl hr hcomparable)
  have hiff' := pointermatch_iff hcomparable
  rw [← hl.type, ← hr.type] at hiff'
  unfold ordercompTree
  unfold CompareFits at hfits
  by_cases hptr : IntType l.type ∧ IntType r.type
  · rw [if_neg (hiff.not.mpr (not_not_intro hptr))] at hfits
    rw [if_neg (hiff.not.mpr (not_not_intro hptr)), if_neg (hiff'.not.mpr (not_not_intro hptr))]
    have hshift : op ≠ .LTLT ∧ op ≠ .GTGT := by
      constructor <;> rintro rfl <;> exact absurd hop (by decide)
    have hagrees := agrees_arithProTree (List.mem_append_right _ hop) hshift hl hr hptr.1 hptr.2 hfits
    have ht := arithPro_int hptr.1 hptr.2
    refine agrees_boolTree hagrees.settled hagrees.bool hagrees.value ?_
    exact (compare_fits hop (agrees_makeCast hl ht hfits.1).settled (agrees_makeCast hr ht hfits.2.1).settled).2 _
  · rw [if_pos (hiff.mpr hptr), if_pos (hiff'.mpr hptr)]
    obtain ⟨hsettled, hvalue⟩ := tree_pointers hop hl hr hptr
    refine agrees_boolTree hsettled (fun hbool => absurd (Option.some.inj hbool) hop') hvalue ?_
    exact (compare_fits hop hl.settled hr.settled).1

/-! ## Logic -/

/-- The value of && or ||, from the value of the left side and where needed the right. -/
def logicValue (op : Op) (x : Int) (right : Option Int) : Option Int :=
  if op = .OROR ↔ x ≠ 0 then some (truth (op = .OROR)) else right.map fun y => truth (y ≠ 0)

theorem eval_logic (hop : f.op = .ANDAND ∨ f.op = .OROR) :
    eval env (.node f l r) = (eval env l).bind fun x => logicValue f.op x (eval env r) := by
  rw [eval]
  unfold logicValue
  rcases hop with hop | hop
  · simp only [hop, reduceCtorEq, false_iff, not_not]
    rfl
  · simp only [hop, true_iff]
    rfl

theorem truth_truth (p : Prop) [Decidable p] : truth (truth p ≠ 0) = truth p := by
  unfold truth
  split <;> rfl

theorem logicValue_truth (op : Op) (x : Int) (right : Option Int) :
    logicValue op (truth (x ≠ 0)) right = logicValue op x right := by
  have hiff : truth (x ≠ 0) ≠ 0 ↔ x ≠ 0 := by
    rw [Ne, truth_eq_zero, not_not]
  unfold logicValue
  simp only [hiff]

/-- A constant keeps its value in `boolTree`, and anything else gets a T_BOOL. -/
theorem boolTree_cases (hn : Settled n) (hlabel : n.NoLabel) :
    (∃ v s, IntType s ∧ n = makeConstant v s ∧ boolTree tree n 0 = makeConstant v CINT) ∨
      (isConstant n = false ∧ (boolTree tree n 0).op = some .BOOL ∧ BoolFits n 0) := by
  rcases leaf_cases hn with ⟨v, s, hs, rfl⟩ | ⟨hlabel', -⟩ | ⟨hleaf, hconst, -⟩
  · refine .inl ⟨v, s, hs, rfl, ?_⟩
    rw [boolTree, makeConstant_op, if_neg (by decide), if_neg (not_not_intro (by decide)), tree_unary_constant (by decide) hs]
    rfl
  · exact absurd hlabel' hlabel
  · refine .inr ⟨hconst, ?_, .inr (.inr ⟨hlabel, fun hconst' => absurd hconst' (Bool.eq_false_iff.mp hconst)⟩)⟩
    unfold boolTree
    split
    · assumption
    · rw [if_neg (not_not_intro (by decide)), tree_unary,
        constify_unary_open (f := typedFields .BOOL n.type) (show Op.BOOL ∈ unaryOps by decide) hn hleaf le_rfl]
      rfl

theorem constifyNode_logic (hop : f.op = .ANDAND ∨ f.op = .OROR) (l r : Node h) :
    constifyNode fold f l r = logicRule fold f l r := by
  have hplus : f.op = .PLUS → ¬ IsSum l := by
    rcases hop with hop | hop <;> exact fun hplus => by cases hop.symm.trans hplus
  have hcast : f.op ≠ .CAST := by
    rcases hop with hop | hop <;> rw [hop] <;> decide
  have hsimplify : simplify fold f l r = none := by
    rcases hop with hop | hop <;> simp [simplify, hop]
  unfold constifyNode
  rw [castRule_of_ne hcast]
  simp only [reassociate_plain hplus, hsimplify, if_pos hop]

/-- With a left side that is not constant the node stays. -/
theorem settled_logic (hop : op = .ANDAND ∨ op = .OROR) (hl : Settled l) (hleaf : isLeaf l = false) (r : Node h) :
    tree op l r = typedNode op l.type l r ∧ (l.type = CINT → Settled (typedNode op CINT l r)) := by
  have hstuck (t : CType) {k : Nat} (hk : l.size ≤ k) :
      constifyNode (constify k) (typedFields op t) l r = .stuck (typedNode op t l r) := by
    rw [constifyNode_logic (f := typedFields op t) hop, logicRule, constify_settled hl hk, leafResult, hleaf,
      if_neg Bool.false_ne_true]
    rfl
  have hop' : op.isOperator = true ∧ op ≠ .PLUS ∧ op ≠ .BOOL := by
    rcases hop with rfl | rfl <;> decide
  constructor
  · rw [tree_eq hl.ne_null, hstuck _ (Nat.le_add_right _ _)]
    rfl
  · intro htype
    refine .stuck (f := typedFields op CINT) hop'.1 (.inl (show IntType CINT by decide)) (fun _ => rfl)
      (fun hsum => absurd hsum.1 hop'.2.1) (fun hsum => absurd hsum.1 hop'.2.1) fun k hk => ?_
    cases k with
    | zero => cases hk
    | succ k =>
      simp only [Node.size] at hk
      exact hstuck CINT (by omega)

/-- With a constant on the left it decides, or the right side alone is left. -/
theorem tree_logic_constant (hop : op = .ANDAND ∨ op = .OROR) (hr : r ≠ .null) :
    tree op (makeConstant v CINT) r = if op = .OROR ↔ v ≠ 0 then makeConstant (truthValue (op = .OROR)) CINT
      else boolTree (treeWith (constify (1 + r.size))) r 0 := by
  have hsize : 2 ≤ 1 + r.size := by
    cases r with
    | null => exact absurd rfl hr
    | node f rl rr =>
      rw [Node.size]
      omega
  have hfold : constify (1 + r.size) (makeConstant v CINT) = .folded (makeConstant v CINT) :=
    constify_settled (.constant v (by decide)) (by rw [makeConstant_size]; omega)
  have hone := boolTree_constant hsize (1 : BitVec h.longBits)
  have hzero := boolTree_constant hsize (0 : BitVec h.longBits)
  rw [tree_eq (l := makeConstant v CINT) node_ne_null, constifyNode_logic (f := typedFields op _) hop, makeConstant_size, logicRule,
    hfold]
  have hint : (!IS_INTARITH CINT) = false := rfl
  have hflags : (0 : BitVec 16) &&& LVAL = 0 := by decide
  simp only [makeConstant_type, makeConstant_flags, hint, hflags, Bool.false_eq_true, ne_eq, not_true, or_self, if_false,
    typedFields_op, makeConstant_value, hone, hzero]
  rcases hop with rfl | rfl
  · rw [if_neg (show ¬ Op.ANDAND = .OROR by decide)]
    by_cases hv : v = 0
    · rw [if_pos hv, if_pos (iff_of_false (by decide) (not_not_intro hv))]
      rfl
    · rw [if_neg hv, if_neg fun hiff => by cases hiff.mpr hv]
      rfl
  · rw [if_pos rfl]
    by_cases hv : v = 0
    · rw [if_neg (not_not_intro hv), if_neg fun hiff => hiff.mp rfl hv]
      rfl
    · rw [if_pos hv, if_pos (iff_of_true rfl hv)]
      rfl

theorem boolTree_ne_null (hn : Settled n) : boolTree tree n 0 ≠ .null := by
  rcases leaf_cases hn with ⟨v, s, hs, rfl⟩ | ⟨hlabel, -⟩ | ⟨hleaf, -, -⟩
  · rw [boolTree, makeConstant_op, if_neg (by decide), if_neg (not_not_intro (by decide)), tree_unary_constant (by decide) hs]
    exact node_ne_null
  · have hconst : isConstant n = false := by simp [isConstant, hlabel]
    have hisleaf : isLeaf n = true := by simp [isLeaf, hlabel]
    rw [boolTree, hlabel, if_neg (by decide), if_neg (not_not_intro (by decide)), tree_unary,
      constifyNode_unary (f := typedFields .BOOL n.type) (show Op.BOOL ∈ unaryOps by decide)
        (castRule_of_ne (show Op.BOOL ≠ .CAST by decide) n) hn (constify_settled hn le_rfl), hisleaf, if_pos rfl]
    unfold unaryRule
    simp only [hconst, typedFields_op, Bool.false_eq_true, false_and, if_false]
    split_ifs <;> exact node_ne_null
  · unfold boolTree
    split
    · exact hn.ne_null
    · rw [if_neg (not_not_intro (by decide)), tree_unary,
        constify_unary_open (f := typedFields .BOOL n.type) (show Op.BOOL ∈ unaryOps by decide) hn hleaf le_rfl]
      exact node_ne_null

/-- The left side decides, or the right side is asked. -/
theorem eval_logicTree_bare {l' r' : Node h} (hop : op = .ANDAND ∨ op = .OROR) (hl : l'.op = some .BOOL → l'.type = CINT)
    (hr : r'.op = some .BOOL → r'.type = CINT) (hz : eval env (logicTree bareTree op l' r') = some z) :
    ∃ x, eval env l' = some x ∧ (((op = .OROR ↔ x ≠ 0) ∧ z = truth (op = .OROR)) ∨
      (¬ (op = .OROR ↔ x ≠ 0) ∧ ∃ y, eval env r' = some y ∧ z = truth (y ≠ 0))) := by
  have hnode : logicTree bareTree op l' r' =
      typedNode op CINT (boolTree bareTree l' 0) (boolTree bareTree r' 0) := rfl
  rw [hnode, typedNode, eval_logic hop, Option.bind_eq_some_iff] at hz
  obtain ⟨b, hb, hz⟩ := hz
  obtain ⟨x, hx, rfl⟩ := eval_boolTree_bare hl hb
  refine ⟨x, hx, ?_⟩
  rw [logicValue_truth, logicValue] at hz
  by_cases hdecided : op = .OROR ↔ x ≠ 0
  · rw [typedFields_op, if_pos hdecided] at hz
    cases hz
    exact .inl ⟨hdecided, rfl⟩
  · rw [typedFields_op, if_neg hdecided] at hz
    obtain ⟨b', hb', rfl⟩ := Option.map_eq_some_iff.mp hz
    obtain ⟨y, hy, rfl⟩ := eval_boolTree_bare hr hb'
    exact .inr ⟨hdecided, y, hy, truth_truth _⟩

/-- What the right side is worth to the node that stays. -/
theorem boolTree_truth (hr : Settled r) (hlabel : r.NoLabel) (hint : r.IntTruth) (hy : eval env r = some y) :
    ∃ b, eval env (boolTree tree r 0) = some b ∧ truth (b ≠ 0) = truth (y ≠ 0) := by
  rcases boolTree_cases hr hlabel with ⟨w, s, hs, rfl, hbool⟩ | ⟨-, -, hfits⟩
  · rw [hbool, eval_constant]
    cases hy
    have hiff : reduce CINT w.toInt = 0 ↔ reduce s w.toInt = 0 := hint rfl
    exact ⟨_, rfl, by simp only [Ne, hiff]⟩
  · exact ⟨_, (boolTree_right hr hfits).2.2 env y hy, truth_truth _⟩

theorem agrees_logicTree {l' r' : Node h} (hop : op = .ANDAND ∨ op = .OROR) (hl : Agrees l l') (hr : Agrees r r')
    (hfits : LogicFits op l r) : Agrees (logicTree tree op l r) (logicTree bareTree op l' r') := by
  have hop' : op ≠ .BOOL ∧ op ≠ .CONSTANT := by
    rcases hop with rfl | rfl <;> decide
  suffices hmeans : Means (logicTree tree op l r) (logicTree bareTree op l' r') from
    { toMeans := hmeans, ne_null := node_ne_null, bool := fun hbool => absurd (Option.some.inj hbool) hop'.1,
      zero := fun hzero => by simp [isConstantZero, isConstant, logicTree, bareTree, treeNode, Node.setType, Node.op,
        newNode, hop'] at hzero }
  obtain ⟨hlabel, htruth, hright⟩ := hfits
  have htype : (logicTree bareTree op l' r').type = CINT := rfl
  rcases boolTree_cases hl.settled hlabel with ⟨v, s, hs, rfl, hbool⟩ | ⟨hconst, hbool, hfitl⟩
  · -- The left side is a constant, so it decides now.
    have hiff : (v = 0 ↔ reduce s v.toInt = 0) := htruth rfl
    have hval (env x) (hx : eval env l' = some x) : x = reduce s v.toInt := by
      have := hl.value env x hx
      rw [eval_constant] at this
      exact (Option.some.inj this).symm
    rw [logicTree, hbool, tree_logic_constant hop (boolTree_ne_null hr.settled)]
    by_cases hdecided : op = .OROR ↔ v ≠ 0
    · rw [if_pos hdecided, makeConstant_setType]
      refine means_constant (by decide) htype fun env z hz => ?_
      obtain ⟨x, hx, ⟨-, rfl⟩ | ⟨hnot, -⟩⟩ := eval_logicTree_bare hop hl.bool hr.bool hz
      · rw [toInt_truthValue, reduce_truth]
        simp only [decide_eq_true_eq]
      · rw [hval env x hx, Ne, ← hiff] at hnot
        exact absurd hdecided hnot
    · rw [if_neg hdecided]
      have hnot : ¬ Decided op (makeConstant v s) := fun hdec => hdecided hdec.2
      obtain ⟨hlabelr, htruthr, -⟩ := hright.resolve_left hnot
      have hfitr : BoolFits r 0 := .inr (.inr ⟨hlabelr, htruthr rfl⟩)
      obtain ⟨hsettled, htyper, hvalue⟩ := boolTree_right hr.settled hfitr
      have hself : boolTree (treeWith (constify (1 + (boolTree tree r 0).size))) (boolTree tree r 0) 0 =
          boolTree tree r 0 := by
        rcases boolTree_cases hr.settled hlabelr with ⟨w, s', hs', rfl, hboolr⟩ | ⟨-, hboolr, -⟩
        · rw [hboolr]
          exact boolTree_constant le_rfl w
        · rw [boolTree, if_pos hboolr]
      rw [hself, setType_self htyper]
      refine ⟨hsettled, htyper, fun env z hz => ?_⟩
      obtain ⟨x, hx, ⟨hdec, -⟩ | ⟨-, y, hy, rfl⟩⟩ := eval_logicTree_bare hop hl.bool hr.bool hz
      · rw [hval env x hx, Ne, ← hiff] at hdec
        exact absurd hdec hdecided
      · exact hvalue env y (hr.value env y hy)
  · -- The node stays, over the truth of both sides.
    have hnot : ¬ isConstant l = true := Bool.eq_false_iff.mp hconst
    obtain ⟨hsettledl, htypel, hvaluel⟩ := boolTree_right hl.settled hfitl
    have hleaf : isLeaf (boolTree tree l 0) = false := isLeaf_operator hbool rfl
    obtain ⟨hnode, hsettled⟩ := settled_logic hop hsettledl hleaf (boolTree tree r 0)
    have hnode' : logicTree tree op l r = typedNode op CINT (boolTree tree l 0) (boolTree tree r 0) := by
      rw [logicTree, hnode]
      rfl
    rw [hnode']
    refine ⟨hsettled htypel, htype.symm, fun env z hz => ?_⟩
    obtain ⟨x, hx, hz⟩ := eval_logicTree_bare hop hl.bool hr.bool hz
    rw [typedNode, eval_logic hop, hvaluel env x (hl.value env x hx), Option.bind_some, logicValue_truth, logicValue,
      typedFields_op]
    rcases hz with ⟨hdec, rfl⟩ | ⟨hdec, y, hy, rfl⟩
    · rw [if_pos hdec]
    · rw [if_neg hdec]
      obtain ⟨hlabelr, -, hint⟩ := hright.resolve_left fun hdecided => hnot hdecided.1
      obtain ⟨b, hb, htrue⟩ := boolTree_truth hr.settled hlabelr (hint hnot) (hr.value env y hy)
      rw [hb]
      exact congrArg some htrue

/-! ## Sums with a pointer -/

theorem ptrType_open (hn : Settled n) (hptr : PtrType n.type) : isConstant n = false := by
  by_contra hconst
  exact intType_ne_ptr (isConstant_type hn (Bool.eq_true_of_not_eq_false hconst)) hptr

/-- A char has size 1, so the other side is only cast. -/
theorem scale_eq (hn : makeCast tree n UINT ≠ .null) : scale tree n = makeCast tree n UINT := by
  have hop : Op.STAR ∈ arithOps := by decide
  refine tree_simplified hop hn (fun hplus => by cases hplus) ?_
  rw [simplify_constant (by decide), if_pos ⟨rfl, rfl⟩]

theorem agrees_scale (hn : Agrees n m) (hfits : CastFits n UINT) : Agrees (scale tree n) (scale bareTree m) := by
  have huint : IntType UINT := by decide
  have hone : Agrees (makeConstant (1 : BitVec h.longBits) UINT) (makeConstant 1 UINT) :=
    { settled := .constant 1 huint, type := rfl, value := fun _ _ hz => hz, ne_null := node_ne_null,
      bool := fun hbool => (by cases hbool), zero := fun _ => rfl }
  have hcast := agrees_makeCast hn huint hfits
  have htype := tree_cast_ne hn huint hfits
  have hscaled : Agrees ((scale tree n).setType UINT) ((scale bareTree m).setType UINT) := by
    refine agrees_tree (by decide) huint.scalar (fun _ => huint) hcast hone (fun _ => ?_) (fun _ _ => trivial)
    exact { left := fun _ _ => htype, right := fun _ _ _ => le_rfl, compare := fun _ _ => htype,
            shift := fun hshift => absurd hshift (by decide), const := fun _ => huint, star := fun _ => huint }
  have hdrop := scale_eq hcast.settled.ne_null
  have hbare : (scale bareTree m).type = UINT := by
    rw [scale, bareTree, treeNode, if_pos hcast.ne_null]
    exact hcast.type.symm.trans htype
  rw [setType_self (hdrop ▸ htype), setType_self hbare] at hscaled
  exact hscaled

theorem scale_type (hn : Agrees n m) (hfits : CastFits n UINT) : (scale tree n).type = UINT := by
  have huint : IntType UINT := by decide
  rw [scale_eq (agrees_makeCast hn huint hfits).settled.ne_null]
  exact tree_cast_ne hn huint hfits

theorem sum_arith (hop : op = .PLUS ∨ op = .MINUS) :
    op ∈ arithOps ∧ op ∉ compareOps ∧ ¬ (op = .LTLT ∨ op = .GTGT) ∧ op ≠ .STAR ∧ ∀ l r : Node h, BothFit op l r := by
  rcases hop with rfl | rfl <;> exact ⟨by decide, by decide, by decide, by decide, fun _ _ _ _ => trivial⟩

theorem agrees_ptrAddTree {l' r' : Node h} (hop : op = .PLUS ∨ op = .MINUS) (hl : Agrees l l') (hr : Agrees r r')
    (hptr : PtrType l.type) (hfits : CastFits r UINT) :
    Agrees (ptrAddTree tree op l r) (ptrAddTree bareTree op l' r') := by
  obtain ⟨harith, hcompare, hshift, hstar, hboth⟩ := sum_arith (h := h) hop
  have hleft : ¬ isConstant l = true := Bool.eq_false_iff.mp (ptrType_open hl.settled hptr)
  have hright := scale_type hr hfits
  unfold ptrAddTree
  rw [← hl.type]
  refine agrees_tree harith (.inr hptr) (fun hop' => absurd hop' hcompare) hl (agrees_scale hr hfits) (fun _ => ?_)
    (hboth _ _)
  rw [hright, hptr]
  exact { left := fun _ _ => hptr, right := fun _ _ _ => le_rfl, compare := fun hop' => absurd hop' hcompare,
          shift := fun hop' => absurd hop' hshift, const := fun hconst => absurd hconst hleft,
          star := fun hop' => absurd hop' hstar }

theorem agrees_addPtrTree {l' r' : Node h} (hop : op = .PLUS ∨ op = .MINUS) (hl : Agrees l l') (hr : Agrees r r')
    (hptr : PtrType r.type) (hfits : CastFits l UINT) :
    Agrees (addPtrTree tree op l r) (addPtrTree bareTree op l' r') := by
  obtain ⟨harith, hcompare, -, -, hboth⟩ := sum_arith (h := h) hop
  have hright : ¬ isConstant r = true := Bool.eq_false_iff.mp (ptrType_open hr.settled hptr)
  unfold addPtrTree
  rw [← hr.type]
  exact agrees_tree harith (.inr hptr) (fun hop' => absurd hop' hcompare) (agrees_scale hl hfits) hr
    (fun hconst => absurd hconst hright) (hboth _ _)

/-- The division by 1 goes, and the difference itself becomes an int. -/
theorem agrees_ptrDiffTree {l' r' : Node h} (hl : Agrees l l') (hr : Agrees r r') (hptrl : PtrType l.type)
    (hptrr : PtrType r.type) : Agrees (ptrDiffTree tree l r) (ptrDiffTree bareTree l' r') := by
  have harith : Op.MINUS ∈ arithOps := by decide
  have hint : IntType CINT := by decide
  have hscalar : ScalarType l.type := .inr hptrl
  have hopen := ptrType_open hr.settled hptrr
  have hminus := tree_open harith hl.settled hr.settled hopen
  have hfolded : ptrDiffTree tree l r = typedNode .MINUS CINT l r := by
    have hslash : tree .SLASH (typedNode .MINUS l.type l r) (makeConstant 1 UINT) = typedNode .MINUS l.type l r := by
      have hop : Op.SLASH ∈ arithOps := by decide
      have hne : typedNode .MINUS l.type l r ≠ .null := node_ne_null
      refine tree_simplified hop hne (fun hplus => by cases hplus) ?_
      rw [simplify_constant (by decide)]
      simp
    rw [ptrDiffTree, hminus, hslash]
    rfl
  have hbare : ptrDiffTree bareTree l' r' = typedNode .SLASH CINT (typedNode .MINUS l.type l' r') (makeConstant 1 UINT) := by
    rw [ptrDiffTree, hl.type]
    have hnode : bareTree .MINUS l' r' = typedNode .MINUS l'.type l' r' := by
      rw [bareTree, treeNode, if_pos hl.ne_null]
      rfl
    rw [hnode]
    rfl
  rw [hfolded, hbare]
  refine { settled := settled_open harith hint.scalar hl.settled hr.settled hopen, type := rfl,
           value := fun env z hz => ?_, ne_null := node_ne_null, bool := fun hbool => (by cases hbool),
           zero := fun hzero => by cases hzero }
  have hone : reduce UINT (1 : BitVec h.longBits).toInt = 1 := by
    rw [toInt_one_host]
    exact reduce_small _ (by decide) (by decide)
  rw [eval_typed_constant (by decide) (l := typedNode .MINUS l.type l' r') node_ne_null, hone, Option.bind_eq_some_iff] at hz
  obtain ⟨d, hd, hz⟩ := hz
  have hd := eval_typed_congr harith hl hr hd
  rw [eval_typed harith hl.settled.ne_null, Option.bind_eq_some_iff] at hd ⊢
  obtain ⟨x, hx, hd⟩ := hd
  rw [Option.bind_eq_some_iff] at hd
  obtain ⟨y, hy, hd⟩ := hd
  cases hd
  cases hz
  refine ⟨x, hx, Option.bind_eq_some_iff.mpr ⟨y, hy, congrArg some ?_⟩⟩
  have hwidth : (format CINT).width ≤ (format l.type).width := hptrl ▸ le_rfl
  rw [Int.tdiv_one]
  exact (reduce_reduce_of_le hwidth _).symm

/-! ## Expressions -/

theorem agrees_self (hn : Settled n) (hbool : n.op = some .BOOL → n.type = CINT) : Agrees n n where
  settled := hn
  type := rfl
  value := fun _ _ hz => hz
  ne_null := hn.ne_null
  bool := hbool
  zero := fun _ => rfl

/-- The name of a variable is an lvalue, so what it holds is not looked into. -/
theorem constify_symbol (s : Symbol h) (hf : f.op = .DEREF) {k : Nat} (hk : 1 ≤ k) :
    constifyNode (constify k) f .null (makeSymbol s) = .stuck (.node f .null (makeSymbol s)) := by
  obtain ⟨k, rfl⟩ := Nat.exists_eq_add_of_le' hk
  have hfold : constify (k + 1) (makeSymbol s) = .folded (makeSymbol s) ∨
      constify (k + 1) (makeSymbol s) = .stuck (makeSymbol s) := by
    cases hs : s.storage <;> simp [makeSymbol, hs, constify, constifyNode, castRule, reassociate, simplify, isConstname,
      isConstant, Node.op, newNode, Node.flags, LVAL]
  have hflags : (makeSymbol s).flags &&& LVAL ≠ 0 := by
    cases hs : s.storage <;> simp [makeSymbol, hs, Node.flags, LVAL]
  have hnull : makeSymbol s ≠ .null := by
    cases hs : s.storage <;> simp [makeSymbol, hs]
  unfold constifyNode
  rw [castRule_of_ne (by rw [hf]; decide)]
  have hsimplify : simplify (constify (k + 1)) f .null (makeSymbol s) = none := by simp [simplify, hf]
  simp only [reassociate, hsimplify, hf, reduceCtorEq, or_self, if_false]
  generalize makeSymbol s = n at hfold hflags hnull
  cases n with
  | null => exact absurd rfl hnull
  | node g l r =>
    rcases hfold with hfold | hfold
    · simp only [hfold, if_true]
      rw [unaryRule, if_pos hflags]
    · simp only [hfold]

theorem makeSymbol_size (s : Symbol h) : (makeSymbol s).size = 1 := by
  cases hs : s.storage <;> simp [makeSymbol, hs, Node.size]

theorem makeSymbol_type (s : Symbol h) : (makeSymbol s).type = s.type := by
  cases hs : s.storage <;> simp [makeSymbol, hs, Node.type]

theorem agrees_variable (s : Symbol h) (voltrack : Bool) (hs : IntType s.type) :
    Agrees (makeRval tree (makeSymbol s) voltrack) (makeRval bareTree (makeSymbol s) voltrack) := by
  have hflags : (makeSymbol s).flags &&& LVAL ≠ 0 := by
    cases hs : s.storage <;> simp [makeSymbol, hs, Node.flags, LVAL]
  have htree : tree .DEREF .null (makeSymbol s) = typedNode .DEREF s.type .null (makeSymbol s) := by
    rw [tree_unary, makeSymbol_size, constify_symbol (f := typedFields .DEREF _) s rfl le_rfl, makeSymbol_type]
    rfl
  have hbare : bareTree .DEREF .null (makeSymbol s) = typedNode .DEREF s.type .null (makeSymbol s) := by
    rw [bareTree, treeNode, if_neg (not_not_intro rfl), makeSymbol_type]
    rfl
  have hsettled (f : Fields h) (hf : f.op = .DEREF) (ht : f.type = s.type) : Settled (.node f .null (makeSymbol s)) := by
    refine .stuck (by rw [hf]; rfl) (.inl (ht ▸ hs)) (fun hbool => by cases hf.symm.trans hbool)
      (fun hsum => by cases hf.symm.trans hsum.1) (fun hsum => by cases hf.symm.trans hsum.1) fun k hk => ?_
    cases k with
    | zero => cases hk
    | succ k =>
      simp only [Node.size, makeSymbol_size] at hk
      exact constify_symbol s hf (by omega)
  have hsame : makeRval tree (makeSymbol s) voltrack = makeRval bareTree (makeSymbol s) voltrack := by
    rw [makeRval, makeRval, if_pos hflags, if_pos hflags, sfTree, sfTree, htree, hbare]
  rw [hsame, makeRval, if_pos hflags, sfTree, hbare, typedNode]
  have hop : Op.DEREF ≠ .BOOL := by decide
  simp only
  split
  · exact agrees_self (hsettled _ rfl rfl) fun hbool => absurd (Option.some.inj hbool) hop
  · exact agrees_self (hsettled _ rfl rfl) fun hbool => absurd (Option.some.inj hbool) hop

theorem agrees_expr (e : Expr h) (htyped : e.Typed) (hfits : e.Fits) : Agrees e.folded e.unfolded := by
  induction e with
  | constant value type => exact agrees_self (.constant value htyped) fun hbool => by cases hbool
  | «variable» s voltrack => exact agrees_variable s voltrack htyped
  | label l =>
    exact agrees_self (.label rfl (show (0 : BitVec 16) &&& LVAL = 0 by decide) (.inr rfl)) fun hbool => by cases hbool
  | unary op x ih =>
    exact agrees_unary (ih htyped.1 hfits.1) (htyped.2.imp id And.left) hfits.2
  | bang x ih => exact agrees_bangTree (ih htyped hfits.1) hfits.2.1 hfits.2.2
  | bool x flags ih =>
    have hx := ih htyped hfits.1
    exact agrees_boolTree hx.settled hx.bool hx.value hfits.2
  | cast x t ih => exact agrees_makeCast (ih htyped.1 hfits.1) htyped.2 hfits.2
  | binary op l r ihl ihr =>
    obtain ⟨hl, hr, hop, hlt, hrt⟩ := htyped
    have hl := ihl hl hfits.1
    have hr := ihr hr hfits.2.1
    exact agrees_intarithTree hop hl hr (hl.type ▸ hlt) (hr.type ▸ hrt) hfits.2.2
  | compare op l r ihl ihr =>
    obtain ⟨hl, hr, hop, hcomparable⟩ := htyped
    exact agrees_ordercompTree hop (ihl hl hfits.1) (ihr hr hfits.2.1) hcomparable hfits.2.2
  | logic op l r ihl ihr => exact agrees_logicTree htyped.2.2 (ihl htyped.1 hfits.1) (ihr htyped.2.1 hfits.2.1) hfits.2.2
  | ptrAdd op l r ihl ihr =>
    obtain ⟨hl, hr, hop, hptr, -⟩ := htyped
    have hl := ihl hl hfits.1
    exact agrees_ptrAddTree hop hl (ihr hr hfits.2.1) (hl.type ▸ hptr) hfits.2.2
  | addPtr op l r ihl ihr =>
    obtain ⟨hl, hr, hop, -, hptr⟩ := htyped
    have hr := ihr hr hfits.2.1
    exact agrees_addPtrTree hop (ihl hl hfits.1) hr (hr.type ▸ hptr) hfits.2.2
  | ptrDiff l r ihl ihr =>
    obtain ⟨hl, hr, hptrl, hptrr⟩ := htyped
    have hl := ihl hl hfits.1
    have hr := ihr hr hfits.2
    exact agrees_ptrDiffTree hl hr (hl.type ▸ hptrl) (hr.type ▸ hptrr)

/-- Where every step of the build fits, the folded tree has the type and the value of the other. -/
theorem folded_preserves (e : Expr h) (htyped : e.Typed) (hfits : e.Fits) :
    e.folded.type = e.unfolded.type ∧ ∀ env z, eval env e.unfolded = some z → eval env e.folded = some z :=
  have hagrees := agrees_expr e htyped hfits
  ⟨hagrees.type, hagrees.value⟩

/-- x + 2 + 3 becomes x + 5. -/
def sumOfThree : Expr Host.linux :=
  .binary .PLUS (.binary .PLUS (.variable ⟨.STATIC, 300, CINT, 0⟩ false) (.constant 2 CINT)) (.constant 3 CINT)

theorem sumOfThree_preserves : sumOfThree.folded.type = sumOfThree.unfolded.type ∧
    ∀ env z, eval env sumOfThree.unfolded = some z → eval env sumOfThree.folded = some z := by
  have hint (n : Node Host.linux) (hn : n.type = CINT) : CastFits n CINT :=
    ⟨fun _ => .inl (hn ▸ le_rfl), fun _ => .inl (hn ▸ le_rfl)⟩
  have htyped : IntType CINT := by decide
  refine folded_preserves sumOfThree ⟨⟨htyped, htyped, ?_, ?_, ?_⟩, htyped, ?_, ?_, ?_⟩
    ⟨⟨trivial, trivial, hint _ ?_, hint _ ?_, fun _ _ => trivial⟩, trivial, hint _ ?_, hint _ ?_, fun _ _ => trivial⟩ <;>
    decide

/-- (long)(0xFFFFU + 1U) -/
def wideSum : Expr Host.linux := .cast (.binary .PLUS (.constant 0xFFFF UINT) (.constant 1 UINT)) CLONG

def noVariables : Env Host.linux := ⟨fun _ => 0, fun _ => 1, fun _ => by decide, fun _ => by decide⟩

/-- The sum is not trimmed to 16 bits before it is widened. -/
theorem wideSum_differs : wideSum.Typed ∧ eval noVariables wideSum.unfolded = some 0 ∧
    eval noVariables wideSum.folded = some 65536 := by
  have huint : IntType UINT := by decide
  refine ⟨⟨⟨huint, huint, ?_, ?_, ?_⟩, ?_⟩, ?_, ?_⟩ <;> decide

end Fuzemsys.Fcc.Tree
