import Fuzemsys.Fcc.TreeArith

/-!
# Folding keeps the value

`tree` on settled operands gives a settled tree with the value of the node it was asked
to make. Then so does every function of the first pass that builds with it.
-/

open Fuzemsys.Lib

namespace Fuzemsys.Fcc.Tree

variable {h : Host} {fold : Node h → Result h} {f : Fields h} {n l r : Node h} {op : Op} {t lt rt : CType}
  {v w : BitVec h.longBits} {env : Env h} {x y z : Int}

/-! ## Values of nodes -/

theorem setType_self (hn : n.type = t) : n.setType t = n := by
  cases n with
  | null => rfl
  | node f l r =>
    cases hn
    rfl

theorem setType_type (hn : n ≠ .null) (t : CType) : (n.setType t).type = t := by
  cases n with
  | null => exact absurd rfl hn
  | node f l r => rfl

@[simp]
theorem eval_constant (env : Env h) (v : BitVec h.longBits) (t : CType) :
    eval env (makeConstant v t) = some (reduce t v.toInt) := rfl

theorem eval_label (hop : f.op = .LABEL) :
    eval env (.node f l r) = some (reduce f.type (env.address f.val2 + f.value.toInt)) := by
  rw [eval]
  simp only [hop]

theorem eval_arith (hop : f.op ∈ arithOps) (hl : l ≠ .null) :
    eval env (.node f l r) =
      (eval env l).bind fun x => (eval env r).bind fun y => (arith f.op f.type x y).map (reduce f.type) := by
  have hne := arithOp_ne hop
  rw [eval]
  simp only [arithOps, binaryOps, compareOps, List.cons_append, List.nil_append, List.mem_cons, List.not_mem_nil,
    or_false] at hop
  rcases hop with hop | hop | hop | hop | hop | hop | hop | hop | hop | hop | hop | hop | hop | hop <;>
    (simp only [hop, if_neg hl]; rfl)

theorem eval_unary (hop : f.op ∈ unaryOps) :
    eval env (.node f .null r) = (eval env r).bind fun x => (unary f.op x).map (reduce f.type) := by
  rw [eval]
  simp only [unaryOps, List.mem_cons, List.not_mem_nil, or_false] at hop
  rcases hop with hop | hop | hop | hop | hop <;> (simp only [hop, if_true]; rfl)

/-- What comes out of a node is reduced to its type. -/
theorem eval_reduced (hx : eval env n = some x) : reduce n.type x = x := by
  cases n with
  | null => cases hx
  | node f l r =>
    rw [eval] at hx
    split at hx
    · cases hx
      exact reduce_reduce _ _
    · cases hx
      exact reduce_reduce _ _
    · cases hx
      exact reduce_reduce _ _
    · simp only [Option.bind_eq_bind, Option.bind_eq_some_iff] at hx
      obtain ⟨a, -, hx⟩ := hx
      split at hx
      · cases hx
        exact reduce_zero _
      · obtain ⟨b, -, rfl⟩ := Option.map_eq_some_iff.mp hx
        exact reduce_truth _ _
    · simp only [Option.bind_eq_bind, Option.bind_eq_some_iff] at hx
      obtain ⟨a, -, hx⟩ := hx
      split at hx
      · cases hx
        exact reduce_small _ (by decide) (by decide)
      · obtain ⟨b, -, rfl⟩ := Option.map_eq_some_iff.mp hx
        exact reduce_truth _ _
    · split at hx
      · simp only [Option.bind_eq_bind, Option.bind_eq_some_iff] at hx
        obtain ⟨a, -, hx⟩ := hx
        obtain ⟨b, -, rfl⟩ := Option.map_eq_some_iff.mp hx
        exact reduce_reduce _ _
      · simp only [Option.bind_eq_bind, Option.bind_eq_some_iff] at hx
        obtain ⟨a, -, b, -, hx⟩ := hx
        obtain ⟨c, -, rfl⟩ := Option.map_eq_some_iff.mp hx
        exact reduce_reduce _ _

/-! ## One node that stands for another -/

def typedFields (op : Op) (t : CType) : Fields h := { newNode op with type := t }

@[simp] theorem typedFields_op : (typedFields op t : Fields h).op = op := rfl
@[simp] theorem typedFields_type : (typedFields op t : Fields h).type = t := rfl

/-- The node that `tree` is asked for, with its type. -/
def typedNode (op : Op) (t : CType) (l r : Node h) : Node h := .node (typedFields op t) l r

/-- A settled tree with the type of another one, and with its value where it has one. -/
structure Means (n m : Node h) : Prop where
  settled : Settled n
  type : n.type = m.type
  value : ∀ env z, eval env m = some z → eval env n = some z

theorem Means.of_value {m m' : Node h} (hm : Means n m) (htype : m.type = m'.type)
    (hvalue : ∀ env z, eval env m' = some z → eval env m = some z) : Means n m' where
  settled := hm.settled
  type := hm.type.trans htype
  value := fun env z hz => hm.value env z (hvalue env z hz)

theorem means_constant {m : Node h} (ht : IntType t) (htype : m.type = t)
    (hvalue : ∀ env z, eval env m = some z → reduce t v.toInt = z) : Means (makeConstant v t) m where
  settled := .constant v ht
  type := htype.symm
  value := fun env z hz => by rw [eval_constant, hvalue env z hz]

theorem eval_typed (hop : op ∈ arithOps) (hl : l ≠ .null) : eval env (typedNode op t l r) =
    (eval env l).bind fun x => (eval env r).bind fun y => (arith op t x y).map (reduce t) :=
  eval_arith (f := typedFields op t) hop hl

theorem eval_typed_constant (hop : op ∈ arithOps) (hl : l ≠ .null) : eval env (typedNode op t l (makeConstant w rt)) =
    (eval env l).bind fun x => (arith op t x (reduce rt w.toInt)).map (reduce t) := eval_typed hop hl

/-- What the types must be under a constant on the right. -/
structure ConstTyped (op : Op) (l : Node h) (rt t : CType) : Prop where
  left : op ≠ .LTLT → op ≠ .GTGT → l.type = t
  right : op ≠ .LTLT → op ≠ .GTGT → op ∉ compareOps → (format t).width ≤ (format rt).width
  compare : op ∈ compareOps → isConstant l → l.type = rt
  shift : op = .LTLT ∨ op = .GTGT → isConstant l → (format t).width ≤ (format l.type).width ∨ l.Trimmed
  const : isConstant l → IntType t
  star : op = .STAR → IntType t

theorem ConstTyped.opTyped {v : BitVec h.longBits} (htyped : ConstTyped op (makeConstant v lt) rt t) :
    OpTyped op (makeConstant v lt) rt t := by
  unfold OpTyped
  split
  · next hshift => exact htyped.shift hshift rfl
  · next hshift =>
    rw [not_or] at hshift
    have hleft : lt = t := htyped.left hshift.1 hshift.2
    subst hleft
    refine ⟨le_rfl, ?_, fun hcompare => htyped.compare hcompare rfl⟩
    by_cases hcompare : op ∈ compareOps
    · exact (htyped.compare hcompare rfl).symm ▸ le_rfl
    · exact htyped.right hshift.1 hshift.2 hcompare

theorem arith_ne_bool (hop : op ∈ arithOps) (hbool : (typedFields op t : Fields h).op = .BOOL) :
    (typedFields op t : Fields h).type = CINT :=
  absurd hbool (arithOp_ne hop).2.2.2.2.2.2.1

theorem tree_eq (hl : l ≠ .null) (r : Node h) :
    tree op l r = (constifyNode (constify (l.size + r.size)) (typedFields op l.type) l r).node := by
  have hnode : treeNode op l r = typedNode op l.type l r := by
    rw [treeNode, if_pos hl]
    rfl
  unfold tree treeWith
  rw [hnode]
  rfl

theorem tree_open (hop : op ∈ arithOps) (hl : Settled l) (hr : Settled r) (hconst : isConstant r = false) :
    tree op l r = typedNode op l.type l r := by
  have hfoldl := constify_settled hl (Nat.le_add_right l.size r.size)
  have hfoldr := constify_settled hr (Nat.le_add_left r.size l.size)
  rw [tree_eq hl.ne_null, constifyNode_open (f := typedFields op l.type) hop hl hr hconst hfoldl hfoldr]
  rfl

section
variable (hop : op ∈ arithOps) (ht : ScalarType t)
include hop ht

theorem settled_open (hl : Settled l) (hr : Settled r) (hconst : isConstant r = false) : Settled (typedNode op t l r) := by
  refine .stuck (arithOp_ne hop).2.2.2.2.2.2.2 ht (arith_ne_bool hop) (fun hsum => ?_) (fun hsum => ?_) fun k hk => ?_
  · exact absurd hsum.2 (Bool.eq_false_iff.mp hconst)
  · exact absurd hsum.2 (Bool.eq_false_iff.mp hconst)
  · cases k with
    | zero => cases hk
    | succ k =>
      simp only [Node.size] at hk
      exact constifyNode_open hop hl hr hconst (constify_settled hl (by omega)) (constify_settled hr (by omega))

/-- An operator with anything but a constant on the right stays as it is. -/
theorem means_open (hl : Settled l) (hr : Settled r) (hconst : isConstant r = false) :
    Means ((tree op l r).setType t) (typedNode op t l r) := by
  rw [tree_open hop hl hr hconst]
  exact ⟨settled_open hop ht hl hr hconst, rfl, fun env z hz => hz⟩

end

/-! ## A constant on the right -/

theorem reassociate_plain (hplain : f.op = .PLUS → ¬ IsSum l) (r : Node h) : reassociate f l r = (l, r) := by
  cases l with
  | null => rfl
  | node fl ll lr =>
    rw [reassociate, if_neg]
    exact fun hboth => hplain hboth.1 ⟨hboth.2.1, hboth.2.2.1⟩

theorem width_of_plus (htyped : ConstTyped .PLUS l rt t) : l.type = t ∧ (format t).width ≤ (format rt).width :=
  ⟨htyped.left (by decide) (by decide), htyped.right (by decide) (by decide) (by decide)⟩

/-- A label with another offset. -/
theorem means_label {f g : Fields h} (hop : op ∈ arithOps) (hg : g.op = .LABEL) (hf : f.op = .LABEL)
    (hflags : f.flags &&& LVAL = 0) (ht : ScalarType f.type) (hval2 : f.val2 = g.val2)
    (hvalue : ∀ x z, arith op f.type (reduce g.type (x + g.value.toInt)) (reduce rt w.toInt) = some z →
      reduce f.type (x + f.value.toInt) = reduce f.type z) :
    Means (.node f .null .null) (typedNode op f.type (.node g .null .null) (makeConstant w rt)) where
  settled := .label hf hflags ht
  type := rfl
  value := fun env z hz => by
    rw [eval_typed_constant hop (l := .node g .null .null) node_ne_null, eval_label hg, Option.bind_some] at hz
    obtain ⟨z0, hz0, rfl⟩ := Option.map_eq_some_iff.mp hz
    rw [eval_label hf, hval2, hvalue _ z0 hz0]

section
variable (hop : op ∈ arithOps) (ht : ScalarType t) (hl : Settled l) (hrt : IntType rt)
  (hplain : op = .PLUS → ¬ IsSum l) (htyped : ConstTyped op l rt t)
include hop ht hl hrt hplain htyped

theorem settled_core (hsimplify : ∀ fold, simplify fold (typedFields op t) l (makeConstant w rt) = none)
    (hcore : coreResult (typedFields op t) l (makeConstant w rt) = .stuck (typedNode op t l (makeConstant w rt))) :
    Settled (typedNode op t l (makeConstant w rt)) := by
  refine .stuck (arithOp_ne hop).2.2.2.2.2.2.2 ht (arith_ne_bool hop) (fun _ => hl) (fun hsum => ?_) fun k hk => ?_
  · obtain rfl : op = .PLUS := hsum.1
    obtain ⟨hleft, hright⟩ := width_of_plus htyped
    exact ⟨hleft, hright, hplain rfl, w, rt, hrt, rfl⟩
  · cases k with
    | zero => cases hk
    | succ k =>
      simp only [Node.size, makeConstant_size] at hk
      have hfoldr : constify k (makeConstant w rt) = .folded (makeConstant w rt) :=
        constify_settled (.constant w hrt) (by rw [makeConstant_size]; omega)
      have hfold := constifyNode_core hop hl (reassociate_plain hplain (makeConstant w rt)) (hsimplify _)
        (constify_settled hl (by omega)) hfoldr
      exact hfold.trans hcore

omit hplain hrt in
theorem core_label {t0 : CType} (hlabel : l.op = some .LABEL) (hflags : l.flags &&& LVAL = 0)
    (hstuck : (∀ t0, coreResult (typedFields op t0) l (makeConstant w rt) =
        .stuck (typedNode op t0 l (makeConstant w rt))) →
      Means ((coreResult (typedFields op t0) l (makeConstant w rt)).node.setType t)
        (typedNode op t l (makeConstant w rt))) :
    Means ((coreResult (typedFields op t0) l (makeConstant w rt)).node.setType t)
      (typedNode op t l (makeConstant w rt)) := by
  have hname : isName l = true := hl.isName_iff.mpr hlabel
  obtain ⟨v, t', -, rfl⟩ | ⟨-, -, g, rfl⟩ | ⟨op', hop', hoper⟩ := hl.op_cases
  · cases hlabel
  · have hg : g.op = .LABEL := Option.some.inj hlabel
    by_cases hsum : op = .PLUS ∨ op = .MINUS
    · obtain ⟨hleft, hright⟩ : g.type = t ∧ (format t).width ≤ (format rt).width := by
        refine ⟨htyped.left ?_ ?_, htyped.right ?_ ?_ ?_⟩ <;> rcases hsum with rfl | rfl <;> decide
      subst hleft
      have hwidth : (format g.type).width ≤ h.longBits := width_le_host g.type
      have hadd := Format.toInt_add_modEq g.value w hwidth
      have hsub := Format.toInt_sub_modEq g.value w hwidth
      have hx (x : Int) := reduce_modEq (le_refl (format g.type).width) (x + g.value.toInt)
      have hy := reduce_modEq hright w.toInt
      rcases hsum with rfl | rfl
      · rw [coreResult, hname, if_pos rfl, typedFields_op, if_pos rfl]
        refine means_label (f := { g with value := g.value + w }) hop hg hg hflags ht rfl fun x z hz => ?_
        cases hz
        refine reduce_eq_iff.mpr (((hadd.add_left x).trans ?_).trans ((hx x).add hy).symm)
        rw [add_assoc]
      · rw [coreResult, hname, if_pos rfl, typedFields_op, if_neg (by decide), if_pos rfl]
        refine means_label (f := { g with value := g.value - w }) hop hg hg hflags ht rfl fun x z hz => ?_
        cases hz
        refine reduce_eq_iff.mpr (((hsub.add_left x).trans ?_).trans ((hx x).sub hy).symm)
        rw [add_sub_assoc]
    · refine hstuck fun t0 => ?_
      rw [not_or] at hsum
      rw [coreResult, hname, if_pos rfl, typedFields_op, if_neg hsum.1, if_neg hsum.2]
      rfl
  · rw [hop'] at hlabel
    exact absurd (Option.some.inj hlabel) (isOperator_ne hoper).2.2.2.1

/-- The three ways a constant on the right ends: with a constant or a label on the left it is one, a zero
is dropped, and else the node stays. -/
theorem core_means {t0 : CType}
    (hsimplify : ∀ fold, simplify fold (typedFields op t) l (makeConstant w rt) = none)
    (hfits : isConstant l → OpFits op l (makeConstant w rt)) (hone : op = .SLASH → w ≠ 1) :
    Means ((coreResult (typedFields op t0) l (makeConstant w rt)).node.setType t)
      (typedNode op t l (makeConstant w rt)) := by
  have hstuck (hcore : ∀ t0, coreResult (typedFields op t0) l (makeConstant w rt) =
      .stuck (typedNode op t0 l (makeConstant w rt))) :
      Means ((coreResult (typedFields op t0) l (makeConstant w rt)).node.setType t)
        (typedNode op t l (makeConstant w rt)) := by
    rw [hcore]
    exact ⟨settled_core hop ht hl hrt hplain htyped hsimplify (hcore t), rfl, fun env z hz => hz⟩
  rcases leaf_cases hl with ⟨v, lt, hlt, rfl⟩ | ⟨hlabel, hflags⟩ | ⟨hleaf, hconst, hname⟩
  · cases hvalue : binaryValue op lt v w with
    | none =>
      refine hstuck fun t0 => ?_
      have hsum : ¬ (op = .PLUS ∨ op = .MINUS) := by
        rintro (rfl | rfl) <;> cases hvalue
      simp [coreResult, hsum, hvalue, typedNode]
    | some value =>
      have hnode : (coreResult (typedFields op t0) (makeConstant v lt) (makeConstant w rt)).node =
          makeConstant value lt := by
        by_cases hzero : (op = .PLUS ∨ op = .MINUS) ∧ w = 0
        · obtain ⟨rfl | rfl, rfl⟩ := hzero <;> cases hvalue <;> simp [coreResult, Result.node]
        · rw [coreResult, makeConstant_isName, if_neg Bool.false_ne_true, typedFields_op, makeConstant_value,
            if_neg hzero, makeConstant_isConstant, if_pos rfl, makeConstant_type, makeConstant_value, hvalue]
          rfl
      rw [hnode, makeConstant_setType]
      refine means_constant (htyped.const rfl) rfl fun env z hz => ?_
      rw [eval_typed_constant hop hl.ne_null, eval_constant, Option.bind_some] at hz
      obtain ⟨z0, hz0, rfl⟩ := Option.map_eq_some_iff.mp hz
      obtain ⟨value', hvalue', hright⟩ := binaryValue_right hop htyped.opTyped (hfits rfl) hone hz0
      cases hvalue.symm.trans hvalue'
      exact hright
  · exact core_label hop ht hl htyped hlabel hflags hstuck
  · by_cases hzero : (op = .PLUS ∨ op = .MINUS) ∧ w = 0
    · have hleft : l.type = t := by
        refine htyped.left ?_ ?_ <;> rintro rfl <;> exact absurd hzero.1 (by decide)
      have hnode : (coreResult (typedFields op t0) l (makeConstant w rt)).node = l := by
        rw [coreResult, hname, if_neg Bool.false_ne_true, typedFields_op, makeConstant_value, if_pos hzero]
        rfl
      rw [hnode, setType_self hleft]
      refine ⟨hl, hleft, fun env z hz => ?_⟩
      rw [eval_typed_constant hop hl.ne_null, Option.bind_eq_some_iff] at hz
      obtain ⟨x, hx, hz⟩ := hz
      have hreduced : reduce t x = x := hleft ▸ eval_reduced hx
      have hright : reduce rt w.toInt = 0 := by
        rw [hzero.2]
        exact (congrArg (reduce rt) BitVec.toInt_zero).trans (reduce_zero rt)
      rw [hright] at hz
      rcases hzero.1 with rfl | rfl <;> cases hz <;> simpa [hreduced] using hx
    · refine hstuck fun t0 => ?_
      rw [coreResult, hname, if_neg Bool.false_ne_true, typedFields_op, makeConstant_value, if_neg hzero, hconst,
        if_neg Bool.false_ne_true]
      rfl

end

/-! ## The rules that drop an operand -/

theorem tree_simplified (hop : op ∈ arithOps) (hl : l ≠ .null) (hplain : op = .PLUS → ¬ IsSum l) {r c : Node h}
    (hsimplify : simplify (constify (l.size + r.size)) (typedFields op l.type) l r = some c) : tree op l r = c := by
  rw [tree_eq hl, constifyNode, castRule_of_ne (arithOp_ne hop).1]
  simp only [reassociate_plain (f := typedFields op l.type) hplain, hsimplify]
  rfl

theorem tree_core {l' : Node h} {w' : BitVec h.longBits} (hop : op ∈ arithOps) (hl : l ≠ .null) (hl' : Settled l')
    (hsize : l'.size ≤ l.size) (hrt : IntType rt)
    (hre : reassociate (typedFields op l.type) l (makeConstant w rt) = (l', makeConstant w' rt))
    (hsimplify : ∀ fold, simplify fold (typedFields op l.type) l' (makeConstant w' rt) = none) :
    tree op l (makeConstant w rt) = (coreResult (typedFields op l.type) l' (makeConstant w' rt)).node := by
  have hfoldr : constify (l.size + 1) (makeConstant w' rt) = .folded (makeConstant w' rt) :=
    constify_settled (.constant w' hrt) (by rw [makeConstant_size]; omega)
  rw [tree_eq hl]
  exact congrArg Result.node (constifyNode_core hop hl' hre (hsimplify _)
    (constify_settled hl' (by omega)) hfoldr)

/-- Times 1 and divided by 1. -/
theorem means_left (hl : Settled l) (hleft : l.type = t) (hop : op = .STAR ∨ op = .SLASH) :
    Means l (typedNode op t l (makeConstant 1 rt)) := by
  refine ⟨hl, hleft, fun env z hz => ?_⟩
  have hone : reduce rt (1 : BitVec h.longBits).toInt = 1 := by
    rw [toInt_one_host]
    exact reduce_small rt (by decide) (by decide)
  have harith : op ∈ arithOps := by
    rcases hop with rfl | rfl <;> decide
  rw [eval_typed_constant harith hl.ne_null, Option.bind_eq_some_iff, hone] at hz
  obtain ⟨x, hx, hz⟩ := hz
  have hreduced : reduce t x = x := hleft ▸ eval_reduced hx
  rcases hop with rfl | rfl
  · cases hz
    simpa [hreduced] using hx
  · rw [arith, if_neg one_ne_zero] at hz
    cases hz
    simpa [hreduced] using hx

theorem reduce_zero_host (t : CType) : reduce t (0 : BitVec h.longBits).toInt = 0 :=
  (congrArg (reduce t) BitVec.toInt_zero).trans (reduce_zero t)

/-- Times 0, where nothing is lost. -/
theorem means_zero (hl : l ≠ .null) (ht : IntType t) :
    Means (makeConstant 0 t) (typedNode .STAR t l (makeConstant 0 rt)) := by
  refine means_constant ht rfl fun env z hz => ?_
  rw [eval_typed_constant (by decide) hl, Option.bind_eq_some_iff, reduce_zero_host] at hz
  obtain ⟨x, -, hz⟩ := hz
  cases hz
  rw [reduce_zero_host, mul_zero, reduce_zero]

/-- An unsigned value is never below zero. -/
theorem unsigned_nonneg (hunsigned : isUnsigned t = true) (ht : ScalarType t) (x : Int) : 0 ≤ reduce t x := by
  refine Format.wrap_nonneg ?_ x
  rcases ht with ht | rfl
  · rcases intType_cases ht with rfl | rfl | rfl | rfl | rfl | rfl <;> first | rfl | cases hunsigned
  · rfl

theorem boolTree_constant {k : Nat} (hk : 2 ≤ k) (v : BitVec h.longBits) :
    boolTree (treeWith (constify k)) (makeConstant v CINT) 0 = makeConstant v CINT := by
  obtain ⟨k, rfl⟩ := Nat.exists_eq_add_of_le hk
  have hfold : constifyNode (constify (1 + k)) (typedFields .BOOL CINT) .null (makeConstant v CINT) =
      .folded (makeConstant v CINT) := by
    have hleaf : constify (1 + k) (makeConstant v CINT) = leafResult (makeConstant v CINT) :=
      constify_settled (.constant v (by decide)) (by rw [makeConstant_size]; omega)
    have hop : (typedFields .BOOL CINT : Fields h).op ∈ unaryOps := show Op.BOOL ∈ unaryOps by decide
    rw [constifyNode_unary hop rfl (.constant v (by decide)) hleaf, makeConstant_isLeaf, if_pos rfl]
    simp [unaryRule, show (CINT = FLOAT ∨ CINT = DOUBLE) = False from eq_false (by decide),
      show IS_INTORPTR CINT = true from rfl, typedFields, newNode]
  have hnode : treeNode .BOOL .null (makeConstant v CINT) = typedNode .BOOL CINT .null (makeConstant v CINT) := rfl
  rw [boolTree, makeConstant_op, if_neg (by decide), if_neg (by decide), treeWith, hnode, typedNode,
    show 2 + k = (1 + k) + 1 by omega, constify, hfold]
  rfl

theorem two_le_size (hl : Settled l) (v : BitVec h.longBits) (t : CType) : 2 ≤ l.size + (makeConstant v t).size := by
  cases l with
  | null => exact absurd rfl hl.ne_null
  | node f ll lr =>
    rw [Node.size, makeConstant_size]
    omega

/-- What a compare that is always true or false becomes. -/
def Decides (n m : Node h) : Prop :=
  ∃ b : Bool, n = makeConstant (truthValue b) CINT ∧ ∀ env z, eval env m = some z → z = truth (b = true)

theorem means_constant_of_decides {m : Node h} (hn : Decides n m) (ht : IntType t) (htype : m.type = t) :
    Means (n.setType t) m := by
  obtain ⟨b, rfl, hvalue⟩ := hn
  rw [makeConstant_setType]
  refine means_constant ht htype fun env z hz => ?_
  rw [toInt_truthValue, reduce_truth, hvalue env z hz]

theorem decides_less (hl : Settled l) (hunsigned : isUnsigned l.type = true) {b : Bool}
    (hop : (op = .LT ∧ b = false) ∨ (op = .GTEQ ∧ b = true)) :
    Decides (makeConstant (truthValue b) CINT) (typedNode op l.type l (makeConstant 0 rt)) := by
  refine ⟨b, rfl, fun env z hz => ?_⟩
  have harith : op ∈ arithOps := by
    rcases hop with ⟨rfl, -⟩ | ⟨rfl, -⟩ <;> decide
  rw [eval_typed_constant harith hl.ne_null, Option.bind_eq_some_iff, reduce_zero_host] at hz
  obtain ⟨x, hx, hz⟩ := hz
  have hnonneg : 0 ≤ x := eval_reduced hx ▸ unsigned_nonneg hunsigned hl.scalar x
  rcases hop with ⟨rfl, rfl⟩ | ⟨rfl, rfl⟩
  · cases hz
    rw [reduce_truth]
    simp [truth, hnonneg]
  · cases hz
    rw [reduce_truth]
    simp [truth, hnonneg]

theorem simplify_constant (hrt : IntType rt) : simplify fold (typedFields op t) l (makeConstant w rt) =
    if op = .STAR ∧ w = 1 then some l
    else if op = .STAR ∧ w = 0 ∧ !treeImpure l then some (makeConstant 0 t)
    else if op = .SLASH ∧ w = 1 then some l
    else if w = 0 ∧ isUnsigned t ∧ op = .LT ∧ !treeImpure l then
      some (boolTree (treeWith fold) (makeConstant 0 CINT) 0)
    else if w = 0 ∧ isUnsigned t ∧ op = .GTEQ ∧ !treeImpure l then
      some (boolTree (treeWith fold) (makeConstant 1 CINT) 0)
    else none := by
  simp only [simplify, typedFields_op, typedFields_type, makeConstant_isConstant, makeConstant_type, makeConstant_value,
    scalarType_intorptr hrt.scalar, true_and]

/-- The constant of a sum under a sum goes into the other constant. -/
theorem means_tree_sum (ht : ScalarType t) (hl : Settled l) (hrt : IntType rt) (htyped : ConstTyped .PLUS l rt t)
    (hsum : IsSum l) : Means ((tree .PLUS l (makeConstant w rt)).setType t) (typedNode .PLUS t l (makeConstant w rt)) := by
  cases hl with
  | constant v ht => cases hsum.1
  | label hop hflags ht =>
    rw [hsum.1] at hop
    cases hop
  | @stuck fl ll lr hop htl hbool hll hlr hstuck =>
    obtain ⟨hlt, hwidth, hplain, c, ct, hct, rfl⟩ := hlr hsum
    have hll := hll hsum
    have hfl : fl.op = .PLUS := hsum.1
    obtain ⟨hleft, hright⟩ := width_of_plus htyped
    have hleft : fl.type = t := hleft
    have hre (t0 : CType) : reassociate (typedFields .PLUS t0) (.node fl ll (makeConstant c ct)) (makeConstant w rt) =
        (ll, makeConstant (w + c) rt) := by
      rw [reassociate, if_pos]
      · rfl
      · exact ⟨rfl, hfl, rfl, rfl, scalarType_intorptr hrt.scalar, scalarType_intorptr hct.scalar⟩
    have hsimplify (fold : Node h → Result h) (t0 : CType) :
        simplify fold (typedFields .PLUS t0) ll (makeConstant (w + c) rt) = none := by
      rw [simplify_constant hrt]
      simp
    have htyped' : ConstTyped .PLUS ll rt t := by
      refine ⟨fun _ _ => hlt.trans hleft, fun _ _ _ => hright, fun hcompare => absurd hcompare (by decide),
        fun hshift => absurd hshift (by decide), fun hconst => ?_,
        fun hstar => absurd hstar (by decide)⟩
      obtain ⟨v, t', ht', rfl⟩ := hll.eq_constant hconst
      exact hlt.trans hleft ▸ ht'
    have hnode : tree .PLUS (.node fl ll (makeConstant c ct)) (makeConstant w rt) =
        (coreResult (typedFields .PLUS fl.type) ll (makeConstant (w + c) rt)).node := by
      refine tree_core (by decide) node_ne_null hll ?_ hrt (hre _) fun fold => hsimplify fold _
      rw [Node.size]
      omega
    rw [hnode]
    refine (core_means (by decide) ht hll hrt (fun _ => hplain) htyped' (fun fold => hsimplify fold t)
      (fun _ => trivial) fun hslash => absurd hslash (by decide)).of_value rfl fun env z hz => ?_
    rw [eval_typed_constant (l := .node fl ll (makeConstant c ct)) (by decide) node_ne_null, Option.bind_eq_some_iff] at hz
    obtain ⟨x, hx, hz⟩ := hz
    rw [eval_arith (by rw [hfl]; decide) hll.ne_null, eval_constant, Option.bind_eq_some_iff] at hx
    obtain ⟨x0, hx0, hx⟩ := hx
    rw [Option.bind_some, hfl] at hx
    cases hx
    cases hz
    rw [eval_typed_constant (by decide) hll.ne_null, hx0, Option.bind_some]
    refine congrArg some (reduce_eq_iff.mpr ?_)
    rw [hleft]
    have hw := reduce_modEq hright w.toInt
    have hc := reduce_modEq (hleft ▸ hwidth : (format t).width ≤ (format ct).width) c.toInt
    have hadd := Format.toInt_add_modEq w c (width_le_host t)
    have hsum := (reduce_modEq hright (w + c).toInt).trans hadd
    refine (hsum.add_left x0).trans (Int.ModEq.trans ?_
      (((reduce_modEq le_rfl _).trans (hc.add_left x0)).add hw).symm)
    rw [add_assoc, add_comm w.toInt]

theorem core_compare (hcompare : op ∈ compareOps) (hconst : isConstant l = false) :
    coreResult (typedFields op t) l r = .stuck (typedNode op t l r) := by
  simp only [compareOps, List.mem_cons, List.not_mem_nil, or_false] at hcompare
  rcases hcompare with rfl | rfl | rfl | rfl <;> simp [coreResult, hconst, typedNode]

/-- An operator with a constant on the right. -/
theorem means_tree_constant (hop : op ∈ arithOps) (ht : ScalarType t) (hl : Settled l) (hrt : IntType rt)
    (htyped : ConstTyped op l rt t) (hfits : isConstant l → OpFits op l (makeConstant w rt)) :
    (Means ((tree op l (makeConstant w rt)).setType t) (typedNode op t l (makeConstant w rt)) ∧
        (op ∈ compareOps → isConstant l = false → (tree op l (makeConstant w rt)).type = l.type)) ∨
      (op ∈ compareOps ∧ Decides (tree op l (makeConstant w rt)) (typedNode op t l (makeConstant w rt))) := by
  by_cases hsum : op = .PLUS ∧ IsSum l
  · obtain ⟨rfl, hsum⟩ := hsum
    exact .inl ⟨means_tree_sum ht hl hrt htyped hsum, fun hcompare => absurd hcompare (by decide)⟩
  have hplain : op = .PLUS → ¬ IsSum l := fun hplus hsum' => hsum ⟨hplus, hsum'⟩
  have hsize := two_le_size hl w rt
  have hdrop {c : Node h} := tree_simplified (c := c) hop hl.ne_null hplain (r := makeConstant w rt)
  rw [simplify_constant hrt] at hdrop
  by_cases hone : op = .STAR ∧ w = 1
  · rw [if_pos hone] at hdrop
    obtain ⟨rfl, rfl⟩ := hone
    have hleft : l.type = t := htyped.left (by decide) (by decide)
    rw [hdrop rfl, setType_self hleft]
    exact .inl ⟨means_left hl hleft (.inl rfl), fun hcompare => absurd hcompare (by decide)⟩
  rw [if_neg hone] at hdrop
  by_cases hzero : op = .STAR ∧ w = 0 ∧ !treeImpure l
  · rw [if_pos hzero] at hdrop
    obtain ⟨rfl, rfl, -⟩ := hzero
    rw [hdrop rfl, makeConstant_setType]
    exact .inl ⟨means_zero hl.ne_null (htyped.star rfl), fun hcompare => absurd hcompare (by decide)⟩
  rw [if_neg hzero] at hdrop
  by_cases hdiv : op = .SLASH ∧ w = 1
  · rw [if_pos hdiv] at hdrop
    obtain ⟨rfl, rfl⟩ := hdiv
    have hleft : l.type = t := htyped.left (by decide) (by decide)
    rw [hdrop rfl, setType_self hleft]
    exact .inl ⟨means_left hl hleft (.inr rfl), fun hcompare => absurd hcompare (by decide)⟩
  rw [if_neg hdiv] at hdrop
  by_cases hless : w = 0 ∧ isUnsigned l.type ∧ op = .LT ∧ !treeImpure l
  · rw [if_pos hless, boolTree_constant hsize] at hdrop
    obtain ⟨rfl, hunsigned, rfl, -⟩ := hless
    have hleft : l.type = t := htyped.left (by decide) (by decide)
    rw [hdrop rfl, ← hleft]
    exact .inr ⟨by decide, decides_less hl hunsigned (.inl ⟨rfl, rfl⟩)⟩
  rw [if_neg hless] at hdrop
  by_cases hgreater : w = 0 ∧ isUnsigned l.type ∧ op = .GTEQ ∧ !treeImpure l
  · rw [if_pos hgreater, boolTree_constant hsize] at hdrop
    obtain ⟨rfl, hunsigned, rfl, -⟩ := hgreater
    have hleft : l.type = t := htyped.left (by decide) (by decide)
    rw [hdrop rfl, ← hleft]
    exact .inr ⟨by decide, decides_less hl hunsigned (.inr ⟨rfl, rfl⟩)⟩
  -- None of the rules applies, with either type of the node.
  have hnone (fold : Node h → Result h) : simplify fold (typedFields op l.type) l (makeConstant w rt) = none := by
    rw [simplify_constant hrt, if_neg hone, if_neg hzero, if_neg hdiv, if_neg hless, if_neg hgreater]
  have hnone' (fold : Node h → Result h) : simplify fold (typedFields op t) l (makeConstant w rt) = none := by
    by_cases hshift : op = .LTLT ∨ op = .GTGT
    · rw [simplify_constant hrt]
      rcases hshift with rfl | rfl <;> simp
    · rw [not_or] at hshift
      rw [← htyped.left hshift.1 hshift.2]
      exact hnone fold
  rw [tree_core hop hl.ne_null hl le_rfl hrt (reassociate_plain (f := typedFields op l.type) hplain _) hnone]
  refine .inl ⟨core_means hop ht hl hrt hplain htyped hnone' hfits fun hslash hw => hdiv ⟨hslash, hw⟩, ?_⟩
  intro hcompare hconst
  rw [core_compare hcompare hconst]
  rfl

end Fuzemsys.Fcc.Tree
