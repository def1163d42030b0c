import Fuzemsys.Fcc.TreeAssign
import Fuzemsys.Fcc.TreeBuild

/-!
# Where the ad hoc conversions are those of C

The operators and operand types for which unary minus and complement, the assignment
operators, ++ and --, comparisons and ?: have the type and the value that C gives them.
-/

open Fuzemsys.Lib

namespace Fuzemsys.Fcc.Tree

variable {h : Host} {fold : Node h → Result h} {f : Fields h} {n l r : Node h} {op : Op} {t lt rt : CType}

/-! ## The trees stay as they are built -/

theorem constifyNode_stuck (hcast : castRule f r = none) (hlogic : ¬ (f.op = .ANDAND ∨ f.op = .OROR))
    (hconst : isConstant r = false) (hnull : r ≠ .null) (hr : fold r = .stuck r) :
    constifyNode fold f l r = .stuck (.node f l r) := by
  unfold constifyNode
  rw [hcast]
  simp only [reassociate_right_open hconst, simplify_right_open hconst, if_neg hlogic]
  cases r with
  | null => exact absurd rfl hnull
  | node g rl rr => simp only [hr]

theorem inert_node (hcast : castRule f r = none) (hlogic : ¬ (f.op = .ANDAND ∨ f.op = .OROR))
    (hconst : isConstant r = false) (hnull : r ≠ .null) (hr : Inert r) : Inert (.node f l r) := by
  intro k hk
  cases k with
  | zero => cases hk
  | succ k =>
    simp only [Node.size] at hk
    exact constifyNode_stuck hcast hlogic hconst hnull (hr k (by omega))

theorem tree_inert (hn : Inert (treeNode op l r)) : tree op l r = treeNode op l r := by
  unfold tree treeWith
  rw [hn _ le_rfl]
  rfl

namespace Rval

variable (x y : Rval h)

theorem ne_null : x.node ≠ .null := by
  obtain ⟨op, hop, -⟩ := x.operator
  exact ne_null_of_op hop

theorem not_constant : isConstant x.node = false := by
  obtain ⟨op, hop, hoper⟩ := x.operator
  simp [isConstant, hop, isOperator_ne hoper]

theorem castRule (f : Fields h) : castRule f x.node = none := by
  obtain ⟨op, hop, hoper⟩ := x.operator
  simp [Tree.castRule, hop, isOperator_ne hoper]

/-- Any node with an operand on its right. -/
theorem inert_above (hlogic : ¬ (f.op = .ANDAND ∨ f.op = .OROR)) : Inert (.node f l x.node) :=
  inert_node (x.castRule f) hlogic x.not_constant x.ne_null x.inert

theorem tree_unary (hlogic : ¬ (op = .ANDAND ∨ op = .OROR)) :
    tree op .null x.node = typedNode op x.node.type .null x.node := by
  have hnode : treeNode op .null x.node = typedNode op x.node.type .null x.node := by
    rw [treeNode, if_neg (not_not_intro rfl)]
    rfl
  rw [← hnode]
  apply tree_inert
  rw [hnode]
  exact x.inert_above hlogic

theorem tree_binary (hlogic : ¬ (op = .ANDAND ∨ op = .OROR)) (hl : l ≠ .null) :
    tree op l x.node = typedNode op l.type l x.node := by
  have hnode : treeNode op l x.node = typedNode op l.type l x.node := by
    rw [treeNode, if_pos hl]
    rfl
  rw [← hnode]
  apply tree_inert
  rw [hnode]
  exact x.inert_above hlogic

/-- An operand that is cast is an operand. -/
def cast (t : CType) (ht : IntType t) : Rval h where
  node := if x.node.type ≠ t then typedNode .CAST t .null x.node else x.node
  int := by
    split
    · exact ht
    · exact x.int
  operator := by
    split
    · exact ⟨.CAST, rfl, rfl⟩
    · exact x.operator
  bool := by
    split
    · intro hbool
      cases hbool
    · exact x.bool
  inert := by
    split
    · exact x.inert_above (by simp)
    · exact x.inert

theorem makeCast_eq (ht : IntType t) : makeCast tree x.node t = (x.cast t ht).node := by
  unfold makeCast cast
  split
  · rw [x.tree_unary (by decide)]
    rfl
  · rfl

end Rval

theorem assign_logic (hop : op ∈ assignOps) : ¬ (op = .ANDAND ∨ op = .OROR) := by
  rintro (rfl | rfl) <;> revert hop <;> decide

/-- The operators that change a variable. -/
def changeOps : List Op := assignOps ++ [.PLUSPLUS, .MINUSMINUS]

theorem changeOp_ne (hop : op ∈ changeOps) :
    op ≠ .CAST ∧ op ≠ .PLUS ∧ op ≠ .MINUS ∧ op ≠ .STAR ∧ op ≠ .SLASH ∧ op ≠ .LT ∧ op ≠ .GTEQ ∧ op ≠ .ANDAND ∧
      op ≠ .OROR ∧ op ≠ .DEREF := by
  refine ⟨?_, ?_, ?_, ?_, ?_, ?_, ?_, ?_, ?_, ?_⟩ <;> rintro rfl <;> revert hop <;> decide

namespace Lval

variable (x : Lval h) {v : BitVec h.longBits}

theorem ne_null : x.node ≠ .null := by
  intro hnull
  apply x.lval
  rw [hnull]
  exact BitVec.zero_and

/-- An lvalue is not looked into, so nothing is folded. -/
theorem inert_constant (hop : f.op ∈ changeOps) : Inert (.node f x.node (makeConstant v t)) := by
  obtain ⟨hcast, hplus, hminus, hstar, hslash, hlt, hgteq, hand, hor, -⟩ := changeOp_ne hop
  have hreassociate : reassociate f x.node (makeConstant v t) = (x.node, makeConstant v t) :=
    reassociate_plain (fun hop => absurd hop hplus) _
  have hsimplify (fold : Node h → Result h) : simplify fold f x.node (makeConstant v t) = none := by
    simp [simplify, hstar, hslash, hlt, hgteq]
  intro k hk
  cases k with
  | zero => cases hk
  | succ k =>
    simp only [Node.size] at hk
    have hright : constify k (makeConstant v t) = .folded (makeConstant v t) := by
      obtain ⟨k, rfl⟩ := Nat.exists_eq_add_of_le' (show 1 ≤ k by rw [makeConstant_size] at hk; omega)
      rfl
    have hleft := x.kept k (by omega)
    unfold constify constifyNode
    rw [castRule_of_ne hcast, hreassociate]
    simp only [hsimplify, hand, hor, or_self, if_false]
    rw [makeConstant] at hright ⊢
    simp only [hright, if_neg x.ne_null]
    unfold binaryRule
    simp only [hplus, hminus, ne_eq, not_false_eq_true, and_self, if_true, or_self, false_and, if_false]
    split
    · rfl
    split
    · next l' hl =>
      rw [hl] at hleft
      exact congrArg (fun l => Result.stuck (.node f l _)) hleft
    · next l' hl =>
      rw [hl] at hleft
      have hlval := x.lval
      rw [← hleft] at hlval
      rw [if_pos (.inr hlval)]
      exact congrArg (fun l => Result.stuck (.node f l _)) hleft

theorem tree_constant (hop : op ∈ changeOps) : tree op x.node (makeConstant v t) =
    typedNode op x.node.type x.node (makeConstant v t) := by
  have hnode : treeNode op x.node (makeConstant v t) = typedNode op x.node.type x.node (makeConstant v t) := by
    rw [treeNode, if_pos x.ne_null]
    rfl
  rw [← hnode]
  apply tree_inert
  rw [hnode]
  exact x.inert_constant hop

end Lval

/-- A node with a side effect. -/
def effectNode (op : Op) (t : CType) (l r : Node h) : Node h :=
  .node { typedFields op t with flags := 0 ||| SIDEEFFECT } l r

theorem sfTree_eq (hop : op ≠ .DEREF) (htree : tree op l r = typedNode op t l r) :
    sfTree tree op l r false = effectNode op t l r := by
  unfold sfTree
  rw [htree]
  simp only [typedNode, hop, ne_eq, not_false_eq_true, true_or, if_true]
  rfl

/-- A product with 1 is left out. -/
theorem tree_scale (hn : n ≠ .null) : tree .STAR n (makeConstant 1 UINT) = n := by
  rw [tree_eq hn]
  have hsimplify (fold : Node h → Result h) (f : Fields h) (hf : f.op = .STAR) :
      simplify fold f n (makeConstant 1 UINT) = some n := by
    unfold simplify
    rw [if_pos]
    exact ⟨hf, rfl, rfl, rfl⟩
  unfold constifyNode
  rw [castRule_of_ne (by simp), reassociate_plain (fun hop => by cases hop)]
  simp only [hsimplify _ _ (typedFields_op)]
  rfl

theorem assignOp_node (fc : { op : Op // op ∈ assignOps }) (l : Lval h) (r : Rval h) :
    (Construct.assignOp fc l r).node = effectNode fc.1 l.node.type l.node (r.cast l.node.type l.int).node := by
  have hop : fc.1 ∈ changeOps := List.mem_append_left _ fc.2
  show assignOpTree tree fc.1 l.node r.node = _
  unfold assignOpTree
  rw [r.makeCast_eq l.int, tree_scale (Rval.ne_null _)]
  exact sfTree_eq (changeOp_ne hop).2.2.2.2.2.2.2.2.2 (Rval.tree_binary _ (assign_logic fc.2) l.ne_null)

theorem changed_node (l : Lval h) (hop : op ∈ changeOps) : sfTree tree op l.node (makeConstant 1 l.node.type) false =
    effectNode op l.node.type l.node (makeConstant 1 l.node.type) :=
  sfTree_eq (changeOp_ne hop).2.2.2.2.2.2.2.2.2 (l.tree_constant hop)

theorem compareOp_cases (hop : op ∈ compareOps ++ equalOps) :
    op = .LT ∨ op = .LTEQ ∨ op = .GT ∨ op = .GTEQ ∨ op = .EQEQ ∨ op = .BANGEQ := by
  simpa [compareOps, equalOps, or_assoc] using hop

theorem compare_logic (hop : op ∈ compareOps ++ equalOps) : ¬ (op = .ANDAND ∨ op = .OROR) := by
  rintro (rfl | rfl) <;> revert hop <;> decide

theorem compare_operator (hop : op ∈ compareOps ++ equalOps) : op.isOperator = true := by
  rcases compareOp_cases hop with rfl | rfl | rfl | rfl | rfl | rfl <;> rfl

namespace Rval

variable (x y : Rval h)

/-- A comparison, not yet made a truth value. -/
def compare (op : Op) (hop : op ∈ compareOps ++ equalOps) (t : CType) (ht : IntType t) : Rval h where
  node := typedNode op t (x.cast t ht).node (y.cast t ht).node
  int := ht
  operator := ⟨op, rfl, compare_operator hop⟩
  bool := by
    rintro heq
    have hbool : op = .BOOL := Option.some.inj heq
    rw [hbool] at hop
    exact absurd hop (by decide)
  inert := (y.cast t ht).inert_above (by
    rw [typedFields_op]
    exact compare_logic hop)

theorem arithProTree_eq (hop : op ∈ compareOps ++ equalOps) :
    arithProTree tree op x.node y.node = (x.compare y op hop _ (arithPro_int x.int y.int)).node := by
  have ht := arithPro_int x.int y.int
  simp only [arithProTree]
  rw [x.makeCast_eq ht, y.makeCast_eq ht, tree_binary _ (compare_logic hop) (ne_null _)]
  rfl

theorem not_pointers : typePointermatch x.node y.node = false := by
  simp [typePointermatch, isConstantZero, x.not_constant, y.not_constant, ptr_of_int x.int]

theorem boolTree_eq (hop : x.node.op ≠ some .BOOL) : boolTree tree x.node 0 = typedNode .BOOL CINT .null x.node := by
  unfold boolTree
  rw [if_neg hop, if_neg (by decide), x.tree_unary (by decide)]
  rfl

end Rval

theorem compare_node (op : { op : Op // op ∈ compareOps ++ equalOps }) (l r : Rval h) :
    (Construct.compare op l r).node =
      typedNode .BOOL CINT .null (l.compare r op.1 op.2 _ (arithPro_int l.int r.int)).node := by
  show ordercompTree tree op.1 l.node r.node = _
  unfold ordercompTree
  rw [l.not_pointers r, if_neg Bool.false_ne_true, l.arithProTree_eq r op.2]
  apply Rval.boolTree_eq
  intro heq
  have hbool : op.1 = .BOOL := Option.some.inj heq
  have hop := op.2
  rw [hbool] at hop
  exact absurd hop (by decide)

theorem question_node (c a1 a2 : Rval h) : (Construct.question c a1 a2).node =
    typedNode .QUESTION a1.node.type (boolTree tree c.node NEEDCC)
      (typedNode .COLON a1.node.type a1.node (a2.cast a1.node.type a1.int).node) := by
  have hbool : boolTree tree c.node NEEDCC ≠ .null := by
    unfold boolTree
    split
    · exact c.ne_null
    · rw [if_pos (by decide)]
      exact node_ne_null
  show questionTree tree c.node a1.node a2.node = _
  unfold questionTree
  rw [a2.makeCast_eq a1.int, Rval.tree_binary _ (by decide) a1.ne_null]
  have hcolon : Inert (typedNode .COLON a1.node.type a1.node (a2.cast a1.node.type a1.int).node) :=
    Rval.inert_above _ (by simp)
  have hnode : treeNode .QUESTION (boolTree tree c.node NEEDCC)
      (typedNode .COLON a1.node.type a1.node (a2.cast a1.node.type a1.int).node) =
      typedNode .QUESTION (boolTree tree c.node NEEDCC).type (boolTree tree c.node NEEDCC)
        (typedNode .COLON a1.node.type a1.node (a2.cast a1.node.type a1.int).node) := by
    rw [treeNode, if_pos hbool]
    rfl
  rw [tree_inert]
  · rw [hnode]
    rfl
  · rw [hnode]
    exact inert_node (castRule_of_ne (by simp) _) (by simp) rfl node_ne_null hcolon

/-! ## Values -/

theorem reduce_compared (t : CType) (op : Op) (x y : Int) : reduce t (compared op x y) = compared op x y := by
  unfold compared
  split <;> exact reduce_truth t _

namespace World

attribute [local simp] value

variable {w : World h} {s : w.State}

/-- Whatever comes out is a value of the type. -/
def Gives (t : CType) (out : Option (Int × w.State)) : Prop := ∀ p, out = some p → reduce t p.1 = p.1

theorem gives_some {x : Int} (hx : reduce t x = x) : Gives (w := w) t (some (x, s)) := by
  rintro p hp
  cases hp
  exact hx

theorem gives_bind {α : Type} {first : Option α} {rest : α → Option (Int × w.State)} (hrest : ∀ a, Gives t (rest a)) :
    Gives t (first.bind rest) := by
  intro p hp
  obtain ⟨a, -, ha⟩ := Option.bind_eq_some_iff.mp hp
  exact hrest a p ha

/-- Both what a variable held and what it holds. -/
theorem update_reduced {right : w.State → Option (Int × w.State)} {change : Int → Int → Option Int}
    {z : Int × Int} {s' : w.State} (hz : w.update t l right change s = some (z, s')) :
    reduce t z.1 = z.1 ∧ reduce t z.2 = z.2 := by
  simp only [update, Option.bind_eq_bind] at hz
  obtain ⟨a, -, hz⟩ := Option.bind_eq_some_iff.mp hz
  obtain ⟨y, -, hz⟩ := Option.bind_eq_some_iff.mp hz
  obtain ⟨z', -, hz⟩ := Option.bind_eq_some_iff.mp hz
  cases hz
  exact ⟨reduce_reduce _ _, reduce_reduce _ _⟩

theorem gives_update {right : w.State → Option (Int × w.State)} {change : Int → Int → Option Int}
    {pick : Int × Int → Int} (hpick : ∀ z, pick z = z.1 ∨ pick z = z.2) :
    Gives t ((w.update t l right change s).bind fun p => some (pick p.1, p.2)) := by
  intro p hp
  obtain ⟨⟨z, s'⟩, hz, hp⟩ := Option.bind_eq_some_iff.mp hp
  cases hp
  obtain ⟨hheld, hholds⟩ := update_reduced hz
  rcases hpick z with heq | heq
  · rw [heq]
    exact hheld
  · rw [heq]
    exact hholds

theorem value_gives (n : Node h) : Gives n.type (w.value n s) := by
  cases n with
  | null =>
    intro p hp
    cases hp
  | node f l r =>
    rw [value.eq_def]
    simp only [Option.bind_eq_bind]
    split
    · exact gives_bind fun _ => gives_some (reduce_reduce _ _)
    split
    · exact gives_bind fun _ => gives_bind fun _ => gives_some (reduce_reduce _ _)
    split
    · exact gives_bind fun _ => gives_bind fun _ => gives_some (reduce_compared _ _ _ _)
    split
    · exact gives_update fun _ => .inr rfl
    split
    · exact gives_update fun _ => .inl rfl
    split
    · cases r with
      | null =>
        intro p hp
        cases hp
      | node g a1 a2 => exact gives_bind fun _ => gives_bind fun _ => gives_some (reduce_reduce _ _)
    split
    · exact gives_some (reduce_reduce _ _)
    · exact gives_bind fun _ => gives_some (reduce_reduce _ _)

theorem value_node_unary {f : Fields h} (hop : f.op ∈ unaryOps) : w.value (.node f l r) s =
    (w.value r s).bind fun p => (unary f.op p.1).bind fun z => some (reduce f.type z, p.2) := by
  have hne : f.op ≠ .DEREF := by
    intro heq
    rw [heq] at hop
    revert hop
    decide
  rw [value.eq_def]
  simp only [hne, hop, if_true, if_false]
  rfl

theorem value_unary (hop : op ∈ unaryOps) : w.value (typedNode op t .null r) s =
    (w.value r s).bind fun p => (unary op p.1).bind fun z => some (reduce t z, p.2) :=
  value_node_unary (f := typedFields op t) hop

theorem value_compare (hop : op ∈ compareOps ++ equalOps) : w.value (typedNode op t l r) s =
    (w.value l s).bind fun p => (w.value r p.2).bind fun q => some (compared op p.1 q.1, q.2) := by
  have hne : op ≠ .DEREF ∧ op ∉ unaryOps := by
    rcases compareOp_cases hop with rfl | rfl | rfl | rfl | rfl | rfl <;> decide
  rw [typedNode, value.eq_def]
  simp only [typedFields_op, hne.1, hne.2, hop, if_true, if_false]
  rfl

theorem value_assign (hop : op ∈ assignOps) : w.value (effectNode op t l r) s =
    (w.update t l (w.value r) (arith op.plain t) s).bind fun p => some (p.1.2, p.2) := by
  have hne : op ≠ .DEREF ∧ op ∉ unaryOps ∧ op ∉ compareOps ++ equalOps := by
    simp only [assignOps, List.mem_cons, List.not_mem_nil, or_false] at hop
    rcases hop with rfl | rfl | rfl | rfl | rfl | rfl | rfl | rfl | rfl | rfl <;> decide
  rw [effectNode, value.eq_def]
  simp only [typedFields_op, hne.1, hne.2.1, hne.2.2, hop, if_true, if_false]
  rfl

theorem value_postfix (hop : op = .PLUSPLUS ∨ op = .MINUSMINUS) : w.value (effectNode op t l r) s =
    (w.update t l (w.value r) (arith op.plain t) s).bind fun p => some (p.1.1, p.2) := by
  have hne : op ≠ .DEREF ∧ op ∉ unaryOps ∧ op ∉ compareOps ++ equalOps ∧ op ∉ assignOps := by
    rcases hop with rfl | rfl <;> decide
  rw [effectNode, value.eq_def]
  simp only [typedFields_op, hne.1, hne.2.1, hne.2.2.1, hne.2.2.2, hop, if_true, if_false]
  rfl

theorem value_question (g : Fields h) (a1 a2 : Node h) : w.value (typedNode .QUESTION t l (.node g a1 a2)) s =
    (w.value l s).bind fun c => (if c.1 ≠ 0 then w.value a1 c.2 else w.value a2 c.2).bind fun x =>
      some (reduce t x.1, x.2) := by
  have hne : Op.QUESTION ≠ .DEREF ∧ Op.QUESTION ∉ unaryOps ∧ Op.QUESTION ∉ compareOps ++ equalOps ∧
      Op.QUESTION ∉ assignOps ∧ ¬ (Op.QUESTION = .PLUSPLUS ∨ Op.QUESTION = .MINUSMINUS) := by decide
  rw [typedNode, value.eq_def]
  simp only [typedFields_op, hne.1, hne.2.1, hne.2.2.1, hne.2.2.2.1, hne.2.2.2.2, if_true, if_false]
  rfl

@[simp]
theorem value_constant (v : BitVec h.longBits) : w.value (makeConstant v t) s = some (reduce t v.toInt, s) := by
  have hne : Op.CONSTANT ≠ .DEREF ∧ Op.CONSTANT ∉ unaryOps ∧ Op.CONSTANT ∉ compareOps ++ equalOps ∧
      Op.CONSTANT ∉ assignOps ∧ ¬ (Op.CONSTANT = .PLUSPLUS ∨ Op.CONSTANT = .MINUSMINUS) ∧ Op.CONSTANT ≠ .QUESTION := by
    decide
  rw [makeConstant, value.eq_def]
  simp only [newNode, hne.1, hne.2.1, hne.2.2.1, hne.2.2.2.1, hne.2.2.2.2.1,
    hne.2.2.2.2.2, if_true, if_false]

/-- A cast that is left out would have kept the value. -/
theorem value_cast (x : Rval h) (ht : IntType t) : w.value (x.cast t ht).node s =
    (w.value x.node s).bind fun p => some (reduce t p.1, p.2) := by
  unfold Rval.cast
  simp only
  split
  · rw [value_unary (by decide)]
    rfl
  · next hsame =>
    rw [← not_not.mp hsame]
    cases hx : w.value x.node s with
    | none => rfl
    | some p =>
      rw [Option.bind_some, value_gives x.node p hx]

end World

end Fuzemsys.Fcc.Tree
