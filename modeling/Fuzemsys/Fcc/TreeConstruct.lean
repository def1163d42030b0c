import Fuzemsys.Fcc.TreeSuits

/-!
# Every construct as C has it

Exactly the constructs whose operator suits the types of its operands have the type and
the value that C gives, whatever the operands are and do.
-/

open Fuzemsys.Lib

namespace Fuzemsys.Fcc.Tree

variable {h : Host} {op : Op} {n l r : Node h} {t lt rt : CType} {x y z : Int} {w : World h} {s : w.State}

/-! ## Unary operators -/

theorem negate_node (x : Rval h) : (Construct.negate x).node = typedNode .NEGATE x.node.type .null x.node :=
  x.tree_unary (by decide)

theorem tilde_node (x : Rval h) : (Construct.tilde x).node = typedNode .TILDE x.node.type .null x.node :=
  x.tree_unary (by decide)

theorem negate_evaluates (x : Rval h) : (Construct.negate x).EvaluatesAsC ↔ promote x.node.type = x.node.type := by
  unfold Construct.EvaluatesAsC
  rw [negate_node]
  refine ⟨fun heval => heval.1.symm, fun htype => ⟨htype.symm, fun w s out hout => ?_⟩⟩
  rw [World.value_unary (by decide), ← hout]
  simp only [Construct.cValue, htype]
  rfl

theorem tilde_evaluates (x : Rval h) : (Construct.tilde x).EvaluatesAsC ↔ promote x.node.type = x.node.type := by
  unfold Construct.EvaluatesAsC
  rw [tilde_node]
  refine ⟨fun heval => heval.1.symm, fun htype => ⟨htype.symm, fun w s out hout => ?_⟩⟩
  rw [World.value_unary (by decide), ← hout]
  simp only [Construct.cValue, htype]
  rfl

/-! ## Assignment operators -/

/-- The right side is converted first, and the operation done in the type of the left side. -/
theorem update_converts {right : w.State → Option (Int × w.State)} {out : (Int × Int) × w.State}
    (hconverts : Converts op lt rt) (hright : ∀ s p, right s = some p → reduce rt p.1 = p.1)
    (hout : w.update lt l right (cArith op lt rt) s = some out) :
    w.update lt l (fun s => (right s).bind fun p => some (reduce lt p.1, p.2)) (arith op lt) s = some out := by
  simp only [World.update, Option.bind_eq_bind] at hout ⊢
  obtain ⟨⟨a, s₁⟩, hplace, hout⟩ := Option.bind_eq_some_iff.mp hout
  obtain ⟨⟨y, s₂⟩, hy, hout⟩ := Option.bind_eq_some_iff.mp hout
  obtain ⟨z, hz, hout⟩ := Option.bind_eq_some_iff.mp hout
  have hmap := hconverts _ y z (reduce_reduce lt _) (hright s₁ _ hy) hz
  obtain ⟨z', hz', heq⟩ := Option.map_eq_some_iff.mp hmap
  rw [hplace, Option.bind_some, hy, Option.bind_some, Option.bind_some]
  have hop : arith op lt (w.held lt a s₂) (reduce lt y) = some z' := hz'
  simp only [hop, Option.bind_some, heq]
  exact hout

theorem assignOp_evaluates (fc : { op : Op // op ∈ assignOps }) (l : Lval h) (r : Rval h)
    (hsuits : AssignSuits fc.1.plain l.node.type r.node.type) : (Construct.assignOp fc l r).EvaluatesAsC := by
  have hconverts := converts_of_suits l.int r.int (List.mem_append_left _ fc.2) hsuits
  unfold Construct.EvaluatesAsC
  rw [assignOp_node]
  refine ⟨rfl, fun w s out hout => ?_⟩
  rw [World.value_assign fc.2]
  obtain ⟨⟨z, s₁⟩, hz, hout⟩ := Option.bind_eq_some_iff.mp hout
  have hright : w.value (r.cast l.node.type l.int).node =
      fun s => (w.value r.node s).bind fun p => some (reduce l.node.type p.1, p.2) :=
    funext fun s => World.value_cast r l.int
  rw [hright, update_converts hconverts (fun s p hp => World.value_gives r.node p hp) hz]
  exact hout

/-- The constant of ++ and -- has the type of the variable. -/
theorem value_one (w : World h) (lt : CType) : w.value (makeConstant 1 lt) =
    fun s => (some (1, s)).bind fun p => some (reduce lt p.1, p.2) := by
  funext s
  rw [World.value_constant, toInt_one_host]
  rfl

theorem update_one {out : (Int × Int) × w.State} (hlt : IntType lt) (hcarry : op.plain ∈ carryOps)
    (hout : w.update lt l (fun s => some (1, s)) (cArith op.plain lt CINT) s = some out) :
    w.update lt l (w.value (makeConstant 1 lt)) (arith op.plain lt) s = some out := by
  have hconverts : Converts op.plain lt CINT := converts_carry hlt (by decide) hcarry
  rw [value_one]
  refine update_converts hconverts (fun s p hp => ?_) hout
  cases hp
  show reduce CINT 1 = 1
  decide

theorem prefixed_node (up : Bool) (l : Lval h) : (Construct.prefixed up l).node =
    effectNode (if up then .PLUSEQ else .MINUSEQ) l.node.type l.node (makeConstant 1 l.node.type) := by
  apply changed_node
  split <;> decide

theorem prefixed_evaluates (up : Bool) (l : Lval h) : (Construct.prefixed up l).EvaluatesAsC := by
  unfold Construct.EvaluatesAsC
  rw [prefixed_node]
  refine ⟨rfl, fun w s out hout => ?_⟩
  obtain ⟨⟨z, s₁⟩, hz, hlast⟩ := Option.bind_eq_some_iff.mp hout
  cases up with
  | true =>
    rw [if_pos rfl, World.value_assign (by decide), update_one l.int (by decide) hz]
    exact hlast
  | false =>
    rw [if_neg Bool.false_ne_true, World.value_assign (by decide), update_one l.int (by decide) hz]
    exact hlast

theorem postfixed_node (up : Bool) (l : Lval h) : (Construct.postfixed up l).node =
    effectNode (if up then .PLUSPLUS else .MINUSMINUS) l.node.type l.node (makeConstant 1 l.node.type) := by
  apply changed_node
  split <;> decide

theorem postfixed_evaluates (up : Bool) (l : Lval h) : (Construct.postfixed up l).EvaluatesAsC := by
  unfold Construct.EvaluatesAsC
  rw [postfixed_node]
  refine ⟨rfl, fun w s out hout => ?_⟩
  obtain ⟨⟨z, s₁⟩, hz, hlast⟩ := Option.bind_eq_some_iff.mp hout
  cases up with
  | true =>
    rw [if_pos rfl, World.value_postfix (.inl rfl), update_one l.int (by decide) hz]
    exact hlast
  | false =>
    rw [if_neg Bool.false_ne_true, World.value_postfix (.inr rfl), update_one l.int (by decide) hz]
    exact hlast

/-! ## Comparisons -/

/-- The common type of the tree decides as that of C does. -/
def ComparesAsC (op : Op) (lt rt : CType) : Prop :=
  ∀ x y, reduce lt x = x → reduce rt y = y →
    compared op (reduce (arithPro lt rt) x) (reduce (arithPro lt rt) y) =
      compared op (reduce (usual lt rt) x) (reduce (usual lt rt) y)

section
variable (hlt : IntType lt) (hrt : IntType rt)
include hlt hrt

theorem compares_equal (hop : op ∈ equalOps) : ComparesAsC op lt rt := by
  intro x y _ _
  have hwidth := width_arithPro hlt hrt
  have hiff : reduce (arithPro lt rt) x = reduce (arithPro lt rt) y ↔ reduce (usual lt rt) x = reduce (usual lt rt) y := by
    rw [reduce_eq_iff, reduce_eq_iff, hwidth]
  simp only [equalOps, List.mem_cons, List.not_mem_nil, or_false] at hop
  rcases hop with rfl | rfl
  · simp only [compared, hiff]
  · simp only [compared, ne_eq, hiff]

theorem compares_of_suits (hsuits : CompareSuits op lt rt) : ComparesAsC op lt rt := by
  rcases hsuits with hequal | hlends | huchar
  · exact compares_equal hlt hrt hequal
  · intro x y _ _
    rw [(arithPro_usual_iff hlt hrt).mpr hlends]
  · by_cases hlends : LendsSign lt rt
    · -- Both are unsigned chars, and those are the same in an int and in an unsigned int.
      have hrt' : rt = UCHAR := by
        rcases hlends with hlends | hlends
        · exact hlends.1
        · rw [huchar] at hlends
          exact absurd hlends.2 (by decide)
      subst huchar hrt'
      intro x y hx hy
      have hint (a : Int) (ha : reduce UCHAR a = a) : reduce (usual UCHAR UCHAR) a = a :=
        reduce_of_canHold (by decide) hlt (by decide) ha
      have huint (a : Int) (ha : reduce UCHAR a = a) : reduce (arithPro UCHAR UCHAR) a = a :=
        reduce_of_canHold (by decide) hlt (by decide) ha
      rw [hint x hx, hint y hy, huint x hx, huint y hy]
    · intro x y _ _
      rw [(arithPro_usual_iff hlt hrt).mpr hlends]

theorem suits_of_compares (hop : op ∈ compareOps ++ equalOps) (hcompares : ComparesAsC op lt rt) :
    CompareSuits op lt rt := by
  -- -1 is less than 1 only with a sign.
  have hwitness := hcompares (reduce lt (-1)) 1 (reduce_reduce lt _) (reduce_small rt (by decide) (by decide))
  rcases compareOp_cases hop with rfl | rfl | rfl | rfl | rfl | rfl <;>
    rcases intType_cases hlt with rfl | rfl | rfl | rfl | rfl | rfl <;>
    rcases intType_cases hrt with rfl | rfl | rfl | rfl | rfl | rfl <;>
    first
      | decide
      | exact absurd hwitness (by decide)

end

theorem truth_compared (op : Op) (x y : Int) : truth (compared op x y ≠ 0) = compared op x y := by
  unfold compared
  split <;> exact truth_truth _

/-- The truth value of a comparison is the comparison. -/
theorem value_comparison (op : { op : Op // op ∈ compareOps ++ equalOps }) (l r : Rval h) :
    w.value (Construct.compare op l r).node s =
      (w.value l.node s).bind fun p => (w.value r.node p.2).bind fun q =>
        some (compared op.1 (reduce (arithPro l.node.type r.node.type) p.1)
          (reduce (arithPro l.node.type r.node.type) q.1), q.2) := by
  have ht := arithPro_int l.int r.int
  have hinner : w.value (l.compare r op.1 op.2 _ ht).node s = _ := World.value_compare op.2
  rw [compare_node, World.value_unary (by decide), hinner, World.value_cast l ht]
  cases w.value l.node s with
  | none => rfl
  | some p =>
    simp only [Option.bind_some, World.value_cast r ht]
    cases w.value r.node p.2 with
    | none => rfl
    | some q =>
      simp only [Option.bind_some, unary, truth_compared, reduce_compared]

theorem compare_evaluates (op : { op : Op // op ∈ compareOps ++ equalOps }) (l r : Rval h)
    (hcompares : ComparesAsC op.1 l.node.type r.node.type) : (Construct.compare op l r).EvaluatesAsC := by
  constructor
  · rw [compare_node]
    rfl
  · intro w s out hout
    obtain ⟨⟨x, s₁⟩, hx, hout⟩ := Option.bind_eq_some_iff.mp hout
    obtain ⟨⟨y, s₂⟩, hy, hout⟩ := Option.bind_eq_some_iff.mp hout
    rw [value_comparison, hx, Option.bind_some, hy, Option.bind_some,
      hcompares x y (World.value_gives l.node _ hx) (World.value_gives r.node _ hy)]
    exact hout

/-! ## ?: -/

/-- The condition is made a truth value, unless it is one. -/
theorem value_condition (c : Rval h) : w.value (boolTree tree c.node NEEDCC) s = w.value c.node s ∨
    w.value (boolTree tree c.node NEEDCC) s = (w.value c.node s).bind fun p => some (truth (p.1 ≠ 0), p.2) := by
  unfold boolTree
  split
  · exact .inl rfl
  · refine .inr ?_
    rw [if_pos (by decide), World.value_node_unary (by simp [unaryOps, newNode])]
    simp only [newNode, unary, Option.bind_some, reduce_truth]

theorem question_evaluates (c a1 a2 : Rval h) :
    (Construct.question c a1 a2).EvaluatesAsC ↔ usual a1.node.type a2.node.type = a1.node.type := by
  unfold Construct.EvaluatesAsC
  rw [question_node]
  refine ⟨fun heval => heval.1.symm, fun htype => ⟨htype.symm, fun w s out hout => ?_⟩⟩
  simp only [Construct.cValue, htype, Option.bind_eq_bind] at hout
  obtain ⟨⟨x, s₁⟩, hx, hout⟩ := Option.bind_eq_some_iff.mp hout
  -- The branch that is taken does not depend on how the condition is written.
  have hcond : ∃ x', w.value (boolTree tree c.node NEEDCC) s = some (x', s₁) ∧ (x' ≠ 0 ↔ x ≠ 0) := by
    rcases value_condition (s := s) (w := w) c with hsame | htruth
    · exact ⟨x, hsame.trans hx, Iff.rfl⟩
    · refine ⟨truth (x ≠ 0), ?_, ?_⟩
      · rw [htruth, hx]
        rfl
      · rw [Ne, truth_eq_zero, not_not]
  obtain ⟨x', hvalue, hiff⟩ := hcond
  have hquestion : w.value (typedNode .QUESTION a1.node.type (boolTree tree c.node NEEDCC)
      (typedNode .COLON a1.node.type a1.node (a2.cast a1.node.type a1.int).node)) s = _ := World.value_question _ _ _
  rw [hquestion, hvalue, Option.bind_some, World.value_cast a2 a1.int]
  simp only [hiff]
  by_cases htaken : x ≠ 0
  · rw [if_pos htaken] at hout ⊢
    exact hout
  · rw [if_neg htaken] at hout ⊢
    rw [Option.bind_assoc]
    simpa only [Option.bind_some, reduce_reduce] using hout

/-! ## The trees are operands again -/

theorem operand_of {f : Fields h} (hint : IntType f.type) (hop : f.op.isOperator = true) (hbool : f.op = .BOOL → f.type = CINT)
    (hinert : Inert (.node f l r)) : ∃ x : Rval h, x.node = .node f l r :=
  ⟨⟨.node f l r, hint, ⟨f.op, rfl, hop⟩, fun heq => hbool (Option.some.inj heq), hinert⟩, rfl⟩

theorem changeOp_operator (hop : op ∈ changeOps) : op.isOperator = true ∧ op ≠ .BOOL := by
  simp only [changeOps, assignOps, List.cons_append, List.nil_append, List.mem_cons, List.not_mem_nil, or_false] at hop
  rcases hop with rfl | rfl | rfl | rfl | rfl | rfl | rfl | rfl | rfl | rfl | rfl | rfl <;> decide

/-- So operands may be nested to any depth. -/
theorem Construct.operand (e : Construct h) : ∃ x : Rval h, x.node = e.node := by
  cases e with
  | negate x =>
    rw [negate_node]
    refine operand_of x.int rfl ?_ (x.inert_above ?_) <;> simp
  | tilde x =>
    rw [tilde_node]
    refine operand_of x.int rfl ?_ (x.inert_above ?_) <;> simp
  | assignOp fc l r =>
    have hop := changeOp_operator (List.mem_append_left [.PLUSPLUS, .MINUSMINUS] fc.2)
    rw [assignOp_node]
    exact operand_of l.int hop.1 (fun heq => absurd heq hop.2) (Rval.inert_above _ (assign_logic fc.2))
  | prefixed up l =>
    have hop : (if up then .PLUSEQ else .MINUSEQ) ∈ changeOps := by cases up <;> decide
    rw [prefixed_node]
    exact operand_of l.int (changeOp_operator hop).1 (fun heq => absurd heq (changeOp_operator hop).2)
      (l.inert_constant hop)
  | postfixed up l =>
    have hop : (if up then .PLUSPLUS else .MINUSMINUS) ∈ changeOps := by cases up <;> decide
    rw [postfixed_node]
    exact operand_of l.int (changeOp_operator hop).1 (fun heq => absurd heq (changeOp_operator hop).2)
      (l.inert_constant hop)
  | compare op l r =>
    rw [compare_node]
    exact operand_of (show IntType CINT by decide) rfl (fun _ => rfl) (Rval.inert_above _ (by simp))
  | question c a1 a2 =>
    have hcolon : Inert (typedNode .COLON a1.node.type a1.node (a2.cast a1.node.type a1.int).node) :=
      Rval.inert_above _ (by simp)
    rw [question_node]
    refine operand_of a1.int rfl ?_ (inert_node (castRule_of_ne ?_ _) ?_ rfl node_ne_null hcolon) <;> simp

/-! ## Variables -/

/-- A tree that was built and is no constant is an operand. -/
def Rval.ofSettled (n : Node h) (hint : IntType n.type) (hn : Settled n) (hleaf : isLeaf n = false) : Rval h where
  node := n
  int := hint
  operator := by
    rcases hn.op_cases with ⟨v, t, -, rfl⟩ | ⟨hop, -⟩ | hop
    · cases hleaf
    · simp [isLeaf, hop] at hleaf
    · exact hop
  bool := hn.bool
  inert := fun k hk => by
    rw [constify_settled hn hk, leafResult, hleaf, if_neg Bool.false_ne_true]

theorem makeSymbol_flags (s : Symbol h) : (makeSymbol s).flags &&& LVAL ≠ 0 := by
  cases hs : s.storage <;> simp [makeSymbol, hs, Node.flags, LVAL]

theorem variable_node (s : Symbol h) :
    makeRval tree (makeSymbol s) false = typedNode .DEREF s.type .null (makeSymbol s) := by
  have htree : tree .DEREF .null (makeSymbol s) = typedNode .DEREF s.type .null (makeSymbol s) := by
    rw [tree_unary, makeSymbol_size, constify_symbol (f := typedFields .DEREF _) s rfl le_rfl, makeSymbol_type]
    rfl
  rw [makeRval, if_pos (makeSymbol_flags s), sfTree, htree]
  rfl

def variableAt (h : Host) (storage : Storage) (t : IntTy) : Symbol h := ⟨storage, 0, t.1, 0⟩

def Lval.local (h : Host) (t : IntTy) : Lval h where
  node := makeSymbol (variableAt h .AUTO t)
  int := t.2
  lval := makeSymbol_flags _
  kept := fun k hk => by
    obtain ⟨k, rfl⟩ := Nat.exists_eq_add_of_le' (show 1 ≤ k from hk)
    rfl

/-- The value of a variable. -/
def Rval.held (h : Host) (storage : Storage) (t : IntTy) : Rval h :=
  .ofSettled (typedNode .DEREF t.1 .null (makeSymbol (variableAt h storage t))) t.2
    (variable_node (variableAt h storage t) ▸ (agrees_variable (variableAt h storage t) false t.2).settled) rfl

/-! ## Two variables -/

/-- Nothing but two numbers, one of them local. -/
abbrev pairWorld (h : Host) (x y : Int) : World h where
  State := Unit
  place n s := some (if n.op = some .LOCAL then 0 else 1, s)
  load _ a _ := if a = 0 then x else y
  store _ _ _ s := s
  other _ _ := none

section
variable (lt rt : IntTy) {x y : Int}

theorem pair_local (s : (pairWorld h x y).State) :
    (pairWorld h x y).value (Rval.held h .AUTO lt).node s = some (reduce lt.1 x, s) := rfl

theorem pair_static (s : (pairWorld h x y).State) :
    (pairWorld h x y).value (Rval.held h .STATIC rt).node s = some (reduce rt.1 y, s) := rfl

theorem pair_update (right : Unit → Option (Int × Unit)) (change : Int → Int → Option Int) :
    (pairWorld h x y).update lt.1 (Lval.local h lt).node right change () =
      (right ()).bind fun p => (change (reduce lt.1 x) p.1).bind fun z => some ((reduce lt.1 x, reduce lt.1 z), p.2) := rfl

theorem converts_of_evaluates (fc : { op : Op // op ∈ assignOps })
    (heval : (Construct.assignOp fc (.local h lt) (.held h .STATIC rt)).EvaluatesAsC) :
    Converts fc.1.plain lt.1 rt.1 := by
  intro x y z hx hy hz
  have hcast : (pairWorld h x y).value ((Rval.held h .STATIC rt).cast lt.1 lt.2).node () = some (reduce lt.1 y, ()) := by
    rw [World.value_cast, pair_static, Option.bind_some, hy]
  have hvalue := heval.2 (pairWorld h x y) () (reduce lt.1 z, ()) ?_
  · have hnode : (pairWorld h x y).value (Construct.assignOp fc (.local h lt) (.held h .STATIC rt)).node () =
        ((arith fc.1.plain lt.1 x (reduce lt.1 y)).bind fun z => some (reduce lt.1 z, ())) := by
      rw [assignOp_node]
      refine (World.value_assign fc.2).trans ?_
      have hupdate := pair_update (h := h) (x := x) (y := y) lt
        ((pairWorld h x y).value ((Rval.held h .STATIC rt).cast lt.1 lt.2).node) (arith fc.1.plain lt.1)
      rw [hcast, Option.bind_some, hx] at hupdate
      refine (congrArg (Option.bind · _) hupdate).trans ?_
      cases arith fc.1.plain lt.1 x (reduce lt.1 y) with
      | none => rfl
      | some z => rfl
    rw [hnode] at hvalue
    cases harith : arith fc.1.plain lt.1 x (reduce lt.1 y) with
    | none =>
      rw [harith] at hvalue
      cases hvalue
    | some z' =>
      rw [harith] at hvalue
      exact congrArg (Option.map Prod.fst) hvalue
  · have hupdate := pair_update (h := h) (x := x) (y := y) lt
      ((pairWorld h x y).value (Rval.held h .STATIC rt).node) (cArith fc.1.plain lt.1 rt.1)
    rw [pair_static, Option.bind_some, hx, hy, hz, Option.bind_some] at hupdate
    exact congrArg (Option.bind · _) hupdate

theorem compares_of_evaluates (op : { op : Op // op ∈ compareOps ++ equalOps })
    (heval : (Construct.compare op (.held h .AUTO lt) (.held h .STATIC rt)).EvaluatesAsC) :
    ComparesAsC op.1 lt.1 rt.1 := by
  intro x y hx hy
  have hvalue := heval.2 (pairWorld h x y) ()
    (compared op.1 (reduce (usual lt.1 rt.1) x) (reduce (usual lt.1 rt.1) y), ()) ?_
  · have hnode := value_comparison (w := pairWorld h x y) (s := ()) op (Rval.held h .AUTO lt) (Rval.held h .STATIC rt)
    rw [pair_local, Option.bind_some, pair_static, Option.bind_some, hx, hy] at hnode
    rw [hnode] at hvalue
    exact congrArg Prod.fst (Option.some.inj hvalue)
  · have hc : (Construct.compare op (.held h .AUTO lt) (.held h .STATIC rt)).cValue (pairWorld h x y) () =
        some (compared op.1 (reduce (usual lt.1 rt.1) (reduce lt.1 x)) (reduce (usual lt.1 rt.1) (reduce rt.1 y)), ()) :=
      rfl
    rw [hx, hy] at hc
    exact hc

end

/-! ## Exactly those that suit -/

/-- All trees of a shape have the type and the value of C if the types suit the operator, and only then. -/
theorem evaluatesAsC_iff (sh : Shape) : (∀ e : Construct h, e.shape = sh → e.EvaluatesAsC) ↔ sh.Suits := by
  constructor
  · intro hall
    cases sh with
    | negate t => exact (negate_evaluates _).mp (hall (.negate (.held h .STATIC t)) rfl)
    | tilde t => exact (tilde_evaluates _).mp (hall (.tilde (.held h .STATIC t)) rfl)
    | assignOp fc lt rt =>
      exact suits_of_converts lt.2 rt.2 (List.mem_append_left _ fc.2)
        (converts_of_evaluates lt rt fc (hall (.assignOp fc (.local h lt) (.held h .STATIC rt)) rfl))
    | prefixed up t => trivial
    | postfixed up t => trivial
    | compare op lt rt =>
      exact suits_of_compares lt.2 rt.2 op.2
        (compares_of_evaluates lt rt op (hall (.compare op (.held h .AUTO lt) (.held h .STATIC rt)) rfl))
    | question c a1 a2 =>
      exact (question_evaluates _ _ _).mp
        (hall (.question (.held h .STATIC c) (.held h .STATIC a1) (.held h .STATIC a2)) rfl)
  · intro hsuits e hshape
    subst hshape
    cases e with
    | negate x => exact (negate_evaluates x).mpr hsuits
    | tilde x => exact (tilde_evaluates x).mpr hsuits
    | assignOp fc l r => exact assignOp_evaluates fc l r hsuits
    | prefixed up l => exact prefixed_evaluates up l
    | postfixed up l => exact postfixed_evaluates up l
    | compare op l r => exact compare_evaluates op l r (compares_of_suits l.int r.int hsuits)
    | question c a1 a2 => exact (question_evaluates c a1 a2).mpr hsuits

/-- `c /= i` with an unsigned char 1 and an int 256. -/
def charDivide : Construct Host.linux :=
  .assignOp ⟨.SLASHEQ, by decide⟩ (.local _ ⟨UCHAR, by decide⟩) (.held _ .STATIC ⟨CINT, by decide⟩)

/-- C divides 1 by 256, and the tree by 0. -/
theorem charDivide_differs : ¬ charDivide.EvaluatesAsC := by
  intro heval
  have hvalue := heval.2 (pairWorld Host.linux 1 256) () (0, ()) (by decide)
  exact absurd hvalue (by decide)

end Fuzemsys.Fcc.Tree
