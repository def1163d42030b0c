import Fuzemsys.Fcc.ExpressionGrammar

/-!
# The nodes that may be assigned to
-/

namespace Fuzemsys.Fcc.Expression

open Tree (CType CINT UINT VOID PTR)

variable {T : Types} {op : Op} {l r n m : Node} {ty : CType}

/-! ## Nodes -/

@[simp] theorem tree_lval : (tree op l r).lval = false := rfl

@[simp] theorem sfTree_lval : (sfTree T op l r).lval = false := rfl

@[simp] theorem makeConstant_lval {v : Int} : (makeConstant v ty).lval = false := rfl

@[simp] theorem Node.setType_lval : (n.setType ty).lval = n.lval := by
  cases n <;> rfl

@[simp] theorem Node.setLval_false : (n.setLval false).lval = false := by
  cases n <;> rfl

theorem Node.setLval_true (h : n ≠ .null) : (n.setLval true).lval = true := by
  cases n
  · exact absurd rfl h
  · rfl

@[simp] theorem boolTree_lval {needCC : Bool} (h : n.lval = false) : (boolTree n needCC).lval = false := by
  unfold boolTree
  split
  · exact h
  · split
    · rfl
    · rw [Node.setType_lval, tree_lval]

@[simp] theorem arithProTree_lval : (arithProTree T op l r).lval = false := by
  unfold arithProTree
  rw [Node.setType_lval, tree_lval]

theorem nameNode_lval {name : Nat} {s : Symbol} :
    (nameNode name s).lval = match s with | .object _ _ _ => true | .enumerator _ => false := by
  cases s with
  | enumerator => rfl
  | object storage => cases storage <;> rfl

theorem makeRval_lval (h : (makeRval T n).lval = true) : makeRval T n = n ∧ IS_ARRAY n.type = true := by
  unfold makeRval at h ⊢
  split at h
  · split at h
    · split at h <;> simp_all
    · split at h <;> simp_all
  · simp_all

theorem Node.setType_type (h : n.lval = true) : (n.setType ty).type = ty := by
  cases n
  · cases h
  · rfl

theorem makeCast_lval (h : (makeCast T n ty).lval = true) : n.lval = true ∧ T.canonical n.type = ty := by
  unfold makeCast at h
  simp only at h
  split at h
  · simp at h
  · next hc =>
    rw [Node.setType_lval] at h
    rw [Node.setType_type h, not_not] at hc
    exact ⟨h, hc⟩

theorem makeCast_lval_of (h : n.lval = true) (hc : T.canonical n.type = ty) : (makeCast T n ty).lval = true := by
  unfold makeCast
  simp [Node.setType_type h, hc, h]

/-! ## Operators -/

theorem arithTree_lval (h : arithTree T op l r = some n) : n.lval = false := by
  unfold arithTree at h
  split at h
  · cases h
  · cases h
    exact arithProTree_lval

theorem intarithTree_lval (h : intarithTree T op l r = some n) : n.lval = false := by
  unfold intarithTree at h
  split at h
  · cases h
  · split at h <;> cases h
    · rw [Node.setType_lval, tree_lval]
    · exact arithProTree_lval

theorem ordercompTree_lval (h : ordercompTree T op l r = some n) : n.lval = false := by
  unfold ordercompTree at h
  split at h
  · cases h
    exact boolTree_lval tree_lval
  · obtain ⟨m, hm, rfl⟩ := Option.map_eq_some_iff.mp h
    exact boolTree_lval (arithTree_lval hm)

theorem logicTree_lval (h : logicTree op l r = some n) : n.lval = false := by
  unfold logicTree at h
  split at h <;> cases h
  rw [Node.setType_lval, tree_lval]

theorem sumTree_lval (h : sumTree T op l r = some n) : n.lval = false := by
  unfold sumTree at h
  split at h
  · exact arithTree_lval h
  · simp only [Option.bind_eq_bind, Option.bind_eq_some_iff] at h
    obtain ⟨⟨scale, rt⟩, -, h⟩ := h
    split at h
    · cases h
      rfl
    · split at h <;> simp only [Option.bind_eq_some_iff, Option.map_eq_some_iff] at h <;>
        obtain ⟨_, ⟨_, -, rfl⟩, h⟩ := h <;> cases h <;> rfl

theorem combine_lval {k : Level} (h : k.combine T op l r = some n) : n.lval = false := by
  unfold Level.combine at h
  cases k
  case hier9 =>
    simp only at h
    split at h
    · exact intarithTree_lval h
    · exact arithTree_lval h
  case hier8 => exact sumTree_lval h
  case hier6 | hier5 => exact ordercompTree_lval h
  case hier1c | hier1b => exact logicTree_lval h
  all_goals exact intarithTree_lval h

theorem questionTree_lval {c a b : Node} (h : questionTree T c a b = some n) : n.lval = false := by
  unfold questionTree at h
  simp only at h
  split at h
  · cases h
  · split at h
    · obtain ⟨_, -, rfl⟩ := Option.map_eq_some_iff.mp h
      rw [Node.setType_lval, tree_lval]
    · cases h

theorem eqTree_lval (h : eqTree T l r = some n) : n.lval = false := by
  unfold eqTree assignTree at h
  simp only at h
  split at h
  · cases h
  · split at h
    · cases h
    · repeat' split at h
      all_goals first
        | cases h
          rfl
        | cases h

theorem opEqTree_lval (h : opEqTree T op l r = some n) : n.lval = false := by
  unfold opEqTree at h
  split at h
  · cases h
  · have tail : ∀ {arith : Bool} {s : Node}, (if (!arith) = true then none else some (sfTree T op l s)) = some n →
        n.lval = false := by
      intro arith s h
      split at h <;> cases h
      rfl
    by_cases ho : op = .MINUSEQ ∨ op = .PLUSEQ
    · simp only [ho, if_true, Option.bind_eq_bind, Option.bind_eq_some_iff] at h
      obtain ⟨_, -, h⟩ := h
      exact tail h
    · simp only [ho, if_false, Option.bind_eq_bind, Option.bind_some] at h
      exact tail h

theorem prefixTree_lval (h : prefixTree T op r = some n) : n.lval = false := by
  unfold prefixTree at h
  simp only at h
  split at h
  · cases h
  · split at h
    · obtain ⟨_, -, rfl⟩ := Option.map_eq_some_iff.mp h
      rfl
    · cases h
      rfl

theorem postfixTree_lval (h : postfixTree T op l = some n) : n.lval = false := by
  unfold postfixTree at h
  split at h
  · cases h
  · obtain ⟨_, -, rfl⟩ := Option.map_eq_some_iff.mp h
    rfl

theorem callTree_lval {args : Args} (h : callTree T l args = some n) : n.lval = false := by
  unfold callTree at h
  split at h <;> cases h
  rfl

/-- Only `*` makes one. -/
theorem unaryTree_lval (h : unaryTree T op r = some n) (ho : op ≠ .STAR) : n.lval = false := by
  unfold unaryTree at h
  split at h
  case h_4 => exact absurd rfl ho
  case h_6 => cases h
  case h_5 =>
    split at h
    · cases h
    · split at h <;> obtain ⟨_, -, rfl⟩ := Option.map_eq_some_iff.mp h <;>
        simp only [Node.setType_lval, Node.setLval_false, tree_lval]
  case h_3 =>
    simp only at h
    split at h <;> cases h
    exact boolTree_lval tree_lval
  all_goals
    simp only at h
    split at h <;> cases h
    rfl

/-! ## Casts -/

theorem typeconvEnd_eq {nt : CType} {warn : Bool} (h : typeconvEnd T n nt ty warn = some m) :
    m = makeCast T n ty := by
  unfold typeconvEnd at h
  split at h
  · exact (Option.some.inj h).symm
  · split at h
    · exact (Option.some.inj h).symm
    · cases h

theorem typeconv_eq {warn : Bool} (h : typeconv T n ty warn = some m) :
    ((functionPointer n ty).type = ty ∧ m = functionPointer n ty) ∨
      ((functionPointer n ty).type ≠ ty ∧ m = makeCast T (functionPointer n ty) ty) := by
  unfold typeconv at h
  simp only at h
  split at h
  · next ht => exact .inl ⟨ht, (Option.some.inj h).symm⟩
  · next ht =>
    refine .inr ⟨ht, ?_⟩
    split at h
    · split at h
      · split at h
        · cases h
        · exact (Option.some.inj h).symm
      · split at h
        · cases h
        · exact typeconvEnd_eq h
    · split at h
      · exact (Option.some.inj h).symm
      · exact typeconvEnd_eq h

theorem castTree_lval (h : castTree T ty r = some n) : n.lval = !Expr.castsOther T ty r := by
  have hc := typeconv_eq h
  unfold Expr.castsOther
  by_cases hl : (makeRval T r).lval = true
  · obtain ⟨hr, ha⟩ := makeRval_lval hl
    have hf : functionPointer (makeRval T r) ty = r := by
      have : IS_FUNCTION r.type = false := by
        simp only [IS_ARRAY, IS_FUNCTION, decide_eq_true_eq, decide_eq_false_iff_not] at ha ⊢
        rw [ha]
        decide
      rw [hr, functionPointer, this]
      simp
    rw [hf] at hc
    rw [hr] at hl ⊢
    obtain ⟨ht, rfl⟩ | ⟨ht, rfl⟩ := hc
    · simp [hl, ht]
    · by_cases hcan : T.canonical r.type = ty
      · simp [makeCast_lval_of hl hcan, hcan, hl]
      · have hm : (makeCast T r ty).lval = false :=
          Bool.eq_false_iff.mpr fun hm => hcan (makeCast_lval hm).2
        simp [hm, hl, ht, hcan]
  · have hf : (functionPointer (makeRval T r) ty).lval = false := by
      unfold functionPointer
      split <;> simpa using hl
    have hn : n.lval = false := by
      obtain ⟨-, rfl⟩ | ⟨-, rfl⟩ := hc
      · exact hf
      · exact Bool.eq_false_iff.mpr fun hm => absurd (makeCast_lval hm).1 (by simp [hf])
    simp [hn, hl]

/-! ## Expressions -/

theorem subscript_lval (h : subscript T l r = some n) : n.lval = true := by
  unfold subscript at h
  split at h
  · cases h
  · simp only [Option.bind_eq_bind, Option.bind_eq_some_iff] at h
    obtain ⟨_, -, _, -, _, -, h⟩ := h
    cases h
    rfl

theorem takeMember_lval {lt : CType} {name : Nat} (h : takeMember T l lt name = some n) : n.lval = true := by
  unfold takeMember at h
  split at h
  · cases h
  · simp only [Option.bind_eq_bind, Option.bind_eq_some_iff] at h
    obtain ⟨_, -, h⟩ := h
    cases h
    rfl

theorem pointsTo_lval {name : Nat} (h : pointsTo T l name = some n) : n.lval = true := by
  unfold pointsTo at h
  simp only [Option.bind_eq_bind, Option.bind_eq_some_iff] at h
  obtain ⟨_, -, h⟩ := h
  exact takeMember_lval h

theorem unaryTree_star_lval (h : unaryTree T .STAR r = some n) : n.lval = true := by
  unfold unaryTree at h
  simp only at h
  split at h
  · cases h
  · next hp =>
    have hm : makeRval T r ≠ .null := by
      intro hm
      rw [hm] at hp
      exact hp rfl
    obtain ⟨_, -, rfl⟩ := Option.map_eq_some_iff.mp h
    rw [Node.setType_lval, Node.setLval_true hm]

namespace Expr

variable {N : TypeNames T} {e : Expr} {t : Node}

theorem lval_iff_right (hg : e.Grammatical N) (h : e.denote T = some t) :
    t.lval = e.isLvalue T ↔ e.MarkedRight T := by
  induction e generalizing t with
  | name n =>
    simp only [denote, Option.map_eq_some_iff] at h
    obtain ⟨s, hs, rfl⟩ := h
    simp only [nameNode_lval, isLvalue, MarkedRight, hs, Option.some.injEq]
    cases s with
    | enumerator => simp
    | object storage ty offset =>
      simp only [Symbol.object.injEq, and_imp]
      exact ⟨fun h _ _ _ _ ht _ => ht ▸ h.symm, fun h => (h _ _ _ rfl rfl rfl).symm⟩
  | value ty v =>
    simp only [denote, Option.some.injEq] at h
    subst h
    simp [isLvalue, MarkedRight]
  | paren e ih => exact ih hg.1 h
  | index e i =>
    have h' := h
    simp only [denote, Option.bind_eq_bind, Option.bind_eq_some_iff] at h'
    obtain ⟨_, -, _, -, h'⟩ := h'
    simp [isLvalue, MarkedRight, subscript_lval h']
  | member e n =>
    simp only [denote, Option.bind_eq_bind, Option.bind_eq_some_iff] at h
    obtain ⟨_, -, h⟩ := h
    simp [isLvalue, MarkedRight, takeMember_lval h]
  | arrow e n =>
    simp only [denote, Option.bind_eq_bind, Option.bind_eq_some_iff] at h
    obtain ⟨_, -, h⟩ := h
    simp [isLvalue, MarkedRight, pointsTo_lval h]
  | unary op e =>
    simp only [denote, Option.bind_eq_bind, Option.bind_eq_some_iff] at h
    obtain ⟨u, hu, h⟩ := h
    by_cases ho : op = .STAR
    · subst ho
      simp [isLvalue, MarkedRight, unaryTree_star_lval h]
    · have hl := unaryTree_lval h ho
      cases op <;> first | exact absurd rfl ho | simp [isLvalue, MarkedRight, hl]
  | cast words ty e =>
    simp only [denote, Option.bind_eq_bind, Option.bind_eq_some_iff] at h
    obtain ⟨u, hu, h⟩ := h
    simp [isLvalue, MarkedRight, castTree_lval h, hu]
  | callNone e =>
    simp only [denote, Option.bind_eq_bind, Option.bind_eq_some_iff] at h
    obtain ⟨_, -, h⟩ := h
    split at h
    · cases h
    · simp [isLvalue, MarkedRight, callTree_lval h]
  | call e args =>
    simp only [denote, Option.bind_eq_bind, Option.bind_eq_some_iff] at h
    obtain ⟨_, -, h⟩ := h
    split at h
    · cases h
    · obtain ⟨_, -, h⟩ := Option.bind_eq_some_iff.mp h
      simp [isLvalue, MarkedRight, callTree_lval h]
  | stepAfter op e =>
    simp only [denote, Option.bind_eq_bind, Option.bind_eq_some_iff] at h
    obtain ⟨_, -, h⟩ := h
    simp [isLvalue, MarkedRight, postfixTree_lval h]
  | stepBefore op e =>
    simp only [denote, Option.bind_eq_bind, Option.bind_eq_some_iff] at h
    obtain ⟨_, -, h⟩ := h
    simp [isLvalue, MarkedRight, prefixTree_lval h]
  | sizeofExpr e =>
    simp only [denote, Option.bind_eq_bind, Option.bind_eq_some_iff, Option.some.injEq] at h
    obtain ⟨_, -, _, -, rfl⟩ := h
    simp [isLvalue, MarkedRight]
  | sizeofType words ty =>
    simp only [denote, Option.bind_eq_bind, Option.bind_eq_some_iff, Option.some.injEq] at h
    obtain ⟨_, -, rfl⟩ := h
    simp [isLvalue, MarkedRight]
  | binary k op l r =>
    simp only [denote, Option.bind_eq_bind, Option.bind_eq_some_iff] at h
    obtain ⟨_, -, _, -, h⟩ := h
    simp [isLvalue, MarkedRight, combine_lval h]
  | cond c a b =>
    simp only [denote, Option.bind_eq_bind, Option.bind_eq_some_iff] at h
    obtain ⟨_, -, _, -, _, -, h⟩ := h
    simp [isLvalue, MarkedRight, questionTree_lval h]
  | assign op l r =>
    simp only [denote] at h
    split at h <;> simp only [Option.bind_eq_bind, Option.bind_eq_some_iff] at h <;>
      obtain ⟨_, -, _, -, h⟩ := h
    · simp [isLvalue, MarkedRight, eqTree_lval h]
    · simp [isLvalue, MarkedRight, opEqTree_lval h]
  | comma l r =>
    simp only [denote, Option.bind_eq_bind, Option.bind_eq_some_iff, Option.some.injEq] at h
    obtain ⟨_, -, _, -, rfl⟩ := h
    simp [isLvalue, MarkedRight, commaTree]
  | lastArg e => cases h
  | arg e more => cases h

end Expr

end Fuzemsys.Fcc.Expression
