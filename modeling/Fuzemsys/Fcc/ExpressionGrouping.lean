import Fuzemsys.Fcc.ExpressionRight
import Fuzemsys.Fcc.ExpressionLvalue

/-!
# The grouping of every expression
-/

namespace Fuzemsys.Fcc.Expression

open Tree (CType CINT UINT PTR)

variable {T : Types} {N : TypeNames T}

theorem sizedRight_cases {e : Expr} (h : e.sizedRight) :
    (∃ e', e = .paren e' ∧ e'.level ≤ 16) ∨ e.startsParen = false := by
  unfold Expr.sizedRight at h
  split at h
  · exact .inl ⟨_, rfl, h⟩
  · exact .inr h

theorem denote_assign {op : Op} {l r : Expr} {t : Node} (h : (Expr.assign op l r).denote T = some t) :
    ∃ u, l.denote T = some u ∧ ∃ v, r.denote T = some v ∧
      (if op = .EQ then eqTree T u v else opEqTree T op u v) = some t := by
  unfold Expr.denote at h
  split at h <;> simp only [Option.bind_eq_bind, Option.bind_eq_some_iff] at h ⊢
  all_goals
    next ho =>
      obtain ⟨u, hu, v, hv, ht⟩ := h
      exact ⟨u, hu, v, hv, by simpa [ho] using ht⟩

mutual

/-- By recursion over the expression. `sizeof` reads a whole bracket itself, which takes the recursion to its inside. -/
theorem readsAs : (e : Expr) → {t : Node} → e.Grammatical N → e.Suits → e.denote T = some t → ReadsAs T e t
  | .name n, t, _, _, hd => by
    simp only [Expr.denote, Option.map_eq_some_iff] at hd
    obtain ⟨s, hs, rfl⟩ := hd
    exact ReadsAs.name hs
  | .value ty v, t, _, _, hd => by
    simp only [Expr.denote, Option.some.injEq] at hd
    subst hd
    exact ReadsAs.value
  | .paren e, t, hg, hs, hd => ReadsAs.paren hg hs (readsAs e hg.1 hs hd)
  | .index e i, t, hg, hs, hd => by
    simp only [Expr.denote, Option.bind_eq_bind, Option.bind_eq_some_iff] at hd
    obtain ⟨u, hu, n, hn, ht⟩ := hd
    exact ReadsAs.index hg hs (readsAs e hg.1 hs.1 hu) (readsAs i hg.2.2.1 hs.2.2 hn) ht
  | .callNone e, t, hg, hs, hd => by
    simp only [Expr.denote, Option.bind_eq_bind, Option.bind_eq_some_iff] at hd
    obtain ⟨u, hu, ht⟩ := hd
    split at ht
    · cases ht
    · next hf => exact ReadsAs.callNone hg hs (readsAs e hg.1 hs.1 hu) (by simpa using hf) ht
  | .call e args, t, hg, hs, hd => by
    simp only [Expr.denote, Option.bind_eq_bind, Option.bind_eq_some_iff] at hd
    obtain ⟨u, hu, ht⟩ := hd
    split at ht
    · cases ht
    · next hf =>
      simp only [Option.bind_eq_some_iff] at ht
      obtain ⟨a, ha, ht⟩ := ht
      exact ReadsAs.call hg hs (readsAs e hg.1 hs.1 hu) (by simpa using hf)
        (readsArgs args hg.2.2.1 hs.2.2 ha) ht
  | .member e n, t, hg, hs, hd => by
    simp only [Expr.denote, Option.bind_eq_bind, Option.bind_eq_some_iff] at hd
    obtain ⟨u, hu, ht⟩ := hd
    exact ReadsAs.member hg hs (readsAs e hg.1 hs.1 hu) ht
  | .arrow e n, t, hg, hs, hd => by
    simp only [Expr.denote, Option.bind_eq_bind, Option.bind_eq_some_iff] at hd
    obtain ⟨u, hu, ht⟩ := hd
    exact ReadsAs.arrow hg hs (readsAs e hg.1 hs.1 hu) ht
  | .stepAfter op e, t, hg, hs, hd => by
    simp only [Expr.denote, Option.bind_eq_bind, Option.bind_eq_some_iff] at hd
    obtain ⟨u, hu, ht⟩ := hd
    exact ReadsAs.stepAfter hg hs (readsAs e hg.2.1 hs.1 hu) ht
  | .stepBefore op e, t, hg, hs, hd => by
    simp only [Expr.denote, Option.bind_eq_bind, Option.bind_eq_some_iff] at hd
    obtain ⟨u, hu, ht⟩ := hd
    exact ReadsAs.stepBefore hg (readsAs e hg.2.1 hs hu) ht
  | .unary op e, t, hg, hs, hd => by
    simp only [Expr.denote, Option.bind_eq_bind, Option.bind_eq_some_iff] at hd
    obtain ⟨u, hu, ht⟩ := hd
    exact ReadsAs.unary hg (readsAs e hg.2.1 hs hu) ht
  | .sizeofExpr e, t, hg, hs, hd => by
    simp only [Expr.denote, Option.bind_eq_bind, Option.bind_eq_some_iff, Option.some.injEq] at hd
    obtain ⟨u, hu, size, hsize, rfl⟩ := hd
    obtain ⟨e', rfl, hl⟩ | hp := sizedRight_cases hs.2
    · exact ReadsAs.sizeofParen hg.1.1 hl (readsAs e' hg.1.1 hs.1 hu) hsize
    · exact ReadsAs.sizeofExpr hg hp (readsAs e hg.1 hs.1 hu) hsize
  | .sizeofType words ty, t, hg, hs, hd => by
    simp only [Expr.denote, Option.bind_eq_bind, Option.bind_eq_some_iff, Option.some.injEq] at hd
    obtain ⟨size, hsize, rfl⟩ := hd
    exact ReadsAs.sizeofType hg hs hsize
  | .cast words ty e, t, hg, hs, hd => by
    simp only [Expr.denote, Option.bind_eq_bind, Option.bind_eq_some_iff] at hd
    obtain ⟨u, hu, ht⟩ := hd
    exact ReadsAs.cast hg (readsAs e hg.2.1 hs hu) ht
  | .binary k op l r, t, hg, hs, hd => by
    simp only [Expr.denote, Option.bind_eq_bind, Option.bind_eq_some_iff] at hd
    obtain ⟨u, hu, v, hv, ht⟩ := hd
    exact ReadsAs.binary hg hs (readsAs l hg.2.1 hs.1 hu) (readsAs r hg.2.2.2.1 hs.2.2 hv) ht
  | .cond c a b, t, hg, hs, hd => by
    simp only [Expr.denote, Option.bind_eq_bind, Option.bind_eq_some_iff] at hd
    obtain ⟨u, hu, v, hv, w, hw, ht⟩ := hd
    exact ReadsAs.cond hg hs (readsAs c hg.1 hs.1 hu) (readsAs a hg.2.2.1 hs.2.2.1 hv)
      (readsAs b hg.2.2.2.2.1 hs.2.2.2.2 hw) ht
  | .assign op l r, t, hg, hs, hd => by
    obtain ⟨u, hu, v, hv, ht⟩ := denote_assign hd
    exact ReadsAs.assign hg hs (readsAs l hg.2.1 hs.1 hu) (readsAs r hg.2.2.2.1 hs.2.2 hv) ht
  | .comma l r, t, hg, hs, hd => by
    simp only [Expr.denote, Option.bind_eq_bind, Option.bind_eq_some_iff, Option.some.injEq] at hd
    obtain ⟨u, hu, v, hv, rfl⟩ := hd
    exact ReadsAs.comma hg hs (readsAs l hg.1 hs.1 hu) (readsAs r hg.2.2.1 hs.2.2 hv)
  | .lastArg e, t, _, _, hd => by simp [Expr.denote] at hd
  | .arg e more, t, _, _, hd => by simp [Expr.denote] at hd

theorem readsArgs : (e : Expr) → {declared : List CType} → {a : Args} → e.Grammatical N → e.Suits →
    e.denoteArgs T declared = some a → ∀ rest, ReadsArgs T declared (e.toks ++ .op .RPAREN :: rest) (a, rest)
  | .lastArg e, declared, a, hg, hs, hd, rest => by
    simp only [Expr.denoteArgs, Option.bind_eq_bind, Option.bind_eq_some_iff] at hd
    obtain ⟨u, hu, ha⟩ := hd
    exact reads_lastArg ((readsAs e hg.1 hs hu).noComma hg.2 (by simp [Stops, Op.rank])) ha
  | .arg e more, declared, a, hg, hs, hd, rest => by
    simp only [Expr.denoteArgs, Option.bind_eq_bind, Option.bind_eq_some_iff, Option.some.injEq] at hd
    obtain ⟨u, hu, b, hb, m, hm, rfl⟩ := hd
    have h := reads_arg ((readsAs e hg.1 hs.1 hu).noComma hg.2.1 (by simp [Stops, Op.rank])) hb
      (readsArgs more hg.2.2.1 hs.2 hm rest)
    simpa [Expr.toks] using h

end

/-- What the rest begins with does not continue the expression. -/
theorem hier0_groups (N : TypeNames T) {e : Expr} {t : Node} {rest : List Tok} (hg : e.Grammatical N)
    (hl : e.level ≤ 17) (hs : e.Suits) (hd : e.denote T = some t) (hr : Stops 17 rest) :
    (∃ least, ∀ depth ≥ least, (run T depth).call (.hier0 true) (e.toks ++ rest) = some (t, rest)) ∧
      (t.lval = e.isLvalue T ↔ e.MarkedRight T) := by
  have h : Reads T (.hier0 true) (e.toks ++ rest) (t, rest) :=
    (readsAs e hg hs hd).whole (r := 17) (Expr.rank_le hl (by decide)) le_rfl ⟨hr, fun _ => hr.mono (by decide)⟩
  exact ⟨Filter.eventually_atTop.mp h, Expr.lval_iff_right hg hd⟩

/-! ## Two expressions -/

/-- `int` is the only type word; there are a variable and a pointer to one. -/
def intTypes : Types where
  symbol n := if n = 0 then some (.object .AUTO CINT 0) else if n = 1 then some (.object .AUTO (CINT + 1) 2) else none
  typeName
    | .typeWord _ :: ts => some (CINT, ts)
    | _ => none
  canonical := id
  deref t := if PTR t = 0 then none else some (t - 1)
  addrof t := if PTR t = 0 then none else some (t - 1)
  ptr t := if PTR t = 7 then none else some (t + 1)
  sizeof t := if PTR t ≠ 0 ∨ t = CINT ∨ t = UINT then some 2 else none
  ptrscale t := if PTR t = 0 then none else some 2
  numDimensions _ := 0
  findMember _ _ := none
  funcReturn := id
  funcArgs _ := []
  argsize _ := 2
  ptrArith _ := CINT
  voltrack := true

def intNames : TypeNames intTypes where
  IsName words t := words = [.typeWord 0] ∧ t = CINT
  starts := by
    rintro words t rest ⟨rfl, rfl⟩
    rfl
  reads := by
    rintro words t rest ⟨rfl, rfl⟩
    rfl

/-- `*p = (a + 1) * sizeof(int)` -/
def assignment : Expr :=
  .assign .EQ (.unary .STAR (.name 1))
    (.binary .hier9 .STAR (.paren (.binary .hier8 .PLUS (.name 0) (.value CINT 1))) (.sizeofType [.typeWord 0] CINT))

theorem hier0_groups_assignment : ∃ t, t.op = some .EQ ∧
    (∃ least, ∀ depth ≥ least, (run intTypes depth).call (.hier0 true) (assignment.toks ++ [.op .SEMICOLON]) =
      some (t, [.op .SEMICOLON])) ∧ (t.lval = assignment.isLvalue intTypes ↔ assignment.MarkedRight intTypes) := by
  have hd : (assignment.denote intTypes).any (·.op = some .EQ) = true := by decide
  obtain ⟨t, ht, ho⟩ := (Option.any_eq_true _ _).mp hd
  refine ⟨t, of_decide_eq_true ho, hier0_groups intNames ?_ (by decide) ?_ ht ?_⟩
  · simp [assignment, Expr.Grammatical, Expr.level, Level.rank, Level.ops, unaryOps, intNames]
  · simp [assignment, Expr.Suits, Expr.openSizeof, startsSizedType]
  · simp [Stops, Op.rank]

/-- `sizeof a + 1` is read as the size of `a + 1`. -/
def openSize : Expr := .binary .hier8 .PLUS (.sizeofExpr (.name 0)) (.value CINT 1)

theorem sizeof_reads_on : ¬∀ (T : Types) (N : TypeNames T) (e : Expr) (t : Node) (rest : List Tok),
    e.Grammatical N → e.level ≤ 17 → e.denote T = some t → Stops 17 rest →
      (∃ least, ∀ depth ≥ least, (run T depth).call (.hier0 true) (e.toks ++ rest) = some (t, rest)) ∧
        t.lval = e.isLvalue T := by
  intro claim
  have hd : (openSize.denote intTypes).any (·.op = some .PLUS) = true := by decide
  obtain ⟨t, ht, ho⟩ := (Option.any_eq_true _ _).mp hd
  have hg : openSize.Grammatical intNames := by
    simp [openSize, Expr.Grammatical, Expr.level, Level.rank, Level.ops]
  have hright := (claim intTypes intNames openSize t [] hg (by decide) ht trivial).1
  -- the operand of `sizeof` is the whole sum
  let sum : Expr := .binary .hier8 .PLUS (.name 0) (.value CINT 1)
  have hsum : (sum.denote intTypes).any (·.type = CINT) = true := by decide
  obtain ⟨u, hu, htype⟩ := (Option.any_eq_true _ _).mp hsum
  have hsg : sum.Grammatical intNames := by
    simp [sum, Expr.Grammatical, Expr.level, Level.rank, Level.ops]
  have hread : Reads intTypes .hier10 (openSize.toks ++ []) (makeConstant 2 UINT, []) := by
    refine reads_sizeofExpr (t := u) (by rintro ts ⟨⟩) rfl ?_ ?_
    · have hread : Reads intTypes (.hier0 false) (sum.toks ++ []) (u, []) :=
        (readsAs sum hsg (by simp [sum, Expr.Suits, Expr.openSizeof]) hu).noComma (by decide) trivial
      rw [List.append_nil] at hread
      exact hread
    · rw [of_decide_eq_true htype]
      rfl
  have hwhole : Reads intTypes (.hier0 true) (openSize.toks ++ []) (makeConstant 2 UINT, []) :=
    Reads.lift_le (r := 3) (s := 17) hread (by decide) (by decide) le_rfl trivial
      fun h => absurd h (by decide)
  obtain ⟨depth, h, h'⟩ := ((Filter.eventually_atTop.mpr hright).and hwhole).exists
  have heq : t = makeConstant 2 UINT := by
    rw [h] at h'
    exact (Prod.mk.injEq _ _ _ _ ▸ Option.some.inj h').1
  rw [heq] at ho
  exact absurd ho (by decide)

end Fuzemsys.Fcc.Expression
