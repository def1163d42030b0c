import Fuzemsys.Fcc.ExpressionReads
import Mathlib.Tactic.IntervalCases

/-!
# Expressions are read with their grouping

What is read for each form of expression, given what is read for its parts.
-/

namespace Fuzemsys.Fcc.Expression

open Tree (CType CINT UINT PTR)

variable {T : Types} {N : TypeNames T}

/-! ## First tokens -/

/-- It may start an expression. -/
def Tok.starts : Tok → Bool
  | .op o => o = .LPAREN || o ∈ prefixOps
  | .name _ | .value _ _ => true
  | _ => false

namespace Expr

section
-- The proofs on forms of expressions all unfold these.
attribute [local simp] toks rank level Level.rank Suits Grammatical startsParen Tok.starts
end

theorem toks_starts {e : Expr} (hg : e.Grammatical N) : ∃ t ts, e.toks = t :: ts ∧ t.starts = true := by
  induction e with
  | name n => exact ⟨_, _, rfl, rfl⟩
  | value t v => exact ⟨_, _, rfl, rfl⟩
  | paren e => exact ⟨_, _, rfl, rfl⟩
  | sizeofExpr e => exact ⟨_, _, rfl, rfl⟩
  | sizeofType words t => exact ⟨_, _, rfl, rfl⟩
  | cast words t e => exact ⟨_, _, rfl, rfl⟩
  | stepBefore op e =>
    have ho : op ∈ prefixOps := (by decide : ∀ op ∈ stepOps, op ∈ prefixOps) op hg.1
    exact ⟨_, _, rfl, by simp [Tok.starts, ho]⟩
  | unary op e =>
    have ho : op ∈ prefixOps := (by decide : ∀ op ∈ unaryOps, op ∈ prefixOps) op hg.1
    exact ⟨_, _, rfl, by simp [Tok.starts, ho]⟩
  | index e i ih => exact starts_append (starts_append (ih hg.1))
  | callNone e ih => exact starts_append (ih hg.1)
  | call e args ih => exact starts_append (starts_append (ih hg.1))
  | member e n ih => exact starts_append (ih hg.1)
  | arrow e n ih => exact starts_append (ih hg.1)
  | stepAfter op e ih => exact starts_append (ih hg.2.1)
  | binary k op l r ih => exact starts_append (ih hg.2.1)
  | cond c a b ih => exact starts_append (starts_append (ih hg.1))
  | assign op l r ih => exact starts_append (ih hg.2.1)
  | comma l r ih => exact starts_append (ih hg.1)
  | lastArg e ih => exact ih hg.1
  | arg e more ih => exact starts_append (ih hg.1)
where
  starts_append {ts rest : List Tok} (h : ∃ t us, ts = t :: us ∧ t.starts = true) :
      ∃ t us, ts ++ rest = t :: us ∧ t.starts = true := by
    obtain ⟨t, us, rfl, ht⟩ := h
    exact ⟨t, us ++ rest, rfl, ht⟩

theorem startsType_toks {e : Expr} (hg : e.Grammatical N) (rest : List Tok) : startsType (e.toks ++ rest) = false := by
  obtain ⟨t, ts, h, ht⟩ := toks_starts hg
  rw [h]
  cases t with
  | op | name | value => rfl
  | typeWord | modifier => simp [Tok.starts] at ht

theorem toks_ne_rparen {e : Expr} (hg : e.Grammatical N) (rest ts : List Tok) :
    e.toks ++ rest ≠ .op .RPAREN :: ts := by
  obtain ⟨t, us, h, ht⟩ := toks_starts hg
  rw [h]
  rintro ⟨⟩
  simp [Tok.starts, prefixOps] at ht

theorem startsPostfix_toks {e : Expr} (hg : e.Grammatical N) (hs : e.Suits) (hr : e.rank ≤ 2) (rest : List Tok) :
    StartsPostfix (e.toks ++ rest) := by
  induction e generalizing rest with
  | name n => rintro o ts ⟨⟩
  | value t v => rintro o ts ⟨⟩
  | paren e =>
    rintro o ts h
    obtain ⟨rfl, rfl⟩ : Op.LPAREN = o ∧ e.toks ++ ([.op .RPAREN] ++ rest) = ts := by simpa [toks] using h
    exact ⟨rfl, startsType_toks hg.1 _⟩
  | index e i ih => simpa [toks] using ih hg.1 hs.1 hs.2.1 _
  | callNone e ih => simpa [toks] using ih hg.1 hs.1 hs.2 _
  | call e args ih => simpa [toks] using ih hg.1 hs.1 hs.2.1 _
  | member e n ih => simpa [toks] using ih hg.1 hs.1 hs.2 _
  | arrow e n ih => simpa [toks] using ih hg.1 hs.1 hs.2 _
  | binary k => cases k <;> simp [rank, level, Level.rank] at hr
  | _ => simp [rank, level] at hr

theorem toks_ne_lparen {e : Expr} (hg : e.Grammatical N) (hl : e.level ≤ 3) (hp : e.startsParen = false)
    (rest ts : List Tok) : e.toks ++ rest ≠ .op .LPAREN :: ts := by
  induction e generalizing rest with
  | name n => rintro ⟨⟩
  | value t v => rintro ⟨⟩
  | paren e => simp [startsParen] at hp
  | sizeofExpr e => rintro ⟨⟩
  | sizeofType words t => rintro ⟨⟩
  | stepBefore op e =>
    rintro ⟨⟩
    simp [Grammatical, stepOps] at hg
  | unary op e =>
    rintro ⟨⟩
    simp [Grammatical, unaryOps] at hg
  | index e i ih => simpa [toks] using ih hg.1 (Nat.le_succ_of_le hg.2.1) hp _
  | callNone e ih => simpa [toks] using ih hg.1 (Nat.le_succ_of_le hg.2) hp _
  | call e args ih => simpa [toks] using ih hg.1 (Nat.le_succ_of_le hg.2.1) hp _
  | member e n ih => simpa [toks] using ih hg.1 (Nat.le_succ_of_le hg.2) hp _
  | arrow e n ih => simpa [toks] using ih hg.1 (Nat.le_succ_of_le hg.2) hp _
  | stepAfter op e ih => simpa [toks] using ih hg.2.1 (Nat.le_succ_of_le hg.2.2) hp _
  | binary k => cases k <;> simp [level, Level.rank] at hl
  | _ => simp [level] at hl

theorem rank_le {e : Expr} {r : Nat} (h : e.level ≤ r) (hr : 3 ≤ r) : e.rank ≤ r := by
  cases e <;> first | exact hr | exact h

end Expr

/-! ## From one routine to the next -/

/-- The routine for an expression of this level. -/
def routineAt : Nat → Routine
  | 0 | 1 => .primary
  | 2 => .hier11
  | 3 | 4 => .hier10
  | 5 => .level .hier9
  | 6 => .level .hier8
  | 7 => .level .hier7
  | 8 => .level .hier6
  | 9 => .level .hier5
  | 10 => .level .hier4
  | 11 => .level .hier3
  | 12 => .level .hier2
  | 13 => .level .hier1c
  | 14 => .level .hier1b
  | 15 => .hier1a
  | 16 => .hier1
  | _ => .hier0 true

theorem routineAt_rank (k : Level) : routineAt k.rank = .level k := by
  cases k <;> rfl

theorem routineAt_operand (k : Level) : routineAt (k.rank - 1) = k.operand := by
  cases k <;> rfl

theorem Stops.mono {r s : Nat} {rest : List Tok} (h : Stops s rest) (hr : r ≤ s) : Stops r rest := by
  unfold Stops at h ⊢
  split <;> simp_all
  omega

theorem Reads.lift {ts rest : List Tok} {t : Node} {r : Nat} (h : Reads T (routineAt r) ts (t, rest))
    (hr : 1 ≤ r) (hr' : r < 17) (hs : Stops (r + 1) rest) (hp : r = 2 → StartsPostfix ts) :
    Reads T (routineAt (r + 1)) ts (t, rest) := by
  interval_cases r
  case «1» => exact reads_hier11 h (hier11Loop_stop hs)
  case «2» => exact hier10_of_hier11 (hp rfl) h hs
  case «3» => exact h
  case «14» => exact hier1a_of_level h hs
  case «15» => exact hier1_of_hier1a h hs
  case «16» => exact reads_hier0 h (hier0Loop_stop fun _ => hs)
  all_goals exact reads_level h (levelLoop_stop hs)

theorem Reads.lift_le {ts rest : List Tok} {t : Node} {r s : Nat} (h : Reads T (routineAt r) ts (t, rest))
    (hr : 1 ≤ r) (hrs : r ≤ s) (hs' : s ≤ 17) (hs : Stops s rest) (hp : r ≤ 2 → StartsPostfix ts) :
    Reads T (routineAt s) ts (t, rest) := by
  induction s, hrs using Nat.le_induction with
  | base => exact h
  | succ s hrs ih =>
    refine (ih (Nat.le_of_succ_le hs') (hs.mono (Nat.le_succ s))).lift (hr.trans hrs) hs' hs ?_
    rintro rfl
    exact hp hrs

/-! ## Whole expressions -/

/-- What may follow the expression in a routine of this level. -/
def Ends (e : Expr) (r : Nat) (rest : List Tok) : Prop :=
  Stops r rest ∧ (e.openSizeof = true → Stops 16 rest)

/-- What the routines do with the tokens of an expression. -/
structure ReadsAs (T : Types) (e : Expr) (t : Node) : Prop where
  after : e.rank ≤ 2 → ∀ {rest out}, Reads T (.hier11Loop t) rest out → Reads T .hier11 (e.toks ++ rest) out
  loop : ∀ k : Level, e.rank ≤ k.rank → ∀ {rest out}, Ends e (k.rank - 1) rest →
    Reads T (.levelLoop k t) rest out → Reads T (.level k) (e.toks ++ rest) out
  whole : ∀ {r}, e.rank ≤ r → r ≤ 17 → ∀ {rest}, Ends e r rest → Reads T (routineAt r) (e.toks ++ rest) (t, rest)

theorem Level.rank_bounds (k : Level) : 5 ≤ k.rank ∧ k.rank ≤ 14 := by
  cases k <;> decide

namespace ReadsAs

variable {e i args more l r c a b : Expr} {t : Node}

/-- It is enough to know what the routine of its own level reads, and what its loop does. -/
theorem of_base (hr : 1 ≤ e.rank) (hp : e.rank ≤ 2 → ∀ rest, StartsPostfix (e.toks ++ rest))
    (after : e.rank ≤ 2 → ∀ {rest out}, Reads T (.hier11Loop t) rest out → Reads T .hier11 (e.toks ++ rest) out)
    (same : ∀ k : Level, e.rank = k.rank → ∀ {rest out}, Ends e (k.rank - 1) rest →
      Reads T (.levelLoop k t) rest out → Reads T (.level k) (e.toks ++ rest) out)
    (base : ∀ {rest}, Ends e e.rank rest → Reads T (routineAt e.rank) (e.toks ++ rest) (t, rest)) :
    ReadsAs T e t := by
  have whole : ∀ {r}, e.rank ≤ r → r ≤ 17 → ∀ {rest}, Ends e r rest →
      Reads T (routineAt r) (e.toks ++ rest) (t, rest) := fun hle hle' _ he =>
    (base ⟨he.1.mono hle, he.2⟩).lift_le hr hle hle' he.1 fun h => hp h _
  refine ⟨after, fun k hk rest out he hl => ?_, whole⟩
  obtain hk | hk := Nat.eq_or_lt_of_le hk
  · exact same k hk he hl
  · have h := whole (r := k.rank - 1) (Nat.le_sub_one_of_lt hk) (by have := k.rank_bounds; omega) he
    rw [routineAt_operand] at h
    exact reads_level h hl

theorem of_primary (hr : e.rank = 1) (hp : ∀ rest, StartsPostfix (e.toks ++ rest))
    (h : ∀ rest, Reads T .primary (e.toks ++ rest) (t, rest)) : ReadsAs T e t := by
  refine of_base (Nat.le_of_eq hr.symm) (fun _ => hp) (fun _ _ _ => reads_hier11 (h _)) (fun k hk => ?_) fun _ => ?_
  · have := k.rank_bounds
    omega
  · rw [hr]
    exact h _

theorem of_after (hr : e.rank = 2) (hp : ∀ rest, StartsPostfix (e.toks ++ rest))
    (h : ∀ {rest out}, Reads T (.hier11Loop t) rest out → Reads T .hier11 (e.toks ++ rest) out) :
    ReadsAs T e t := by
  refine of_base (by omega) (fun _ => hp) (fun _ _ _ => h) (fun k hk => ?_) fun he => ?_
  · have := k.rank_bounds
    omega
  · rw [hr] at he ⊢
    exact h (hier11Loop_stop he.1)

theorem of_hier10 (hr : e.rank = 3 ∨ e.rank = 4)
    (h : ∀ {rest}, Ends e 3 rest → Reads T .hier10 (e.toks ++ rest) (t, rest)) : ReadsAs T e t := by
  refine of_base (by omega) (by omega) (by omega) (fun k hk => ?_) fun he => ?_
  · have := k.rank_bounds
    omega
  · have h := h ⟨he.1.mono (by omega), he.2⟩
    obtain hr | hr := hr <;> rw [hr] <;> exact h

theorem of_high {r : Nat} (hr : e.rank = r) (hr' : 15 ≤ r)
    (h : ∀ {rest}, Ends e r rest → Reads T (routineAt r) (e.toks ++ rest) (t, rest)) : ReadsAs T e t := by
  subst hr
  refine of_base (by omega) (by omega) (by omega) (fun k hk => ?_) h
  have := k.rank_bounds
  omega

/-! ## Primary and postfix expressions -/

theorem name {n : Nat} {s : Symbol} (h : T.symbol n = some s) : ReadsAs T (.name n) (nameNode n s) :=
  of_primary rfl (fun _ => by rintro o ts ⟨⟩) fun _ => reads_name h

theorem value {ty : CType} {v : Nat} : ReadsAs T (.value ty v) (makeConstant v ty) :=
  of_primary rfl (fun _ => by rintro o ts ⟨⟩) fun _ => reads_value

/-- In front of a closing bracket. -/
theorem closed (h : ReadsAs T e t) (hl : e.level ≤ 17) {o : Op} (ho : o.rank = 18) (rest : List Tok) :
    Reads T (.hier0 true) (e.toks ++ .op o :: rest) (t, .op o :: rest) := by
  refine h.whole (r := 17) (Expr.rank_le hl (by decide)) le_rfl ⟨?_, fun _ => ?_⟩ <;> simp [Stops, ho]

theorem paren (hg : (Expr.paren e).Grammatical N) (hs : (Expr.paren e).Suits) (h : ReadsAs T e t) :
    ReadsAs T (.paren e) t := by
  refine of_primary rfl (Expr.startsPostfix_toks hg hs (Nat.le_succ 1)) fun rest => ?_
  have h := reads_paren (h.closed hg.2 rfl rest)
  simpa [Expr.toks] using h

theorem index {u n : Node} (hg : (Expr.index e i).Grammatical N) (hs : (Expr.index e i).Suits) (he : ReadsAs T e u)
    (hi : ReadsAs T i n) (ht : subscript T u n = some t) : ReadsAs T (.index e i) t := by
  refine of_after rfl (Expr.startsPostfix_toks hg hs le_rfl) fun hl => ?_
  have h := he.after hs.2.1 (reads_index (hi.closed hg.2.2.2 rfl _) ht hl)
  simpa [Expr.toks] using h

theorem callNone {u : Node} (hg : (Expr.callNone e).Grammatical N) (hs : (Expr.callNone e).Suits)
    (he : ReadsAs T e u) (hf : IS_FUNCTION (makeRval T u).type = true)
    (ht : callTree T (makeRval T u) ⟨.null, 0, declaredArgs T (makeRval T u)⟩ = some t) :
    ReadsAs T (.callNone e) t := by
  refine of_after rfl (Expr.startsPostfix_toks hg hs le_rfl) fun hl => ?_
  have h := he.after hs.2 (reads_callNone hf ht hl)
  simpa [Expr.toks] using h

theorem call {u : Node} {a : Args} (hg : (Expr.call e args).Grammatical N) (hs : (Expr.call e args).Suits)
    (he : ReadsAs T e u) (hf : IS_FUNCTION (makeRval T u).type = true)
    (ha : ∀ rest, ReadsArgs T (declaredArgs T (makeRval T u)) (args.toks ++ .op .RPAREN :: rest) (a, rest))
    (ht : callTree T (makeRval T u) a = some t) : ReadsAs T (.call e args) t := by
  refine of_after rfl (Expr.startsPostfix_toks hg hs le_rfl) fun hl => ?_
  have h := he.after hs.2.1 (reads_call hf (Expr.toks_ne_rparen hg.2.2.1 _) (ha _) ht hl)
  simpa [Expr.toks] using h

theorem member {u : Node} {n : Nat} (hg : (Expr.member e n).Grammatical N) (hs : (Expr.member e n).Suits)
    (he : ReadsAs T e u) (ht : takeMember T u u.type n = some t) : ReadsAs T (.member e n) t := by
  refine of_after rfl (Expr.startsPostfix_toks hg hs le_rfl) fun hl => ?_
  have h := he.after hs.2 (reads_member ht hl)
  simpa [Expr.toks] using h

theorem arrow {u : Node} {n : Nat} (hg : (Expr.arrow e n).Grammatical N) (hs : (Expr.arrow e n).Suits)
    (he : ReadsAs T e u) (ht : pointsTo T u n = some t) : ReadsAs T (.arrow e n) t := by
  refine of_after rfl (Expr.startsPostfix_toks hg hs le_rfl) fun hl => ?_
  have h := he.after hs.2 (reads_arrow ht hl)
  simpa [Expr.toks] using h

/-! ## Unary expressions -/

theorem stepAfter {u : Node} {op : Op} (hg : (Expr.stepAfter op e).Grammatical N) (hs : (Expr.stepAfter op e).Suits)
    (he : ReadsAs T e u) (ht : postfixTree T op u = some t) : ReadsAs T (.stepAfter op e) t := by
  refine of_hier10 (.inl rfl) fun {rest} _ => ?_
  have ho : Stops 2 (.op op :: rest) := (by decide : ∀ op ∈ stepOps, 2 < op.rank) op hg.1
  have h := reads_stepAfter hg.1 (Expr.startsPostfix_toks hg.2.1 hs.1 hs.2 _) (he.after hs.2 (hier11Loop_stop ho)) ht
  simpa [Expr.toks] using h

theorem stops_four {rest : List Tok} (h : Stops 3 rest) : Stops 4 rest := by
  unfold Stops at h ⊢
  split
  · next o ts =>
    have ho : o.rank ≠ 4 := by cases o <;> decide
    exact Nat.lt_of_le_of_ne h ho.symm
  · trivial

/-- Behind an operator or a cast. -/
theorem operand (he : ReadsAs T e t) (hl : e.level ≤ 4) {rest : List Tok} (hr : Stops 3 rest)
    (ho : e.openSizeof = true → Stops 16 rest) : Reads T .hier10 (e.toks ++ rest) (t, rest) :=
  he.whole (r := 4) (Expr.rank_le hl (by decide)) (by decide) ⟨stops_four hr, ho⟩

theorem stepBefore {u : Node} {op : Op} (hg : (Expr.stepBefore op e).Grammatical N) (he : ReadsAs T e u)
    (ht : prefixTree T op u = some t) : ReadsAs T (.stepBefore op e) t :=
  of_hier10 (.inl rfl) fun hr =>
    reads_stepBefore hg.1 (he.operand (hg.2.2.trans (Nat.le_succ 3)) hr.1 hr.2) ht

theorem unary {u : Node} {op : Op} (hg : (Expr.unary op e).Grammatical N) (he : ReadsAs T e u)
    (ht : unaryTree T op u = some t) : ReadsAs T (.unary op e) t :=
  of_hier10 (.inl rfl) fun hr => reads_unary hg.1 (he.operand hg.2.2 hr.1 hr.2) ht

theorem cast {u : Node} {words : List Tok} {ty : CType} (hg : (Expr.cast words ty e).Grammatical N)
    (he : ReadsAs T e u) (ht : castTree T ty u = some t) : ReadsAs T (.cast words ty e) t := by
  refine of_hier10 (.inr rfl) fun hr => ?_
  have h := reads_cast hg.1 (he.operand hg.2.2 hr.1 hr.2) ht
  simpa [Expr.toks] using h

theorem sizeofType {words : List Tok} {ty : CType} {size : Nat} (hg : (Expr.sizeofType words ty).Grammatical N)
    (hs : (Expr.sizeofType words ty).Suits) (ht : T.sizeof ty = some size) :
    ReadsAs T (.sizeofType words ty) (makeConstant size UINT) := by
  refine of_hier10 (.inl rfl) fun {rest} _ => ?_
  have hw : startsSizedType (words ++ .op .RPAREN :: rest) = true := by
    cases words with
    | nil => exact absurd hs (by simp [Expr.Suits, startsSizedType])
    | cons w ws => cases w <;> simp_all [Expr.Suits, startsSizedType]
  have h : Reads T .hier10 _ (_, rest) := reads_sizeofType hg hw ht
  simpa [Expr.toks] using h

/-- An expression without commas. -/
theorem noComma (h : ReadsAs T e t) (hl : e.level ≤ 16) {rest : List Tok} (hr : Stops 16 rest) :
    Reads T (.hier0 false) (e.toks ++ rest) (t, rest) :=
  reads_hier0 (h.whole (r := 16) (Expr.rank_le hl (by decide)) (by decide) ⟨hr, fun _ => hr⟩)
    (hier0Loop_stop fun hc => absurd hc (by decide))

/-- The size of a bracket. -/
theorem sizeofParen {size : Nat} (hg : e.Grammatical N) (hl : e.level ≤ 16) (he : ReadsAs T e t)
    (ht : T.sizeof t.type = some size) : ReadsAs T (.sizeofExpr (.paren e)) (makeConstant size UINT) := by
  refine of_hier10 (.inl rfl) fun {rest} _ => ?_
  have hr : Stops 16 (.op .RPAREN :: rest) := by simp [Stops, Op.rank]
  have h := reads_sizeofParen (Expr.startsType_toks hg _) (he.noComma hl hr) ht
  simpa [Expr.toks] using h

/-- What is sized goes on to the end of the expression. -/
theorem sizeofExpr {size : Nat} (hg : (Expr.sizeofExpr e).Grammatical N) (hp : e.startsParen = false)
    (he : ReadsAs T e t) (ht : T.sizeof t.type = some size) : ReadsAs T (.sizeofExpr e) (makeConstant size UINT) := by
  refine of_hier10 (.inl rfl) fun hr => ?_
  refine reads_sizeofExpr (Expr.toks_ne_lparen hg.1 hg.2 hp _) (Expr.startsType_toks hg.1 _) ?_ ht
  exact he.noComma (hg.2.trans (by decide)) (hr.2 (by simp [Expr.openSizeof, hp]))

/-! ## Operators -/

theorem binary {k : Level} {op : Op} {u v : Node} (hg : (Expr.binary k op l r).Grammatical N)
    (hs : (Expr.binary k op l r).Suits) (hl : ReadsAs T l u) (hr : ReadsAs T r v)
    (ht : k.combine T op u v = some t) : ReadsAs T (.binary k op l r) t := by
  have hk := k.rank_bounds
  have loop : ∀ {rest out}, Ends (.binary k op l r) (k.rank - 1) rest → Reads T (.levelLoop k t) rest out →
      Reads T (.level k) ((Expr.binary k op l r).toks ++ rest) out := by
    intro rest out he hloop
    have hop : Stops (k.rank - 1) (.op op :: (r.toks ++ rest)) := by
      have := k.rank_of_mem op hg.1
      simp only [Stops]
      omega
    have hright : Reads T k.operand (r.toks ++ rest) (v, rest) := by
      rw [← routineAt_operand]
      exact hr.whole (Expr.rank_le (Nat.le_sub_one_of_lt hg.2.2.2.2) (by omega)) (by omega) he
    have h := hl.loop k (Expr.rank_le hg.2.2.1 (by omega)) ⟨hop, fun ho => absurd ho (by simp [hs.2.1])⟩
      (reads_binary hg.1 hright ht hloop)
    simpa [Expr.toks] using h
  refine of_base (by simp [Expr.rank, Expr.level]; omega) (by simp [Expr.rank, Expr.level]; omega)
    (by simp [Expr.rank, Expr.level]; omega) (fun k' hk' => ?_) fun he => ?_
  · have : k = k' := by
      simp only [Expr.rank, Expr.level] at hk'
      revert hk'
      cases k <;> cases k' <;> decide
    subst this
    exact @loop
  · change Reads T (routineAt k.rank) _ _
    rw [routineAt_rank]
    exact loop ⟨he.1.mono (Nat.sub_le _ _), he.2⟩ (levelLoop_stop he.1)

theorem cond {u v w : Node} (hg : (Expr.cond c a b).Grammatical N) (hs : (Expr.cond c a b).Suits)
    (hc : ReadsAs T c u) (ha : ReadsAs T a v) (hb : ReadsAs T b w) (ht : questionTree T u v w = some t) :
    ReadsAs T (.cond c a b) t := by
  refine of_high (r := 15) rfl le_rfl fun {rest} he => ?_
  have hc : Reads T (.level .hier1b) (c.toks ++ .op .QUESTION :: (a.toks ++ .op .COLON :: (b.toks ++ rest))) _ :=
    hc.whole (r := 14) (Expr.rank_le hg.2.1 (by decide)) (by decide)
      ⟨by simp [Stops, Op.rank], fun ho => absurd ho (by simp [hs.2.1])⟩
  have ha : Reads T .hier1a (a.toks ++ .op .COLON :: (b.toks ++ rest)) _ :=
    ha.whole (r := 15) (Expr.rank_le hs.2.2.2.1 (by decide)) (by decide)
      ⟨by simp [Stops, Op.rank], fun _ => by simp [Stops, Op.rank]⟩
  have hb : Reads T .hier1a (b.toks ++ rest) _ :=
    hb.whole (r := 15) (Expr.rank_le hg.2.2.2.2.2 (by decide)) (by decide) he
  have h := reads_cond hc ha hb ht
  simpa [Expr.toks, routineAt] using h

theorem assign {op : Op} {u v : Node} (hg : (Expr.assign op l r).Grammatical N) (hs : (Expr.assign op l r).Suits)
    (hl : ReadsAs T l u) (hr : ReadsAs T r v)
    (ht : (if op = .EQ then eqTree T u v else opEqTree T op u v) = some t) : ReadsAs T (.assign op l r) t := by
  refine of_high (r := 16) rfl (Nat.le_succ 15) fun {rest} he => ?_
  have ho : op.rank = 16 := by
    obtain rfl | ho := hg.1
    · rfl
    · exact rank_of_assignOps op ho
  have hl : Reads T .hier1a (l.toks ++ .op op :: (r.toks ++ rest)) _ :=
    hl.whole (r := 15) (Expr.rank_le (hg.2.2.1.trans (by decide)) (by decide)) (by decide)
      ⟨by simp [Stops, ho], fun h => absurd h (by simp [hs.2.1])⟩
  have hr : Reads T .hier1 (r.toks ++ rest) _ :=
    hr.whole (r := 16) (Expr.rank_le hg.2.2.2.2 (by decide)) (by decide) he
  have h := reads_assign hl hr hg.1 ht
  simpa [Expr.toks, routineAt] using h

theorem comma {u v : Node} (hg : (Expr.comma l r).Grammatical N) (hs : (Expr.comma l r).Suits)
    (hl : ReadsAs T l u) (hr : ReadsAs T r v) : ReadsAs T (.comma l r) (commaTree T u v) := by
  refine of_high (r := 17) rfl (by decide) fun {rest} he => ?_
  have hl : Reads T .hier1 (l.toks ++ .op .COMMA :: (r.toks ++ rest)) _ :=
    hl.whole (r := 16) (Expr.rank_le hs.2.1 (by decide)) (by decide)
      ⟨by simp [Stops, Op.rank], fun _ => by simp [Stops, Op.rank]⟩
  have hr : Reads T (.hier0 true) (r.toks ++ rest) _ :=
    hr.whole (r := 17) (Expr.rank_le (hg.2.2.2.trans (by decide)) (by decide)) le_rfl he
  have h := reads_hier0 hl (reads_comma hr (hier0Loop_stop fun _ => he.1))
  simpa [Expr.toks, routineAt] using h

end ReadsAs

end Fuzemsys.Fcc.Expression
