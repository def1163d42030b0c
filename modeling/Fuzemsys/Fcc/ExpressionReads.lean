import Fuzemsys.Fcc.ExpressionGrammar
import Mathlib.Order.Filter.AtTopBot.Basic

/-!
# What one routine reads

A rule for each way through a routine. A result counts if it comes back from some number of nested
calls on.
-/

namespace Fuzemsys.Fcc.Expression

open Tree (CType CINT UINT PTR)
open Filter

variable (T : Types)

def Reads (r : Routine) (ts : List Tok) (out : Node × List Tok) : Prop :=
  ∀ᶠ depth in atTop, (run T depth).call r ts = some out

def ReadsArgs (declared : List CType) (ts : List Tok) (out : Args × List Tok) : Prop :=
  ∀ᶠ depth in atTop, (run T depth).args declared ts = some out

attribute [local simp] body primary hier11 hier11Loop functionCall callArgs hier10 getSizeof prefixOps level
  levelLoop hier1a hier1 hier0 hier0Loop require

variable {T} {ts rest mid : List Tok} {out : Node × List Tok} {l r t : Node}

theorem eventually_of_body {p : Calls → Prop} (h : ∀ᶠ depth in atTop, p (body T (run T depth))) :
    ∀ᶠ depth in atTop, p (run T depth) := by
  rw [eventually_atTop] at h ⊢
  obtain ⟨least, h⟩ := h
  refine ⟨least + 1, fun depth hd => ?_⟩
  obtain ⟨d, rfl⟩ := Nat.exists_eq_add_of_le' (Nat.lt_of_lt_of_le (Nat.succ_pos least) hd)
  exact h d (Nat.le_of_succ_le_succ hd)

theorem Reads.of_body {k : Routine} (h : ∀ᶠ depth in atTop, (body T (run T depth)).call k ts = some out) :
    Reads T k ts out :=
  eventually_of_body (p := fun C => C.call k ts = some out) h

theorem ReadsArgs.of_body {declared : List CType} {out : Args × List Tok}
    (h : ∀ᶠ depth in atTop, (body T (run T depth)).args declared ts = some out) :
    ReadsArgs T declared ts out :=
  eventually_of_body (p := fun C => C.args declared ts = some out) h

theorem startsSizedType_of (h : startsType ts = false) : startsSizedType ts = false := by
  unfold startsType at h
  unfold startsSizedType
  split <;> simp_all

/-! ## Primary expressions -/

theorem reads_name {n : Nat} {s : Symbol} (h : T.symbol n = some s) :
    Reads T .primary (.name n :: rest) (nameNode n s, rest) := by
  apply Reads.of_body
  simp [body, primary, h]

theorem reads_value {t : CType} {v : Nat} :
    Reads T .primary (.value t v :: rest) (makeConstant v t, rest) := by
  apply Reads.of_body
  simp [body, primary]

theorem reads_paren (h : Reads T (.hier0 true) ts (t, .op .RPAREN :: rest)) :
    Reads T .primary (.op .LPAREN :: ts) (t, rest) := by
  apply Reads.of_body
  filter_upwards [h] with depth h
  simp [body, primary, h, require]

/-! ## Postfix expressions -/

theorem reads_hier11 (h : Reads T .primary ts (t, mid)) (hl : Reads T (.hier11Loop t) mid out) :
    Reads T .hier11 ts out := by
  apply Reads.of_body
  filter_upwards [h, hl] with depth h hl
  simp [body, hier11, h, hl]

theorem reads_index (h : Reads T (.hier0 true) ts (r, .op .RSQUARE :: rest)) (ht : subscript T l r = some t)
    (hl : Reads T (.hier11Loop t) rest out) : Reads T (.hier11Loop l) (.op .LSQUARE :: ts) out := by
  apply Reads.of_body
  filter_upwards [h, hl] with depth h hl
  simp [body, hier11Loop, h, require, ht, hl]

theorem reads_callNone (hf : IS_FUNCTION (makeRval T l).type = true)
    (ht : callTree T (makeRval T l) ⟨.null, 0, declaredArgs T (makeRval T l)⟩ = some t)
    (hl : Reads T (.hier11Loop t) rest out) :
    Reads T (.hier11Loop l) (.op .LPAREN :: .op .RPAREN :: rest) out := by
  apply Reads.of_body
  filter_upwards [hl] with depth hl
  simp [body, hier11Loop, functionCall, hf, ht, hl]

theorem reads_call {args : Args} (hf : IS_FUNCTION (makeRval T l).type = true)
    (hts : ∀ ts', ts ≠ .op .RPAREN :: ts')
    (ha : ReadsArgs T (declaredArgs T (makeRval T l)) ts (args, rest))
    (ht : callTree T (makeRval T l) args = some t) (hl : Reads T (.hier11Loop t) rest out) :
    Reads T (.hier11Loop l) (.op .LPAREN :: ts) out := by
  apply Reads.of_body
  filter_upwards [ha, hl] with depth ha hl
  simp [body, hier11Loop, functionCall, hf, ha, ht, hl]

theorem reads_member {n : Nat} (ht : takeMember T l l.type n = some t) (hl : Reads T (.hier11Loop t) rest out) :
    Reads T (.hier11Loop l) (.op .DOT :: .name n :: rest) out := by
  apply Reads.of_body
  filter_upwards [hl] with depth hl
  simp [body, hier11Loop, ht, hl]

theorem reads_arrow {n : Nat} (ht : pointsTo T l n = some t) (hl : Reads T (.hier11Loop t) rest out) :
    Reads T (.hier11Loop l) (.op .POINTSTO :: .name n :: rest) out := by
  apply Reads.of_body
  filter_upwards [hl] with depth hl
  simp [body, hier11Loop, ht, hl]

theorem hier11Loop_stop (hs : Stops 2 rest) : Reads T (.hier11Loop l) rest (l, rest) := by
  apply Reads.of_body
  refine Eventually.of_forall fun depth => ?_
  unfold body hier11Loop
  simp only
  split <;> simp_all [Stops, Op.rank]

/-! ## Arguments -/

theorem reads_lastArg {declared : List CType} {a : Args} (h : Reads T (.hier0 false) ts (t, .op .RPAREN :: rest))
    (ha : argument T t declared = some a) : ReadsArgs T declared ts (a, rest) := by
  apply ReadsArgs.of_body
  filter_upwards [h] with depth h
  simp [body, callArgs, h, ha, require]

theorem reads_arg {declared : List CType} {a more : Args}
    (h : Reads T (.hier0 false) ts (t, .op .COMMA :: mid)) (ha : argument T t declared = some a)
    (hm : ReadsArgs T a.left mid (more, rest)) : ReadsArgs T declared ts (argComma a more, rest) := by
  apply ReadsArgs.of_body
  filter_upwards [h, hm] with depth h hm
  simp [body, callArgs, h, ha, hm]

/-! ## Unary operators -/

theorem reads_cast {N : TypeNames T} {words : List Tok} {ty : CType} (hn : N.IsName words ty)
    (h : Reads T .hier10 ts (r, rest)) (ht : castTree T ty r = some t) :
    Reads T .hier10 (.op .LPAREN :: (words ++ .op .RPAREN :: ts)) (t, rest) := by
  apply Reads.of_body
  filter_upwards [h] with depth h
  simp [body, hier10, N.starts _ hn, N.reads _ hn, require, h, ht]

theorem reads_sizeofType {N : TypeNames T} {words : List Tok} {ty : CType} {size : Nat} (hn : N.IsName words ty)
    (hw : startsSizedType (words ++ .op .RPAREN :: rest) = true) (hs : T.sizeof ty = some size) :
    Reads T .hier10 (.op .SIZEOF :: .op .LPAREN :: (words ++ .op .RPAREN :: rest)) (makeConstant size UINT, rest) := by
  apply Reads.of_body
  simp [body, hier10, getSizeof, hw, N.reads _ hn, require, hs]

theorem reads_sizeofParen {size : Nat} (hw : startsType ts = false)
    (h : Reads T (.hier0 false) ts (t, .op .RPAREN :: rest)) (hs : T.sizeof t.type = some size) :
    Reads T .hier10 (.op .SIZEOF :: .op .LPAREN :: ts) (makeConstant size UINT, rest) := by
  apply Reads.of_body
  filter_upwards [h] with depth h
  simp [body, hier10, getSizeof, startsSizedType_of hw, require, h, hs]

theorem reads_sizeofExpr {size : Nat} (hp : ∀ ts', ts ≠ .op .LPAREN :: ts') (hw : startsType ts = false)
    (h : Reads T (.hier0 false) ts (t, rest)) (hs : T.sizeof t.type = some size) :
    Reads T .hier10 (.op .SIZEOF :: ts) (makeConstant size UINT, rest) := by
  apply Reads.of_body
  filter_upwards [h] with depth h
  simp [body, hier10, getSizeof, startsSizedType_of hw, h, hs]

theorem reads_stepBefore {op : Op} (ho : op ∈ stepOps) (h : Reads T .hier10 ts (r, rest))
    (ht : prefixTree T op r = some t) : Reads T .hier10 (.op op :: ts) (t, rest) := by
  apply Reads.of_body
  filter_upwards [h] with depth h
  simp only [stepOps, List.mem_cons, List.not_mem_nil, or_false] at ho
  obtain rfl | rfl := ho <;> simp [body, hier10, prefixOps, h, ht]

theorem reads_unary {op : Op} (ho : op ∈ unaryOps) (h : Reads T .hier10 ts (r, rest))
    (ht : unaryTree T op r = some t) : Reads T .hier10 (.op op :: ts) (t, rest) := by
  apply Reads.of_body
  filter_upwards [h] with depth h
  simp only [unaryOps, List.mem_cons, List.not_mem_nil, or_false] at ho
  obtain rfl | rfl | rfl | rfl | rfl := ho <;> simp [body, hier10, prefixOps, h, ht]

/-- Neither a cast nor an operator before an operand. -/
def StartsPostfix (ts : List Tok) : Prop :=
  ∀ o ts', ts = .op o :: ts' → o = .LPAREN ∧ startsType ts' = false

theorem hier10_trailing {C : Calls} (hp : StartsPostfix ts) : hier10 T C ts = hier10.trailing T C ts := by
  unfold hier10
  split
  · next ts' =>
    obtain ⟨-, h⟩ := hp _ _ rfl
    simp [h]
  · exact absurd (hp _ _ rfl).1 (by simp)
  · obtain ⟨rfl, -⟩ := hp _ _ rfl
    simp [prefixOps]
  · rfl

theorem reads_stepAfter {op : Op} (ho : op ∈ stepOps) (hp : StartsPostfix ts)
    (h : Reads T .hier11 ts (l, .op op :: rest)) (ht : postfixTree T op l = some t) :
    Reads T .hier10 ts (t, rest) := by
  apply Reads.of_body
  filter_upwards [h] with depth h
  simp only [stepOps, List.mem_cons, List.not_mem_nil, or_false] at ho
  simp only [body, hier10_trailing hp]
  obtain rfl | rfl := ho <;> simp [hier10.trailing, h, ht]

theorem hier10_of_hier11 (hp : StartsPostfix ts) (h : Reads T .hier11 ts (t, rest)) (hs : Stops 3 rest) :
    Reads T .hier10 ts (t, rest) := by
  apply Reads.of_body
  filter_upwards [h] with depth h
  simp only [body, hier10_trailing hp, hier10.trailing, h, Option.bind_eq_bind, Option.bind_some]
  split <;> simp_all [Stops, Op.rank]

/-! ## Binary operators -/

theorem Level.rank_of_mem (k : Level) : ∀ op ∈ k.ops, op.rank = k.rank := by
  cases k <;> decide

theorem reads_level {k : Level} (h : Reads T k.operand ts (t, mid)) (hl : Reads T (.levelLoop k t) mid out) :
    Reads T (.level k) ts out := by
  apply Reads.of_body
  filter_upwards [h, hl] with depth h hl
  simp [body, level, h, hl]

theorem reads_binary {k : Level} {op : Op} (ho : op ∈ k.ops) (h : Reads T k.operand ts (r, rest))
    (ht : k.combine T op l r = some t) (hl : Reads T (.levelLoop k t) rest out) :
    Reads T (.levelLoop k l) (.op op :: ts) out := by
  apply Reads.of_body
  filter_upwards [h, hl] with depth h hl
  simp [body, levelLoop, ho, h, ht, hl]

theorem levelLoop_stop {k : Level} (hs : Stops k.rank rest) : Reads T (.levelLoop k l) rest (l, rest) := by
  apply Reads.of_body
  refine Eventually.of_forall fun depth => ?_
  simp only [body]
  unfold levelLoop
  split
  · next o ts =>
    have ho : o ∉ k.ops := fun ho => absurd (k.rank_of_mem o ho) (Nat.ne_of_gt hs)
    simp [ho]
  · rfl

/-! ## The other operators -/

theorem reads_cond {c a b : Node} (hc : Reads T (.level .hier1b) ts (c, .op .QUESTION :: mid)) {mid' : List Tok}
    (ha : Reads T .hier1a mid (a, .op .COLON :: mid')) (hb : Reads T .hier1a mid' (b, rest))
    (ht : questionTree T c a b = some t) : Reads T .hier1a ts (t, rest) := by
  apply Reads.of_body
  filter_upwards [hc, ha, hb] with depth hc ha hb
  simp [body, hier1a, hc, ha, hb, require, ht]

theorem hier1a_of_level (h : Reads T (.level .hier1b) ts (t, rest)) (hs : Stops 15 rest) :
    Reads T .hier1a ts (t, rest) := by
  apply Reads.of_body
  filter_upwards [h] with depth h
  simp only [body, hier1a, h, Option.bind_eq_bind, Option.bind_some]
  split <;> simp_all [Stops, Op.rank]

theorem reads_assign {op : Op} (h : Reads T .hier1a ts (l, .op op :: mid)) (hr : Reads T .hier1 mid (r, rest))
    (ho : op = .EQ ∨ op ∈ assignOps)
    (ht : (if op = .EQ then eqTree T l r else opEqTree T op l r) = some t) : Reads T .hier1 ts (t, rest) := by
  apply Reads.of_body
  filter_upwards [h, hr] with depth h hr
  simp only [body, hier1, h, Option.bind_eq_bind, Option.bind_some]
  by_cases he : op = .EQ
  · simp only [he, if_true] at ht ⊢
    simp [hr, ht]
  · simp only [he, if_false, false_or] at ht ho ⊢
    simp [ho, hr, ht]

theorem rank_of_assignOps : ∀ op ∈ assignOps, op.rank = 16 := by decide

theorem hier1_of_hier1a (h : Reads T .hier1a ts (t, rest)) (hs : Stops 16 rest) : Reads T .hier1 ts (t, rest) := by
  apply Reads.of_body
  filter_upwards [h] with depth h
  simp only [body, hier1, h, Option.bind_eq_bind, Option.bind_some]
  split
  · next o _ _ =>
    have he : o ≠ .EQ := by
      rintro rfl
      exact absurd hs (by simp [Stops, Op.rank])
    have ho : o ∉ assignOps := fun ho => absurd (rank_of_assignOps o ho) (Nat.ne_of_gt hs)
    simp [he, ho]
  · rfl

theorem reads_hier0 {comma : Bool} (h : Reads T .hier1 ts (t, mid)) (hl : Reads T (.hier0Loop comma t) mid out) :
    Reads T (.hier0 comma) ts out := by
  apply Reads.of_body
  filter_upwards [h, hl] with depth h hl
  simp [body, hier0, h, hl]

theorem reads_comma (h : Reads T (.hier0 true) ts (r, mid))
    (hl : Reads T (.hier0Loop true (commaTree T l r)) mid out) :
    Reads T (.hier0Loop true l) (.op .COMMA :: ts) out := by
  apply Reads.of_body
  filter_upwards [h, hl] with depth h hl
  simp [body, hier0Loop, h, hl]

theorem hier0Loop_stop {comma : Bool} (hs : comma = true → Stops 17 rest) :
    Reads T (.hier0Loop comma l) rest (l, rest) := by
  apply Reads.of_body
  refine Eventually.of_forall fun depth => ?_
  simp only [body]
  unfold hier0Loop
  split
  · next o ts =>
    have ho : ¬(comma = true ∧ o = .COMMA) := by
      rintro ⟨hc, rfl⟩
      exact absurd (hs hc) (by simp [Stops, Op.rank])
    simp [ho]
  · rfl

end Fuzemsys.Fcc.Expression
