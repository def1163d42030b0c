import Fuzemsys.Fcc.StatementProofs

/-!
# Runs of statements

The generated code of a statement runs as the statement does, with the truth hints in
place of the conditions. So it is right where each hint is the truth.
-/

open Fuzemsys.Lib

namespace Fuzemsys.Fcc.Statement

universe u

variable {h : Host} {σ : Type u} {ev : Nat → σ → σ × Bool} {prog k : Code h} {n : Nat} {l : Label} {e : Expr h}
  {s s' sf : σ}

/-! ## One condition -/

theorem hintTest_branch : hintTest ev .branch e s =
    if (logicExpression e).2 = -1 then truth ev (logicExpression e).1 s else (s, decide ((logicExpression e).2 ≠ 0)) :=
  rfl

theorem hintTest_again : hintTest ev .again e s =
    if (logicExpression e).2 = -1 then truth ev (logicExpression e).1 s else (s, decide ((logicExpression e).2 = 1)) :=
  rfl

theorem run_branchCode (hrun : run prog (meaning ev) n
      (branchCode (logicExpression e).1 (logicExpression e).2 l ++ k) s = some sf) :
    ∃ k', (if (hintTest ev .branch e s).2 then k' = k else goto l prog = some k') ∧
      run prog (meaning ev) n k' (hintTest ev .branch e s).1 = some sf := by
  unfold branchCode at hrun
  rw [hintTest_branch]
  by_cases hunknown : (logicExpression e).2 = -1
  · rw [if_pos hunknown] at hrun ⊢
    obtain ⟨m, k', rfl, hnext, hrest⟩ := run_jfalse.mp hrun
    exact ⟨k', hnext, run_succ hrest⟩
  · rw [if_neg hunknown] at hrun ⊢
    by_cases hzero : (logicExpression e).2 = 0
    · rw [if_pos hzero] at hrun
      obtain ⟨m, k', rfl, hnext, hrest⟩ := run_jump.mp hrun
      exact ⟨k', by simpa [hzero] using hnext, run_succ hrest⟩
    · rw [if_neg hzero] at hrun
      exact ⟨k, (if_pos (decide_eq_true hzero)).mpr rfl, hrun⟩

/-- The code comes to the end from here. -/
def Ends (prog : Code h) (ev : Nat → σ → σ × Bool) (k : Code h) (s sf : σ) : Prop :=
  ∃ n, run prog (meaning ev) n k s = some sf

theorem ends_branchCode {k' : Code h} (hnext : if (hintTest ev .branch e s).2 then k' = k else goto l prog = some k')
    (hends : Ends prog ev k' (hintTest ev .branch e s).1 sf) :
    Ends prog ev (branchCode (logicExpression e).1 (logicExpression e).2 l ++ k) s sf := by
  obtain ⟨m, hrest⟩ := hends
  unfold branchCode
  rw [hintTest_branch] at hnext hrest
  by_cases hunknown : (logicExpression e).2 = -1
  · rw [if_pos hunknown] at hnext hrest ⊢
    exact ⟨m + 1, run_jfalse.mpr ⟨m, k', rfl, hnext, hrest⟩⟩
  · rw [if_neg hunknown] at hnext hrest ⊢
    by_cases hzero : (logicExpression e).2 = 0
    · rw [if_pos hzero]
      exact ⟨m + 1, run_jump.mpr ⟨m, k', rfl, by simpa [hzero] using hnext, hrest⟩⟩
    · rw [if_neg hzero]
      have hk : k' = k := (if_pos (decide_eq_true hzero)).mp hnext
      exact ⟨m, hk ▸ hrest⟩

theorem run_againCode (hrun : run prog (meaning ev) n
      (againCode (logicExpression e).1 (logicExpression e).2 l ++ k) s = some sf) :
    ∃ k', (if (hintTest ev .again e s).2 then goto l prog = some k' else k' = k) ∧
      run prog (meaning ev) n k' (hintTest ev .again e s).1 = some sf := by
  unfold againCode at hrun
  rw [hintTest_again]
  by_cases hunknown : (logicExpression e).2 = -1
  · rw [if_pos hunknown] at hrun ⊢
    obtain ⟨m, k', rfl, hnext, hrest⟩ := run_jtrue.mp hrun
    exact ⟨k', hnext, run_succ hrest⟩
  · rw [if_neg hunknown] at hrun ⊢
    by_cases hone : (logicExpression e).2 = 1
    · rw [if_pos hone] at hrun
      obtain ⟨m, k', rfl, hnext, hrest⟩ := run_jump.mp hrun
      exact ⟨k', by simpa [hone] using hnext, run_succ hrest⟩
    · rw [if_neg hone] at hrun
      exact ⟨k, (if_neg (by rw [decide_eq_true_iff]; exact hone)).mpr rfl, hrun⟩

theorem ends_againCode {k' : Code h} (hnext : if (hintTest ev .again e s).2 then goto l prog = some k' else k' = k)
    (hends : Ends prog ev k' (hintTest ev .again e s).1 sf) :
    Ends prog ev (againCode (logicExpression e).1 (logicExpression e).2 l ++ k) s sf := by
  obtain ⟨m, hrest⟩ := hends
  unfold againCode
  rw [hintTest_again] at hnext hrest
  by_cases hunknown : (logicExpression e).2 = -1
  · rw [if_pos hunknown] at hnext hrest ⊢
    exact ⟨m + 1, run_jtrue.mpr ⟨m, k', rfl, hnext, hrest⟩⟩
  · rw [if_neg hunknown] at hnext hrest ⊢
    by_cases hone : (logicExpression e).2 = 1
    · rw [if_pos hone]
      exact ⟨m + 1, run_jump.mpr ⟨m, k', rfl, by simpa [hone] using hnext, hrest⟩⟩
    · rw [if_neg hone]
      have hk : k' = k := (if_neg (by rw [decide_eq_true_iff]; exact hone)).mp hnext
      exact ⟨m, hk ▸ hrest⟩

/-! ## The layout of the code -/

section
variable (tags : Tags) (tag : Nat) (a b : Stmt h)

theorem gen_seq : (gen tags tag (.seq a b)).1 ++ k = (gen tags tag a).1 ++ ((gen tags (gen tags tag a).2 b).1 ++ k) := by
  simp [gen]

theorem gen_ifThen : (gen tags tag (.ifThen e a)).1 ++ k =
    branchCode (logicExpression e).1 (logicExpression e).2 (.e, tag) ++
      ((gen tags (tag + 1) a).1 ++ (.label (.e, tag) :: k)) := by
  simp [gen]

/-- The second part of an if, from the label that the condition jumps to. -/
def elseCode (e : Expr h) (k : Code h) : Code h :=
  (if (logicExpression e).2 ≠ 1 then [.label (.e, tag)] else []) ++
    ((gen tags (gen tags (tag + 1) a).2 b).1 ++ (.label (.f, tag) :: k))

theorem gen_ifElse : (gen tags tag (.ifElse e a b)).1 ++ k =
    branchCode (logicExpression e).1 (logicExpression e).2 (.e, tag) ++
      ((gen tags (tag + 1) a).1 ++ (.jump (.f, tag) :: elseCode tags tag a b e k)) := by
  simp [gen, elseCode]

/-- The end of a loop. -/
def whileEnd (e : Expr h) (k : Code h) : Code h :=
  (if (logicExpression e).2 ≠ 0 then [.jump (.c, tag)] else []) ++ (.label (.b, tag) :: k)

theorem gen_while : (gen tags tag (.while e a)).1 ++ k =
    .label (.c, tag) :: (branchCode (logicExpression e).1 (logicExpression e).2 (.b, tag) ++
      ((gen ⟨tag, tag⟩ (tag + 1) a).1 ++ whileEnd tag e k)) := by
  simp [gen, whileEnd]

end

/-- Where a statement is left for. -/
def exits (prog : Code h) (tags : Tags) (k : Code h) : Outcome → Option (Code h)
  | .normal => some k
  | .brk => goto (.b, tags.breakTag) prog
  | .cont => goto (.c, tags.contTag) prog

theorem hint_again_loop (htrue : (hintTest ev .branch e s).2 = true) : (logicExpression e).2 ≠ 0 := by
  rw [hintTest_branch] at htrue
  split at htrue
  · next hunknown =>
    intro hzero
    rw [hzero] at hunknown
    have hone : (1 : BitVec h.intBits) = 0 := by
      rw [← neg_eq_zero]
      exact hunknown.symm
    exact one_ne_zero_int hone
  · exact of_decide_eq_true htrue

/-! ## The code does what the statement does -/

theorem ends_label (hends : Ends prog ev k s sf) : Ends prog ev (.label l :: k) s sf := by
  obtain ⟨n, hrun⟩ := hends
  exact ⟨n + 1, run_label.mpr ⟨n, rfl, hrun⟩⟩

theorem ends_jump {k' : Code h} (hgoto : goto l prog = some k') (hends : Ends prog ev k' s sf) :
    Ends prog ev (.jump l :: k) s sf := by
  obtain ⟨n, hrun⟩ := hends
  exact ⟨n + 1, run_jump.mpr ⟨n, k', rfl, hgoto, hrun⟩⟩

theorem ends_of_label (hends : Ends prog ev (.label l :: k) s sf) : Ends prog ev k s sf := by
  obtain ⟨n, hrun⟩ := hends
  obtain ⟨m, -, hrest⟩ := run_label.mp hrun
  exact ⟨m, hrest⟩

theorem suffix_right {x y : Code h} (hsuffix : x ++ y <:+ prog) : y <:+ prog := (List.suffix_append x y).trans hsuffix

theorem suffix_tail {i : Instr Label (Expr h) (Expr h)} {y : Code h} (hsuffix : i :: y <:+ prog) : y <:+ prog :=
  (List.suffix_cons i y).trans hsuffix

theorem hint_else (hfalse : (hintTest ev .branch e s).2 = false) : (logicExpression e).2 ≠ 1 := by
  intro hone
  rw [hintTest_branch, hone, if_neg minus_one_ne_one.symm] at hfalse
  exact of_decide_eq_false hfalse one_ne_zero_int

section
variable {tags : Tags} {tag : Nat} {a b : Stmt h} (hnodup : (labels prog).Nodup)
include hnodup

theorem goto_ifThen (hsuffix : (gen tags tag (.ifThen e a)).1 ++ k <:+ prog) :
    goto (.e, tag) prog = some (.label (.e, tag) :: k) := by
  rw [gen_ifThen] at hsuffix
  exact goto_of_suffix hnodup (suffix_right (suffix_right hsuffix))

theorem goto_else (hsuffix : (gen tags tag (.ifElse e a b)).1 ++ k <:+ prog) (hone : (logicExpression e).2 ≠ 1) :
    goto (.e, tag) prog =
      some (.label (.e, tag) :: ((gen tags (gen tags (tag + 1) a).2 b).1 ++ (.label (.f, tag) :: k))) := by
  rw [gen_ifElse, elseCode, if_pos hone] at hsuffix
  exact goto_of_suffix hnodup (suffix_tail (suffix_right (suffix_right hsuffix)))

theorem goto_endif (hsuffix : (gen tags tag (.ifElse e a b)).1 ++ k <:+ prog) :
    goto (.f, tag) prog = some (.label (.f, tag) :: k) := by
  rw [gen_ifElse, elseCode] at hsuffix
  exact goto_of_suffix hnodup (suffix_right (suffix_right (suffix_tail (suffix_right (suffix_right hsuffix)))))

theorem goto_while (hsuffix : (gen tags tag (.while e a)).1 ++ k <:+ prog) :
    goto (.b, tag) prog = some (.label (.b, tag) :: k) ∧
      goto (.c, tag) prog = some ((gen tags tag (.while e a)).1 ++ k) := by
  rw [gen_while] at hsuffix ⊢
  refine ⟨?_, goto_of_suffix hnodup hsuffix⟩
  rw [whileEnd] at hsuffix
  exact goto_of_suffix hnodup (suffix_right (suffix_right (suffix_right (suffix_tail hsuffix))))

/-- The end of a do, from the label for a continue. -/
def doEnd (tag : Nat) (e : Expr h) (k : Code h) : Code h :=
  .label (.c, tag) :: (againCode (logicExpression e).1 (logicExpression e).2 (.t, tag) ++ (.label (.b, tag) :: k))

omit hnodup in
theorem gen_doWhile : (gen tags tag (.doWhile a e)).1 ++ k =
    .label (.t, tag) :: ((gen ⟨tag, tag⟩ (tag + 1) a).1 ++ doEnd tag e k) := by
  simp [gen, doEnd]

theorem goto_doWhile (hsuffix : (gen tags tag (.doWhile a e)).1 ++ k <:+ prog) :
    goto (.b, tag) prog = some (.label (.b, tag) :: k) ∧ goto (.c, tag) prog = some (doEnd tag e k) ∧
      goto (.t, tag) prog = some ((gen tags tag (.doWhile a e)).1 ++ k) := by
  rw [gen_doWhile] at hsuffix ⊢
  have hend := suffix_right (suffix_tail hsuffix)
  exact ⟨goto_of_suffix hnodup (suffix_right (suffix_tail hend)), goto_of_suffix hnodup hend,
    goto_of_suffix hnodup hsuffix⟩

end

theorem ends_whileEnd {tag : Nat} {head : Code h} (hloop : (logicExpression e).2 ≠ 0)
    (hgoto : goto (.c, tag) prog = some head) (hends : Ends prog ev head s sf) :
    Ends prog ev (whileEnd tag e k) s sf := by
  rw [whileEnd, if_pos hloop]
  exact ends_jump hgoto hends

/-- The code comes to the end from where a statement is left for. -/
def Leaves (prog : Code h) (ev : Nat → σ → σ × Bool) (tags : Tags) (k : Code h) (o : Outcome) (s sf : σ) : Prop :=
  ∃ kx, exits prog tags k o = some kx ∧ Ends prog ev kx s sf

theorem leaves_through {tags : Tags} {k' : Code h} {o : Outcome} (hnormal : Ends prog ev k s sf → Ends prog ev k' s sf)
    (hleaves : Leaves prog ev tags k o s sf) : Leaves prog ev tags k' o s sf := by
  obtain ⟨kx, hexit, hends⟩ := hleaves
  cases o with
  | normal =>
    cases hexit
    exact ⟨k', rfl, hnormal hends⟩
  | brk => exact ⟨kx, hexit, hends⟩
  | cont => exact ⟨kx, hexit, hends⟩

theorem leaves_normal {tags : Tags} : Leaves prog ev tags k .normal s sf ↔ Ends prog ev k s sf := by
  constructor
  · rintro ⟨kx, hexit, hends⟩
    cases hexit
    exact hends
  · exact fun hends => ⟨k, rfl, hends⟩

/-- A body that does not break goes on with the loop. -/
theorem leaves_again {tag : Nat} {o : Outcome} {head : Code h} (ho : o ≠ .brk) (hcont : goto (.c, tag) prog = some head)
    (hnormal : Ends prog ev head s sf → Ends prog ev k s sf) (hends : Ends prog ev head s sf) :
    Leaves prog ev ⟨tag, tag⟩ k o s sf := by
  cases o with
  | normal => exact ⟨k, rfl, hnormal hends⟩
  | brk => exact absurd rfl ho
  | cont => exact ⟨head, hcont, hends⟩

/-- By induction on the execution. -/
theorem exec_ends {a : Stmt h} {o : Outcome} (hnodup : (labels prog).Nodup) (hexec : Exec ev (hintTest ev) a s o s')
    {tags : Tags} {tag : Nat} {k : Code h} (hsuffix : (gen tags tag a).1 ++ k <:+ prog)
    (hleaves : Leaves prog ev tags k o s' sf) : Ends prog ev ((gen tags tag a).1 ++ k) s sf := by
  induction hexec generalizing tags tag k sf with
  | empty s => exact leaves_normal.mp hleaves
  | expr e s =>
    obtain ⟨n, hrun⟩ := leaves_normal.mp hleaves
    exact ⟨n + 1, run_act.mpr ⟨n, rfl, hrun⟩⟩
  | brk s =>
    obtain ⟨kx, hexit, hends⟩ := hleaves
    exact ends_jump hexit hends
  | cont s =>
    obtain ⟨kx, hexit, hends⟩ := hleaves
    exact ends_jump hexit hends
  | seqNext ha hb iha ihb =>
    rw [gen_seq] at hsuffix ⊢
    exact iha hsuffix (leaves_normal.mpr (ihb (suffix_right hsuffix) hleaves))
  | @seqLeave a b s s' o ha ho iha =>
    rw [gen_seq] at hsuffix ⊢
    apply iha hsuffix
    obtain ⟨kx, hexit, hends⟩ := hleaves
    cases o with
    | normal => exact absurd rfl ho
    | brk => exact ⟨kx, hexit, hends⟩
    | cont => exact ⟨kx, hexit, hends⟩
  | ifTrue htest ha ih =>
    rw [gen_ifThen] at hsuffix ⊢
    exact ends_branchCode ((if_pos htest).mpr rfl) (ih (suffix_right hsuffix) (leaves_through ends_label hleaves))
  | ifFalse htest =>
    have hgoto := goto_ifThen hnodup hsuffix
    rw [gen_ifThen]
    exact ends_branchCode ((if_neg (Bool.not_eq_true _ ▸ htest)).mpr hgoto) (ends_label (leaves_normal.mp hleaves))
  | elseTrue htest ha ih =>
    have hgoto := goto_endif hnodup hsuffix
    rw [gen_ifElse] at hsuffix ⊢
    refine ends_branchCode ((if_pos htest).mpr rfl) (ih (suffix_right hsuffix) (leaves_through ?_ hleaves))
    exact fun hends => ends_jump hgoto (ends_label hends)
  | elseFalse htest hb ih =>
    have hgoto := goto_else hnodup hsuffix (hint_else htest)
    rw [gen_ifElse, elseCode] at hsuffix
    rw [gen_ifElse]
    refine ends_branchCode ((if_neg (Bool.not_eq_true _ ▸ htest)).mpr hgoto) (ends_label ?_)
    exact ih (suffix_right (suffix_tail (suffix_right (suffix_right hsuffix)))) (leaves_through ends_label hleaves)
  | whileEnd htest =>
    obtain ⟨hbreak, -⟩ := goto_while hnodup hsuffix
    rw [gen_while]
    refine ends_label (ends_branchCode ((if_neg (Bool.not_eq_true _ ▸ htest)).mpr hbreak) ?_)
    exact ends_label (leaves_normal.mp hleaves)
  | whileBreak htest ha ih =>
    obtain ⟨hbreak, -⟩ := goto_while hnodup hsuffix
    rw [gen_while] at hsuffix ⊢
    refine ends_label (ends_branchCode ((if_pos htest).mpr rfl) (ih (suffix_right (suffix_tail hsuffix)) ?_))
    exact ⟨_, hbreak, ends_label (leaves_normal.mp hleaves)⟩
  | whileAgain htest ha ho hloop iha ihloop =>
    obtain ⟨-, hcont⟩ := goto_while hnodup hsuffix
    have hagain := ihloop hsuffix hleaves
    rw [gen_while] at hsuffix ⊢
    refine ends_label (ends_branchCode ((if_pos htest).mpr rfl) (iha (suffix_right (suffix_tail hsuffix)) ?_))
    exact leaves_again ho hcont (ends_whileEnd (hint_again_loop htest) hcont) hagain
  | doBreak ha ih =>
    obtain ⟨hbreak, -, -⟩ := goto_doWhile hnodup hsuffix
    rw [gen_doWhile] at hsuffix ⊢
    exact ends_label (ih (suffix_tail hsuffix) ⟨_, hbreak, ends_label (leaves_normal.mp hleaves)⟩)
  | doEnd ha ho htest ih =>
    obtain ⟨-, hcont, -⟩ := goto_doWhile hnodup hsuffix
    rw [gen_doWhile] at hsuffix ⊢
    refine ends_label (ih (suffix_tail hsuffix) (leaves_again ho hcont id (ends_label ?_)))
    exact ends_againCode ((if_neg (Bool.not_eq_true _ ▸ htest)).mpr rfl) (ends_label (leaves_normal.mp hleaves))
  | doAgain ha ho htest hloop iha ihloop =>
    obtain ⟨-, hcont, hagain⟩ := goto_doWhile hnodup hsuffix
    have hends := ihloop hsuffix hleaves
    rw [gen_doWhile] at hsuffix ⊢
    refine ends_label (iha (suffix_tail hsuffix) (leaves_again ho hcont id (ends_label ?_)))
    exact ends_againCode ((if_pos htest).mpr hagain) hends

/-! ## The code does nothing else -/

/-- With `n` steps the code comes to the end, so the statement is executed, and with no more steps the
code comes to the end from there. -/
def Follows (prog : Code h) (ev : Nat → σ → σ × Bool) (a : Stmt h) (n : Nat) : Prop :=
  ∀ (tags : Tags) (tag : Nat) (k : Code h) (s sf : σ), (gen tags tag a).1 ++ k <:+ prog →
    run prog (meaning ev) n ((gen tags tag a).1 ++ k) s = some sf →
    ∃ o s' kx, Exec ev (hintTest ev) a s o s' ∧ exits prog tags k o = some kx ∧ run prog (meaning ev) n kx s' = some sf

theorem run_past_label (hrun : run prog (meaning ev) n (.label l :: k) s = some sf) :
    run prog (meaning ev) n k s = some sf := by
  obtain ⟨m, rfl, hrest⟩ := run_label.mp hrun
  exact run_succ hrest

theorem run_past_jump {k' : Code h} (hgoto : goto l prog = some k')
    (hrun : run prog (meaning ev) n (.jump l :: k) s = some sf) : run prog (meaning ev) n k' s = some sf := by
  obtain ⟨m, k'', rfl, hgoto', hrest⟩ := run_jump.mp hrun
  cases hgoto.symm.trans hgoto'
  exact run_succ hrest

theorem exits_through {tags : Tags} {k' kx : Code h} {o : Outcome}
    (hnormal : run prog (meaning ev) n k s = some sf → run prog (meaning ev) n k' s = some sf)
    (hexit : exits prog tags k o = some kx) (hrun : run prog (meaning ev) n kx s = some sf) :
    ∃ kx', exits prog tags k' o = some kx' ∧ run prog (meaning ev) n kx' s = some sf := by
  cases o with
  | normal =>
    cases hexit
    exact ⟨k', rfl, hnormal hrun⟩
  | brk => exact ⟨kx, hexit, hrun⟩
  | cont => exact ⟨kx, hexit, hrun⟩

section
variable {a b : Stmt h}

theorem follows_seq (ha : Follows prog ev a n) (hb : Follows prog ev b n) : Follows prog ev (.seq a b) n := by
  intro tags tag k s sf hsuffix hrun
  rw [gen_seq] at hsuffix hrun
  obtain ⟨o, s', kx, hexec, hexit, hrest⟩ := ha _ _ _ _ _ hsuffix hrun
  cases o with
  | normal =>
    cases hexit
    obtain ⟨o, s'', kx, hexec2, hexit2, hrest2⟩ := hb _ _ _ _ _ (suffix_right hsuffix) hrest
    exact ⟨o, s'', kx, .seqNext hexec hexec2, hexit2, hrest2⟩
  | brk => exact ⟨.brk, s', kx, .seqLeave hexec nofun, hexit, hrest⟩
  | cont => exact ⟨.cont, s', kx, .seqLeave hexec nofun, hexit, hrest⟩

theorem follows_ifThen (hnodup : (labels prog).Nodup) (ha : Follows prog ev a n) : Follows prog ev (.ifThen e a) n := by
  intro tags tag k s sf hsuffix hrun
  have hgoto := goto_ifThen hnodup hsuffix
  rw [gen_ifThen] at hsuffix hrun
  obtain ⟨k', hnext, hrest⟩ := run_branchCode hrun
  cases htest : (hintTest ev .branch e s).2 with
  | true =>
    rw [htest, if_pos rfl] at hnext
    subst hnext
    obtain ⟨o, s', kx, hexec, hexit, hrest⟩ := ha _ _ _ _ _ (suffix_right hsuffix) hrest
    obtain ⟨kx', hexit', hrest'⟩ := exits_through run_past_label hexit hrest
    exact ⟨o, s', kx', .ifTrue htest hexec, hexit', hrest'⟩
  | false =>
    rw [htest, if_neg Bool.false_ne_true, hgoto] at hnext
    cases hnext
    exact ⟨.normal, _, k, .ifFalse htest, rfl, run_past_label hrest⟩

theorem follows_ifElse (hnodup : (labels prog).Nodup) (ha : Follows prog ev a n) (hb : Follows prog ev b n) :
    Follows prog ev (.ifElse e a b) n := by
  intro tags tag k s sf hsuffix hrun
  have hendif := goto_endif hnodup hsuffix
  have helse := goto_else hnodup hsuffix
  rw [gen_ifElse] at hsuffix hrun
  obtain ⟨k', hnext, hrest⟩ := run_branchCode hrun
  cases htest : (hintTest ev .branch e s).2 with
  | true =>
    rw [htest, if_pos rfl] at hnext
    subst hnext
    obtain ⟨o, s', kx, hexec, hexit, hrest⟩ := ha _ _ _ _ _ (suffix_right hsuffix) hrest
    have hnormal {s' : σ} (hrun : run prog (meaning ev) n (.jump (.f, tag) :: elseCode tags tag a b e k) s' = some sf) :
        run prog (meaning ev) n k s' = some sf := run_past_label (run_past_jump hendif hrun)
    obtain ⟨kx', hexit', hrest'⟩ := exits_through hnormal hexit hrest
    exact ⟨o, s', kx', .elseTrue htest hexec, hexit', hrest'⟩
  | false =>
    rw [htest, if_neg Bool.false_ne_true, helse (hint_else htest)] at hnext
    cases hnext
    rw [elseCode] at hsuffix
    have hbsuffix := suffix_right (suffix_tail (suffix_right (suffix_right hsuffix)))
    obtain ⟨o, s', kx, hexec, hexit, hrest⟩ := hb _ _ _ _ _ hbsuffix (run_past_label hrest)
    obtain ⟨kx', hexit', hrest'⟩ := exits_through run_past_label hexit hrest
    exact ⟨o, s', kx', .elseFalse htest hexec, hexit', hrest'⟩

/-- A loop that comes to its end does so again with fewer steps, unless it is left. -/
theorem follows_while (hnodup : (labels prog).Nodup)
    (ih : ∀ m < n, Follows prog ev a m ∧ Follows prog ev (.while e a) m) : Follows prog ev (.while e a) n := by
  intro tags tag k s sf hsuffix hrun
  obtain ⟨hbreak, hcont⟩ := goto_while hnodup hsuffix
  have hbody := hsuffix
  rw [gen_while] at hbody hrun
  obtain ⟨m, rfl, hhead⟩ := run_label.mp hrun
  obtain ⟨iha, ihloop⟩ := ih m (Nat.lt_succ_self m)
  obtain ⟨k', hnext, hrest⟩ := run_branchCode hhead
  cases htest : (hintTest ev .branch e s).2 with
  | true =>
    rw [htest, if_pos rfl] at hnext
    subst hnext
    obtain ⟨o, s', kx, hexec, hexit, hrest⟩ := iha _ _ _ _ _ (suffix_right (suffix_tail hbody)) hrest
    have hagain (ho : o ≠ .brk) (hloop : run prog (meaning ev) m ((gen tags tag (.while e a)).1 ++ k) s' = some sf) :
        ∃ o s' kx, Exec ev (hintTest ev) (.while e a) s o s' ∧ exits prog tags k o = some kx ∧
          run prog (meaning ev) (m + 1) kx s' = some sf := by
      obtain ⟨o2, s'', kx2, hexec2, hexit2, hrest2⟩ := ihloop _ _ _ _ _ hsuffix hloop
      have ho2 : o2 = .normal := by
        cases hexec2 <;> rfl
      subst ho2
      exact ⟨.normal, s'', kx2, .whileAgain htest hexec ho hexec2, hexit2, run_succ hrest2⟩
    cases o with
    | normal =>
      cases hexit
      rw [whileEnd, if_pos (hint_again_loop htest)] at hrest
      exact hagain nofun (run_past_jump hcont hrest)
    | cont =>
      cases hcont.symm.trans hexit
      exact hagain nofun hrest
    | brk =>
      cases hbreak.symm.trans hexit
      exact ⟨.normal, s', k, .whileBreak htest hexec, rfl, run_succ (run_past_label hrest)⟩
  | false =>
    rw [htest, if_neg Bool.false_ne_true, hbreak] at hnext
    cases hnext
    exact ⟨.normal, _, k, .whileEnd htest, rfl, run_succ (run_past_label hrest)⟩

theorem follows_doWhile (hnodup : (labels prog).Nodup)
    (ih : ∀ m < n, Follows prog ev a m ∧ Follows prog ev (.doWhile a e) m) : Follows prog ev (.doWhile a e) n := by
  intro tags tag k s sf hsuffix hrun
  obtain ⟨hbreak, hcont, hstart⟩ := goto_doWhile hnodup hsuffix
  have hbody := hsuffix
  rw [gen_doWhile] at hbody hrun
  obtain ⟨m, rfl, hhead⟩ := run_label.mp hrun
  obtain ⟨iha, ihloop⟩ := ih m (Nat.lt_succ_self m)
  obtain ⟨o, s', kx, hexec, hexit, hrest⟩ := iha _ _ _ _ _ (suffix_tail hbody) hhead
  have hagain (ho : o ≠ .brk) (hend : run prog (meaning ev) m (doEnd tag e k) s' = some sf) :
      ∃ o s' kx, Exec ev (hintTest ev) (.doWhile a e) s o s' ∧ exits prog tags k o = some kx ∧
        run prog (meaning ev) (m + 1) kx s' = some sf := by
    obtain ⟨k', hnext, hrest⟩ := run_againCode (run_past_label hend)
    cases htest : (hintTest ev .again e s').2 with
    | true =>
      rw [htest, if_pos rfl, hstart] at hnext
      cases hnext
      obtain ⟨o2, s'', kx2, hexec2, hexit2, hrest2⟩ := ihloop _ _ _ _ _ hsuffix hrest
      have ho2 : o2 = .normal := by
        cases hexec2 <;> rfl
      subst ho2
      exact ⟨.normal, s'', kx2, .doAgain hexec ho htest hexec2, hexit2, run_succ hrest2⟩
    | false =>
      rw [htest, if_neg Bool.false_ne_true] at hnext
      subst hnext
      exact ⟨.normal, _, k, .doEnd hexec ho htest, rfl, run_succ (run_past_label hrest)⟩
  cases o with
  | normal =>
    cases hexit
    exact hagain nofun hrest
  | cont =>
    cases hcont.symm.trans hexit
    exact hagain nofun hrest
  | brk =>
    cases hbreak.symm.trans hexit
    exact ⟨.normal, s', k, .doBreak hexec, rfl, run_succ (run_past_label hrest)⟩

end

/-- By induction on the number of steps, and for the same number on the statement. -/
theorem follows (hnodup : (labels prog).Nodup) (n : Nat) (a : Stmt h) : Follows prog ev a n := by
  induction n using Nat.strong_induction_on generalizing a with
  | _ n ih =>
  induction a with
  | empty => exact fun tags tag k s sf hsuffix hrun => ⟨.normal, s, k, .empty s, rfl, hrun⟩
  | expr e =>
    intro tags tag k s sf hsuffix hrun
    obtain ⟨m, rfl, hrest⟩ := run_act.mp hrun
    exact ⟨.normal, _, k, .expr e s, rfl, run_succ hrest⟩
  | seq a b iha ihb => exact follows_seq iha ihb
  | ifThen e a iha => exact follows_ifThen hnodup iha
  | ifElse e a b iha ihb => exact follows_ifElse hnodup iha ihb
  | «while» e a => exact follows_while hnodup fun m hm => ⟨ih m hm a, ih m hm _⟩
  | doWhile a e => exact follows_doWhile hnodup fun m hm => ⟨ih m hm a, ih m hm _⟩
  | «break» =>
    intro tags tag k s sf hsuffix hrun
    obtain ⟨m, k', rfl, hgoto, hrest⟩ := run_jump.mp hrun
    exact ⟨.brk, s, k', .brk s, hgoto, run_succ hrest⟩
  | «continue» =>
    intro tags tag k s sf hsuffix hrun
    obtain ⟨m, k', rfl, hgoto, hrest⟩ := run_jump.mp hrun
    exact ⟨.cont, s, k', .cont s, hgoto, run_succ hrest⟩

end Fuzemsys.Fcc.Statement
