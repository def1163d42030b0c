import Fuzemsys.Fcc.StatementRuns

/-!
# Truth hints

A condition fits a statement if its hint tells the back end the truth. The statements
with conditions from any set are all compiled right if and only if each condition of it fits.
-/

open Fuzemsys.Lib

namespace Fuzemsys.Fcc.Statement

universe u

variable {h : Host} {σ : Type u}

/-! ## What it is to be right -/

/-- The statements with a condition. -/
inductive Kind where
  | ifThen
  | ifElse
  | while
  | doWhile
  deriving DecidableEq, Repr

def Kind.test : Kind → Test
  | ifThen => .branch
  | ifElse => .branch
  | .while => .branch
  | doWhile => .again

/-- Each condition is one that is allowed in its statement. -/
def Stmt.Uses (allowed : Kind → Expr h → Prop) : Stmt h → Prop
  | .empty => True
  | .expr _ => True
  | .seq a b => a.Uses allowed ∧ b.Uses allowed
  | .ifThen e a => allowed .ifThen e ∧ a.Uses allowed
  | .ifElse e a b => allowed .ifElse e ∧ a.Uses allowed ∧ b.Uses allowed
  | .while e a => allowed .while e ∧ a.Uses allowed
  | .doWhile a e => allowed .doWhile e ∧ a.Uses allowed
  | .break => True
  | .continue => True

theorem uses_mono {allowed allowed' : Kind → Expr h → Prop} (hmono : ∀ k e, allowed k e → allowed' k e) {a : Stmt h}
    (huses : a.Uses allowed) : a.Uses allowed' := by
  induction a with
  | seq a b iha ihb => exact ⟨iha huses.1, ihb huses.2⟩
  | ifThen e a ih => exact ⟨hmono _ e huses.1, ih huses.2⟩
  | ifElse e a b iha ihb => exact ⟨hmono _ e huses.1, iha huses.2.1, ihb huses.2.2⟩
  | «while» e a ih => exact ⟨hmono _ e huses.1, ih huses.2⟩
  | doWhile a e ih => exact ⟨hmono _ e huses.1, ih huses.2⟩
  | _ => exact trivial

/-- The code runs to its end exactly as the statement does in C, whatever its expressions do. -/
def Code.Implements (code : Code h) (a : Stmt h) : Prop :=
  ∀ (σ : Type) (ev : Nat → σ → σ × Bool) (s sf : σ),
    Exec ev (cTest ev) a s .normal sf ↔ Halts code (meaning ev) s sf

def Stmt.Right (a : Stmt h) : Prop :=
  ∀ (tags : Tags) (tag : Nat), Synced (statement tags tag a).1 ∧
    ∃ code, process (statement tags tag a).1 = some code ∧
      (∀ l ∈ targets code, (labels code).count l = 1) ∧ code.Implements a

/-! ## When a hint is the truth -/

/-- What the hint of a constant says: nothing, or its truth. -/
def Constant.Fits (c : Constant h) : Test → Prop
  | .branch => c.value.setWidth h.intBits = -1 ∨ (c.value.setWidth h.intBits ≠ 0 ↔ c.isTrue)
  | .again => c.value.setWidth h.intBits = -1 ∨ (c.value.setWidth h.intBits = 1 ↔ c.isTrue)

instance (c : Constant h) : (k : Test) → Decidable (c.Fits k)
  | .branch => inferInstanceAs (Decidable (_ ∨ _))
  | .again => inferInstanceAs (Decidable (_ ∨ _))

def Expr.Fits (k : Test) (e : Expr h) : Prop := ∀ c, boolTree e = .bool (.constant c) → c.Fits k

theorem truth_boolTree (ev : Nat → σ → σ × Bool) (e : Expr h) (s : σ) : truth ev (boolTree e) s = truth ev e s := by
  cases e <;> rfl

theorem logicExpression_constant {e : Expr h} {c : Constant h} (hc : boolTree e = .bool (.constant c)) :
    logicExpression e = (.bool (.constant c), c.value.setWidth h.intBits) := by
  unfold logicExpression
  rw [hc]

theorem logicExpression_unknown {e : Expr h} (hother : ∀ c, boolTree e ≠ .bool (.constant c)) :
    logicExpression e = (boolTree e, -1) := by
  unfold logicExpression
  split
  · next c hc => exact absurd hc (hother c)
  · rfl

/-- The test of a constant: its hint, or if that is -1 its truth. -/
theorem hintTest_constant {e : Expr h} {c : Constant h} (hc : boolTree e = .bool (.constant c)) (ev : Nat → σ → σ × Bool)
    (k : Test) (s : σ) : hintTest ev k e s = (s, if c.value.setWidth h.intBits = -1 then c.isTrue
      else match k with
        | .branch => decide (c.value.setWidth h.intBits ≠ 0)
        | .again => decide (c.value.setWidth h.intBits = 1)) := by
  unfold hintTest
  rw [logicExpression_constant hc]
  dsimp only
  by_cases hunknown : c.value.setWidth h.intBits = -1
  · rw [if_pos hunknown, if_pos hunknown]
    rfl
  · rw [if_neg hunknown, if_neg hunknown]
    cases k <;> rfl

theorem cTest_constant {e : Expr h} {c : Constant h} (hc : boolTree e = .bool (.constant c)) (ev : Nat → σ → σ × Bool)
    (k : Test) (s : σ) : cTest ev k e s = (s, c.isTrue) := by
  unfold cTest
  rw [← truth_boolTree, hc]
  rfl

theorem constant_fits_iff {e : Expr h} {c : Constant h} (hc : boolTree e = .bool (.constant c))
    (ev : Nat → σ → σ × Bool) (k : Test) (s : σ) : c.Fits k ↔ hintTest ev k e s = cTest ev k e s := by
  rw [hintTest_constant hc, cTest_constant hc, Prod.mk.injEq, eq_self_iff_true, true_and]
  by_cases hunknown : c.value.setWidth h.intBits = -1
  · rw [if_pos hunknown]
    cases k <;> exact ⟨fun _ => rfl, fun _ => .inl hunknown⟩
  · rw [if_neg hunknown, Bool.eq_iff_iff]
    cases k
    · rw [decide_eq_true_iff]
      exact or_iff_right hunknown
    · rw [decide_eq_true_iff]
      exact or_iff_right hunknown

/-- A condition that fits is tested as in C. -/
theorem hintTest_eq_cTest {k : Test} {e : Expr h} (hfits : e.Fits k) (ev : Nat → σ → σ × Bool) (s : σ) :
    hintTest ev k e s = cTest ev k e s := by
  by_cases hconst : ∃ c, boolTree e = .bool (.constant c)
  · obtain ⟨c, hc⟩ := hconst
    exact (constant_fits_iff hc ev k s).mp (hfits c hc)
  · rw [not_exists] at hconst
    unfold hintTest
    rw [logicExpression_unknown hconst]
    dsimp only
    rw [if_pos rfl, truth_boolTree]
    rfl

/-- One that does not fit is a constant, and the code takes it for the opposite. -/
theorem hintTest_ne_cTest {k : Test} {e : Expr h} (hmisfit : ¬ e.Fits k) :
    ∃ v, ∀ (σ : Type u) (ev : Nat → σ → σ × Bool) (s : σ), hintTest ev k e s = (s, v) ∧ cTest ev k e s = (s, !v) := by
  unfold Expr.Fits at hmisfit
  push Not at hmisfit
  obtain ⟨c, hc, hmisfit⟩ := hmisfit
  refine ⟨!c.isTrue, fun σ ev s => ?_⟩
  have hne := (constant_fits_iff hc ev k s).not.mp hmisfit
  rw [hintTest_constant hc, cTest_constant hc] at hne ⊢
  rw [Prod.mk.injEq, not_and] at hne
  rw [Bool.not_not]
  exact ⟨Prod.ext rfl (Bool.eq_not_of_ne (hne rfl)), rfl⟩

/-! ## Statements whose conditions fit -/

section
variable {ev : Nat → σ → σ × Bool} {test test' : Test → Expr h → σ → σ × Bool}

/-- Two ways to test that agree on the conditions of a statement execute it alike. -/
theorem exec_congr {allowed : Kind → Expr h → Prop} (hsame : ∀ k e, allowed k e → test k.test e = test' k.test e)
    {a : Stmt h} {s s' : σ} {o : Outcome} (huses : a.Uses allowed) (hexec : Exec ev test a s o s') :
    Exec ev test' a s o s' := by
  induction hexec with
  | empty s => exact .empty s
  | expr e s => exact .expr e s
  | brk s => exact .brk s
  | cont s => exact .cont s
  | seqNext _ _ iha ihb => exact .seqNext (iha huses.1) (ihb huses.2)
  | seqLeave _ ho iha => exact .seqLeave (iha huses.1) ho
  | @ifTrue e _ _ _ _ htest _ ih =>
    have heq : test .branch e = test' .branch e := hsame _ e huses.1
    rw [heq] at htest ih
    exact .ifTrue htest (ih huses.2)
  | @ifFalse e _ _ htest =>
    have heq : test .branch e = test' .branch e := hsame _ e huses.1
    rw [heq] at htest ⊢
    exact .ifFalse htest
  | @elseTrue e _ _ _ _ _ htest _ ih =>
    have heq : test .branch e = test' .branch e := hsame _ e huses.1
    rw [heq] at htest ih
    exact .elseTrue htest (ih huses.2.1)
  | @elseFalse e _ _ _ _ _ htest _ ih =>
    have heq : test .branch e = test' .branch e := hsame _ e huses.1
    rw [heq] at htest ih
    exact .elseFalse htest (ih huses.2.2)
  | @whileEnd e _ _ htest =>
    have heq : test .branch e = test' .branch e := hsame .while e huses.1
    rw [heq] at htest ⊢
    exact .whileEnd htest
  | @whileBreak e _ _ _ htest _ ih =>
    have heq : test .branch e = test' .branch e := hsame .while e huses.1
    rw [heq] at htest ih
    exact .whileBreak htest (ih huses.2)
  | @whileAgain e _ _ _ _ _ htest _ ho _ iha ihloop =>
    have heq : test .branch e = test' .branch e := hsame .while e huses.1
    rw [heq] at htest iha
    exact .whileAgain htest (iha huses.2) ho (ihloop huses)
  | doBreak _ ih => exact .doBreak (ih huses.2)
  | @doEnd e _ _ _ _ _ ho htest ih =>
    have heq : test .again e = test' .again e := hsame .doWhile e huses.1
    rw [heq] at htest ⊢
    exact .doEnd (ih huses.2) ho htest
  | @doAgain e _ _ _ _ _ _ ho htest _ iha ihloop =>
    have heq : test .again e = test' .again e := hsame .doWhile e huses.1
    rw [heq] at htest ihloop
    exact .doAgain (iha huses.2) ho htest (ihloop huses)

/-- A break or continue is for the loop around it. -/
theorem exec_closed {a : Stmt h} {s s' : σ} {o : Outcome} (hclosed : a.Closed) (hexec : Exec ev test a s o s') :
    o = .normal := by
  induction hexec with
  | brk s => exact hclosed.elim
  | cont s => exact hclosed.elim
  | seqNext _ _ _ ihb => exact ihb hclosed.2
  | seqLeave _ ho iha => exact absurd (iha hclosed.1) ho
  | ifTrue _ _ ih => exact ih hclosed
  | elseTrue _ _ ih => exact ih hclosed.1
  | elseFalse _ _ ih => exact ih hclosed.2
  | _ => rfl

end

/-- The code of a whole function does what the statement does with the hints for its conditions. -/
theorem halts_gen_iff {a : Stmt h} (hclosed : a.Closed) (tags : Tags) (tag : Nat) (ev : Nat → σ → σ × Bool) (s sf : σ) :
    Exec ev (hintTest ev) a s .normal sf ↔ Halts (gen tags tag a).1 (meaning ev) s sf := by
  have hnodup := (gen_labels tags tag a).1
  have hwhole : (gen tags tag a).1 ++ [] <:+ (gen tags tag a).1 := by
    rw [List.append_nil]
  constructor
  · intro hexec
    have hends := exec_ends hnodup hexec hwhole (leaves_normal.mpr ⟨0, rfl⟩)
    rw [List.append_nil] at hends
    exact hends
  · rintro ⟨n, hrun⟩
    obtain ⟨o, s', kx, hexec, hexit, hrest⟩ := follows hnodup n a tags tag [] s sf hwhole (by rwa [List.append_nil])
    cases exec_closed hclosed hexec
    cases hexit
    cases n <;> cases hrest <;> exact hexec

theorem process_gen (tags : Tags) (tag : Nat) (a : Stmt h) :
    process (statement tags tag a).1 = some (gen tags tag a).1 := by
  have hprocess := process_statement tags tag a []
  rw [List.append_nil] at hprocess
  rw [hprocess, process, Option.map_some, List.append_nil]

/-- All but the truth of the conditions is right in any case. -/
theorem right_iff_hints {a : Stmt h} (hclosed : a.Closed) :
    a.Right ↔ ∀ (σ : Type) (ev : Nat → σ → σ × Bool) (s sf : σ),
      Exec ev (cTest ev) a s .normal sf ↔ Exec ev (hintTest ev) a s .normal sf := by
  constructor
  · intro hright σ ev s sf
    obtain ⟨-, code, hcode, -, himplements⟩ := hright ⟨0, 0⟩ 1
    rw [process_gen] at hcode
    cases hcode
    rw [himplements σ ev s sf, halts_gen_iff hclosed]
  · intro hexec tags tag
    refine ⟨?_, (gen tags tag a).1, process_gen tags tag a, fun l hl => gen_label_once hclosed hl, ?_⟩
    · have hsynced : Synced ((statement tags tag a).1 ++ []) := statement_synced tags tag a trivial trivial
      rwa [List.append_nil] at hsynced
    · intro σ ev s sf
      rw [hexec σ ev s sf, halts_gen_iff hclosed]

theorem right_of_fits {a : Stmt h} (hclosed : a.Closed) (huses : a.Uses fun k e => e.Fits k.test) : a.Right := by
  rw [right_iff_hints hclosed]
  intro σ ev s sf
  have hsame (k : Kind) (e : Expr h) (hfits : e.Fits k.test) : cTest ev k.test e = hintTest ev k.test e :=
    funext fun s => (hintTest_eq_cTest hfits ev s).symm
  exact ⟨exec_congr hsame huses, exec_congr (fun k e hfits => (hsame k e hfits).symm) huses⟩

/-! ## Conditions that do not fit -/

/-- Counts the expressions that are evaluated. -/
def count (_ : Nat) (s : Nat) : Nat × Bool := (s + 1, true)

/-- A statement that shows which way a constant condition goes. -/
def Kind.probe (e : Expr h) : Kind → Stmt h
  | ifThen => .ifThen e (.expr (.other 0))
  | ifElse => .ifElse e (.expr (.other 0)) .empty
  | .while => .while e (.seq (.expr (.other 0)) .break)
  | doWhile => .doWhile (.expr (.other 0)) e

/-- The truth with which the expression is evaluated once and the statement ends. -/
def Kind.once : Kind → Bool
  | ifThen => true
  | ifElse => true
  | .while => true
  | doWhile => false

theorem probe_closed (k : Kind) (e : Expr h) : (k.probe e).Closed := by
  cases k <;> simp [Kind.probe, Stmt.Closed]

theorem probe_uses {allowed : Kind → Expr h → Prop} {k : Kind} {e : Expr h} (hallowed : allowed k e) :
    (k.probe e).Uses allowed := by
  cases k <;> simp [Kind.probe, Stmt.Uses, hallowed]

section
variable {test : Test → Expr h → Nat → Nat × Bool} {e : Expr h}

theorem doWhile_forever (htest : ∀ s, test .again e s = (s, true)) {a : Stmt h} {s sf : Nat} {o : Outcome}
    (hexec : Exec count test a s o sf) : a ≠ .doWhile (.expr (.other 0)) e := by
  induction hexec with
  | doBreak hbody =>
    rintro ⟨⟩
    cases hbody
  | doEnd hbody ho hfalse =>
    rintro ⟨⟩
    rw [htest] at hfalse
    cases hfalse
  | doAgain hbody ho htrue hloop ihbody ihloop =>
    rintro ⟨⟩
    exact ihloop rfl
  | _ => exact nofun

theorem exec_probe {k : Kind} {v : Bool} (htest : ∀ s, test k.test e s = (s, v)) :
    Exec count test (k.probe e) 0 .normal 1 ↔ v = k.once := by
  have hstate : (test k.test e 0).1 = 0 := congrArg Prod.fst (htest 0)
  have htruth : (test k.test e 0).2 = v := congrArg Prod.snd (htest 0)
  have hbody : Exec count test (.expr (.other 0)) 0 .normal 1 := .expr (.other 0) 0
  constructor
  · intro hexec
    by_contra hother
    generalize hend : (1 : Nat) = sf at hexec
    cases k with
    | ifThen =>
      cases hexec with
      | ifTrue htrue _ => exact hother (htruth.symm.trans htrue)
      | ifFalse _ => exact one_ne_zero (hend.trans hstate)
    | ifElse =>
      cases hexec with
      | elseTrue htrue _ => exact hother (htruth.symm.trans htrue)
      | elseFalse _ hempty =>
        cases hempty
        exact one_ne_zero (hend.trans hstate)
    | «while» =>
      cases hexec with
      | whileEnd _ => exact one_ne_zero (hend.trans hstate)
      | whileBreak htrue _ => exact hother (htruth.symm.trans htrue)
      | whileAgain htrue _ _ _ => exact hother (htruth.symm.trans htrue)
    | doWhile =>
      have htrue : v = true := Bool.eq_not_of_ne hother
      subst htrue
      exact doWhile_forever htest hexec rfl
  · rintro rfl
    cases k with
    | ifThen => exact .ifTrue htruth (hstate.symm ▸ hbody)
    | ifElse => exact .elseTrue htruth (hstate.symm ▸ hbody)
    | «while» => exact .whileBreak htruth (hstate.symm ▸ .seqNext hbody (.brk 1))
    | doWhile =>
      have hend : (test .again e 1).1 = 1 := congrArg Prod.fst (htest 1)
      have hexec := Exec.doEnd (e := e) hbody nofun (congrArg Prod.snd (htest 1))
      rw [hend] at hexec
      exact hexec

end

theorem not_right_of_misfit {k : Kind} {e : Expr h} (hmisfit : ¬ e.Fits k.test) : ¬ (k.probe e).Right := by
  rw [right_iff_hints (probe_closed k e)]
  intro hsame
  obtain ⟨v, hother⟩ := hintTest_ne_cTest hmisfit
  have hiff := hsame Nat count 0 1
  rw [exec_probe (fun s => (hother Nat count s).1), exec_probe (fun s => (hother Nat count s).2)] at hiff
  cases v <;> cases k <;> simp [Kind.once] at hiff

/-! ## The law -/

/-- With any conditions allowed in the four statements: all that is written with them is compiled right
if and only if each of them fits the statement that it is allowed in. -/
theorem control_flow_iff (allowed : Kind → Expr h → Prop) :
    (∀ a : Stmt h, a.Closed → a.Uses allowed → a.Right) ↔ ∀ k e, allowed k e → e.Fits k.test := by
  constructor
  · intro hright k e hallowed
    by_contra hmisfit
    exact not_right_of_misfit hmisfit (hright _ (probe_closed k e) (probe_uses hallowed))
  · intro hfits a hclosed huses
    refine right_of_fits hclosed ?_
    exact uses_mono hfits huses

/-- `do x; while (5);` is left after one turn, as the back end looks for a 1. Where unsigned has 16 bits,
`while (0x10000) { x; break; }` is not entered. -/
theorem nonzero_constants_leave :
    ¬ (Stmt.doWhile (.expr (.other 0)) (.constant ⟨.int, 5⟩) : Stmt .linux).Right ∧
      ¬ (Stmt.while (.constant ⟨.long, 0x10000⟩) (.seq (.expr (.other 0)) .break) : Stmt .fuzix).Right := by
  constructor
  · refine not_right_of_misfit (k := .doWhile) fun hfits => ?_
    exact absurd (hfits ⟨.int, 5⟩ rfl) (by decide)
  · refine not_right_of_misfit (k := .while) fun hfits => ?_
    exact absurd (hfits ⟨.long, 0x10000⟩ rfl) (by decide)

end Fuzemsys.Fcc.Statement
