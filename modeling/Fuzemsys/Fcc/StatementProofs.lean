import Fuzemsys.Fcc.Statement

/-!
# Statements run as in C

What the generated code does with a truth hint, and when that is what C requires.
-/

open Fuzemsys.Lib

namespace Fuzemsys.Fcc.Statement

universe u

variable {h : Host} {σ : Type u}

/-! ## The meaning of C -/

def ConstType.bits : ConstType → Nat
  | char => 8
  | int => 16
  | long => 32
  | pointer => 16
  | float => 31  -- the sign of a zero does not count

def Constant.isTrue (c : Constant h) : Bool := decide (c.value.toNat % 2 ^ c.type.bits ≠ 0)

/-- The state after an expression, and if it is not zero. `ev` is the run-time value of the trees that
are no constants. -/
def truth (ev : Nat → σ → σ × Bool) : Expr h → σ → σ × Bool
  | .constant c, s => (s, c.isTrue)
  | .bool r, s => truth ev r s
  | .other id, s => ev id s

/-- How a statement uses its condition. -/
inductive Test where
  | branch
  | again
  deriving DecidableEq, Repr

inductive Outcome where
  | normal
  | brk
  | cont
  deriving DecidableEq, Repr

/-- `test` is what a condition does. -/
inductive Exec (ev : Nat → σ → σ × Bool) (test : Test → Expr h → σ → σ × Bool) : Stmt h → σ → Outcome → σ → Prop
  | empty (s : σ) : Exec ev test .empty s .normal s
  | expr (e : Expr h) (s : σ) : Exec ev test (.expr e) s .normal (truth ev e s).1
  | brk (s : σ) : Exec ev test .break s .brk s
  | cont (s : σ) : Exec ev test .continue s .cont s
  | seqNext {a b : Stmt h} {s s' s'' : σ} {o : Outcome} :
      Exec ev test a s .normal s' → Exec ev test b s' o s'' → Exec ev test (.seq a b) s o s''
  | seqLeave {a b : Stmt h} {s s' : σ} {o : Outcome} :
      Exec ev test a s o s' → o ≠ .normal → Exec ev test (.seq a b) s o s'
  | ifTrue {e : Expr h} {a : Stmt h} {s s' : σ} {o : Outcome} :
      (test .branch e s).2 = true → Exec ev test a (test .branch e s).1 o s' → Exec ev test (.ifThen e a) s o s'
  | ifFalse {e : Expr h} {a : Stmt h} {s : σ} :
      (test .branch e s).2 = false → Exec ev test (.ifThen e a) s .normal (test .branch e s).1
  | elseTrue {e : Expr h} {a b : Stmt h} {s s' : σ} {o : Outcome} :
      (test .branch e s).2 = true → Exec ev test a (test .branch e s).1 o s' → Exec ev test (.ifElse e a b) s o s'
  | elseFalse {e : Expr h} {a b : Stmt h} {s s' : σ} {o : Outcome} :
      (test .branch e s).2 = false → Exec ev test b (test .branch e s).1 o s' → Exec ev test (.ifElse e a b) s o s'
  | whileEnd {e : Expr h} {a : Stmt h} {s : σ} :
      (test .branch e s).2 = false → Exec ev test (.while e a) s .normal (test .branch e s).1
  | whileBreak {e : Expr h} {a : Stmt h} {s s' : σ} :
      (test .branch e s).2 = true → Exec ev test a (test .branch e s).1 .brk s' →
      Exec ev test (.while e a) s .normal s'
  | whileAgain {e : Expr h} {a : Stmt h} {s s' s'' : σ} {o : Outcome} :
      (test .branch e s).2 = true → Exec ev test a (test .branch e s).1 o s' → o ≠ .brk →
      Exec ev test (.while e a) s' .normal s'' → Exec ev test (.while e a) s .normal s''
  | doBreak {e : Expr h} {a : Stmt h} {s s' : σ} :
      Exec ev test a s .brk s' → Exec ev test (.doWhile a e) s .normal s'
  | doEnd {e : Expr h} {a : Stmt h} {s s' : σ} {o : Outcome} :
      Exec ev test a s o s' → o ≠ .brk → (test .again e s').2 = false →
      Exec ev test (.doWhile a e) s .normal (test .again e s').1
  | doAgain {e : Expr h} {a : Stmt h} {s s' s'' : σ} {o : Outcome} :
      Exec ev test a s o s' → o ≠ .brk → (test .again e s').2 = true →
      Exec ev test (.doWhile a e) (test .again e s').1 .normal s'' → Exec ev test (.doWhile a e) s .normal s''

/-- A condition in C. -/
def cTest (ev : Nat → σ → σ × Bool) (_ : Test) (e : Expr h) (s : σ) : σ × Bool := truth ev e s

/-- A condition in the code: a hint that is not -1 takes the place of the run-time value. -/
def hintTest (ev : Nat → σ → σ × Bool) (k : Test) (e : Expr h) (s : σ) : σ × Bool :=
  let (n, t) := logicExpression e
  if t = -1 then truth ev n s
  else
    match k with
    | .branch => (s, decide (t ≠ 0))
    | .again => (s, decide (t = 1))

def meaning (ev : Nat → σ → σ × Bool) : Meaning (Expr h) (Expr h) σ where
  act := fun e s => (truth ev e s).1
  test := truth ev

/-! ## The code of a statement -/

def branchCode (n : Expr h) (t : BitVec h.intBits) (l : Label) : Code h :=
  if t = -1 then [.jfalse n l] else if t = 0 then [.jump l] else []

def againCode (n : Expr h) (t : BitVec h.intBits) (l : Label) : Code h :=
  if t = -1 then [.jtrue n l] else if t = 1 then [.jump l] else []

/-- All the code for a statement, and the next tag. -/
def gen (tags : Tags) (tag : Nat) : Stmt h → Code h × Nat
  | .empty => ([], tag)
  | .expr e => ([.act e], tag)
  | .seq a b =>
    let (code1, next1) := gen tags tag a
    let (code2, next2) := gen tags next1 b
    (code1 ++ code2, next2)
  | .ifThen e a =>
    let (n, t) := logicExpression e
    let (body, next) := gen tags (tag + 1) a
    (branchCode n t (.e, tag) ++ (body ++ [.label (.e, tag)]), next)
  | .ifElse e a b =>
    let (n, t) := logicExpression e
    let (body1, next1) := gen tags (tag + 1) a
    let (body2, next2) := gen tags next1 b
    (branchCode n t (.e, tag) ++ (body1 ++ (.jump (.f, tag) :: ((if t ≠ 1 then [.label (.e, tag)] else []) ++
      (body2 ++ [.label (.f, tag)])))), next2)
  | .while e a =>
    let (n, t) := logicExpression e
    let (body, next) := gen ⟨tag, tag⟩ (tag + 1) a
    (.label (.c, tag) :: (branchCode n t (.b, tag) ++ (body ++ ((if t ≠ 0 then [.jump (.c, tag)] else []) ++
      [.label (.b, tag)]))), next)
  | .doWhile a e =>
    let (n, t) := logicExpression e
    let (body, next) := gen ⟨tag, tag⟩ (tag + 1) a
    (.label (.t, tag) :: (body ++ (.label (.c, tag) :: (againCode n t (.t, tag) ++ [.label (.b, tag)]))), next)
  | .break => ([.jump (.b, tags.breakTag)], tag)
  | .continue => ([.jump (.c, tags.contTag)], tag)

theorem gen_next (tags : Tags) (tag : Nat) (a : Stmt h) : (statement tags tag a).2 = (gen tags tag a).2 := by
  induction a generalizing tags tag <;> simp [statement, gen, *]

section
variable {tag : Nat} {n : Expr h} {t : BitVec h.intBits} {items : List (Item h)} {type : HType} {code : Code h}

theorem process_header (hcode : processHeader tag t type = (code, none)) :
    process (.header type tag t :: items) = (process items).map (code ++ ·) := by
  rw [process.eq_def]
  simp only [hcode]

theorem process_header_tree {branch : Expr h → Instr Label (Expr h) (Expr h)} {use : Use}
    (hcode : processHeader tag t type = (code, some branch)) :
    process (.header type tag t :: .tree use n :: items) = (process items).map (code ++ branch n :: ·) := by
  rw [process.eq_def]
  simp only [hcode]

/-- The tree is there exactly when the header makes the back end read it. -/
theorem process_if : process (.header .H_IF tag t :: (writeLogicTree n t ++ items)) =
    (process items).map (branchCode n t (.e, tag) ++ ·) := by
  unfold writeLogicTree branchCode
  by_cases hunknown : t = -1
  · rw [if_pos hunknown, if_pos hunknown]
    have hcode : processHeader tag t .H_IF = ([], some fun n => .jfalse n (.e, tag)) := by
      rw [processHeader, if_pos hunknown]
    exact process_header_tree hcode
  · rw [if_neg hunknown, if_neg hunknown]
    by_cases hzero : t = 0
    · exact process_header (by rw [processHeader, if_neg hunknown, if_pos hzero, if_pos hzero])
    · exact process_header (by rw [processHeader, if_neg hunknown, if_neg hzero, if_neg hzero])

theorem process_while : process (.header .H_WHILE tag t :: (writeLogicTree n t ++ items)) =
    (process items).map (.label (.c, tag) :: branchCode n t (.b, tag) ++ ·) := by
  unfold writeLogicTree branchCode
  by_cases hunknown : t = -1
  · rw [if_pos hunknown, if_pos hunknown]
    have hcode : processHeader tag t .H_WHILE = ([.label (.c, tag)], some fun n => .jfalse n (.b, tag)) := by
      rw [processHeader, if_pos hunknown]
    exact process_header_tree hcode
  · rw [if_neg hunknown, if_neg hunknown]
    by_cases hzero : t = 0
    · exact process_header (by rw [processHeader, if_neg hunknown, if_pos hzero, if_pos hzero])
    · exact process_header (by rw [processHeader, if_neg hunknown, if_neg hzero, if_neg hzero])

theorem process_doWhile : process (.header .H_DOWHILE tag t :: (writeLogicTree n t ++ items)) =
    (process items).map (.label (.c, tag) :: againCode n t (.t, tag) ++ ·) := by
  unfold writeLogicTree againCode
  by_cases hunknown : t = -1
  · rw [if_pos hunknown, if_pos hunknown]
    have hcode : processHeader tag t .H_DOWHILE = ([.label (.c, tag)], some fun n => .jtrue n (.t, tag)) := by
      rw [processHeader, if_pos hunknown]
    exact process_header_tree hcode
  · rw [if_neg hunknown, if_neg hunknown]
    by_cases hone : t = 1
    · exact process_header (by rw [processHeader, if_neg hunknown, if_pos hone, if_pos hone])
    · exact process_header (by rw [processHeader, if_neg hunknown, if_neg hone, if_neg hone])

theorem process_else : process (.header .H_ELSE tag t :: items) =
    (process items).map (.jump (.f, tag) :: (if t ≠ 1 then [.label (.e, tag)] else []) ++ ·) :=
  process_header rfl

theorem process_do : process (.header .H_DO tag t :: items) = (process items).map ([.label (.t, tag)] ++ ·) :=
  process_header rfl

theorem process_footer (hcode : processFooter tag t type = some code) :
    process (.footer type tag t :: items) = (process items).map (code ++ ·) := by
  simp only [process, hcode, Option.bind_eq_bind, Option.bind_some]
  cases process items <;> rfl

theorem process_ifEnd : process (.footer .H_IF tag 0 :: items) = (process items).map ([.label (.e, tag)] ++ ·) := by
  have hcode : processFooter tag (0 : BitVec h.intBits) .H_IF = some [.label (.e, tag)] := by
    rw [processFooter, if_neg (not_not_intro rfl)]
  exact process_footer hcode

theorem one_ne_zero_int : (1 : BitVec h.intBits) ≠ 0 := by
  have hwide := h.int_wide
  intro heq
  have hone : (1 : BitVec h.intBits).toNat = 1 := Nat.mod_eq_of_lt (Nat.one_lt_two_pow (by omega))
  rw [heq] at hone
  simp at hone

theorem process_elseEnd : process (.footer .H_IF tag 1 :: items) = (process items).map ([.label (.f, tag)] ++ ·) := by
  have hcode : processFooter tag (1 : BitVec h.intBits) .H_IF = some [.label (.f, tag)] := by
    rw [processFooter, if_pos one_ne_zero_int]
  exact process_footer hcode

theorem process_whileEnd : process (.footer .H_WHILE tag t :: items) =
    (process items).map ((if t ≠ 0 then [.jump (.c, tag)] else []) ++ [.label (.b, tag)] ++ ·) :=
  process_footer rfl

theorem process_doWhileEnd : process (.footer .H_DOWHILE tag t :: items) =
    (process items).map ([.label (.b, tag)] ++ ·) :=
  process_footer rfl

end

/-- The back end reads the stream of a statement to its end, and makes this code. -/
theorem process_statement (tags : Tags) (tag : Nat) (a : Stmt h) (items : List (Item h)) :
    process ((statement tags tag a).1 ++ items) = (process items).map ((gen tags tag a).1 ++ ·) := by
  induction a generalizing tags tag items with
  | empty => simp [statement, gen]
  | expr e => simp [statement, gen, process]
  | seq a b iha ihb =>
    simp only [statement, gen, List.append_assoc, iha, ihb, gen_next, Option.map_map]
    rfl
  | ifThen e a ih =>
    simp only [statement, gen, List.append_assoc, List.cons_append, List.nil_append, process_if, ih,
      process_ifEnd, Option.map_map]
    simp [Function.comp_def]
  | ifElse e a b iha ihb =>
    simp only [statement, gen, List.append_assoc, List.cons_append, List.nil_append, process_if, iha, ihb,
      process_else, process_elseEnd, Option.map_map, gen_next]
    simp [Function.comp_def]
  | «while» e a ih =>
    simp only [statement, gen, List.append_assoc, List.cons_append, List.nil_append, process_while, ih,
      process_whileEnd, Option.map_map]
    simp [Function.comp_def]
  | doWhile a e ih =>
    simp only [statement, gen, List.append_assoc, List.cons_append, List.nil_append, process_do, ih,
      process_doWhile, process_doWhileEnd, Option.map_map]
    simp [Function.comp_def]
  | «break» => exact process_header rfl
  | «continue» => exact process_header rfl

/-! ## Labels -/

@[simp]
theorem labels_branchCode (n : Expr h) (t : BitVec h.intBits) (l : Label) : labels (branchCode n t l) = [] := by
  unfold branchCode
  split
  · rfl
  · split <;> rfl

@[simp]
theorem labels_againCode (n : Expr h) (t : BitVec h.intBits) (l : Label) : labels (againCode n t l) = [] := by
  unfold againCode
  split
  · rfl
  · split <;> rfl

theorem gen_mono (tags : Tags) (tag : Nat) (a : Stmt h) : tag ≤ (gen tags tag a).2 := by
  induction a generalizing tags tag with
  | seq a b iha ihb => exact (iha tags tag).trans (ihb tags _)
  | ifThen e a ih => exact (Nat.le_succ tag).trans (ih tags (tag + 1))
  | ifElse e a b iha ihb => exact (Nat.le_succ tag).trans ((iha tags (tag + 1)).trans (ihb tags _))
  | «while» e a ih => exact (Nat.le_succ tag).trans (ih ⟨tag, tag⟩ (tag + 1))
  | doWhile a e ih => exact (Nat.le_succ tag).trans (ih ⟨tag, tag⟩ (tag + 1))
  | _ => exact le_rfl

/-- The labels of two statements in a row. -/
theorem labels_apart {lo mid hi : Nat} {own rest : List Label} (hown : own.Nodup)
    (hrange : ∀ l ∈ own, lo ≤ l.2 ∧ l.2 < mid) (hrest : rest.Nodup) (hrest' : ∀ l ∈ rest, mid ≤ l.2 ∧ l.2 < hi)
    (hlo : lo ≤ mid) (hhi : mid ≤ hi) : (own ++ rest).Nodup ∧ ∀ l ∈ own ++ rest, lo ≤ l.2 ∧ l.2 < hi := by
  rw [List.nodup_append]
  refine ⟨⟨hown, hrest, ?_⟩, ?_⟩
  · rintro l hl l' hl' rfl
    have := hrange l hl
    have := hrest' l hl'
    omega
  · intro l hl
    rcases List.mem_append.mp hl with hl | hl
    · have := hrange l hl
      omega
    · have := hrest' l hl
      omega

/-- The labels of a statement in any order: first its own, then those of its parts. -/
theorem labels_perm {lo hi : Nat} {all all' : List Label} (hperm : all.Perm all')
    (hall' : all'.Nodup ∧ ∀ l ∈ all', lo ≤ l.2 ∧ l.2 < hi) : all.Nodup ∧ ∀ l ∈ all, lo ≤ l.2 ∧ l.2 < hi :=
  ⟨hperm.nodup_iff.mpr hall'.1, fun l hl => hall'.2 l (hperm.mem_iff.mp hl)⟩

theorem own_labels (names : List LabelName) (tag : Nat) (hnames : names.Nodup) :
    (names.map fun name => ((name, tag) : Label)).Nodup ∧
      ∀ l ∈ names.map fun name => ((name, tag) : Label), tag ≤ l.2 ∧ l.2 < tag + 1 := by
  refine ⟨hnames.map fun _ _ heq => (Prod.mk.inj heq).1, ?_⟩
  simp

/-- The labels of a statement are different and have its own numbers. -/
theorem gen_labels (tags : Tags) (tag : Nat) (a : Stmt h) :
    (labels (gen tags tag a).1).Nodup ∧ ∀ l ∈ labels (gen tags tag a).1, tag ≤ l.2 ∧ l.2 < (gen tags tag a).2 := by
  induction a generalizing tags tag with
  | seq a b iha ihb =>
    have hmonoa := gen_mono tags tag a
    have hmonob := gen_mono tags (gen tags tag a).2 b
    obtain ⟨hnoda, ha⟩ := iha tags tag
    obtain ⟨hnodb, hb⟩ := ihb tags (gen tags tag a).2
    simp only [gen, labels_append]
    exact labels_apart hnoda ha hnodb hb hmonoa hmonob
  | ifThen e a ih =>
    have hmono := gen_mono tags (tag + 1) a
    obtain ⟨hnod, ha⟩ := ih tags (tag + 1)
    obtain ⟨hown, hown'⟩ := own_labels [.e] tag (by decide)
    refine labels_perm ?_ (labels_apart hown hown' hnod ha (Nat.le_succ tag) hmono)
    simp only [gen, labels_append, labels_branchCode, labels, List.nil_append]
    exact List.perm_append_comm
  | ifElse e a b iha ihb =>
    have hmonoa := gen_mono tags (tag + 1) a
    have hmonob := gen_mono tags (gen tags (tag + 1) a).2 b
    obtain ⟨hnoda, ha⟩ := iha tags (tag + 1)
    obtain ⟨hnodb, hb⟩ := ihb tags (gen tags (tag + 1) a).2
    obtain ⟨hbodies, hbodies'⟩ := labels_apart hnoda ha hnodb hb hmonoa hmonob
    have hmono : tag + 1 ≤ (gen tags (gen tags (tag + 1) a).2 b).2 := hmonoa.trans hmonob
    simp only [gen, labels_append, labels_branchCode, labels_ite, labels, List.nil_append]
    split
    · obtain ⟨hown, hown'⟩ := own_labels [.e, .f] tag (by decide)
      refine labels_perm ?_ (labels_apart hown hown' hbodies hbodies' (Nat.le_succ tag) hmono)
      rw [List.perm_iff_count]
      intro l
      simp only [List.count_append, List.map_cons, List.map_nil, List.count_cons, List.count_nil]
      omega
    · obtain ⟨hown, hown'⟩ := own_labels [.f] tag (by decide)
      refine labels_perm ?_ (labels_apart hown hown' hbodies hbodies' (Nat.le_succ tag) hmono)
      rw [List.nil_append, ← List.append_assoc]
      exact List.perm_append_comm
  | «while» e a ih =>
    have hmono := gen_mono ⟨tag, tag⟩ (tag + 1) a
    obtain ⟨hnod, ha⟩ := ih ⟨tag, tag⟩ (tag + 1)
    obtain ⟨hown, hown'⟩ := own_labels [.c, .b] tag (by decide)
    refine labels_perm ?_ (labels_apart hown hown' hnod ha (Nat.le_succ tag) hmono)
    simp only [gen, labels_append, labels_branchCode, labels_ite, labels, ite_self, List.nil_append]
    exact List.perm_append_comm.cons _
  | doWhile a e ih =>
    have hmono := gen_mono ⟨tag, tag⟩ (tag + 1) a
    obtain ⟨hnod, ha⟩ := ih ⟨tag, tag⟩ (tag + 1)
    obtain ⟨hown, hown'⟩ := own_labels [.t, .c, .b] tag (by decide)
    refine labels_perm ?_ (labels_apart hown hown' hnod ha (Nat.le_succ tag) hmono)
    simp only [gen, labels_append, labels_againCode, labels, List.nil_append]
    exact List.perm_append_comm.cons _
  | _ => simp [gen, labels]

/-- Each break and continue is in a loop. -/
def Stmt.Closed : Stmt h → Prop
  | .empty => True
  | .expr _ => True
  | .seq a b => a.Closed ∧ b.Closed
  | .ifThen _ a => a.Closed
  | .ifElse _ a b => a.Closed ∧ b.Closed
  | .while _ _ => True
  | .doWhile _ _ => True
  | .break => False
  | .continue => False

theorem minus_one_ne_one : (-1 : BitVec h.intBits) ≠ 1 := by
  have hwide := h.int_wide
  have hpow : 2 ^ 16 ≤ 2 ^ h.intBits := Nat.pow_le_pow_right (by decide) hwide
  intro heq
  have hnat := congrArg BitVec.toNat heq
  have hone : (1 : BitVec h.intBits).toNat = 1 := Nat.mod_eq_of_lt (show 1 < 2 ^ h.intBits by omega)
  rw [BitVec.toNat_neg, hone, Nat.mod_eq_of_lt (by omega)] at hnat
  omega

theorem targets_branchCode {n : Expr h} {t : BitVec h.intBits} {l l' : Label} (hl : l ∈ targets (branchCode n t l')) :
    l = l' ∧ t ≠ 1 := by
  unfold branchCode at hl
  split at hl
  · next ht => exact ⟨List.mem_singleton.mp hl, ht ▸ minus_one_ne_one⟩
  · split at hl
    · next ht => exact ⟨List.mem_singleton.mp hl, ht ▸ one_ne_zero_int.symm⟩
    · cases hl

theorem targets_againCode {n : Expr h} {t : BitVec h.intBits} {l l' : Label} (hl : l ∈ targets (againCode n t l')) :
    l = l' := by
  unfold againCode at hl
  split at hl
  · exact List.mem_singleton.mp hl
  · split at hl
    · exact List.mem_singleton.mp hl
    · cases hl

/-- A jump goes to a label of the statement, or it is a break or continue of the loop around it. -/
theorem gen_targets {tags : Tags} {tag : Nat} {a : Stmt h} {l : Label} (hl : l ∈ targets (gen tags tag a).1) :
    l ∈ labels (gen tags tag a).1 ∨ (¬ a.Closed ∧ (l = (.b, tags.breakTag) ∨ l = (.c, tags.contTag))) := by
  induction a generalizing tags tag with
  | empty => cases hl
  | expr e => cases hl
  | seq a b iha ihb =>
    simp only [gen, targets_append, labels_append, List.mem_append, Stmt.Closed] at hl ⊢
    rcases hl with hl | hl
    · have := iha hl
      tauto
    · have := ihb hl
      tauto
  | ifThen e a ih =>
    simp only [gen, targets_append, labels_append, labels_branchCode, targets, labels, List.mem_append, Stmt.Closed,
      List.mem_singleton, List.not_mem_nil, or_false, false_or] at hl ⊢
    rcases hl with hl | hl
    · exact .inl (.inr (targets_branchCode hl).1)
    · have := ih hl
      tauto
  | ifElse e a b iha ihb =>
    simp only [gen, targets_append, labels_append, labels_branchCode, targets, labels, targets_ite, labels_ite,
      List.mem_append, Stmt.Closed, List.mem_cons, List.not_mem_nil, or_false, false_or, ite_self] at hl ⊢
    rcases hl with hl | hl | hl | hl
    · obtain ⟨rfl, hone⟩ := targets_branchCode hl
      rw [if_pos hone, List.mem_singleton]
      exact .inl (.inr (.inl rfl))
    · have := iha hl
      tauto
    · tauto
    · have := ihb hl
      tauto
  | «while» e a ih =>
    simp only [gen, targets_append, labels_append, labels_branchCode, targets, labels, targets_ite, labels_ite,
      List.mem_append, List.mem_cons, List.not_mem_nil, or_false, false_or, ite_self] at hl ⊢
    rcases hl with hl | hl | hl
    · exact .inl (.inr (.inr (targets_branchCode hl).1))
    · have := ih hl
      simp only at this
      tauto
    · split at hl
      · rw [List.mem_singleton] at hl
        tauto
      · cases hl
  | doWhile a e ih =>
    simp only [gen, targets_append, labels_append, labels_againCode, targets, labels, List.mem_append, List.mem_cons,
      List.not_mem_nil, or_false, false_or] at hl ⊢
    rcases hl with hl | hl
    · have := ih hl
      simp only at this
      tauto
    · exact .inl (.inl (targets_againCode hl))
  | «break» =>
    rw [gen, targets, targets, List.mem_singleton] at hl
    exact .inr ⟨id, .inl hl⟩
  | «continue» =>
    rw [gen, targets, targets, List.mem_singleton] at hl
    exact .inr ⟨id, .inr hl⟩

/-- Each label that is jumped to is there exactly once. -/
theorem gen_label_once {tags : Tags} {tag : Nat} {a : Stmt h} (hclosed : a.Closed) {l : Label}
    (hl : l ∈ targets (gen tags tag a).1) : (labels (gen tags tag a).1).count l = 1 := by
  rcases gen_targets hl with hl | ⟨hopen, -⟩
  · exact List.count_eq_one_of_mem (gen_labels tags tag a).1 hl
  · exact absurd hclosed hopen

/-! ## The tree is there when the header says unknown -/

def HType.hasCondition : HType → Prop
  | .H_IF => True
  | .H_WHILE => True
  | .H_DOWHILE => True
  | _ => False

/-- A header with a condition says unknown exactly if the tree of the condition follows it. -/
def Synced : List (Item h) → Prop
  | [] => True
  | .header type _ data :: items =>
    (type.hasCondition → (data = -1 ↔ ∃ n rest, items = .tree .condition n :: rest)) ∧ Synced items
  | .footer _ _ _ :: items => Synced items
  | .tree _ _ :: items => Synced items

/-- No condition comes next. -/
def NoCondition : List (Item h) → Prop
  | .tree .condition _ :: _ => False
  | _ => True

theorem synced_condition {type : HType} {tag : Nat} {n : Expr h} {t : BitVec h.intBits} {items : List (Item h)}
    (hsynced : Synced items) (hnone : NoCondition items) :
    Synced (.header type tag t :: (writeLogicTree n t ++ items)) := by
  unfold writeLogicTree
  by_cases hunknown : t = -1
  · rw [if_pos hunknown]
    exact ⟨fun _ => ⟨fun _ => ⟨n, items, rfl⟩, fun _ => hunknown⟩, hsynced⟩
  · rw [if_neg hunknown]
    refine ⟨fun _ => ⟨fun ht => absurd ht hunknown, ?_⟩, hsynced⟩
    rintro ⟨n', rest, heq⟩
    rw [List.nil_append] at heq
    rw [heq] at hnone
    exact hnone.elim

theorem statement_noCondition (tags : Tags) (tag : Nat) (a : Stmt h) {items : List (Item h)} (hnone : NoCondition items) :
    NoCondition ((statement tags tag a).1 ++ items) := by
  induction a generalizing tags tag items with
  | seq a b iha ihb =>
    simp only [statement, List.append_assoc]
    exact iha _ _ (ihb _ _ hnone)
  | empty => exact hnone
  | _ => exact trivial

theorem statement_synced (tags : Tags) (tag : Nat) (a : Stmt h) {items : List (Item h)} (hsynced : Synced items)
    (hnone : NoCondition items) : Synced ((statement tags tag a).1 ++ items) := by
  induction a generalizing tags tag items with
  | empty => exact hsynced
  | expr e => exact hsynced
  | seq a b iha ihb =>
    simp only [statement, List.append_assoc]
    exact iha _ _ (ihb _ _ hsynced hnone) (statement_noCondition _ _ b hnone)
  | ifThen e a ih =>
    simp only [statement, List.append_assoc, List.cons_append, List.nil_append]
    exact synced_condition (ih _ _ hsynced trivial) (statement_noCondition _ _ a trivial)
  | ifElse e a b iha ihb =>
    simp only [statement, List.append_assoc, List.cons_append, List.nil_append]
    exact synced_condition (iha _ _ ⟨nofun, ihb _ _ hsynced trivial⟩ trivial) (statement_noCondition _ _ a trivial)
  | «while» e a ih =>
    simp only [statement, List.append_assoc, List.cons_append, List.nil_append]
    exact synced_condition (ih _ _ hsynced trivial) (statement_noCondition _ _ a trivial)
  | doWhile a e ih =>
    simp only [statement, List.append_assoc, List.cons_append, List.nil_append]
    exact ⟨nofun, ih _ _ (synced_condition hsynced trivial) trivial⟩
  | «break» => exact ⟨nofun, hsynced⟩
  | «continue» => exact ⟨nofun, hsynced⟩

end Fuzemsys.Fcc.Statement
