import Fuzemsys.Fcc.IntegerConstant

/-!
# Reading the digits of a constant

Each loop over digits is a fold over the digits of the text.
-/

open Fuzemsys.Lib

namespace Fuzemsys.Fcc

variable {h : Host} {s : Source h} {c last : Byte} {ds ls rest : List Byte} {sum : BitVec 32} {ex : BitVec h.intBits}

/-! ## One character -/

/-- Not what ends a line or goes on with it. -/
def InLine (c : Byte) : Prop := c ≠ 0x5C ∧ c ≠ 0x0A

/-- At the end of the source there is a zero. -/
theorem get_next (hs : s.After last rest) (hlast : InLine last) :
    ∃ s', get s = some (rest.headD 0, s') ∧ s'.After (rest.headD 0) rest.tail := by
  cases rest with
  | cons c rest => exact get_after hs (absurd · hlast.1) (absurd · hlast.2)
  | nil =>
    have hnl : s.isnl = false := by rw [hs.isnl, decide_eq_false hlast.2]
    have hinp := hs.inp
    refine ⟨{ s with isnl := false, lastbslash := false }, ?_, hs.pushback, hinp, rfl, rfl⟩
    have hstart : s.lineStart = some s := by simp [Source.lineStart, hnl]
    have hgetc : s.getc = (0, { s with isnl := false, lastbslash := false }) := by
      simp [Source.getc, hinp, Source.bgetc]
    simp only [get, hs.pushback, hstart, Option.map_some, hgetc]
    rfl

theorem unget_pushes (hs : s.pushback = []) (c : Byte) : ∃ s', unget s c = some s' ∧ s'.pushback = [c] := by
  refine ⟨_, if_neg (by simp [hs]), ?_⟩
  dsimp only
  split <;> simp [hs]

theorem get_pushed (hs : s.pushback = [c]) : ∃ s', get s = some (c, s') ∧ s'.pushback = [] := by
  simp [get, hs]

/-! ## Digits -/

theorem inLine_of_isxdigit (hc : isxdigit c = true) : InLine c := by
  constructor <;> rintro rfl <;> exact absurd hc (by decide)

theorem inLine_zero : InLine 0x30 := inLine_of_isxdigit (by decide)

theorem isxdigit_of_isdigit (hc : isdigit c = true) : isxdigit c = true := by
  simp [isxdigit, hc]

theorem isdigit_of_isoctal (hc : isoctal c = true) : isdigit c = true := by
  simp only [isoctal, isdigit, Bool.and_eq_true, decide_eq_true_eq, BitVec.le_def] at hc ⊢
  exact ⟨hc.1, hc.2.trans (by decide)⟩

def decFold (p : BitVec 32 × BitVec h.intBits) (ds : List Byte) : BitVec 32 × BitVec h.intBits :=
  ds.foldl (fun p d => fitDigit (digit d) p.1 p.2) p

theorem decDigits_run (hds : ∀ d ∈ ds, isdigit d = true) (hrest : isdigit (rest.headD 0) = false)
    (hs : s.After ((ds ++ rest).headD 0) (ds ++ rest).tail) (sum : BitVec 32) (ex : BitVec h.intBits) :
    ∃ s', decDigits sum ex ((ds ++ rest).headD 0) s =
        some ((decFold (sum, ex) ds).1, (decFold (sum, ex) ds).2, rest.headD 0, s') ∧
      s'.After (rest.headD 0) rest.tail := by
  induction ds generalizing s sum ex with
  | nil =>
    refine ⟨s, ?_, hs⟩
    rw [List.nil_append, decDigits, dif_neg (by simp only [hrest]; decide)]
    rfl
  | cons d ds ih =>
    have hd := hds d List.mem_cons_self
    obtain ⟨s', hget, hafter⟩ := get_next hs (inLine_of_isxdigit (isxdigit_of_isdigit hd))
    obtain ⟨s'', hrun, hend⟩ := ih (fun d hd => hds d (List.mem_cons_of_mem _ hd)) hafter
      (fitDigit (digit d) sum ex).1 (fitDigit (digit d) sum ex).2
    refine ⟨s'', ?_, hend⟩
    rw [decDigits, dif_pos (by exact hd)]
    split
    · next heq => rw [hget] at heq; cases heq
    · next heq =>
      rw [hget] at heq
      cases heq
      exact hrun

def hexFold (p : BitVec 32 × BitVec h.intBits) (ds : List Byte) : BitVec 32 × BitVec h.intBits :=
  ds.foldl (fun p d => if p.1 <<< 4 ≥ p.1 then (p.1 <<< 4 + (unhex d).setWidth 32, p.2) else (p.1, p.2 + 4)) p

theorem hexDigits_run (hds : ∀ d ∈ ds, isxdigit d = true) (hrest : isxdigit (rest.headD 0) = false)
    (hs : s.After last (ds ++ rest)) (hlast : InLine last) (n sum : BitVec 32) (ex : BitVec h.intBits) :
    ∃ n' s', hexDigits n sum ex s =
        some (n', (hexFold (sum, ex) ds).1, (hexFold (sum, ex) ds).2, rest.headD 0, s') ∧
      s'.After (rest.headD 0) rest.tail := by
  induction ds generalizing s last n sum ex with
  | nil =>
    obtain ⟨s', hget, hafter⟩ := get_next hs hlast
    refine ⟨n, s', ?_, hafter⟩
    rw [hexDigits]
    split
    · next heq => rw [List.nil_append] at hget; rw [hget] at heq; cases heq
    · next heq =>
      rw [List.nil_append] at hget
      rw [hget] at heq
      cases heq
      rw [dif_neg (by simp only [hrest]; decide)]
      rfl
  | cons d ds ih =>
    have hd := hds d List.mem_cons_self
    obtain ⟨s', hget, hafter⟩ := get_next hs hlast
    have ih := @ih s' d (fun d hd => hds d (List.mem_cons_of_mem _ hd)) hafter (inLine_of_isxdigit hd)
    rw [hexDigits]
    split
    · next heq => rw [hget] at heq; cases heq
    · next heq =>
      rw [hget] at heq
      cases heq
      rw [dif_pos (by exact hd)]
      unfold hexFold
      rw [List.foldl_cons]
      by_cases hfit : sum <<< 4 ≥ sum
      · simp only [if_pos hfit]
        exact ih _ _ _
      · simp only [if_neg hfit]
        exact ih _ _ _

def octFold (sum : BitVec 32) (ds : List Byte) : BitVec 32 := ds.foldl (fun sum d => sum <<< 3 + digit d) sum

theorem octDigits_run (hds : ∀ d ∈ ds, isoctal d = true) (hrest : isoctal (rest.headD 0) = false)
    (hs : s.After ((ds ++ rest).headD 0) (ds ++ rest).tail) (sum : BitVec 32) :
    ∃ s', octFormatDigits sum ((ds ++ rest).headD 0) s =
        (unget s' (rest.headD 0)).map (fun s => (octFold sum ds, s)) ∧
      s'.After (rest.headD 0) rest.tail := by
  induction ds generalizing s sum with
  | nil =>
    refine ⟨s, ?_, hs⟩
    rw [List.nil_append, octFormatDigits, dif_neg (by simp only [hrest]; decide)]
    rfl
  | cons d ds ih =>
    have hd := hds d List.mem_cons_self
    obtain ⟨s', hget, hafter⟩ := get_next hs (inLine_of_isxdigit (isxdigit_of_isdigit (isdigit_of_isoctal hd)))
    obtain ⟨s'', hrun, hend⟩ := ih (fun d hd => hds d (List.mem_cons_of_mem _ hd)) hafter (sum <<< 3 + digit d)
    refine ⟨s'', ?_, hend⟩
    rw [octFormatDigits, dif_pos (by exact hd)]
    split
    · next heq => rw [hget] at heq; cases heq
    · next heq =>
      rw [hget] at heq
      cases heq
      exact hrun

/-- How often the sum falls. -/
def octFalls (sum : BitVec 32) : List Byte → Nat
  | [] => 0
  | d :: ds =>
    let n := sum <<< 3 + digit d
    if n < sum then octFalls n ds + 1 else octFalls n ds

theorem octErrors_run (hds : ∀ d ∈ ds, isoctal d = true) (hrest : isoctal (rest.headD 0) = false)
    (hs : s.After ((ds ++ rest).headD 0) (ds ++ rest).tail) (sum : BitVec 32) :
    octFormatErrors sum ((ds ++ rest).headD 0) s = some (octFalls sum ds) := by
  induction ds generalizing s sum with
  | nil =>
    rw [List.nil_append, octFormatErrors, dif_neg (by simp only [hrest]; decide)]
    rfl
  | cons d ds ih =>
    have hd := hds d List.mem_cons_self
    obtain ⟨s', hget, hafter⟩ := get_next hs (inLine_of_isxdigit (isxdigit_of_isdigit (isdigit_of_isoctal hd)))
    have ih := ih (fun d hd => hds d (List.mem_cons_of_mem _ hd)) hafter (sum <<< 3 + digit d)
    rw [octFormatErrors, dif_pos (by exact hd)]
    split
    · next heq => rw [hget] at heq; cases heq
    · next heq =>
      rw [hget] at heq
      cases heq
      simp only [octFalls]
      exact (congrArg (Option.map _) ih).trans (by simp only [Option.map_some]; rfl)

/-! ## Suffixes -/

theorem inLine_of_letter {f f' : Suffix} (hc : f.letter c = some f') : InLine c := by
  constructor <;> rintro rfl <;> simp [Suffix.letter, toupper] at hc

theorem suffixes_stop {f : Suffix} (hs : s.pushback = [c]) (hend : f.letter c = none) :
    ∃ s', suffixes f s = some (f, s') := by
  obtain ⟨s', hget, hpush⟩ := get_pushed hs
  obtain ⟨s'', hunget, -⟩ := unget_pushes hpush c
  refine ⟨s'', ?_⟩
  rw [suffixes]
  split
  · next heq => rw [hget] at heq; cases heq
  · next heq =>
    rw [hget] at heq
    cases heq
    split
    · next hletter => rw [hend] at hletter; cases hletter
    · rw [hunget]
      rfl

theorem suffixes_letter {f f' : Suffix} {s' : Source h} (hget : get s = some (c, s')) (hc : f.letter c = some f') :
    suffixes f s = suffixes f' s' := by
  rw [suffixes]
  split
  · next heq => rw [hget] at heq; cases heq
  · next heq =>
    rw [hget] at heq
    cases heq
    split
    · next hletter =>
      rw [hc] at hletter
      cases hletter
      rfl
    · next hletter => rw [hc] at hletter; cases hletter

theorem suffixes_after {f f' : Suffix} (hs : s.After last (ls ++ rest)) (hlast : InLine last)
    (hf : ls.foldlM Suffix.letter f = some f') (hend : f'.letter (rest.headD 0) = none) :
    ∃ s', suffixes f s = some (f', s') := by
  induction ls generalizing s last f with
  | nil =>
    cases hf
    obtain ⟨s', hget, hafter⟩ := get_next hs hlast
    rw [List.nil_append] at hget hafter
    obtain ⟨s'', hunget, -⟩ := unget_pushes hafter.pushback (rest.headD 0)
    refine ⟨s'', ?_⟩
    rw [suffixes]
    split
    · next heq => rw [hget] at heq; cases heq
    · next heq =>
      rw [hget] at heq
      cases heq
      split
      · next hletter => rw [hend] at hletter; cases hletter
      · rw [hunget]
        rfl
  | cons l ls ih =>
    rw [List.foldlM_cons] at hf
    obtain ⟨f1, hl, hf⟩ := Option.bind_eq_some_iff.mp hf
    obtain ⟨s', hget, hafter⟩ := get_next hs hlast
    rw [suffixes_letter hget hl]
    exact ih hafter (inLine_of_letter hl) hf

/-- The character after the digits is pushed back first. -/
theorem suffixes_unget {f f' : Suffix} (hs : s.After ((ls ++ rest).headD 0) (ls ++ rest).tail)
    (hf : ls.foldlM Suffix.letter f = some f') (hend : f'.letter (rest.headD 0) = none) :
    ∃ s' s'', unget s ((ls ++ rest).headD 0) = some s' ∧ suffixes f s' = some (f', s'') := by
  cases ls with
  | nil =>
    cases hf
    obtain ⟨s', hunget, hpush⟩ := unget_pushes hs.pushback (rest.headD 0)
    obtain ⟨s'', hstop⟩ := suffixes_stop hpush hend
    exact ⟨s', s'', hunget, hstop⟩
  | cons l ls =>
    rw [List.foldlM_cons] at hf
    obtain ⟨f1, hl, hf⟩ := Option.bind_eq_some_iff.mp hf
    have hline := inLine_of_letter hl
    obtain ⟨s', hunget, hat⟩ := unget_after hs hline.2
    obtain ⟨s1, hget, hafter⟩ := get_at hat hline.2
    obtain ⟨s'', hrun⟩ := suffixes_after hafter hline hf hend
    exact ⟨s', s'', hunget, (suffixes_letter hget hl).trans hrun⟩

end Fuzemsys.Fcc
