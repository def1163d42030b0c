import Fuzemsys.Fcc.Frontend

/-!
# Characters of the source

`get`, `unget` and `get_nb` of the tokenizer. At the end of the source `get` returns
zero, as often as it is called. `none` is a fatal error.
-/

namespace Fuzemsys.Fcc

variable {h : Host}

structure Source (h : Host) where
  front : Frontend h
  inp : List Byte
  /-- The last one pushed comes first. -/
  pushback : List Byte
  isnl : Bool
  lastbslash : Bool

/-! ## The # directives take input -/

theorem directiveName_length (p : Nat) (filename inp : List Byte) :
    (directiveName p filename inp).2.2.length ≤ inp.length := by
  induction inp generalizing p filename with
  | nil => exact le_rfl
  | cons c inp ih =>
    unfold directiveName
    by_cases hquote : c = 0x22
    · rw [if_pos hquote]
      exact Nat.le_succ _
    · rw [if_neg hquote]
      dsimp only
      generalize (if p = 0 ∧ c = 0x3C then 32 else p) = p
      split
      · exact (ih _ _).trans (Nat.le_succ _)
      · split <;> exact (ih _ _).trans (Nat.le_succ _)

theorem directiveEnd_length {s s' : Frontend h} {inp rest : List Byte}
    (hend : directiveEnd s inp = some (s', rest)) : rest.length ≤ inp.length := by
  have hdrop := (List.dropWhile_suffix (l := inp) (· ≠ 0x0A)).length_le
  unfold directiveEnd at hend
  split at hend
  · cases hend
  · next heq =>
    cases hend
    rw [heq, List.length_cons] at hdrop
    omega

theorem directiveFile_length {s s' : Frontend h} {inp rest : List Byte}
    (hfile : directiveFile s inp = some (s', rest)) : rest.length ≤ inp.length := by
  unfold directiveFile at hfile
  split at hfile
  · next inp =>
    have hend := directiveEnd_length hfile
    have hname := directiveName_length 0 s.filename inp
    exact hend.trans (hname.trans (Nat.le_succ _))
  · have hend := directiveEnd_length hfile
    rw [List.length_tail] at hend
    omega

theorem directive_length {s s' : Frontend h} {inp rest : List Byte}
    (hdirective : directive s inp = some (s', rest)) : rest.length ≤ inp.length := by
  have hspace := (List.dropWhile_suffix (l := inp) isspace).length_le
  have hdigit := (List.dropWhile_suffix (l := inp.dropWhile isspace) isdigit).length_le
  unfold directive at hdirective
  dsimp only at hdirective
  split at hdirective
  · cases hdirective
  · next heq =>
    rw [heq, List.length_cons] at hdigit
    split at hdirective
    · cases hdirective
      omega
    · have hfile := directiveFile_length hdirective
      omega

/-! ## One character -/

/-- While there is a `#`, at the start of a line. -/
def skipDirectives (s : Frontend h) (inp : List Byte) : Option (Frontend h × List Byte) :=
  match inp with
  | 0x23 :: rest =>
    match _hdirective : directive s rest with
    | some (s, rest) => skipDirectives s rest
    | none => none
  | inp => some (s, inp)
termination_by inp.length
decreasing_by
  have := directive_length _hdirective
  simp only [List.length_cons]
  omega

/-- The next character, which may be a backslash. -/
def Source.bgetc (s : Source h) : Byte × Source h :=
  match s.inp with
  | [] => (0, { s with lastbslash := false })
  | c :: inp => (c, { s with inp := inp, lastbslash := c = 0x5C })

def Source.newline (s : Source h) : Source h :=
  { s with front := { s.front with line := s.front.line + 1 }, isnl := true }

def Source.lineStart (s : Source h) : Option (Source h) :=
  if s.isnl then (skipDirectives s.front s.inp).map fun (front, inp) => { s with front := front, inp := inp }
  else some s

def Source.getc (s : Source h) : Byte × Source h :=
  match s.inp with
  | 0x0A :: inp =>
    -- backslash newline continuation
    if s.lastbslash then { s.newline with inp := inp }.bgetc else s.newline.bgetc
  | _ => { s with isnl := false }.bgetc

def get (s : Source h) : Option (Byte × Source h) :=
  match s.pushback with
  | c :: _ => some (c, { if c = 0x0A then s.newline else s with pushback := [] })
  | [] => s.lineStart.map Source.getc

def unget (s : Source h) (c : Byte) : Option (Source h) :=
  if s.pushback.length > 2 then none
  else
    let s := { s with pushback := c :: s.pushback }
    some (if c = 0x0A then { s with front := { s.front with line := s.front.line - 1 } } else s)

/-! ## The next character that is not a space -/

def Source.size (s : Source h) : Nat := s.pushback.length + s.inp.length

theorem skipDirectives_length {s s' : Frontend h} {inp rest : List Byte}
    (hskip : skipDirectives s inp = some (s', rest)) : rest.length ≤ inp.length := by
  fun_induction skipDirectives s inp with
  | case1 s rest1 s1 rest2 hdirective ih =>
    have := ih hskip
    have := directive_length hdirective
    rw [List.length_cons]
    omega
  | case2 s rest1 hdirective => cases hskip
  | case3 s inp hother =>
    cases hskip
    exact le_rfl

theorem lineStart_size {s s' : Source h} (hstart : s.lineStart = some s') : s'.size ≤ s.size := by
  unfold Source.lineStart at hstart
  split at hstart
  · obtain ⟨⟨front, inp⟩, hskip, rfl⟩ := Option.map_eq_some_iff.mp hstart
    have := skipDirectives_length hskip
    simp only [Source.size]
    omega
  · cases hstart
    exact le_rfl

theorem bgetc_size {s : Source h} (hc : s.bgetc.1 ≠ 0) : s.bgetc.2.size < s.size := by
  unfold Source.bgetc at hc ⊢
  split
  · next heq => simp [heq] at hc
  · next heq => simp [Source.size, heq]

theorem getc_size {s : Source h} (hc : s.getc.1 ≠ 0) : s.getc.2.size < s.size := by
  unfold Source.getc at hc ⊢
  split at hc
  · next inp heq =>
    split at hc
    · next hbslash =>
      rw [if_pos hbslash]
      have hlt := bgetc_size hc
      simp only [Source.size, Source.newline, heq, List.length_cons] at hlt ⊢
      omega
    · next hbslash =>
      rw [if_neg hbslash]
      exact bgetc_size hc
  · exact bgetc_size hc

theorem get_size {s s' : Source h} {c : Byte} (hget : get s = some (c, s')) (hc : c ≠ 0) : s'.size < s.size := by
  unfold get at hget
  split at hget
  · next heq =>
    cases hget
    simp only [Source.size, heq]
    split <;> simp [Source.newline]
  · obtain ⟨s1, hstart, heq⟩ := Option.map_eq_some_iff.mp hget
    have hle := lineStart_size hstart
    have hlt : s1.getc.2.size < s1.size := getc_size (by rwa [heq])
    rw [heq] at hlt
    exact lt_of_lt_of_le hlt hle

/-- It is zero at the end. -/
def getNb (s : Source h) : Option (Byte × Source h) :=
  match _hget : get s with
  | none => none
  | some (c, s') => if _hc : c ≠ 0 ∧ isspace c then getNb s' else some (c, s')
termination_by s.size
decreasing_by exact get_size _hget _hc.1

/-! ## Reading ahead -/

/-- `c` was the last character, and it is not pushed back. -/
structure Source.After (s : Source h) (c : Byte) (rest : List Byte) : Prop where
  pushback : s.pushback = []
  inp : s.inp = rest
  isnl : s.isnl = decide (c = 0x0A)
  lastbslash : s.lastbslash = decide (c = 0x5C)

/-- In the middle of a line. -/
structure Source.At (s : Source h) (bytes : List Byte) : Prop where
  ahead : s.pushback ++ s.inp = bytes
  one : s.pushback.length ≤ 1
  isnl : s.isnl = false
  pushed : ∀ c ∈ s.pushback, c ≠ 0x0A ∧ s.lastbslash = decide (c = 0x5C)

variable {s : Source h} {c : Byte} {rest : List Byte}

theorem skipDirectives_other {front : Frontend h} (hc : c ≠ 0x23) :
    skipDirectives front (c :: rest) = some (front, c :: rest) := by
  rw [skipDirectives.eq_def]
  split
  · next heq =>
    cases heq
    exact absurd rfl hc
  · rfl

theorem lineStart_eq (hinp : s.inp = c :: rest) (hhash : s.isnl = true → c ≠ 0x23) : s.lineStart = some s := by
  unfold Source.lineStart
  split
  · next hnl =>
    rw [hinp, skipDirectives_other (hhash hnl), Option.map_some, ← hinp]
  · rfl

theorem getc_after (hpush : s.pushback = []) (hinp : s.inp = c :: rest)
    (hline : c = 0x0A → s.lastbslash = false) : ∃ s', s.getc = (c, s') ∧ s'.After c rest := by
  by_cases hc : c = 0x0A
  · have hbslash := hline hc
    subst hc
    simp only [Source.getc, hinp, hbslash, Bool.false_eq_true, if_false, Source.bgetc, Source.newline]
    exact ⟨_, rfl, hpush, rfl, rfl, rfl⟩
  · have hgetc : s.getc = { s with isnl := false }.bgetc := by
      unfold Source.getc
      split
      · next heq =>
        rw [hinp] at heq
        cases heq
        exact absurd rfl hc
      · rfl
    rw [hgetc]
    simp only [Source.bgetc, hinp]
    exact ⟨_, rfl, hpush, rfl, (decide_eq_false hc).symm, rfl⟩

theorem get_after {last : Byte} (hs : s.After last (c :: rest)) (hline : last = 0x5C → c ≠ 0x0A)
    (hhash : last = 0x0A → c ≠ 0x23) : ∃ s', get s = some (c, s') ∧ s'.After c rest := by
  have hstart : s.lineStart = some s := by
    apply lineStart_eq hs.inp
    intro hnl
    rw [hs.isnl, decide_eq_true_iff] at hnl
    exact hhash hnl
  obtain ⟨s', hgetc, hafter⟩ := getc_after hs.pushback hs.inp fun hc => by
    rw [hs.lastbslash, decide_eq_false_iff_not]
    exact fun hlast => hline hlast hc
  refine ⟨s', ?_, hafter⟩
  simp only [get, hs.pushback, hstart, Option.map_some, hgetc]

theorem Source.After.at {last : Byte} (hs : s.After last rest) (hlast : last ≠ 0x0A) : s.At rest where
  ahead := by rw [hs.pushback, hs.inp, List.nil_append]
  one := by simp [hs.pushback]
  isnl := by rw [hs.isnl, decide_eq_false hlast]
  pushed := by simp [hs.pushback]

theorem get_at (hs : s.At (c :: rest)) (hc : c ≠ 0x0A) : ∃ s', get s = some (c, s') ∧ s'.After c rest := by
  have hahead := hs.ahead
  have hone := hs.one
  cases hpush : s.pushback with
  | nil =>
    rw [hpush, List.nil_append] at hahead
    have hstart := lineStart_eq hahead (by simp [hs.isnl])
    obtain ⟨s', hgetc, hafter⟩ := getc_after hpush hahead (absurd · hc)
    refine ⟨s', ?_, hafter⟩
    simp only [get, hpush, hstart, Option.map_some, hgetc]
  | cons c' cs =>
    rw [hpush, List.length_cons] at hone
    have hcs : cs = [] := List.eq_nil_of_length_eq_zero (by omega)
    rw [hpush, hcs, List.cons_append, List.nil_append] at hahead
    cases hahead
    refine ⟨{ s with pushback := [] }, ?_, rfl, rfl, ?_, ?_⟩
    · simp only [get, hpush, if_neg hc]
    · rw [hs.isnl, decide_eq_false hc]
    · exact (hs.pushed c (by simp [hpush])).2

theorem unget_after (hs : s.After c rest) (hc : c ≠ 0x0A) : ∃ s', unget s c = some s' ∧ s'.At (c :: rest) := by
  refine ⟨{ s with pushback := [c] }, ?_, ?_, le_rfl, ?_, ?_⟩
  · unfold unget
    rw [if_neg (by simp [hs.pushback])]
    dsimp only
    rw [if_neg hc, hs.pushback]
  · simp [hs.inp]
  · rw [hs.isnl, decide_eq_false hc]
  · intro c' hc'
    rw [List.mem_singleton.mp hc']
    exact ⟨hc, hs.lastbslash⟩

theorem isspace_cases (hc : isspace c = true) : c ≠ 0x5C ∧ c ≠ 0x23 ∧ c ≠ 0 := by
  refine ⟨?_, ?_, ?_⟩ <;> rintro rfl <;> exact absurd hc (by decide)

theorem getNb_other {s' : Source h} (hget : get s = some (c, s')) (hc : isspace c = false) :
    getNb s = some (c, s') := by
  rw [getNb]
  split
  · next heq => rw [hget] at heq; cases heq
  · next heq =>
    rw [hget] at heq
    cases heq
    rw [dif_neg (by simp [hc])]

theorem getNb_space {s' : Source h} (hget : get s = some (c, s')) (hc : isspace c = true) :
    getNb s = getNb s' := by
  rw [getNb]
  split
  · next heq => rw [hget] at heq; cases heq
  · next heq =>
    rw [hget] at heq
    cases heq
    rw [dif_pos ⟨(isspace_cases hc).2.2, hc⟩]

/-- The spaces may be newlines, but then there is no directive. -/
theorem getNb_gap {last : Byte} {gap : List Byte} (hs : s.After last (gap ++ c :: rest)) (hlast : last ≠ 0x5C)
    (hspaces : ∀ g ∈ gap, isspace g = true) (hc : isspace c = false) (hhash : c ≠ 0x23) :
    ∃ s', getNb s = some (c, s') ∧ s'.After c rest := by
  induction gap generalizing s last with
  | nil =>
    obtain ⟨s', hget, hafter⟩ := get_after hs (absurd · hlast) fun _ => hhash
    exact ⟨s', getNb_other hget hc, hafter⟩
  | cons g gap ih =>
    have hg := hspaces g List.mem_cons_self
    obtain ⟨s1, hget, hafter1⟩ := get_after hs (absurd · hlast) fun _ => (isspace_cases hg).2.1
    obtain ⟨s', hnb, hafter⟩ := ih hafter1 (isspace_cases hg).1 fun g' hg' => hspaces g' (List.mem_cons_of_mem _ hg')
    exact ⟨s', (getNb_space hget hg).trans hnb, hafter⟩

theorem get_pushback {s' : Source h} (hget : get s = some (c, s')) : s'.pushback = [] := by
  unfold get at hget
  split at hget
  · cases hget
    rfl
  · next hpush =>
    obtain ⟨s1, hstart, heq⟩ := Option.map_eq_some_iff.mp hget
    have hpush1 : s1.pushback = [] := by
      unfold Source.lineStart at hstart
      split at hstart
      · obtain ⟨⟨front, inp⟩, -, rfl⟩ := Option.map_eq_some_iff.mp hstart
        exact hpush
      · cases hstart
        exact hpush
    have hgetc : s1.getc.2.pushback = [] := by
      unfold Source.getc Source.bgetc
      split
      · split <;> split <;> exact hpush1
      · split <;> exact hpush1
    rw [heq] at hgetc
    exact hgetc

theorem getNb_pushback {s' : Source h} (hget : getNb s = some (c, s')) : s'.pushback = [] := by
  fun_induction getNb s with
  | case1 s hnone => cases hget
  | case2 s c1 s1 hget1 hspace ih => exact ih hget
  | case3 s c1 s1 hget1 hother =>
    cases hget
    exact get_pushback hget1

end Fuzemsys.Fcc
