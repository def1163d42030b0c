import Fuzemsys.Fcc.TokenizeWeight

/-!
# The tokenizer pass ends

Where it does not: in a string literal that the source ends in, and in a number whose
value `convert_fix32` cannot shift up.
-/

open Fuzemsys.Lib

namespace Fuzemsys.Fcc.Tokenizer

variable {h : Host} {s s1 s' : Source h} {c : Byte} {u : Unspecified h} {st st' : State h}

/-! ## String literals -/

theorem eq_zero_of_weigh (hc : weigh c = 0) : c = 0 := by
  by_contra hne
  rw [weigh_pos hne] at hc
  cases hc

/-- Nothing but zeros is left. -/
theorem get_of_weight_zero (hs : s.weight = 0) : ∃ s', get s = some (0, s') ∧ s'.weight = 0 := by
  have hinp : s.inp = [] := by
    apply List.eq_nil_of_length_eq_zero
    unfold Source.weight at hs
    omega
  obtain ⟨s', hget⟩ : ∃ s', get s = some (0, s') := by
    unfold get
    split
    · next c cs hpush =>
      simp only [Source.weight, hpush, List.map_cons, List.sum_cons] at hs
      rw [eq_zero_of_weigh (c := c) (by omega)]
      exact ⟨_, rfl⟩
    · unfold Source.lineStart
      split
      · rw [hinp, skipDirectives]
        · simp [Source.getc, Source.bgetc]
        · simp
      · simp [Source.getc, Source.bgetc, hinp]
  refine ⟨s', hget, ?_⟩
  have := get_weight hget
  omega

/-- The end of the source is no quote, so the loop goes on. -/
theorem stringTurn_exhausted (x : List Byte × Source h) (hx : x.2.weight = 0) :
    ∃ x', stringTurn x = some (.inl x') ∧ x'.2.weight = 0 := by
  obtain ⟨out, s⟩ := x
  obtain ⟨s', hget, hs'⟩ := get_of_weight_zero hx
  refine ⟨(out ++ outbyteQuoted 0, s'), ?_, hs'⟩
  simp [stringTurn, hget, stringChar]

/-- A turn takes input, or a zero that was pushed back. -/
def stringMeasure (x : List Byte × Source h) : Nat := 2 * x.2.weight + x.2.pushback.length

theorem bgetc_weight_lt (hpush : s.pushback = []) (hinp : s.inp ≠ []) : s.bgetc.2.weight < s.weight := by
  unfold Source.bgetc
  split
  · next heq => exact absurd heq hinp
  · next heq => simp [Source.weight, heq, hpush]

theorem getc_weight_lt (hpush : s.pushback = []) (hinp : s.inp ≠ []) : s.getc.2.weight < s.weight := by
  unfold Source.getc
  split
  · next inp heq =>
    split
    · have hle := bgetc_weight { s.newline with inp := inp }
      simp only [Source.weight, Source.newline, heq, List.length_cons] at hle ⊢
      omega
    · exact bgetc_weight_lt (s := s.newline) hpush hinp
  · exact bgetc_weight_lt (s := { s with isnl := false }) hpush hinp

theorem lineStart_pushback (hstart : s.lineStart = some s') : s'.pushback = s.pushback := by
  unfold Source.lineStart at hstart
  split at hstart
  · obtain ⟨x, -, rfl⟩ := Option.map_eq_some_iff.mp hstart
    rfl
  · cases hstart
    rfl

/-- A character that was pushed back may be a zero, but then it is gone. -/
theorem get_progress (hget : get s = some (c, s')) (hs : s.weight ≠ 0) :
    2 * s'.weight < 2 * s.weight + s.pushback.length := by
  have hle := get_weight hget
  unfold get at hget
  split at hget
  · next hpush =>
    rw [hpush, List.length_cons]
    omega
  · next hpush =>
    obtain ⟨s1, hstart, heq⟩ := Option.map_eq_some_iff.mp hget
    have hweight := lineStart_weight hstart
    have hpush1 : s1.pushback = [] := (lineStart_pushback hstart).trans hpush
    have hgetc := getc_weight s1
    by_cases hinp : s1.inp = []
    · have hzero : s1.weight = 0 := by simp [Source.weight, hinp, hpush1]
      rw [heq] at hgetc
      simp only at hgetc
      omega
    · have hlt := getc_weight_lt hpush1 hinp
      rw [heq] at hlt
      simp only at hlt
      omega

theorem unget_length (hs : s.pushback = []) (hunget : unget s c = some s') : s'.pushback.length ≤ 1 := by
  unfold unget at hunget
  split at hunget
  · cases hunget
  · cases hunget
    split <;> simp [hs]

theorem octalDigits_length {ct : Nat} {n x : BitVec 16} (hs : s.pushback.length ≤ 1)
    (hdigits : octalDigits ct n s = some (x, s')) : s'.pushback.length ≤ 1 := by
  induction ct generalizing n s with
  | zero =>
    cases hdigits
    exact hs
  | succ ct ih =>
    unfold octalDigits at hdigits
    simp only [Option.bind_eq_bind, Option.bind_eq_some_iff, Prod.exists] at hdigits
    obtain ⟨c1, s1, hget, hdigits⟩ := hdigits
    have hpush := get_pushback hget
    split at hdigits
    · exact ih (by simp [hpush]) hdigits
    · obtain ⟨s2, hunget, heq⟩ := Option.map_eq_some_iff.mp hdigits
      cases heq
      exact unget_length hpush hunget

theorem hexpair_length {x : BitVec 16} (hpair : hexpair s = some (x, s')) : s'.pushback.length ≤ 1 := by
  unfold hexpair at hpair
  simp only [Option.bind_eq_bind, Option.bind_eq_some_iff, Prod.exists] at hpair
  obtain ⟨c1, s1, hget, hpair⟩ := hpair
  have hpush := get_pushback hget
  split at hpair
  · simp only [Option.bind_eq_some_iff, Prod.exists] at hpair
    obtain ⟨c2, s2, hget2, hpair⟩ := hpair
    have hpush2 := get_pushback hget2
    split at hpair <;> cases hpair <;> simp [hpush2]
  · cases hpair
    simp [hpush]

theorem escaped_length {x : BitVec 16} (hs : s.pushback.length ≤ 1) (hescaped : escaped s c = some (x, s')) :
    s'.pushback.length ≤ 1 := by
  unfold escaped at hescaped
  split at hescaped
  · cases hescaped
    exact hs
  split at hescaped
  · exact hexpair_length hescaped
  split at hescaped
  · exact octalDigits_length hs hescaped
  · cases hescaped
    exact hs

/-- A turn that is not at the end takes something. -/
theorem stringTurn_measure {x x' : List Byte × Source h} (hx : x.2.weight ≠ 0)
    (hturn : stringTurn x = some (.inl x')) : stringMeasure x' < stringMeasure x := by
  obtain ⟨out, s⟩ := x
  unfold stringTurn at hturn
  unfold stringMeasure
  simp only [Option.bind_eq_bind, Option.bind_eq_some_iff, Prod.exists] at hturn
  obtain ⟨c, s1, hget, hturn⟩ := hturn
  have hweight := get_weight hget
  have hprogress := get_progress hget hx
  split at hturn
  · simp only [Option.bind_eq_some_iff, Prod.exists] at hturn
    obtain ⟨b, s2, hchar, hturn⟩ := hturn
    cases hturn
    have hle := stringChar_weight hchar
    unfold stringChar at hchar
    split at hchar
    · cases hchar
      simp only [get_pushback hget, List.length_nil]
      omega
    · next hbslash =>
      rw [weigh_pos (by rw [not_not.mp hbslash]; decide)] at hweight
      simp only [Option.bind_eq_bind, Option.bind_eq_some_iff, Prod.exists] at hchar
      obtain ⟨c2, s3, hget2, x, s4, hescaped, hchar⟩ := hchar
      cases hchar
      have hlength := escaped_length (by simp [get_pushback hget2]) hescaped
      simp only
      omega
  · next hquote =>
    rw [weigh_pos (by rw [not_not.mp hquote]; decide)] at hweight
    simp only [Option.bind_eq_some_iff, Prod.exists] at hturn
    obtain ⟨c2, s2, hnb, hturn⟩ := hturn
    have hle := getNb_weight hnb
    split at hturn
    · cases hturn
      simp only [getNb_pushback hnb, List.length_nil]
      omega
    · simp only [Option.bind_eq_some_iff] at hturn
      obtain ⟨s3, -, hturn⟩ := hturn
      cases hturn

/-- In no turn of the loop is the source used up. -/
def StringCloses (x : List Byte × Source h) : Prop := ∀ x', Turns stringTurn x x' → x'.2.weight ≠ 0

theorem stringLoop_terminates_iff (x : List Byte × Source h) :
    (Terminates fun fuel => loop stringTurn fuel x) ↔ StringCloses x :=
  terminates_loop_iff (fun x : List Byte × Source h => x.2.weight = 0) stringMeasure stringTurn_exhausted
    fun _ _ => stringTurn_measure

/-! ## Numbers -/

/-- What is left to convert, once the suffix is known. -/
def Converts (old : Number) (f : Suffix) : Parsed h → Prop
  | .integer sum => f.float = true → Convertible sum 0
  | .oversized => f.float = true → old.rtype ≠ T_FLOATVAL → Convertible old.result 0
  | .fix32 _ _ _ _ => True

/-- What is converted at once. -/
def Parsed.Fits : Parsed h → Prop
  | .fix32 _ sum frac _ => Convertible sum frac
  | _ => True

/-- The values that the number gives `convert_fix32`. -/
def NumberConverts (u : Unspecified h) (old : Number) (c : Byte) (s : Source h) : Prop :=
  ∀ parsed s1, parseDigits u c s = some (parsed, s1) →
    Parsed.Fits parsed ∧ ∀ f s2, suffixes ⟨false, false, false⟩ s1 = some (f, s2) → Converts old f parsed

theorem number_steady (old : Number) (parsed : Parsed h) : Steady fun fuel => parsed.number u fuel old := by
  cases parsed with
  | integer sum => exact steady_const _
  | oversized => exact steady_const _
  | fix32 exp sum frac uexp => exact (convertFix32_steady u exp sum frac uexp).bind fun _ => steady_const _

theorem convert_steady (f : Suffix) (n : Number) : Steady fun fuel => f.convert u fuel n := by
  unfold Suffix.convert
  split
  · exact (convertFix32_steady u _ _ _ _).bind fun _ => steady_const _
  · exact steady_const _

theorem number_terminates_iff (old : Number) (parsed : Parsed h) :
    (Terminates fun fuel => parsed.number u fuel old) ↔ Parsed.Fits parsed := by
  cases parsed with
  | integer sum => exact iff_of_true (terminates_const (by simp)) trivial
  | oversized => exact iff_of_true (terminates_const (by simp)) trivial
  | fix32 exp sum frac uexp =>
    refine (terminates_bind_iff (convertFix32_steady u exp sum frac uexp) fun _ => steady_const _).trans ?_
    rw [convertFix32_terminates_iff]
    exact and_iff_left fun _ _ _ => terminates_const (by simp)

theorem convert_terminates_iff (f : Suffix) (n : Number) : (Terminates fun fuel => f.convert u fuel n) ↔
    (f.float = true → n.rtype ≠ T_FLOATVAL → Convertible n.result 0) := by
  unfold Suffix.convert
  by_cases hfloat : f.float = true ∧ n.rtype ≠ T_FLOATVAL
  · simp only [if_pos hfloat]
    refine (terminates_bind_iff (convertFix32_steady u _ _ _ _) fun _ => steady_const _).trans ?_
    rw [convertFix32_terminates_iff, and_iff_left fun _ _ _ => terminates_const (by simp)]
    exact ⟨fun hconv _ _ => hconv, fun hconv => hconv hfloat.1 hfloat.2⟩
  · simp only [if_neg hfloat]
    exact iff_of_true (terminates_const (by simp)) fun hf hn => absurd ⟨hf, hn⟩ hfloat

/-- Only an integer is converted after its suffix. -/
theorem converts_iff {old n : Number} {fuel : Nat} {f : Suffix} {parsed : Parsed h}
    (hnumber : parsed.number u fuel old = .done n) :
    (f.float = true → n.rtype ≠ T_FLOATVAL → Convertible n.result 0) ↔ Converts old f parsed := by
  cases parsed with
  | integer sum =>
    cases hnumber
    exact ⟨fun hconv hf => hconv hf (show T_INTVAL ≠ T_FLOATVAL by decide), fun hconv hf _ => hconv hf⟩
  | oversized =>
    cases hnumber
    exact Iff.rfl
  | fix32 exp sum frac uexp =>
    obtain ⟨result, -, hdone⟩ := Outcome.bind_eq_done.mp hnumber
    cases hdone
    exact iff_of_true (fun _ hne => absurd rfl hne) trivial

/-- The part of a number behind its digits. -/
theorem numberTail_steady (neg : Bool) (s : Source h) (n : Number) : Steady fun fuel =>
    (Outcome.ofOption (suffixes ⟨false, false, false⟩ s)).bind fun (f, s) =>
      (f.convert u fuel n).bind fun n => .done (f.finish neg n, s) :=
  (steady_const _).bind fun x => (convert_steady x.1 n).bind fun _ => steady_const _

theorem numberTail_terminates_iff (neg : Bool) (s : Source h) (n : Number) : (Terminates fun fuel =>
    (Outcome.ofOption (suffixes ⟨false, false, false⟩ s)).bind fun (f, s) =>
      (f.convert u fuel n).bind fun n => Outcome.done (f.finish neg n, s)) ↔
    ∀ f s2, suffixes ⟨false, false, false⟩ s = some (f, s2) →
      f.float = true → n.rtype ≠ T_FLOATVAL → Convertible n.result 0 := by
  rw [terminates_bind_ofOption_iff]
  simp only [Prod.forall]
  refine forall_congr' fun f => forall_congr' fun s2 => forall_congr' fun _ => ?_
  refine (terminates_bind_iff (convert_steady f n) fun _ => steady_const _).trans ?_
  rw [convert_terminates_iff]
  exact and_iff_left fun _ _ _ => terminates_const (by simp)

theorem tokenizeNumeric_steady (old : Number) (c : Byte) (neg : Bool) (s : Source h) :
    Steady fun fuel => tokenizeNumeric u fuel old c neg s :=
  (steady_const _).bind fun x => (number_steady old x.1).bind fun n => numberTail_steady neg x.2 n

theorem tokenizeNumeric_terminates_iff (old : Number) (c : Byte) (neg : Bool) (s : Source h) :
    (Terminates fun fuel => tokenizeNumeric u fuel old c neg s) ↔ NumberConverts u old c s := by
  unfold tokenizeNumeric NumberConverts
  rw [terminates_bind_ofOption_iff]
  simp only [Prod.forall]
  refine forall_congr' fun parsed => forall_congr' fun s1 => forall_congr' fun _ => ?_
  refine (terminates_bind_iff (number_steady old parsed) fun n => numberTail_steady neg s1 n).trans ?_
  rw [number_terminates_iff]
  refine and_congr_right fun hfits => ?_
  obtain ⟨fuel, hne⟩ := (number_terminates_iff (u := u) old parsed).mpr hfits
  constructor
  · intro htail f s2 hsuffixes
    cases hnumber : parsed.number u fuel old with
    | running => exact absurd hnumber hne
    | fatal =>
      cases parsed with
      | integer sum => cases hnumber
      | oversized => cases hnumber
      | fix32 exp sum frac uexp => trivial
    | done n =>
      exact (converts_iff hnumber).mp ((numberTail_terminates_iff neg s1 n).mp (htail fuel n hnumber) f s2 hsuffixes)
  · intro hconverts fuel n hnumber
    exact (numberTail_terminates_iff neg s1 n).mpr fun f s2 hsuffixes =>
      (converts_iff hnumber).mpr (hconverts f s2 hsuffixes)

/-! ## tokenize -/

theorem numeric_steady (c : Byte) (neg : Bool) (s : Source h) : Steady fun fuel => st.numeric u fuel c neg s :=
  (tokenizeNumeric_steady _ c neg s).bind fun _ => steady_const _

theorem numeric_terminates_iff (c : Byte) (neg : Bool) (s : Source h) :
    (Terminates fun fuel => st.numeric u fuel c neg s) ↔ NumberConverts u st.number c s := by
  refine (terminates_bind_iff (tokenizeNumeric_steady _ c neg s) fun _ => steady_const _).trans ?_
  rw [tokenizeNumeric_terminates_iff]
  exact and_iff_left fun _ _ _ => terminates_const (by simp)

/-- The loop is entered when the token of the string has been written. -/
def stringStart (s : Source h) : List Byte × Source h :=
  ((writeToken s.front T_STRING []).1, { s with front := (writeToken s.front T_STRING []).2 })

theorem string_terminates_iff (s : Source h) :
    (Terminates fun fuel => st.string fuel s) ↔ StringCloses (stringStart s) := by
  refine (terminates_bind_iff (steady_loop (stringStart s)) fun _ => steady_const _).trans ?_
  rw [stringLoop_terminates_iff]
  exact and_iff_left fun _ _ _ => terminates_const (by simp)

/-- A number may start with `-.`, or with a dot and a digit. -/
def OperatorEnds (u : Unspecified h) (st : State h) (c : Byte) (s : Source h) : Prop :=
  ∀ c2 s1, get s = some (c2, s1) →
    if c = 0x2D ∧ c2 = 0x2E then NumberConverts u st.number c2 s1
    else if c = 0x2E ∧ isdigit c2 then ∀ s2, unget s1 c2 = some s2 → NumberConverts u st.number c s2
    else True

theorem operator_steady (c : Byte) (s : Source h) : Steady fun fuel => st.operator u fuel c s := by
  refine (steady_const _).bind fun x => ?_
  simp only
  split
  · exact numeric_steady _ _ _
  · split
    · exact (steady_const _).bind fun s2 => numeric_steady _ _ _
    · exact steady_const _

theorem operator_terminates_iff (c : Byte) (s : Source h) :
    (Terminates fun fuel => st.operator u fuel c s) ↔ OperatorEnds u st c s := by
  unfold State.operator OperatorEnds
  rw [terminates_bind_ofOption_iff]
  simp only [Prod.forall]
  refine forall_congr' fun c2 => forall_congr' fun s1 => forall_congr' fun _ => ?_
  split
  · exact numeric_terminates_iff _ _ _
  · split
    · rw [terminates_bind_ofOption_iff]
      exact forall_congr' fun s2 => forall_congr' fun _ => numeric_terminates_iff _ _ _
    · refine iff_of_true (terminates_const ?_) trivial
      cases tokenizeOperator c c2 s1 <;> simp

/-- A call of `tokenize` starts no string that the source ends in, and no number that cannot be converted. -/
def CallEnds (u : Unspecified h) (st : State h) : Prop :=
  ∀ c s1, getNb st.source = some (c, s1) →
    if c = 0 ∨ iscsymstart c then True
    else if isdigit c then NumberConverts u st.number c s1
    else if c = 0x27 then True
    else if c = 0x22 then StringCloses (stringStart s1)
    else OperatorEnds u st c s1

theorem tokenize_steady (st : State h) : Steady fun fuel => tokenize u fuel st := by
  refine (steady_const _).bind fun x => ?_
  simp only
  split
  · exact steady_const _
  split
  · exact steady_const _
  split
  · exact numeric_steady _ _ _
  split
  · exact steady_const _
  split
  · exact (steady_loop _).bind fun _ => steady_const _
  · exact operator_steady _ _

theorem tokenize_terminates_iff (st : State h) : (Terminates fun fuel => tokenize u fuel st) ↔ CallEnds u st := by
  unfold tokenize CallEnds
  rw [terminates_bind_ofOption_iff]
  simp only [Prod.forall]
  refine forall_congr' fun c => forall_congr' fun s1 => forall_congr' fun _ => ?_
  by_cases hzero : c = 0
  · simp only [hzero, if_true, true_or]
    exact iff_of_true (terminates_const (by simp)) trivial
  by_cases hsymbol : iscsymstart c = true
  · simp only [hzero, hsymbol, if_false, if_true, or_true]
    refine iff_of_true (terminates_const ?_) trivial
    cases tokenizeSymbol c { st with source := s1 } <;> simp
  by_cases hdigit : isdigit c = true
  · simp only [hzero, hsymbol, hdigit, if_false, if_true, or_self, Bool.false_eq_true]
    exact numeric_terminates_iff _ _ _
  by_cases hchar : c = 0x27
  · simp only [hzero, hsymbol, hdigit, if_neg, if_pos hchar, or_self, Bool.false_eq_true, not_false_eq_true]
    refine iff_of_true (terminates_const ?_) trivial
    cases tokenizeChar s1 <;> simp
  by_cases hquote : c = 0x22
  · simp only [hzero, hsymbol, hdigit, if_neg hchar, if_pos hquote, if_neg, or_self, Bool.false_eq_true,
      not_false_eq_true]
    exact string_terminates_iff s1
  · simp only [hzero, hsymbol, hdigit, if_neg hchar, if_neg hquote, if_neg, or_self, Bool.false_eq_true,
      not_false_eq_true]
    exact operator_terminates_iff _ _

/-! ## The pass -/

/-- From one call of `tokenize` to the next. -/
def NextCall (u : Unspecified h) (st st' : State h) : Prop :=
  ∃ fuel p st1, tokenize u fuel st = .done (p, st1) ∧ p.token ≠ T_EOF ∧ st' = (st1.write p).2

/-- The states in which the pass calls `tokenize`. -/
def Calls (u : Unspecified h) : State h → State h → Prop := Relation.ReflTransGen (NextCall u)

theorem passLoop_succ (fuel tokens : Nat) (st : State h) : passLoop u fuel (tokens + 1) st =
    (tokenize u fuel st).bind fun x =>
      if x.1.token = T_EOF then .done (x.2.write x.1)
      else (passLoop u fuel tokens (x.2.write x.1).2).bind fun y => .done ((x.2.write x.1).1 ++ y.1, y.2) := rfl

theorem passLoop_next {fuel tokens : Nat} {p : Output} {st1 : State h} (htokenize : tokenize u fuel st = .done (p, st1))
    (htoken : p.token ≠ T_EOF) : passLoop u fuel (tokens + 1) st ≠ .running ↔
      passLoop u fuel tokens (st1.write p).2 ≠ .running := by
  rw [passLoop_succ, htokenize, Outcome.bind_done, if_neg htoken]
  cases passLoop u fuel tokens (st1.write p).2 <;> simp

theorem passLoop_more {fuel fuel' tokens tokens' : Nat} (hfuel : fuel ≤ fuel') (htokens : tokens ≤ tokens')
    (hrun : passLoop u fuel tokens st ≠ .running) : passLoop u fuel' tokens' st = passLoop u fuel tokens st := by
  induction tokens generalizing tokens' st with
  | zero => exact absurd rfl hrun
  | succ tokens ih =>
    obtain ⟨tokens', rfl⟩ : ∃ k, tokens' = k + 1 := ⟨tokens' - 1, by omega⟩
    have hne : tokenize u fuel st ≠ .running := by
      intro hrunning
      simp [passLoop_succ, hrunning] at hrun
    have hsame : tokenize u fuel' st = tokenize u fuel st := tokenize_steady st fuel fuel' hfuel hne
    rw [passLoop_succ, passLoop_succ, hsame]
    cases htokenize : tokenize u fuel st with
    | running => exact absurd htokenize hne
    | fatal => rw [Outcome.bind_fatal, Outcome.bind_fatal]
    | done x =>
      obtain ⟨p, st1⟩ := x
      simp only [Outcome.bind_done]
      split
      · rfl
      · next htoken => rw [ih (by omega) ((passLoop_next htokenize htoken).mp hrun)]

/-- Every call of a pass that ends has ended. -/
theorem call_terminates {fuel tokens : Nat} (hrun : passLoop u fuel tokens st ≠ .running) (hcalls : Calls u st st') :
    Terminates fun fuel => tokenize u fuel st' := by
  induction tokens generalizing st with
  | zero => exact absurd rfl hrun
  | succ tokens ih =>
    have hne : tokenize u fuel st ≠ .running := by
      intro hrunning
      simp [passLoop_succ, hrunning] at hrun
    rcases Relation.ReflTransGen.cases_head hcalls with rfl | ⟨st2, ⟨fuel', p, st1, htokenize, htoken, rfl⟩, hcalls⟩
    · exact ⟨fuel, hne⟩
    · have hsame : tokenize u fuel st = .done (p, st1) := by
        rcases Nat.le_total fuel fuel' with hle | hle
        · exact (tokenize_steady st fuel fuel' hle hne).symm.trans htokenize
        · exact (tokenize_steady st fuel' fuel hle (by simp [htokenize])).trans htokenize
      exact ih ((passLoop_next hsame htoken).mp hrun) hcalls

@[simp]
theorem write_weight (st : State h) (p : Output) : (st.write p).2.source.weight = st.source.weight := rfl

theorem pass_terminates (hcalls : ∀ st', Calls u st st' → CallEnds u st') : Terminates fun fuel => pass u fuel st := by
  -- By induction on what is left of the source.
  induction hweight : st.source.weight using Nat.strongRecOn generalizing st with
  | ind k ih =>
    obtain ⟨fuel, hne⟩ := (tokenize_terminates_iff st).mpr (hcalls st .refl)
    cases htokenize : tokenize u fuel st with
    | running => exact absurd htokenize hne
    | fatal =>
      refine ⟨fuel + 1, ?_⟩
      have hmore : tokenize u (fuel + 1) st = .fatal := (tokenize_steady st fuel _ (Nat.le_succ _) hne).trans htokenize
      simp [pass, passLoop_succ, hmore]
    | done x =>
      obtain ⟨p, st1⟩ := x
      by_cases htoken : p.token = T_EOF
      · refine ⟨fuel + 1, ?_⟩
        have hmore : tokenize u (fuel + 1) st = .done (p, st1) :=
          (tokenize_steady st fuel _ (Nat.le_succ _) hne).trans htokenize
        simp [pass, passLoop_succ, hmore, htoken]
      · have hlt := tokenize_weight htokenize htoken
        have hnext : NextCall u st (st1.write p).2 := ⟨fuel, p, st1, htokenize, htoken, rfl⟩
        obtain ⟨fuel', hrun⟩ := ih _ (hweight ▸ hlt) (fun st' hcalls' => hcalls st' (.head hnext hcalls'))
          (write_weight st1 p)
        refine ⟨max fuel fuel' + 1, ?_⟩
        have hmore : tokenize u (max fuel fuel' + 1) st = .done (p, st1) :=
          (tokenize_steady st fuel _ (by omega) hne).trans htokenize
        refine (passLoop_next hmore htoken).mpr ?_
        rw [passLoop_more (by omega) (le_max_right fuel fuel') hrun]
        exact hrun

/-- The pass ends, with the end of the file or a fatal error, if each of its calls does. -/
theorem pass_terminates_iff (u : Unspecified h) (st : State h) :
    (Terminates fun fuel => pass u fuel st) ↔ ∀ st', Calls u st st' → CallEnds u st' := by
  constructor
  · rintro ⟨fuel, hrun⟩ st' hcalls
    exact (tokenize_terminates_iff st').mp (call_terminates hrun hcalls)
  · exact pass_terminates

/-- A source of one quote: the loop of `tokenize_string` goes on for ever. So do the shifts of 4026531840.0. -/
theorem openQuote_runs : ¬ (Terminates fun fuel => pass ⟨0, fun x _ => x⟩ fuel (State.start (h := .linux) [0x22])) ∧
    ¬ Terminates fun fuel => convertFix32 (h := .linux) ⟨0, fun x _ => x⟩ fuel 0 0xF0000000 0 0 := by
  constructor
  · rintro ⟨fuel, hrun⟩
    have hcall := (tokenize_terminates_iff _).mp (call_terminates hrun .refl)
    obtain ⟨s1, hnb, hempty⟩ : ∃ s1, getNb (State.start (h := .linux) [0x22]).source = some (0x22, s1) ∧
        s1.weight = 0 := by
      refine ⟨⟨Frontend.start, [], [], false, false⟩, getNb_other ?_ (by decide), rfl⟩
      simp [get, State.start, Source.lineStart, skipDirectives, Source.getc, Source.bgetc]
    have hends := hcall 0x22 s1 hnb
    rw [if_neg (by decide), if_neg (by decide), if_neg (by decide), if_pos rfl] at hends
    exact hends (stringStart s1) .refl hempty
  · rw [convertFix32_terminates_iff]
    decide

end Fuzemsys.Fcc.Tokenizer
