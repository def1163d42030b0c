import Fuzemsys.Fcc.NumberEnds
import Fuzemsys.Fcc.Tokenize

/-!
# Tokens take input

Each function of the tokenizer leaves no more of the source than it was given, and the
character it started with is gone.
-/

open Fuzemsys.Lib

namespace Fuzemsys.Fcc.Tokenizer

variable {h : Host} {s s1 s2 s' : Source h} {c c' c2 : Byte} {u : Unspecified h}

/-! ## Reading and pushing back -/

theorem get_unget_weight (hget : get s = some (c, s1)) (hunget : unget s1 c = some s') : s'.weight ≤ s.weight := by
  rw [unget_weight hunget]
  exact get_weight hget

theorem getNb_weight (hget : getNb s = some (c, s')) : s'.weight + weigh c ≤ s.weight := by
  fun_induction getNb s with
  | case1 s hnone => cases hget
  | case2 s c1 s1 hget1 hspace ih =>
    have := ih hget
    have := get_weight hget1
    omega
  | case3 s c1 s1 hget1 hother =>
    cases hget
    exact get_weight hget1

theorem required_weight (hrequired : required c s = some s') : s'.weight ≤ s.weight := by
  unfold required at hrequired
  simp only [Option.bind_eq_bind, Option.bind_eq_some_iff, Prod.exists] at hrequired
  obtain ⟨c1, s1, hget, hrequired⟩ := hrequired
  split at hrequired
  · exact get_unget_weight hget hrequired
  · cases hrequired
    exact (Nat.le_add_right _ _).trans (get_weight hget)

/-! ## Escapes -/

theorem hexpair_weight {x : BitVec 16} (hpair : hexpair s = some (x, s')) : s'.weight ≤ s.weight := by
  unfold hexpair at hpair
  simp only [Option.bind_eq_bind, Option.bind_eq_some_iff, Prod.exists] at hpair
  obtain ⟨c1, s1, hget, hpair⟩ := hpair
  have := get_weight hget
  split at hpair
  · simp only [Option.bind_eq_some_iff, Prod.exists] at hpair
    obtain ⟨c2, s2, hget2, hpair⟩ := hpair
    have := get_weight hget2
    split at hpair <;> cases hpair <;> omega
  · cases hpair
    omega

theorem octalDigits_weight {ct : Nat} {n x : BitVec 16} (hdigits : octalDigits ct n s = some (x, s')) :
    s'.weight ≤ s.weight := by
  induction ct generalizing n s with
  | zero =>
    cases hdigits
    exact le_rfl
  | succ ct ih =>
    unfold octalDigits at hdigits
    simp only [Option.bind_eq_bind, Option.bind_eq_some_iff, Prod.exists] at hdigits
    obtain ⟨c1, s1, hget, hdigits⟩ := hdigits
    split at hdigits
    · have := get_weight hget
      have := ih hdigits
      omega
    · obtain ⟨s2, hunget, heq⟩ := Option.map_eq_some_iff.mp hdigits
      cases heq
      exact get_unget_weight hget hunget

theorem escaped_weight {x : BitVec 16} (hescaped : escaped s c = some (x, s')) : s'.weight ≤ s.weight := by
  unfold escaped at hescaped
  split at hescaped
  · cases hescaped
    exact le_rfl
  split at hescaped
  · exact hexpair_weight hescaped
  split at hescaped
  · exact octalDigits_weight hescaped
  · cases hescaped
    exact le_rfl

theorem stringChar_weight {b : Byte} (hchar : stringChar s c = some (b, s')) : s'.weight ≤ s.weight := by
  unfold stringChar at hchar
  split at hchar
  · cases hchar
    exact le_rfl
  · simp only [Option.bind_eq_bind, Option.bind_eq_some_iff, Prod.exists] at hchar
    obtain ⟨c2, s1, hget, x, s2, hescaped, hchar⟩ := hchar
    cases hchar
    have := get_weight hget
    have := escaped_weight hescaped
    omega

theorem tokenizeChar_weight {data : List Byte} (hchar : tokenizeChar s = some (data, s')) : s'.weight ≤ s.weight := by
  unfold tokenizeChar at hchar
  simp only [Option.bind_eq_bind, Option.bind_eq_some_iff, Prod.exists] at hchar
  obtain ⟨c1, s1, hget, hchar⟩ := hchar
  have := get_weight hget
  split at hchar
  · simp only [Option.bind_eq_some_iff, Prod.exists] at hchar
    obtain ⟨c2, s2, hget2, hchar⟩ := hchar
    have := get_weight hget2
    split at hchar
    · simp only [Option.bind_eq_some_iff] at hchar
      obtain ⟨s3, hunget, s4, hrequired, hchar⟩ := hchar
      cases hchar
      have := get_unget_weight hget2 hunget
      have := required_weight hrequired
      omega
    · cases hchar
      omega
  · simp only [Option.bind_eq_some_iff, Prod.exists] at hchar
    obtain ⟨c2, s2, hget2, x, s3, hescaped, s4, hrequired, hchar⟩ := hchar
    cases hchar
    have := get_weight hget2
    have := escaped_weight hescaped
    have := required_weight hrequired
    omega

/-! ## Symbols -/

theorem getSymbolTail_weight {n : Nat} {name : List Byte} (htail : getSymbolTail n s = some (name, s')) :
    s'.weight ≤ s.weight := by
  fun_induction getSymbolTail n s generalizing name with
  | case1 n s hnone => cases htail
  | case2 n s c s1 hget hsymbol ih =>
    obtain ⟨⟨name1, s2⟩, htail1, heq⟩ := Option.map_eq_some_iff.mp htail
    cases heq
    have := ih htail1
    have := get_weight hget
    omega
  | case3 n s c s1 hget hother =>
    obtain ⟨s2, hunget, heq⟩ := Option.map_eq_some_iff.mp htail
    cases heq
    exact get_unget_weight hget hunget

theorem tokenizeSymbol_weight {st st' : State h} {token : Token} (hsymbol : tokenizeSymbol c st = some (token, st')) :
    st'.source.weight ≤ st.source.weight := by
  unfold tokenizeSymbol at hsymbol
  simp only [Option.bind_eq_bind, Option.bind_eq_some_iff, Prod.exists] at hsymbol
  obtain ⟨tail, s1, htail, hsymbol⟩ := hsymbol
  have hle := getSymbolTail_weight htail
  split at hsymbol
  · cases hsymbol
    exact hle
  · split at hsymbol
    · cases hsymbol
    · cases hsymbol
      exact hle

/-! ## Numbers -/

theorem exponentDigits_weight {sum x : BitVec 32} (hdigits : exponentDigits sum c s = some (x, s')) :
    s'.weight ≤ s.weight + weigh c := by
  fun_induction exponentDigits sum c s with
  | case1 sum c s hdigit hnone => cases hdigits
  | case2 sum c s hdigit c1 s1 hget ih =>
    have := ih hdigits
    have := get_weight hget
    omega
  | case3 sum c s hother =>
    obtain ⟨s2, hunget, heq⟩ := Option.map_eq_some_iff.mp hdigits
    cases heq
    exact (unget_weight hunget).le

theorem parseExponent_weight {x : BitVec h.intBits} (hexponent : parseExponent s = some (x, s')) :
    s'.weight ≤ s.weight := by
  unfold parseExponent at hexponent
  simp only [Option.bind_eq_bind, Option.bind_eq_some_iff, Prod.exists] at hexponent
  obtain ⟨c1, s1, hget, hexponent⟩ := hexponent
  have := get_weight hget
  split at hexponent
  · simp only [Option.bind_eq_some_iff, Prod.exists] at hexponent
    obtain ⟨c2, s2, hget2, x, s3, hdigits, hexponent⟩ := hexponent
    cases hexponent
    have := get_weight hget2
    have := exponentDigits_weight hdigits
    omega
  · simp only [Option.bind_eq_some_iff, Prod.exists] at hexponent
    obtain ⟨c2, s2, hsign, x, s3, hdigits, hexponent⟩ := hexponent
    cases hexponent
    have := exponentDigits_weight hdigits
    unfold skipPlus at hsign
    split at hsign
    · have := get_weight hsign
      omega
    · cases hsign
      omega

/-- A digit at the start is gone. -/
theorem decDigits_weight {sum x : BitVec 32} {ex y : BitVec h.intBits}
    (hdigits : decDigits sum ex c s = some (x, y, c', s')) :
    s'.weight + weigh c' ≤ s.weight + weigh c ∧ (isdigit c = true → s'.weight + weigh c' ≤ s.weight) := by
  fun_induction decDigits sum ex c s with
  | case1 sum ex c s hdigit hnone => cases hdigits
  | case2 sum ex c s hdigit c1 s1 hget sum1 ex1 hfit ih =>
    have := (ih hdigits).1
    have := get_weight hget
    omega
  | case3 sum ex c s hother =>
    cases hdigits
    exact ⟨le_rfl, fun hdigit => absurd hdigit hother⟩

theorem decFraction_weight {n : Nat} {frac x : BitVec 32} {exponent : Bool}
    (hfraction : decFraction n frac s = some (x, exponent, s')) : s'.weight ≤ s.weight := by
  fun_induction decFraction n frac s with
  | case1 n frac s hnone => cases hfraction
  | case2 n frac s c s1 hget hexp =>
    cases hfraction
    exact (Nat.le_add_right _ _).trans (get_weight hget)
  | case3 n frac s c s1 hget hexp hdigit scale hscale ih =>
    have := ih hfraction
    have := get_weight hget
    omega
  | case4 n frac s c s1 hget hexp hdigit scale hscale ih =>
    have := ih hfraction
    have := get_weight hget
    omega
  | case5 n frac s c s1 hget hexp hother =>
    obtain ⟨s2, hunget, heq⟩ := Option.map_eq_some_iff.mp hfraction
    cases heq
    exact get_unget_weight hget hunget

/-- A number starts with a digit, or with a dot. -/
theorem decFormat_weight {parsed : Parsed h} (hc : isdigit c = true ∨ c = 0x2E)
    (hformat : decFormat c s = some (parsed, s')) : s'.weight ≤ s.weight := by
  unfold decFormat at hformat
  simp only [Option.bind_eq_bind, Option.bind_eq_some_iff, Prod.exists] at hformat
  obtain ⟨sum, ex, c1, s1, hdigits, hformat⟩ := hformat
  have hstart : s1.weight + (if c1 = 0x2E then 0 else weigh c1) ≤ s.weight := by
    rcases hc with hdigit | rfl
    · have := (decDigits_weight hdigits).2 hdigit
      split <;> omega
    · rw [decDigits, dif_neg (by decide)] at hdigits
      cases hdigits
      simp
  split at hformat
  · next hdot =>
    rw [if_pos hdot] at hstart
    simp only [Option.bind_eq_some_iff, Prod.exists] at hformat
    obtain ⟨frac, exponent, s2, hfraction, hformat⟩ := hformat
    have := decFraction_weight hfraction
    split at hformat
    · simp only [Option.bind_eq_some_iff, Prod.exists] at hformat
      obtain ⟨uex, s3, hexponent, hformat⟩ := hformat
      cases hformat
      have := parseExponent_weight hexponent
      omega
    · cases hformat
      omega
  · next hdot =>
    rw [if_neg hdot] at hstart
    split at hformat
    · simp only [Option.bind_eq_some_iff, Prod.exists] at hformat
      obtain ⟨uex, s2, hexponent, hformat⟩ := hformat
      cases hformat
      have := parseExponent_weight hexponent
      omega
    · simp only [Option.bind_eq_some_iff] at hformat
      obtain ⟨s2, hunget, hformat⟩ := hformat
      cases hformat
      have := unget_weight hunget
      omega

theorem hexDigits_weight {n sum x y : BitVec 32} {ex z : BitVec h.intBits}
    (hdigits : hexDigits n sum ex s = some (x, y, z, c', s')) : s'.weight + weigh c' ≤ s.weight := by
  fun_induction hexDigits n sum ex s with
  | case1 n sum ex s hnone => cases hdigits
  | case2 n sum ex s c s1 hget hdigit n1 hfits ih =>
    have := ih hdigits
    have := get_weight hget
    omega
  | case3 n sum ex s c s1 hget hdigit n1 hfits ih =>
    have := ih hdigits
    have := get_weight hget
    omega
  | case4 n sum ex s c s1 hget hother =>
    cases hdigits
    exact get_weight hget

theorem hexFraction_weight {n frac x : BitVec 32} {ct : Int} {exponent : Bool}
    (hfraction : hexFraction u n ct frac s = some (x, exponent, s')) : s'.weight ≤ s.weight := by
  fun_induction hexFraction u n ct frac s with
  | case1 ct frac s hnone => cases hfraction
  | case2 ct frac s c s1 hget hexp =>
    cases hfraction
    exact (Nat.le_add_right _ _).trans (get_weight hget)
  | case3 ct frac s c s1 hget hexp hdigit hct ih =>
    have := ih hfraction
    have := get_weight hget
    omega
  | case4 ct frac s c s1 hget hexp hdigit hct ih =>
    have := ih hfraction
    have := get_weight hget
    omega
  | case5 ct frac s c s1 hget hexp hother =>
    obtain ⟨s2, hunget, heq⟩ := Option.map_eq_some_iff.mp hfraction
    cases heq
    exact get_unget_weight hget hunget

theorem hexFormat_weight {parsed : Parsed h} (hformat : hexFormat u s = some (parsed, s')) : s'.weight ≤ s.weight := by
  unfold hexFormat at hformat
  simp only [Option.bind_eq_bind, Option.bind_eq_some_iff, Prod.exists] at hformat
  obtain ⟨n, sum, ex, c1, s1, hdigits, hformat⟩ := hformat
  have := hexDigits_weight hdigits
  split at hformat
  · simp only [Option.bind_eq_some_iff, Prod.exists] at hformat
    obtain ⟨frac, exponent, s2, hfraction, hformat⟩ := hformat
    have := hexFraction_weight hfraction
    split at hformat
    · simp only [Option.bind_eq_some_iff, Prod.exists] at hformat
      obtain ⟨uex, s3, hexponent, hformat⟩ := hformat
      cases hformat
      have := parseExponent_weight hexponent
      omega
    · cases hformat
      omega
  split at hformat
  · simp only [Option.bind_eq_some_iff, Prod.exists] at hformat
    obtain ⟨uex, s2, hexponent, hformat⟩ := hformat
    cases hformat
    have := parseExponent_weight hexponent
    omega
  · simp only [Option.bind_eq_some_iff] at hformat
    obtain ⟨s2, hunget, hformat⟩ := hformat
    cases hformat
    have := unget_weight hunget
    omega

theorem octFormatDigits_weight {sum x : BitVec 32} (hdigits : octFormatDigits sum c s = some (x, s')) :
    s'.weight ≤ s.weight + weigh c := by
  fun_induction octFormatDigits sum c s with
  | case1 sum c s hdigit hnone => cases hdigits
  | case2 sum c s hdigit c1 s1 hget ih =>
    have := ih hdigits
    have := get_weight hget
    omega
  | case3 sum c s hother =>
    obtain ⟨s2, hunget, heq⟩ := Option.map_eq_some_iff.mp hdigits
    cases heq
    exact (unget_weight hunget).le

theorem octFormat_weight {parsed : Parsed h} (hformat : octFormat u s = some (parsed, s')) : s'.weight ≤ s.weight := by
  unfold octFormat at hformat
  simp only [Option.bind_eq_bind, Option.bind_eq_some_iff, Prod.exists] at hformat
  obtain ⟨c1, s1, hget, hformat⟩ := hformat
  have := get_weight hget
  split at hformat
  · have := hexFormat_weight hformat
    omega
  split at hformat
  · next hdot =>
    have := decFormat_weight (.inr hdot) hformat
    omega
  · simp only [Option.bind_eq_some_iff, Prod.exists] at hformat
    obtain ⟨sum, s2, hdigits, hformat⟩ := hformat
    cases hformat
    have := octFormatDigits_weight hdigits
    omega

theorem parseDigits_weight {parsed : Parsed h} (hc : isdigit c = true ∨ c = 0x2E)
    (hparse : parseDigits u c s = some (parsed, s')) : s'.weight ≤ s.weight := by
  unfold parseDigits at hparse
  split at hparse
  · exact octFormat_weight hparse
  · exact decFormat_weight hc hparse

theorem suffixes_weight {f f' : Suffix} (hsuffixes : suffixes f s = some (f', s')) : s'.weight ≤ s.weight := by
  fun_induction suffixes f s with
  | case1 f s hnone => cases hsuffixes
  | case2 f s c s1 hget f1 hletter ih =>
    have := ih hsuffixes
    have := get_weight hget
    omega
  | case3 f s c s1 hget hletter =>
    obtain ⟨s2, hunget, heq⟩ := Option.map_eq_some_iff.mp hsuffixes
    cases heq
    exact get_unget_weight hget hunget

theorem tokenizeNumeric_weight {fuel : Nat} {old n : Number} {neg : Bool} (hc : isdigit c = true ∨ c = 0x2E)
    (hnumeric : tokenizeNumeric u fuel old c neg s = .done (n, s')) : s'.weight ≤ s.weight := by
  unfold tokenizeNumeric at hnumeric
  simp only [Outcome.bind_eq_done, Outcome.ofOption_eq_done, Prod.exists] at hnumeric
  obtain ⟨parsed, s1, hparse, n1, -, f, s2, hsuffixes, n2, -, hdone⟩ := hnumeric
  cases hdone
  exact (suffixes_weight hsuffixes).trans (parseDigits_weight hc hparse)

/-! ## Operators -/

theorem tokenizeSingle_weight {token : Token} (hsingle : tokenizeSingle c c2 s = some (token, s')) :
    s'.weight ≤ s.weight + weigh c2 := by
  unfold tokenizeSingle at hsingle
  split at hsingle
  · cases hsingle
    exact Nat.le_add_right _ _
  · obtain ⟨s2, hunget, heq⟩ := Option.map_eq_some_iff.mp hsingle
    cases heq
    exact (unget_weight hunget).le

theorem tokenizeDots_weight {token : Token} (hdots : tokenizeDots c c2 s = some (token, s')) :
    s'.weight ≤ s.weight + weigh c2 := by
  unfold tokenizeDots at hdots
  split at hdots
  · simp only [Option.bind_eq_bind, Option.bind_eq_some_iff, Prod.exists] at hdots
    obtain ⟨c3, s1, hget, hdots⟩ := hdots
    have := get_weight hget
    split at hdots
    · cases hdots
      omega
    · simp only [Option.bind_eq_some_iff] at hdots
      obtain ⟨s2, hunget, hdots⟩ := hdots
      have := get_unget_weight hget hunget
      have := tokenizeSingle_weight hdots
      omega
  · exact tokenizeSingle_weight hdots

theorem tokenizeOperator_weight {token : Token} (hoperator : tokenizeOperator c c2 s = some (token, s')) :
    s'.weight ≤ s.weight + weigh c2 := by
  unfold tokenizeOperator at hoperator
  split at hoperator
  · split at hoperator
    · simp only [Option.bind_eq_bind, Option.bind_eq_some_iff, Prod.exists] at hoperator
      obtain ⟨c3, s1, hget, hoperator⟩ := hoperator
      have := get_weight hget
      split at hoperator
      · cases hoperator
        omega
      · obtain ⟨s2, hunget, heq⟩ := Option.map_eq_some_iff.mp hoperator
        cases heq
        have := get_unget_weight hget hunget
        omega
    · cases hoperator
      exact Nat.le_add_right _ _
  · split at hoperator
    · cases hoperator
      exact Nat.le_add_right _ _
    · exact tokenizeDots_weight hoperator

/-! ## Strings -/

variable {x x' : List Byte × Source h}

theorem stringTurn_inl (hturn : stringTurn x = some (.inl x')) : x'.2.weight ≤ x.2.weight := by
  obtain ⟨out, s⟩ := x
  unfold stringTurn at hturn
  simp only [Option.bind_eq_bind, Option.bind_eq_some_iff, Prod.exists] at hturn
  obtain ⟨c, s1, hget, hturn⟩ := hturn
  have := get_weight hget
  split at hturn
  · simp only [Option.bind_eq_some_iff, Prod.exists] at hturn
    obtain ⟨b, s2, hchar, hturn⟩ := hturn
    cases hturn
    have := stringChar_weight hchar
    simp only
    omega
  · simp only [Option.bind_eq_some_iff, Prod.exists] at hturn
    obtain ⟨c2, s2, hnb, hturn⟩ := hturn
    have := getNb_weight hnb
    split at hturn
    · cases hturn
      simp only
      omega
    · simp only [Option.bind_eq_some_iff] at hturn
      obtain ⟨s3, -, hturn⟩ := hturn
      cases hturn

theorem stringTurn_inr (hturn : stringTurn x = some (.inr x')) : x'.2.weight ≤ x.2.weight := by
  obtain ⟨out, s⟩ := x
  unfold stringTurn at hturn
  simp only [Option.bind_eq_bind, Option.bind_eq_some_iff, Prod.exists] at hturn
  obtain ⟨c, s1, hget, hturn⟩ := hturn
  have := get_weight hget
  split at hturn
  · simp only [Option.bind_eq_some_iff, Prod.exists] at hturn
    obtain ⟨b, s2, hchar, hturn⟩ := hturn
    cases hturn
  · simp only [Option.bind_eq_some_iff, Prod.exists] at hturn
    obtain ⟨c2, s2, hnb, hturn⟩ := hturn
    have := getNb_weight hnb
    split at hturn
    · cases hturn
    · simp only [Option.bind_eq_some_iff] at hturn
      obtain ⟨s3, hunget, hturn⟩ := hturn
      cases hturn
      have := unget_weight hunget
      simp only
      omega

theorem stringLoop_weight {fuel : Nat} (hdone : loop stringTurn fuel x = .done x') : x'.2.weight ≤ x.2.weight := by
  obtain ⟨y, hturns, hend⟩ := loop_done hdone
  refine (stringTurn_inr hend).trans ?_
  clear hend
  induction hturns with
  | refl => exact le_rfl
  | tail _ hturn ih => exact (stringTurn_inl hturn).trans ih

/-! ## A token -/

variable {fuel : Nat} {st st' : State h} {p : Output}

theorem numeric_weight {neg : Bool} (hc : isdigit c = true ∨ c = 0x2E)
    (hnumeric : st.numeric u fuel c neg s = .done (p, st')) : st'.source.weight ≤ s.weight := by
  unfold State.numeric at hnumeric
  simp only [Outcome.bind_eq_done, Prod.exists] at hnumeric
  obtain ⟨n, s1, htokenize, hdone⟩ := hnumeric
  cases hdone
  exact tokenizeNumeric_weight hc htokenize

theorem operator_weight (hoperator : st.operator u fuel c s = .done (p, st')) : st'.source.weight ≤ s.weight := by
  unfold State.operator at hoperator
  simp only [Outcome.bind_eq_done, Outcome.ofOption_eq_done, Prod.exists] at hoperator
  obtain ⟨c2, s1, hget, hoperator⟩ := hoperator
  have := get_weight hget
  split at hoperator
  · next hneg =>
    have := numeric_weight (.inr hneg.2) hoperator
    omega
  split at hoperator
  · next hdot =>
    simp only [Outcome.bind_eq_done, Outcome.ofOption_eq_done] at hoperator
    obtain ⟨s2, hunget, hoperator⟩ := hoperator
    have := get_unget_weight hget hunget
    have := numeric_weight (.inr hdot.1) hoperator
    omega
  · simp only [Outcome.bind_eq_done, Outcome.ofOption_eq_done, Prod.exists] at hoperator
    obtain ⟨token, s2, htoken, hoperator⟩ := hoperator
    cases hoperator
    have := tokenizeOperator_weight htoken
    simp only
    omega

/-- Every token but the last takes a character. -/
theorem tokenize_weight (htokenize : tokenize u fuel st = .done (p, st')) (htoken : p.token ≠ T_EOF) :
    st'.source.weight < st.source.weight := by
  unfold tokenize at htokenize
  simp only [Outcome.bind_eq_done, Outcome.ofOption_eq_done, Prod.exists] at htokenize
  obtain ⟨c, s1, hnb, htokenize⟩ := htokenize
  have hnb := getNb_weight hnb
  split at htokenize
  · cases htokenize
    exact absurd rfl htoken
  next hc =>
  rw [weigh_pos hc] at hnb
  suffices hle : st'.source.weight ≤ s1.weight by omega
  split at htokenize
  · simp only [Outcome.bind_eq_done, Outcome.ofOption_eq_done, Prod.exists] at htokenize
    obtain ⟨token, st1, hsymbol, hdone⟩ := htokenize
    cases hdone
    exact tokenizeSymbol_weight hsymbol
  split at htokenize
  · next hdigit => exact numeric_weight (.inl hdigit) htokenize
  split at htokenize
  · simp only [Outcome.bind_eq_done, Outcome.ofOption_eq_done, Prod.exists] at htokenize
    obtain ⟨data, s2, hchar, hdone⟩ := htokenize
    cases hdone
    exact tokenizeChar_weight hchar
  split at htokenize
  · unfold State.string at htokenize
    simp only [Outcome.bind_eq_done, Prod.exists] at htokenize
    obtain ⟨out, s2, hloop, hdone⟩ := htokenize
    cases hdone
    exact stringLoop_weight hloop
  · exact operator_weight htokenize

end Fuzemsys.Fcc.Tokenizer
