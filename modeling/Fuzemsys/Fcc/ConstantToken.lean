import Fuzemsys.Fcc.ConstantRight

/-!
# The token of an integer constant
-/

open Fuzemsys.Lib

namespace Fuzemsys.Fcc.Constant

variable {h : Host} {k : Constant} {c : Byte} {more rest ls : List Byte} {s : Source h}

/-! ## What the digits leave -/

/-- The sum and the count of the digits. -/
def parsed (h : Host) (k : Constant) : BitVec 32 × BitVec h.intBits :=
  match k.radix with
  | .decimal => decFold (0, 0) k.digits
  | .octal => (octFold 0 k.digits, 0)
  | .hexadecimal _ => hexFold (0, 0) k.digits

/-- An octal number is never too large. -/
def outcome (h : Host) (k : Constant) : Parsed h :=
  if (k.parsed h).2 = 0 then .integer (k.parsed h).1 else .oversized

/-- The text has been read up to the character behind the digits, which is pushed back. -/
def Read (k : Constant) (p : Option (Parsed h × Source h)) (rest : List Byte) : Prop :=
  ∃ s' s'' : Source h, s'.After ((k.suffix ++ rest).headD 0) (k.suffix ++ rest).tail ∧
    unget s' ((k.suffix ++ rest).headD 0) = some s'' ∧ p = some (k.outcome h, s'')

theorem dec_read (hr : k.radix = .decimal) (hrest : EndsNumber rest)
    (hs : s.After ((k.digits ++ (k.suffix ++ rest)).headD 0) (k.digits ++ (k.suffix ++ rest)).tail) :
    k.Read (decFormat ((k.digits ++ (k.suffix ++ rest)).headD 0) s) rest := by
  have hds := k.digits_right
  rw [hr] at hds
  have hnext := follows_suffix k hrest
  obtain ⟨s', hrun, hafter⟩ := decDigits_run hds hnext.not_digit hs 0 0
  obtain ⟨s'', hunget, -⟩ := unget_pushes hafter.pushback ((k.suffix ++ rest).headD 0)
  refine ⟨s', s'', hafter, hunget, ?_⟩
  unfold decFormat
  rw [hrun]
  simp only [Option.bind_eq_bind, Option.bind_some, if_neg hnext.2.1, if_neg hnext.not_e, hunget]
  unfold outcome parsed
  rw [hr]

theorem hex_read {capital : Bool} {last : Byte} (u : Unspecified h) (hr : k.radix = .hexadecimal capital)
    (hrest : EndsNumber rest) (hs : s.After last (k.digits ++ (k.suffix ++ rest))) (hlast : InLine last) :
    k.Read (hexFormat u s) rest := by
  have hds := k.digits_right
  rw [hr] at hds
  have hnext := follows_suffix k hrest
  obtain ⟨n, s', hrun, hafter⟩ := hexDigits_run hds hnext.1 hs hlast u.local32 0 0
  obtain ⟨s'', hunget, -⟩ := unget_pushes hafter.pushback ((k.suffix ++ rest).headD 0)
  refine ⟨s', s'', hafter, hunget, ?_⟩
  unfold hexFormat
  rw [hrun]
  simp only [Option.bind_eq_bind, Option.bind_some, if_neg hnext.2.1, if_neg hnext.not_p, hunget]
  unfold outcome parsed
  rw [hr]

theorem oct_read (hr : k.radix = .octal) (hrest : EndsNumber rest)
    (hs : s.After ((k.digits ++ (k.suffix ++ rest)).headD 0) (k.digits ++ (k.suffix ++ rest)).tail) :
    k.Read ((octFormatDigits 0 ((k.digits ++ (k.suffix ++ rest)).headD 0) s).map fun p => (.integer p.1, p.2)) rest := by
  have hds := k.digits_right
  rw [hr] at hds
  have hnext := follows_suffix k hrest
  obtain ⟨s', hrun, hafter⟩ := octDigits_run hds hnext.not_octal hs 0
  obtain ⟨s'', hunget, -⟩ := unget_pushes hafter.pushback ((k.suffix ++ rest).headD 0)
  refine ⟨s', s'', hafter, hunget, ?_⟩
  rw [hrun, hunget]
  unfold outcome parsed
  rw [hr]
  rfl

/-- The character behind the leading zero of an octal constant. -/
theorem octal_next (hr : k.radix = .octal) (hrest : EndsNumber rest) :
    ¬((k.digits ++ (k.suffix ++ rest)).headD 0 = 0x78 ∨ (k.digits ++ (k.suffix ++ rest)).headD 0 = 0x58) ∧
      (k.digits ++ (k.suffix ++ rest)).headD 0 ≠ 0x2E := by
  have hds := k.digits_right
  rw [hr] at hds
  cases hdigits : k.digits with
  | nil =>
    have hnext := follows_suffix k hrest
    refine ⟨?_, hnext.2.1⟩
    rw [List.nil_append]
    rintro (hx | hx) <;> exact absurd hnext.2.2.2.2 (by rw [hx]; decide)
  | cons d ds =>
    have hd : isoctal d = true := hds d (by rw [hdigits]; exact List.mem_cons_self)
    change ¬(d = 0x78 ∨ d = 0x58) ∧ d ≠ 0x2E
    refine ⟨?_, ?_⟩
    · rintro (rfl | rfl) <;> exact absurd hd (by decide)
    · rintro rfl
      exact absurd hd (by decide)

theorem decimal_first (hr : k.radix = .decimal) (htext : k.text ++ rest = c :: more) :
    c ≠ 0x30 ∧ (k.digits ++ (k.suffix ++ rest)).headD 0 = c ∧ (k.digits ++ (k.suffix ++ rest)).tail = more := by
  obtain ⟨hne, hzero⟩ : k.digits ≠ [] ∧ k.digits.head? ≠ some 0x30 := by
    have := k.begins
    rw [hr] at this
    exact this
  unfold text at htext
  rw [hr, Radix.mark, List.nil_append, List.append_assoc] at htext
  rw [htext]
  refine ⟨?_, rfl, rfl⟩
  rintro rfl
  obtain ⟨d, ds, hds⟩ := List.exists_cons_of_ne_nil hne
  rw [hds] at htext hzero
  exact hzero (by rw [(List.cons.inj htext).1]; rfl)

/-- Every constant is read to the end of its digits. -/
theorem parseDigits_read (u : Unspecified h) (hrest : EndsNumber rest) (htext : k.text ++ rest = c :: more)
    (hs : s.After c more) : k.Read (parseDigits u c s) rest := by
  unfold parseDigits
  cases hr : k.radix with
  | decimal =>
    obtain ⟨hc, hhead, htail⟩ := decimal_first hr htext
    rw [if_neg hc, ← hhead]
    rw [← hhead, ← htail] at hs
    exact dec_read hr hrest hs
  | octal =>
    unfold text at htext
    simp only [hr, Radix.mark, List.cons_append, List.nil_append, List.append_assoc] at htext
    obtain ⟨rfl, rfl⟩ := List.cons.inj htext
    obtain ⟨s1, hget, hafter⟩ := get_next hs inLine_zero
    obtain ⟨hx, hpoint⟩ := octal_next hr hrest
    obtain ⟨s', s'', h1, h2, h3⟩ := oct_read hr hrest hafter
    refine ⟨s', s'', h1, h2, ?_⟩
    rw [if_pos rfl]
    unfold octFormat
    rw [hget]
    simp only [Option.bind_eq_bind, Option.bind_some, if_neg hx, if_neg hpoint]
    rw [← h3]
    cases octFormatDigits (h := h) 0 _ s1 <;> rfl
  | hexadecimal capital =>
    unfold text at htext
    simp only [hr, Radix.mark, List.cons_append, List.nil_append, List.append_assoc] at htext
    obtain ⟨rfl, rfl⟩ := List.cons.inj htext
    obtain ⟨s1, hget, hafter⟩ := get_next hs inLine_zero
    have hx : InLine (if capital then 0x58 else 0x78) := by cases capital <;> exact ⟨by decide, by decide⟩
    have hmark : (if capital then 0x58 else 0x78 : Byte) = 0x78 ∨ (if capital then 0x58 else 0x78 : Byte) = 0x58 := by
      cases capital
      · exact .inl rfl
      · exact .inr rfl
    obtain ⟨s', s'', h1, h2, h3⟩ := hex_read u hr hrest hafter hx
    refine ⟨s', s'', h1, h2, ?_⟩
    rw [if_pos rfl]
    unfold octFormat
    rw [hget]
    simp only [Option.bind_eq_bind, Option.bind_some, List.headD_cons]
    rw [if_pos hmark]
    exact h3

/-! ## Errors -/

/-- How many errors the digits report. -/
def errors (h : Host) (k : Constant) : Nat :=
  if k.radix = .octal then octFalls 0 k.digits else (k.outcome h).errors

theorem rangeErrors_eq (u : Unspecified h) (hrest : EndsNumber rest) (htext : k.text ++ rest = c :: more)
    (hs : s.After c more) : rangeErrors u c s = some (k.errors h) := by
  have hread := parseDigits_read u hrest htext hs
  obtain ⟨_, _, -, -, hparse⟩ := hread
  unfold parseDigits octFormat at hparse
  unfold rangeErrors errors
  cases hr : k.radix with
  | decimal =>
    obtain ⟨hc, -, -⟩ := decimal_first hr htext
    rw [if_neg hc] at hparse ⊢
    rw [hparse, if_neg (by decide)]
    rfl
  | octal =>
    unfold text at htext
    simp only [hr, Radix.mark, List.cons_append, List.nil_append, List.append_assoc] at htext
    obtain ⟨rfl, rfl⟩ := List.cons.inj htext
    obtain ⟨s1, hget, hafter⟩ := get_next hs inLine_zero
    obtain ⟨hx, hpoint⟩ := octal_next hr hrest
    have hds := k.digits_right
    rw [hr] at hds
    rw [if_pos rfl, if_pos rfl, hget]
    simp only [Option.bind_eq_bind, Option.bind_some, if_neg hx, if_neg hpoint]
    exact octErrors_run hds (follows_suffix k hrest).not_octal hafter 0
  | hexadecimal capital =>
    unfold text at htext
    simp only [hr, Radix.mark, List.cons_append, List.nil_append, List.append_assoc] at htext
    obtain ⟨rfl, rfl⟩ := List.cons.inj htext
    obtain ⟨s1, hget, hafter⟩ := get_next hs inLine_zero
    have hmark : (if capital then 0x58 else 0x78 : Byte) = 0x78 ∨ (if capital then 0x58 else 0x78 : Byte) = 0x58 := by
      cases capital
      · exact .inl rfl
      · exact .inr rfl
    rw [if_pos rfl, hget] at hparse ⊢
    simp only [Option.bind_eq_bind, Option.bind_some, List.headD_cons] at hparse ⊢
    rw [if_pos hmark] at hparse ⊢
    rw [hparse, if_neg (by simp)]
    rfl

theorem ofNat_eq_zero_iff (w n : Nat) : BitVec.ofNat w n = 0 ↔ 2 ^ w ∣ n := by
  rw [BitVec.toNat_inj.symm, BitVec.toNat_ofNat, BitVec.ofNat_eq_ofNat, BitVec.toNat_ofNat, Nat.zero_mod]
  exact (Nat.dvd_iff_mod_eq_zero).symm

theorem outcome_errors (h : Host) (k : Constant) : 0 < (k.outcome h).errors ↔ (k.parsed h).2 ≠ 0 := by
  unfold outcome
  split
  · next hz => simp [Parsed.errors, hz]
  · next hz => exact iff_of_true Nat.one_pos hz

theorem errors_pos_iff (h : Host) (k : Constant) : 0 < k.errors h ↔ k.Reported h := by
  have hds := k.digits_right
  unfold errors Reported
  cases hr : k.radix with
  | decimal =>
    rw [hr] at hds
    rw [if_neg (by decide), outcome_errors, parsed, hr]
    dsimp only
    rw [decFold_ex, show ∀ x : BitVec h.intBits, 0 + x = x from BitVec.zero_add, Ne, ofNat_eq_zero_iff]
    have hfalls := @falls_iff_halvings _ 0 hds
    refine ⟨fun hdvd => ⟨hfalls.mpr ?_, hdvd⟩, fun h => h.2⟩
    intro hz
    rw [hz] at hdvd
    exact hdvd (Nat.dvd_zero _)
  | octal =>
    rw [hr] at hds
    rw [if_pos rfl]
    exact @octFalls_pos _ 0 hds
  | hexadecimal capital =>
    rw [hr] at hds
    rw [if_neg (by simp), outcome_errors, parsed, hr]
    dsimp only
    rw [hexFold_ex hds, show ∀ x : BitVec h.intBits, 0 + x = x from BitVec.zero_add, Ne, ofNat_eq_zero_iff]
    rfl

/-! ## The value -/

theorem parsed_exact (h : Host) (hlt : k.value < 2 ^ 32) : k.parsed h = (BitVec.ofNat 32 k.value, 0) := by
  have hds := k.digits_right
  unfold value at hlt
  unfold parsed value
  cases hr : k.radix with
  | decimal =>
    rw [hr] at hds hlt
    exact decFold_exact hds hlt
  | octal =>
    rw [hr] at hds hlt
    exact congrArg (·, 0) (octFold_exact hds hlt)
  | hexadecimal capital =>
    rw [hr] at hds hlt
    exact hexFold_exact hds hlt

/-- A constant below 2^32 keeps its value. -/
theorem tokenizeNumeric_value (u : Unspecified h) (fuel : Nat) (old : Number) (hrest : EndsNumber rest)
    (htext : k.text ++ rest = c :: more) (hs : s.After c more) (hlt : k.value < 2 ^ 32) :
    ∃ s', tokenizeNumeric u fuel old c false s =
      .done (⟨BitVec.ofNat 32 k.value, k.flags.integerType (BitVec.ofNat 32 k.value)⟩, s') := by
  obtain ⟨s1, s2, hafter, hunget, hparse⟩ := parseDigits_read u hrest htext hs
  obtain ⟨s2', s', hunget', hsuffix⟩ := suffixes_unget hafter (suffix_flags k.suffix_right) (letter_end _ hrest)
  rw [hunget] at hunget'
  cases hunget'
  have houtcome : k.outcome h = .integer (BitVec.ofNat 32 k.value) := by
    unfold outcome
    rw [parsed_exact h hlt]
    rfl
  refine ⟨s', ?_⟩
  unfold tokenizeNumeric
  rw [hparse, houtcome]
  simp only [Outcome.ofOption_some, Outcome.bind_done, Parsed.number, hsuffix]
  rfl

/-- The value and the type are right but for decimal constants that are taken for unsigned; the constants
that are too large are reported if a sum falls, and the counts do not wrap. -/
theorem right_iff (u : Unspecified h) (fuel : Nat) (old : Number) (k : Constant) (hrest : EndsNumber rest)
    (htext : k.text ++ rest = c :: more) (hs : s.After c more) :
    ((k.value < 2 ^ 32 → ∃ t s', k.type = some t ∧
        tokenizeNumeric u fuel old c false s = .done (⟨BitVec.ofNat 32 k.value, t⟩, s')) ∧
      (2 ^ 32 ≤ k.value → ∃ errors, rangeErrors u c s = some errors ∧ 0 < errors)) ↔
    (k.value < 2 ^ 32 → ¬k.WrongType) ∧ (2 ^ 32 ≤ k.value → k.Reported h) := by
  refine and_congr ?_ ?_
  · refine imp_congr_right fun hlt => ?_
    obtain ⟨s', hvalue⟩ := tokenizeNumeric_value u fuel old hrest htext hs hlt
    rw [← type_iff k hlt]
    constructor
    · rintro ⟨t, s'', htype, hdone⟩
      rw [hvalue] at hdone
      cases hdone
      exact htype
    · intro htype
      exact ⟨_, s', htype, hvalue⟩
  · refine imp_congr_right fun _ => ?_
    rw [← errors_pos_iff]
    constructor
    · rintro ⟨errors, herrors, hpos⟩
      rw [rangeErrors_eq u hrest htext hs] at herrors
      cases herrors
      exact hpos
    · intro hpos
      exact ⟨_, rangeErrors_eq u hrest htext hs, hpos⟩

/-! ## Two constants -/

/-- The last character was `c`. -/
def behind (c : Byte) (more : List Byte) : Source .fuzix where
  front := .start
  inp := more
  pushback := []
  isnl := decide (c = 0x0A)
  lastbslash := decide (c = 0x5C)

def fuzixLeaves : Unspecified .fuzix := ⟨0, fun _ _ => 0⟩

/-- 0xFFFFu -/
def mask : Constant where
  radix := .hexadecimal false
  digits := [0x46, 0x46, 0x46, 0x46]
  suffix := [0x75]
  digits_right := by decide
  begins := by simp [Radix.Begins]
  suffix_right := by decide

theorem mask_right :
    (mask.value < 2 ^ 32 → ∃ t s', mask.type = some t ∧
        tokenizeNumeric fuzixLeaves 0 ⟨0, 0⟩ 0x30 false (behind 0x30 (mask.text.tail ++ [0x3B])) =
          .done (⟨BitVec.ofNat 32 mask.value, t⟩, s')) ∧
      (2 ^ 32 ≤ mask.value → ∃ errors,
        rangeErrors fuzixLeaves 0x30 (behind 0x30 (mask.text.tail ++ [0x3B])) = some errors ∧ 0 < errors) := by
  have hends : EndsNumber [0x3B] := by
    unfold EndsNumber
    decide
  refine (right_iff fuzixLeaves 0 ⟨0, 0⟩ mask hends rfl ⟨rfl, rfl, rfl, rfl⟩).mpr
    ⟨fun _ hwrong => ?_, fun hge => absurd hge (by decide)⟩
  exact absurd hwrong.1 (by decide)

/-- 40000 -/
def fortyThousand : Constant where
  radix := .decimal
  digits := [0x34, 0x30, 0x30, 0x30, 0x30]
  suffix := []
  digits_right := by decide
  begins := ⟨by decide, by decide⟩
  suffix_right := by decide

theorem fortyThousand_unsigned : ¬∀ (h : Host) (u : Unspecified h) (fuel : Nat) (old : Number) (k : Constant)
    (c : Byte) (more rest : List Byte) (s : Source h), EndsNumber rest → k.text ++ rest = c :: more →
      s.After c more →
      (k.value < 2 ^ 32 → ∃ t s', k.type = some t ∧
        tokenizeNumeric u fuel old c false s = .done (⟨BitVec.ofNat 32 k.value, t⟩, s')) ∧
      (2 ^ 32 ≤ k.value → ∃ errors, rangeErrors u c s = some errors ∧ 0 < errors) := by
  intro claim
  have hends : EndsNumber [0x3B] := by
    unfold EndsNumber
    decide
  have hs : (behind 0x34 (fortyThousand.text.tail ++ [0x3B])).After 0x34 (fortyThousand.text.tail ++ [0x3B]) :=
    ⟨rfl, rfl, rfl, rfl⟩
  obtain ⟨t, s', htype, hdone⟩ :=
    (claim .fuzix fuzixLeaves 0 ⟨0, 0⟩ fortyThousand 0x34 _ [0x3B] _ hends rfl hs).1 (by decide)
  obtain ⟨s'', hdone'⟩ := tokenizeNumeric_value fuzixLeaves 0 ⟨0, 0⟩ (k := fortyThousand) hends rfl hs (by decide)
  rw [hdone'] at hdone
  have ht : fortyThousand.flags.integerType (BitVec.ofNat 32 fortyThousand.value) = t := by
    cases hdone
    rfl
  rw [← ht] at htype
  exact absurd htype (by decide)

end Fuzemsys.Fcc.Constant
