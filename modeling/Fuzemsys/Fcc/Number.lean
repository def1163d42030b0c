import Fuzemsys.Lib.Fuel
import Fuzemsys.Fcc.StringLiteral

/-!
# Numbers

What the tokenizer makes of a number: the decimal, hexadecimal and octal formats, and
the software float encoding that `convert_fix32` does.
-/

open Fuzemsys.Lib

namespace Fuzemsys.Fcc

variable {h : Host}

/-! ## What is left of the source

A zero that was pushed back at the end of the source does not count. -/

/-- A zero is the end of the source. -/
def weigh (c : Byte) : Nat := if c = 0 then 0 else 1

def Source.weight (s : Source h) : Nat := s.inp.length + (s.pushback.map weigh).sum

theorem weigh_le (c : Byte) : weigh c ≤ 1 := by
  unfold weigh
  split <;> omega

theorem weigh_pos {c : Byte} (hc : c ≠ 0) : weigh c = 1 := if_neg hc

theorem bgetc_weight (s : Source h) : s.bgetc.2.weight + weigh s.bgetc.1 ≤ s.weight := by
  unfold Source.bgetc
  split
  · next hinp => simp [Source.weight, weigh, hinp]
  · next c inp hinp =>
    have := weigh_le c
    simp only [Source.weight, hinp, List.length_cons]
    omega

theorem lineStart_weight {s s' : Source h} (hstart : s.lineStart = some s') : s'.weight ≤ s.weight := by
  unfold Source.lineStart at hstart
  split at hstart
  · obtain ⟨⟨front, inp⟩, hskip, rfl⟩ := Option.map_eq_some_iff.mp hstart
    have := skipDirectives_length hskip
    simp only [Source.weight]
    omega
  · cases hstart
    exact le_rfl

theorem getc_weight (s : Source h) : s.getc.2.weight + weigh s.getc.1 ≤ s.weight := by
  unfold Source.getc
  split
  · next inp hinp =>
    split
    · have hle := bgetc_weight { s.newline with inp := inp }
      simp only [Source.weight, Source.newline, hinp, List.length_cons] at hle ⊢
      omega
    · exact bgetc_weight s.newline
  · exact bgetc_weight { s with isnl := false }

theorem get_weight {s s' : Source h} {c : Byte} (hget : get s = some (c, s')) : s'.weight + weigh c ≤ s.weight := by
  unfold get at hget
  split at hget
  · next hpush =>
    cases hget
    simp only [Source.weight, hpush, List.map_cons, List.sum_cons]
    split <;> simp [Source.newline]
  · obtain ⟨s1, hstart, heq⟩ := Option.map_eq_some_iff.mp hget
    have hle := lineStart_weight hstart
    have hgetc := getc_weight s1
    rw [heq] at hgetc
    exact hgetc.trans hle

theorem unget_weight {s s' : Source h} {c : Byte} (hunget : unget s c = some s') : s'.weight = s.weight + weigh c := by
  unfold unget at hunget
  split at hunget
  · cases hunget
  · cases hunget
    split <;> simp [Source.weight] <;> omega

/-! ## convert_fix32 -/

/-- What C leaves open: a local that is not set, and a shift by the width of an int or more. -/
structure Unspecified (h : Host) where
  local32 : BitVec 32
  shift : BitVec h.intBits → Nat → BitVec h.intBits

def shl (u : Unspecified h) (x : BitVec h.intBits) (n : Nat) : BitVec h.intBits :=
  if n < h.intBits then x <<< n else u.shift x n

section
variable {n : Nat}

/-- Until `bit` is set, shift up and merge in `frac`. -/
def shiftUpTurn (bit : BitVec 32) :
    BitVec n × BitVec 32 × BitVec 32 → Option ((BitVec n × BitVec 32 × BitVec 32) ⊕ (BitVec n × BitVec 32 × BitVec 32))
  | (exp, sum, frac) =>
    if sum &&& bit ≠ 0 then some (.inr (exp, sum, frac))
    else
      let carry : BitVec 32 := if frac &&& 0x80000000 ≠ 0 then 1 else 0
      some (.inl (exp - 1, sum <<< 1 ||| carry, frac <<< 1))

def shiftUp (bit : BitVec 32) (fuel : Nat) (exp : BitVec n) (sum frac : BitVec 32) :
    Outcome (BitVec n × BitVec 32 × BitVec 32) := loop (shiftUpTurn bit) fuel (exp, sum, frac)

theorem shiftRight_lt {sum mask : BitVec 32} (hmask : sum &&& mask ≠ 0) : (sum >>> 1).toNat < sum.toNat := by
  have hpos : sum.toNat ≠ 0 := by
    intro hzero
    rw [BitVec.eq_of_toNat_eq (x := sum) (y := 0#32) hzero] at hmask
    simp at hmask
  rw [BitVec.toNat_ushiftRight, Nat.shiftRight_eq_div_pow]
  omega

/-- Shift down until no bit of `mask` is set. -/
def shiftDown (mask : BitVec 32) (exp : BitVec n) (sum : BitVec 32) : BitVec n × BitVec 32 :=
  if _hmask : sum &&& mask ≠ 0 then shiftDown mask (exp + 1) (sum >>> 1) else (exp, sum)
termination_by sum.toNat
decreasing_by exact shiftRight_lt _hmask

/-- A 28bit number will never overflow when multiplied by ten. -/
def timesTen : Nat → BitVec n → BitVec 32 → BitVec n × BitVec 32
  | 0, exp, sum => (exp, sum)
  | uexp + 1, exp, sum =>
    let (exp, sum) := shiftDown 0xF0000000 exp (sum * 10)
    timesTen uexp exp sum

/-- Fix up the exponent in the other direction. -/
def overTen (fuel : Nat) : Nat → BitVec n → BitVec 32 → Outcome (BitVec n × BitVec 32)
  | 0, exp, sum => .done (exp, sum)
  | uexp + 1, exp, sum =>
    (shiftUp 0x08000000 fuel exp (sum / 10) 0).bind fun (exp, sum, _) => overTen fuel uexp exp sum

end

/-- The IEEE 754 float with this exponent and mantissa. -/
def assemble (u : Unspecified h) (exp : BitVec h.intBits) (sum : BitVec 32) : BitVec 32 :=
  -- No denormals
  if exp.toInt < 1 then 0
  else if 254 < exp.toInt then 0x7F800000
  else (sum &&& 0x007FFFFF) ||| ((shl u exp 23).signExtend 32 &&& 0x7F800000)

/-- `sum` and `frac` are a 32.32 fixed point value. -/
def convertFix32 (u : Unspecified h) (fuel : Nat) (exp : BitVec h.intBits) (sum frac : BitVec 32)
    (uexp : BitVec h.intBits) : Outcome (BitVec 32) :=
  if sum = 0 ∧ frac = 0 then .done 0
  else
    -- Start by getting it down to 28bits
    (shiftUp 0x08000000 fuel exp sum frac).bind fun (exp, sum, frac) =>
    let (exp, sum) := timesTen uexp.toInt.toNat exp sum
    (overTen fuel (-uexp.toInt).toNat exp sum).bind fun (exp, sum) =>
    let (exp, sum) := shiftDown 0xFF000000 (exp + 22) sum
    (shiftUp 0x00800000 fuel exp sum frac).bind fun (exp, sum, _) =>
    .done (assemble u (exp + 128) sum)

/-! ## Digits -/

/-- What a number ends with: an integer, an integer that is too large, or a call of `convert_fix32`. -/
inductive Parsed (h : Host) where
  | integer (sum : BitVec 32)
  | oversized
  | fix32 (exp : BitVec h.intBits) (sum frac : BitVec 32) (uexp : BitVec h.intBits)

def digit (c : Byte) : BitVec 32 := c.setWidth 32 - 0x30

theorem isdigit_pos {c : Byte} (hc : isdigit c = true) : c ≠ 0 := by
  rintro rfl
  cases hc

/-- The digits of an exponent. -/
def exponentDigits (sum : BitVec 32) (c : Byte) (s : Source h) : Option (BitVec 32 × Source h) :=
  if _hdigit : isdigit c then
    match _hget : get s with
    | none => none
    | some (c', s') => exponentDigits (sum * 10 + digit c) c' s'
  else (unget s c).map fun s => (sum, s)
termination_by s.weight + weigh c
decreasing_by
  have := get_weight _hget
  have := weigh_pos (isdigit_pos _hdigit)
  omega

def skipPlus (c : Byte) (s : Source h) : Option (Byte × Source h) := if c = 0x2B then get s else some (c, s)

/-- After the E or P in a floating point value is a signed decimal exponent. -/
def parseExponent (s : Source h) : Option (BitVec h.intBits × Source h) := do
  let (c, s) ← get s
  if c = 0x2D then
    let (c, s) ← get s
    let (sum, s) ← exponentDigits 0 c s
    some (BitVec.ofInt h.intBits (-sum.toNat), s)
  else
    let (c, s) ← skipPlus c s
    let (sum, s) ← exponentDigits 0 c s
    some (BitVec.ofInt h.intBits sum.toNat, s)

/-! ## Decimal -/

theorem half_lt {sum n : BitVec 32} (hlt : n < sum) : (sum >>> 1).toNat < sum.toNat := by
  have hpos := BitVec.lt_def.mp hlt
  rw [BitVec.toNat_ushiftRight, Nat.shiftRight_eq_div_pow]
  omega

/-- If we wrap then keep shifting. -/
def fitDigit (c : BitVec 32) (sum : BitVec 32) (ex : BitVec h.intBits) : BitVec 32 × BitVec h.intBits :=
  if _hwrap : sum * 10 + c < sum then fitDigit c (sum >>> 1) (ex + 1) else (sum * 10 + c, ex)
termination_by sum.toNat
decreasing_by exact half_lt _hwrap

/-- The digits before the `.`, and the character after them. -/
def decDigits (sum : BitVec 32) (ex : BitVec h.intBits) (c : Byte) (s : Source h) :
    Option (BitVec 32 × BitVec h.intBits × Byte × Source h) :=
  if _hdigit : isdigit c then
    match _hget : get s with
    | none => none
    | some (c', s') =>
      let (sum, ex) := fitDigit (digit c) sum ex
      decDigits sum ex c' s'
  else some (sum, ex, c, s)
termination_by s.weight + weigh c
decreasing_by
  have := get_weight _hget
  have := weigh_pos (isdigit_pos _hdigit)
  omega

def fraction : List (BitVec 32) :=
  [0x199999A0, 0x28F5C28, 0x418937, 0x68DB8, 0xA7C5, 0x10C6, 0x1AD, 0x2A, 0x4, 0]

/-- A fractional part, using the fraction table. True if an exponent follows. -/
def decFraction (n : Nat) (frac : BitVec 32) (s : Source h) : Option (BitVec 32 × Bool × Source h) :=
  match _hget : get s with
  | none => none
  | some (c, s') =>
    if c = 0x45 ∨ c = 0x65 then some (frac, true, s')
    else if _hdigit : isdigit c then
      let scale := fraction.getD n 0
      if scale ≠ 0 then decFraction (n + 1) (frac + digit c * scale) s' else decFraction n frac s'
    else (unget s' c).map fun s => (frac, false, s)
termination_by s.weight
decreasing_by
  all_goals
    have := get_weight _hget
    have := weigh_pos (isdigit_pos _hdigit)
    omega

def decFormat (c : Byte) (s : Source h) : Option (Parsed h × Source h) := do
  let (sum, ex, c, s) ← decDigits 0 (0 : BitVec h.intBits) c s
  if c = 0x2E then
    let (frac, exponent, s) ← decFraction 0 0 s
    if exponent then
      let (uex, s) ← parseExponent s
      -- The frac bits are not needed if we shifted
      some (.fix32 ex sum (if ex ≠ 0 then 0 else frac) uex, s)
    else some (.fix32 ex sum frac 0, s)
  else if c = 0x45 ∨ c = 0x65 then
    let (uex, s) ← parseExponent s
    some (.fix32 ex sum 0 uex, s)
  else
    let s ← unget s c
    some (if ex = 0 then .integer sum else .oversized, s)

/-! ## Hexadecimal and octal -/

theorem isxdigit_pos {c : Byte} (hc : isxdigit c = true) : c ≠ 0 := by
  rintro rfl
  cases hc

/-- `n` is the local that the loop leaves behind. -/
def hexDigits (n sum : BitVec 32) (ex : BitVec h.intBits) (s : Source h) :
    Option (BitVec 32 × BitVec 32 × BitVec h.intBits × Byte × Source h) :=
  match _hget : get s with
  | none => none
  | some (c, s') =>
    if _hdigit : isxdigit c then
      let n := sum <<< 4
      if n ≥ sum then hexDigits n (n + (unhex c).setWidth 32) ex s'
      -- Digits we are parsing are not relevant, but remember the shift
      else hexDigits n sum (ex + 4) s'
    else some (n, sum, ex, c, s')
termination_by s.weight
decreasing_by
  all_goals
    have := get_weight _hget
    have := weigh_pos (isxdigit_pos _hdigit)
    omega

/-- A fractional part. True if an exponent follows. -/
def hexFraction (u : Unspecified h) (n : BitVec 32) (ct : Int) (frac : BitVec 32) (s : Source h) :
    Option (BitVec 32 × Bool × Source h) :=
  match _hget : get s with
  | none => none
  | some (c, s') =>
    if c = 0x50 ∨ c = 0x70 then some (frac, true, s')
    else if _hdigit : isxdigit c then
      -- Only add relevant fractions
      if 0 ≤ ct then
        hexFraction u n (ct - 4) (frac ||| (shl u ((unhex c).setWidth h.intBits) n.toNat).setWidth 32) s'
      else hexFraction u n ct frac s'
    else (unget s' c).map fun s => (frac, false, s)
termination_by s.weight
decreasing_by
  all_goals
    have := get_weight _hget
    have := weigh_pos (isxdigit_pos _hdigit)
    omega

def hexFormat (u : Unspecified h) (s : Source h) : Option (Parsed h × Source h) := do
  let (n, sum, ex, c, s) ← hexDigits u.local32 0 (0 : BitVec h.intBits) s
  if c = 0x2E then
    let (frac, exponent, s) ← hexFraction u n (if ex ≠ 0 then -1 else 28) 0 s
    if exponent then
      let (uex, s) ← parseExponent s
      some (.fix32 ex sum frac uex, s)
    else some (.fix32 ex sum frac 0, s)
  else if c = 0x50 ∨ c = 0x70 then
    let (uex, s) ← parseExponent s
    some (.fix32 ex sum 0 uex, s)
  else
    let s ← unget s c
    some (if ex = 0 then .integer sum else .oversized, s)

theorem isoctal_pos {c : Byte} (hc : isoctal c = true) : c ≠ 0 := by
  rintro rfl
  cases hc

def octFormatDigits (sum : BitVec 32) (c : Byte) (s : Source h) : Option (BitVec 32 × Source h) :=
  if _hdigit : isoctal c then
    match _hget : get s with
    | none => none
    | some (c', s') => octFormatDigits ((sum <<< 3) + digit c) c' s'
  else (unget s c).map fun s => (sum, s)
termination_by s.weight + weigh c
decreasing_by
  have := get_weight _hget
  have := weigh_pos (isoctal_pos _hdigit)
  omega

/-- We parsed a 0, check for 0x or octal. -/
def octFormat (u : Unspecified h) (s : Source h) : Option (Parsed h × Source h) := do
  let (c, s) ← get s
  if c = 0x78 ∨ c = 0x58 then hexFormat u s
  -- Implied fractional part of decimal
  else if c = 0x2E then decFormat c s
  else
    let (sum, s) ← octFormatDigits 0 c s
    some (.integer sum, s)

def parseDigits (u : Unspecified h) (c : Byte) (s : Source h) : Option (Parsed h × Source h) :=
  if c = 0x30 then octFormat u s else decFormat c s

/-! ## A number -/

/-- The statics that a number is left in. -/
structure Number where
  result : BitVec 32
  rtype : Token
  deriving DecidableEq

/-- A number that is too large leaves the statics as they were. -/
def Parsed.number (u : Unspecified h) (fuel : Nat) (old : Number) : Parsed h → Outcome Number
  | integer sum => .done ⟨sum, T_INTVAL⟩
  | oversized => .done old
  | fix32 exp sum frac uexp => (convertFix32 u fuel exp sum frac uexp).bind fun result => .done ⟨result, T_FLOATVAL⟩

structure Suffix where
  float : Bool
  unsigned : Bool
  long : Bool
  deriving DecidableEq

/-- The flag that a letter sets, if it is not set yet. -/
def Suffix.letter (f : Suffix) (c : Byte) : Option Suffix :=
  let cup := toupper c
  if cup = 0x46 ∧ !f.float then some { f with float := true }
  else if cup = 0x55 ∧ !f.unsigned then some { f with unsigned := true }
  else if cup = 0x4C ∧ !f.long then some { f with long := true }
  else none

theorem letter_pos {f f' : Suffix} {c : Byte} (hf : f.letter c = some f') : c ≠ 0 := by
  rintro rfl
  simp [Suffix.letter, toupper] at hf

/-- Trailing type information. -/
def suffixes (f : Suffix) (s : Source h) : Option (Suffix × Source h) :=
  match _hget : get s with
  | none => none
  | some (c, s') =>
    match _hletter : f.letter c with
    | some f' => suffixes f' s'
    | none => (unget s' c).map fun s => (f, s)
termination_by s.weight
decreasing_by
  have := get_weight _hget
  have := weigh_pos (letter_pos _hletter)
  omega

/-- The type of an integer. -/
def Suffix.integerType (f : Suffix) (result : BitVec 32) : Token :=
  if !f.long ∧ result ≤ 65535 then
    if !f.unsigned ∧ result ≤ 32767 then T_INTVAL else T_UINTVAL
  else if !f.unsigned then
    let rtype := if result ≤ 2147483647 then T_LONGVAL else T_ULONGVAL
    if !f.long ∧ result ≤ 32767 then T_INTVAL else rtype
  else T_ULONGVAL

/-- Assumes IEEE 754. -/
def Number.negate (n : Number) : BitVec 32 :=
  if n.rtype = T_FLOATVAL then n.result ^^^ 0x80000000 else -n.result

/-- A number with a sign is negated, typed, and negated once more. -/
def Suffix.finish (f : Suffix) (neg : Bool) (n : Number) : Number :=
  let n := if neg then { n with result := n.negate } else n
  let n := if n.rtype ≠ T_FLOATVAL then { n with rtype := f.integerType n.result } else n
  if neg then { n with result := n.negate } else n

/-- An integer with an F is converted too. -/
def Suffix.convert (u : Unspecified h) (fuel : Nat) (f : Suffix) (n : Number) : Outcome Number :=
  if f.float ∧ n.rtype ≠ T_FLOATVAL then
    (convertFix32 u fuel (0 : BitVec h.intBits) n.result 0 0).bind fun result => .done ⟨result, T_FLOATVAL⟩
  else .done n

/-- The number, and its four bytes after the token. -/
def tokenizeNumeric (u : Unspecified h) (fuel : Nat) (old : Number) (c : Byte) (neg : Bool) (s : Source h) :
    Outcome (Number × Source h) :=
  (Outcome.ofOption (parseDigits u c s)).bind fun (parsed, s) =>
  (parsed.number u fuel old).bind fun n =>
  (Outcome.ofOption (suffixes ⟨false, false, false⟩ s)).bind fun (f, s) =>
  (f.convert u fuel n).bind fun n => .done (f.finish neg n, s)

end Fuzemsys.Fcc
