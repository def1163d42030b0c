import Mathlib.Data.Nat.Bitwise
import Mathlib.Data.List.TakeWhile
import Fuzemsys.Lib.Bytes
import Fuzemsys.Fcc.Quoted

/-!
# The token stream

The first pass writes the token stream, the second reads it. What it reads is what
was written as long as no position has a line from 0x8000 on, no announced file name
has 32 characters, the file name has not been cleared silently, and every value fits
in an `unsigned` of the second pass.
-/

namespace Fuzemsys.Fcc

open Fuzemsys.Lib

variable {h : Host}

/-! ## What is written -/

/-- How the position changes while the source of a token is read. -/
inductive Move (h : Host) where
  /-- `get` and `unget` count newlines. -/
  | line (n : BitVec h.intBits)
  /-- A line that starts with a `#`, and the input after it. -/
  | directive (inp : List Byte)

inductive Numeric where
  | intval
  | uintval
  | longval
  | ulongval
  | floatval
  deriving DecidableEq, Repr

def Numeric.token : Numeric → Token
  | .intval => T_INTVAL
  | .uintval => T_UINTVAL
  | .longval => T_LONGVAL
  | .ulongval => T_ULONGVAL
  | .floatval => T_FLOATVAL

/-- A token without data. It is never zero. -/
structure Plain where
  token : Token
  ne_zero : token ≠ 0
  ne_line : token ≠ T_LINE
  not_numeric : isNumeric token = false
  ne_string : token ≠ T_STRING

/-- The tokens that `tokenize` makes. -/
inductive Tok where
  | plain (t : Plain)
  | numeric (kind : Numeric) (value : BitVec 32)
  | string (chars : List Byte)

def Tok.token : Tok → Token
  | .plain t => t.token
  | .numeric kind _ => kind.token
  | .string _ => T_STRING

def Tok.value : Tok → Option Nat
  | .numeric _ value => some value.toNat
  | _ => none

/-- The bytes that are encoded with the token. -/
def Tok.data : Tok → List Byte
  | .numeric _ value => encodeValue value
  | _ => []

/-- The bytes of a string, which follow its token. The last one is a quoted zero. -/
def stringBody (chars : List Byte) : List Byte := quoted chars ++ outbyteQuoted 0 ++ [0]

def Tok.body : Tok → List Byte
  | .string chars => stringBody chars
  | _ => []

/-- The moves before a token, and the token. -/
structure Item (h : Host) where
  moves : List (Move h)
  tok : Tok

/-- A token with its value and its position, as a pass knows them. -/
structure Seen where
  token : Token
  value : Option Nat
  line : Nat
  filename : List Byte
  deriving DecidableEq

def Frontend.name (s : Frontend h) : List Byte := cstring s.filename

def move (s : Frontend h) : Move h → Option (Frontend h)
  | .line n => some { s with line := n }
  | .directive inp => (directive s inp).map (·.1)

def moveAll (s : Frontend h) : List (Move h) → Option (Frontend h)
  | [] => some s
  | m :: moves => (move s m).bind fun s => moveAll s moves

def writerSees (s : Frontend h) (tok : Tok) : Seen where
  token := tok.token
  value := tok.value
  line := s.line.toNat
  filename := s.name.take 32

/-- The stream of a run, and what the writer knows at each token. A run ends early only when a
directive is fatal. -/
def writeItems (s : Frontend h) : List (Item h) → Option (List Byte × List Seen)
  | [] => some ([], [])
  | it :: items => do
    let s ← moveAll s it.moves
    let (bytes, s') := writeToken s it.tok.token it.tok.data
    let (stream, seen) ← writeItems s' items
    return (bytes ++ it.tok.body ++ stream, writerSees s it.tok :: seen)

/-! ## What is read -/

def readerSees (s : Lexer h) : Seen where
  token := s.token
  value := if isNumeric s.token then some s.tokenValue.toNat else none
  line := s.lineNum.toNat
  filename := s.filename

/-- The bytes of a string are for the reader of the token, `copy_string`. -/
def skipString (s : Lexer h) (inp : List Byte) : Option (List Byte) :=
  if s.token = T_STRING then (copyLoop (BitVec.allOnes h.intBits) 0 inp).map (·.2.2) else some inp

/-- As many tokens, and what is left of the stream. -/
def readTokens (s : Lexer h) : Nat → List Byte → Option (List Seen × List Byte)
  | 0, inp => some ([], inp)
  | n + 1, inp => do
    let (s, inp) ← nextToken s inp
    let inp ← skipString s inp
    let (seen, inp) ← readTokens s n inp
    return (readerSees s :: seen, inp)

/-! ## When they agree -/

/-- The position and the token go through the stream. `known` is the file name of the reader. -/
def TokenFits (known : List Byte) (s : Frontend h) (tok : Tok) : Prop :=
  s.line.toNat < 0x8000 ∧ (if s.filechange then s.name.length < 32 else s.name.take 32 = known) ∧
    ∀ value ∈ tok.value, value < 2 ^ h.intBits

def StreamFits (known : List Byte) (s : Frontend h) : List (Item h) → Prop
  | [] => True
  | it :: items => ∀ s1, moveAll s it.moves = some s1 →
    TokenFits known s1 it.tok ∧
      StreamFits (s1.name.take 32) (writeToken s1 it.tok.token it.tok.data).2 items

/-! ## Reading one token -/

theorem nextToken_line {r r' : Lexer h} {inp rest : List Byte} (hr : r.lastToken = NO_TOKEN)
    (hread : readLine r inp = some (r', rest)) :
    nextToken r (T_LINE.setWidth 8 :: (T_LINE >>> 8).setWidth 8 :: inp) = nextToken r' rest := by
  rw [nextToken, if_neg (not_not_intro hr)]
  simp only [word_of_two_bytes, BitVec.setWidth_eq, if_true]
  split
  · next r1 rest1 hread1 =>
    rw [hread] at hread1
    cases hread1
    rfl
  · next hread1 =>
    rw [hread] at hread1
    cases hread1

theorem nextToken_token {r : Lexer h} {t : Token} {inp : List Byte} (hr : r.lastToken = NO_TOKEN)
    (ht : t ≠ T_LINE) :
    nextToken r (t.setWidth 8 :: (t >>> 8).setWidth 8 :: inp) =
      if isNumeric t then readValue { r with token := t } inp else some ({ r with token := t }, inp) := by
  rw [nextToken, if_neg (not_not_intro hr)]
  simp only [word_of_two_bytes, BitVec.setWidth_eq, if_neg ht]

theorem readValue_encodeValue (r : Lexer h) (value : BitVec 32) (inp : List Byte) :
    readValue r (encodeValue value ++ inp) =
      some ({ r with tokenValue := (value.setWidth h.intBits).setWidth h.longBits }, inp) := by
  have hword := congrArg (BitVec.setWidth h.longBits) (word_of_four_bytes value h.intBits)
  simp only [BitVec.setWidth_or, BitVec.setWidth_eq] at hword
  simp only [encodeValue, List.cons_append, List.nil_append, readValue, hword]

theorem numeric_token (kind : Numeric) : isNumeric kind.token = true ∧
    kind.token ≠ T_LINE ∧ kind.token ≠ 0 ∧ kind.token ≠ T_STRING := by
  cases kind <;> decide

theorem tok_ne_line (tok : Tok) : tok.token ≠ T_LINE := by
  cases tok with
  | plain t => exact t.ne_line
  | numeric kind value => exact (numeric_token kind).2.1
  | string chars => exact (by decide : T_STRING ≠ T_LINE)

/-- The token and its data, after any line record. -/
theorem nextToken_tok {r : Lexer h} (tok : Tok) (rest : List Byte) (hr : r.lastToken = NO_TOKEN) :
    ∃ r', nextToken r ([tok.token.setWidth 8, (tok.token >>> 8).setWidth 8] ++ tok.data ++ rest) = some (r', rest) ∧
      r'.lastToken = NO_TOKEN ∧ r'.lineNum = r.lineNum ∧ r'.filename = r.filename ∧ r'.token = tok.token ∧
      readerSees r' = { token := tok.token, value := tok.value.map (· % 2 ^ h.intBits),
                        line := r.lineNum.toNat, filename := r.filename } := by
  simp only [List.cons_append, List.nil_append, nextToken_token hr (tok_ne_line tok)]
  cases tok with
  | plain t =>
    rw [Tok.token, if_neg (by simp [t.not_numeric])]
    refine ⟨_, rfl, hr, rfl, rfl, rfl, ?_⟩
    simp [readerSees, t.not_numeric, Tok.value]
  | numeric kind value =>
    have hlong : value.toNat % 2 ^ h.intBits % 2 ^ h.longBits = value.toNat % 2 ^ h.intBits := by
      refine Nat.mod_eq_of_lt (lt_of_le_of_lt (Nat.mod_le _ _) (lt_of_lt_of_le value.isLt ?_))
      exact Nat.pow_le_pow_right (by decide) h.long_wide
    rw [Tok.token, if_pos (numeric_token kind).1, Tok.data, readValue_encodeValue]
    refine ⟨_, rfl, hr, rfl, rfl, rfl, ?_⟩
    simp [readerSees, (numeric_token kind).1, Tok.value, hlong]
  | string chars =>
    refine ⟨_, rfl, hr, rfl, rfl, rfl, ?_⟩
    rfl

/-! ## The line record -/

section
variable {w : Nat} {v : BitVec w}

theorem toNat_8000 (hw : 16 ≤ w) : (0x8000 : BitVec w).toNat = 2 ^ 15 := by
  have hpow : 2 ^ 16 ≤ 2 ^ w := Nat.pow_le_pow_right (by decide) hw
  exact Nat.mod_eq_of_lt (show 2 ^ 15 < 2 ^ w by omega)

theorem toNat_7fff (hw : 16 ≤ w) : (0x7FFF : BitVec w).toNat = 2 ^ 15 - 1 := by
  have hpow : 2 ^ 16 ≤ 2 ^ w := Nat.pow_le_pow_right (by decide) hw
  exact Nat.mod_eq_of_lt (show 2 ^ 15 - 1 < 2 ^ w by omega)

theorem flag_clear (hw : 16 ≤ w) (hv : v.toNat < 0x8000) : v &&& 0x8000 = 0 := by
  apply BitVec.eq_of_toNat_eq
  rw [BitVec.toNat_and, toNat_8000 hw, Nat.and_two_pow, Nat.testBit_lt_two_pow (by omega)]
  simp

theorem flag_toNat (hw : 16 ≤ w) (hv : v.toNat < 0x8000) : (v ||| 0x8000).toNat = v.toNat + 2 ^ 15 := by
  have hor := Nat.two_pow_add_eq_or_of_lt (show v.toNat < 2 ^ 15 by omega) 1
  rw [BitVec.toNat_or, toNat_8000 hw, Nat.or_comm, ← Nat.mul_one (2 ^ 15), ← hor]
  omega

theorem flag_set (hw : 16 ≤ w) (hv : v.toNat < 0x8000) : (v ||| 0x8000) &&& 0x8000 ≠ 0 := by
  intro h
  have h15 := congrArg BitVec.toNat h
  rw [BitVec.toNat_and, flag_toNat hw hv, toNat_8000 hw, Nat.and_two_pow, Nat.testBit_eq_decide_div_mod_eq,
    show (v.toNat + 2 ^ 15) / 2 ^ 15 = 1 by omega] at h15
  simp at h15

theorem flag_strip (hw : 16 ≤ w) (hv : v.toNat < 0x8000) : (v ||| 0x8000) &&& 0x7FFF = v := by
  apply BitVec.eq_of_toNat_eq
  rw [BitVec.toNat_and, flag_toNat hw hv, toNat_7fff hw, Nat.and_two_pow_sub_one_eq_mod]
  omega

theorem unflagged_low (hw : 16 ≤ w) (hv : v.toNat < 2 ^ 16) (hflag : v &&& 0x8000 = 0) : v.toNat < 0x8000 := by
  have h15 := congrArg BitVec.toNat hflag
  rw [BitVec.toNat_and, toNat_8000 hw, Nat.and_two_pow, Nat.testBit_eq_decide_div_mod_eq] at h15
  simp at h15
  omega

theorem two_bytes_low (lo hi : Byte) : (lo.setWidth w ||| hi.setWidth w <<< 8).toNat < 2 ^ 16 := by
  rw [BitVec.toNat_or]
  apply Nat.or_lt_two_pow
  · rw [BitVec.toNat_setWidth]
    exact lt_of_le_of_lt (Nat.mod_le _ _) (lt_trans lo.isLt (by decide))
  · rw [BitVec.toNat_shiftLeft, BitVec.toNat_setWidth, Nat.shiftLeft_eq]
    have hhi := hi.isLt
    have hmod := Nat.mod_le hi.toNat (2 ^ w)
    exact lt_of_le_of_lt (Nat.mod_le _ _) (by omega)

/-- The two bytes of a line, put together again. -/
theorem line_bytes (hv : v.toNat < 2 ^ 16) :
    (v.setWidth 8).setWidth w ||| ((v >>> 8).setWidth 8).setWidth w <<< 8 = v := by
  rw [word_of_two_bytes]
  apply BitVec.eq_of_toNat_eq
  have hlt := v.isLt
  rw [BitVec.toNat_setWidth, BitVec.toNat_setWidth, Nat.mod_eq_of_lt hv, Nat.mod_eq_of_lt hlt]

/-- The flag is the top bit of the second byte. -/
theorem flagged_line_bytes (hw : 16 ≤ w) (hv : v.toNat < 2 ^ 16) :
    (v.setWidth 8).setWidth w ||| ((0x80 : BitVec 8) ||| (v >>> 8).setWidth 8).setWidth w <<< 8 = v ||| 0x8000 := by
  have hflag : (0x80 : BitVec 8).setWidth w <<< 8 = (0x8000 : BitVec w) := by
    apply BitVec.eq_of_toNat_eq
    have hpow : 2 ^ 16 ≤ 2 ^ w := Nat.pow_le_pow_right (by decide) hw
    rw [toNat_8000 hw, BitVec.toNat_shiftLeft, BitVec.toNat_setWidth,
      Nat.mod_eq_of_lt (show (0x80 : BitVec 8).toNat < 2 ^ w by change 128 < _; omega)]
    exact Nat.mod_eq_of_lt (by change 32768 < _; omega)
  rw [BitVec.setWidth_or, BitVec.shiftLeft_or_distrib, hflag, BitVec.or_comm (0x8000 : BitVec w),
    ← BitVec.or_assoc, line_bytes hv]

end

theorem readName_zero {name inp : List Byte} {n : Nat} (hlen : name.length < n) (hne : ∀ c ∈ name, c ≠ 0) :
    readName n (name ++ 0 :: inp) = some (name, inp) := by
  induction n generalizing name with
  | zero => exact absurd hlen (Nat.not_lt_zero _)
  | succ n ih =>
    cases name with
    | nil => rfl
    | cons c name =>
      rw [List.cons_append, readName, if_neg (hne c List.mem_cons_self),
        ih (Nat.lt_of_succ_lt_succ hlen) fun c' hc' => hne c' (List.mem_cons_of_mem _ hc')]
      rfl

/-- A name that takes all the bytes is not followed by a zero. -/
theorem readName_full {name : List Byte} (inp : List Byte) (hne : ∀ c ∈ name, c ≠ 0) :
    readName name.length (name ++ inp) = some (name, inp) := by
  induction name with
  | nil => rfl
  | cons c name ih =>
    rw [List.length_cons, List.cons_append, readName, if_neg (hne c List.mem_cons_self),
      ih fun c' hc' => hne c' (List.mem_cons_of_mem _ hc')]
    rfl

theorem name_ne_zero (s : Frontend h) : ∀ c ∈ s.name.take 32, c ≠ 0 := by
  intro c hc
  have hmem : c ∈ s.filename.takeWhile (· ≠ 0) := List.mem_of_mem_take hc
  simpa using List.mem_takeWhile_imp hmem

/-- The zero behind a name of 32 characters is not read with it. -/
def leftOver (s : Frontend h) : List Byte := if s.filechange ∧ 32 ≤ s.name.length then [0] else []

theorem lineRecord_name {s : Frontend h} (hfc : s.filechange = true) (inp : List Byte) :
    (lineRecord s).drop 2 ++ inp =
      s.line.setWidth 8 :: ((0x80 : Byte) ||| (s.line >>> 8).setWidth 8) :: (s.name.take 32 ++ 0 :: inp) := by
  simp [lineRecord, hfc, Frontend.name]

theorem lineRecord_line {s : Frontend h} (hfc : s.filechange = false) (inp : List Byte) :
    (lineRecord s).drop 2 ++ inp = s.line.setWidth 8 :: (s.line >>> 8).setWidth 8 :: inp := by
  simp [lineRecord, hfc]

theorem readLine_record (r : Lexer h) {s : Frontend h} (inp : List Byte) (hline : s.line.toNat < 0x8000) :
    readLine r ((lineRecord s).drop 2 ++ inp) =
      some ({ r with token := T_LINE, lineNum := s.line,
                     filename := if s.filechange then s.name.take 32 else r.filename },
        leftOver s ++ inp) := by
  have hname := name_ne_zero s
  have hline16 : s.line.toNat < 2 ^ 16 := by omega
  cases hfc : s.filechange with
  | true =>
    rw [lineRecord_name hfc, readLine, flagged_line_bytes h.int_wide hline16]
    simp only [if_pos (flag_set h.int_wide hline), flag_strip h.int_wide hline, if_true]
    by_cases hlong : 32 ≤ s.name.length
    · have hlen : (s.name.take 32).length = 32 := by rw [List.length_take, Nat.min_eq_left hlong]
      have hread := readName_full (0 :: inp) hname
      rw [hlen] at hread
      rw [hread, leftOver, if_pos ⟨hfc, hlong⟩]
      rfl
    · have hlen : (s.name.take 32).length < 32 := by
        rw [List.length_take]
        omega
      rw [readName_zero hlen hname, leftOver, if_neg (fun hboth => hlong hboth.2)]
      rfl
  | false =>
    rw [lineRecord_line hfc, readLine, line_bytes hline16]
    simp only [flag_clear h.int_wide hline, ne_eq, not_true_eq_false, if_false]
    rw [leftOver, hfc, if_neg Bool.false_ne_true]
    rfl

/-! ## The reader stays in step -/

/-- Between two tokens. The reader has the last line that the writer wrote, unless a new name is
due, which comes with its line. -/
structure InStep (r : Lexer h) (s : Frontend h) : Prop where
  no_pushed : r.lastToken = NO_TOKEN
  low_line : r.lineNum.toNat < 0x8000
  same_line : s.filechange = false → r.lineNum = s.oldline

theorem start_inStep : InStep (h := h) Lexer.start Frontend.start where
  no_pushed := rfl
  low_line := by
    have h0 : (0 : BitVec h.intBits).toNat = 0 := by simp
    exact h0 ▸ (by decide)
  same_line := nofun

theorem readLine_low {r r' : Lexer h} {inp rest : List Byte} (hread : readLine r inp = some (r', rest)) :
    r'.lineNum.toNat < 0x8000 := by
  have h7fff := toNat_7fff h.int_wide
  unfold readLine at hread
  split at hread
  · next lo hi inp =>
    dsimp only at hread
    split at hread
    · obtain ⟨⟨name, rest'⟩, -, heq⟩ := Option.map_eq_some_iff.mp hread
      cases heq
      rw [BitVec.toNat_and, h7fff, Nat.and_two_pow_sub_one_eq_mod]
      exact Nat.mod_lt _ (by decide)
    · next hflag =>
      cases hread
      exact unflagged_low h.int_wide (two_bytes_low lo hi) (by simpa using hflag)
  · cases hread

theorem readValue_position {r r' : Lexer h} {inp rest : List Byte} (hread : readValue r inp = some (r', rest)) :
    r'.lineNum = r.lineNum ∧ r'.filename = r.filename ∧ r'.token = r.token := by
  unfold readValue at hread
  split at hread
  · cases hread
    exact ⟨rfl, rfl, rfl⟩
  · cases hread

/-- The reader never has a line from 0x8000 on. -/
theorem nextToken_low {r r' : Lexer h} {inp rest : List Byte} (hlow : r.lineNum.toNat < 0x8000)
    (hread : nextToken r inp = some (r', rest)) : r'.lineNum.toNat < 0x8000 := by
  fun_induction nextToken r inp with
  | case1 r inp hpushed =>
    cases hread
    exact hlow
  | case2 r hr lo hi inp token htoken r1 rest1 hline ih => exact ih (readLine_low hline) hread
  | case3 r hr lo hi inp token htoken hline => cases hread
  | case4 r hr lo hi inp token htoken hnumeric =>
    rw [(readValue_position hread).1]
    exact hlow
  | case5 r hr lo hi inp token htoken hnumeric =>
    cases hread
    exact hlow
  | case6 r inp hr hshort =>
    cases hread
    exact hlow

theorem lineRecord_cons (s : Frontend h) :
    lineRecord s = T_LINE.setWidth 8 :: (T_LINE >>> 8).setWidth 8 :: (lineRecord s).drop 2 := rfl

/-- A line record does not count as a token. -/
theorem nextToken_record {r : Lexer h} {s : Frontend h} (inp : List Byte) (hr : r.lastToken = NO_TOKEN)
    (hline : s.line.toNat < 0x8000) :
    ∃ r', nextToken r (lineRecord s ++ inp) = nextToken r' (leftOver s ++ inp) ∧ r'.lastToken = NO_TOKEN ∧
      r'.lineNum = s.line ∧ r'.filename = if s.filechange then s.name.take 32 else r.filename := by
  refine ⟨{ r with token := T_LINE, lineNum := s.line,
                   filename := if s.filechange then s.name.take 32 else r.filename }, ?_, hr, rfl, rfl⟩
  rw [lineRecord_cons, List.cons_append, List.cons_append]
  exact nextToken_line hr (readLine_record r inp hline)

/-- With the position known to both, the line record and the token are read back. -/
theorem nextToken_written {r : Lexer h} {s : Frontend h} (hstep : InStep r s) (hline : s.line.toNat < 0x8000)
    (hname : s.filechange = true → s.name.length < 32) (tok : Tok) (rest : List Byte) :
    ∃ r', nextToken r ((writeToken s tok.token tok.data).1 ++ rest) = some (r', rest) ∧
      InStep r' (writeToken s tok.token tok.data).2 ∧ r'.token = tok.token ∧
      r'.filename = (if s.filechange then s.name.take 32 else r.filename) ∧
      readerSees r' = { token := tok.token, value := tok.value.map (· % 2 ^ h.intBits),
                        line := s.line.toNat, filename := r'.filename } := by
  unfold writeToken
  by_cases hrecord : s.oldline ≠ s.line ∨ s.filechange
  · obtain ⟨r1, hread1, hr1, hline1, hname1⟩ := nextToken_record
      ([tok.token.setWidth 8, (tok.token >>> 8).setWidth 8] ++ tok.data ++ rest) hstep.no_pushed hline
    obtain ⟨r', hread, hr', hline', hname', htoken, hsees⟩ := nextToken_tok tok rest hr1
    have hleft : leftOver s = [] := if_neg fun hlong => absurd (hname hlong.1) (by omega)
    simp only [if_pos hrecord]
    refine ⟨r', ?_, ⟨hr', ?_, fun _ => hline'.trans hline1⟩, htoken, hname'.trans hname1, ?_⟩
    · rw [List.append_assoc (lineRecord s), hread1, hleft]
      exact hread
    · rw [hline', hline1]
      exact hline
    · rw [hsees, hline1, hname']
  · have hkept : s.oldline = s.line ∧ s.filechange = false := by simpa [not_or] using hrecord
    obtain ⟨r', hread, hr', hline', hname', htoken, hsees⟩ := nextToken_tok tok rest hstep.no_pushed
    have hsame := hstep.same_line hkept.2
    simp only [if_neg hrecord]
    refine ⟨r', hread, ⟨hr', ?_, fun _ => hline'.trans hsame⟩, htoken, ?_, ?_⟩
    · rw [hline']
      exact hstep.low_line
    · rw [hname', hkept.2]
      rfl
    · rw [hsees, hsame, hkept.1, hname']

/-- The high byte of a token that starts with a zero byte is the low byte of the one written. -/
theorem shifted_token {t : Token} (ht : t ≠ 0) :
    (0 : Byte).setWidth 16 ||| (t.setWidth 8).setWidth 16 <<< 8 ≠ t ∧
      (0 : Byte).setWidth 16 ||| (t.setWidth 8).setWidth 16 <<< 8 ≠ T_LINE := by
  have hshift : ((0 : Byte).setWidth 16 ||| (t.setWidth 8).setWidth 16 <<< 8).toNat = t.toNat % 256 * 256 := by
    simp [Nat.shiftLeft_eq]
    omega
  constructor <;> intro heq <;> have hnat := congrArg BitVec.toNat heq <;> rw [hshift] at hnat
  · have hlt := t.isLt
    exact ht (BitVec.eq_of_toNat_eq (by change t.toNat = 0; omega))
  · change _ = 0x3FFF at hnat
    omega

theorem tok_ne_zero (tok : Tok) : tok.token ≠ 0 := by
  cases tok with
  | plain t => exact t.ne_zero
  | numeric kind value => exact (numeric_token kind).2.2.1
  | string chars => exact (by decide : T_STRING ≠ 0)

/-- After a name of 32 characters the token is read from the zero on. -/
theorem nextToken_shifted {r r' : Lexer h} {s : Frontend h} (hstep : InStep r s) (hline : s.line.toNat < 0x8000)
    (hfc : s.filechange = true) (hlong : 32 ≤ s.name.length) (tok : Tok) {rest rest' : List Byte}
    (hread : nextToken r ((writeToken s tok.token tok.data).1 ++ rest) = some (r', rest')) :
    r'.token ≠ tok.token := by
  obtain ⟨r1, hread1, hr1, -, -⟩ := nextToken_record
    ([tok.token.setWidth 8, (tok.token >>> 8).setWidth 8] ++ tok.data ++ rest) hstep.no_pushed hline
  obtain ⟨hne, hline⟩ := shifted_token (tok_ne_zero tok)
  have hleft : leftOver s = [0] := if_pos ⟨hfc, hlong⟩
  simp only [writeToken, if_pos (Or.inr hfc)] at hread
  rw [List.append_assoc (lineRecord s), hread1, hleft] at hread
  simp only [List.cons_append, List.nil_append] at hread
  rw [nextToken, if_neg (not_not_intro hr1)] at hread
  simp only [if_neg hline] at hread
  split at hread
  · rw [(readValue_position hread).2.2]
    exact hne
  · cases hread
    exact hne

/-! ## The whole stream -/

theorem skipString_body {r : Lexer h} (tok : Tok) (rest : List Byte) (htoken : r.token = tok.token) :
    skipString r (tok.body ++ rest) = some rest := by
  unfold skipString
  rw [htoken]
  cases tok with
  | plain t => exact if_neg t.ne_string
  | numeric kind value => exact if_neg (numeric_token kind).2.2.2
  | string chars =>
    have hbody : stringBody chars ++ rest = quoted (chars ++ [0]) ++ 0 :: rest := by
      simp [stringBody, quoted_append, quoted_cons]
    have hcopy := copyLoop_quoted (BitVec.allOnes h.intBits) 0 (by simp) (chars ++ [0]) rest
    rw [Tok.token, if_pos rfl, Tok.body, hbody, hcopy]
    rfl

theorem directiveEnd_eq {s s' : Frontend h} {inp rest : List Byte} (hend : directiveEnd s inp = some (s', rest)) :
    s' = s := by
  unfold directiveEnd at hend
  split at hend
  · cases hend
  · cases hend
    rfl

theorem directiveFile_keeps {s s' : Frontend h} {inp rest : List Byte}
    (hfile : directiveFile s inp = some (s', rest)) :
    s'.oldline = s.oldline ∧ (s'.filechange = false → s.filechange = false) := by
  unfold directiveFile at hfile
  split at hfile
  · cases directiveEnd_eq hfile
    exact ⟨rfl, nofun⟩
  · cases directiveEnd_eq hfile
    exact ⟨rfl, id⟩

/-- Only a token takes the news of a file back. -/
theorem move_keeps {s s' : Frontend h} {m : Move h} (hmove : move s m = some s') :
    s'.oldline = s.oldline ∧ (s'.filechange = false → s.filechange = false) := by
  cases m with
  | line n =>
    cases hmove
    exact ⟨rfl, id⟩
  | directive inp =>
    obtain ⟨⟨s1, rest⟩, hdirective, rfl⟩ := Option.map_eq_some_iff.mp hmove
    unfold directive at hdirective
    dsimp only at hdirective
    split at hdirective
    · cases hdirective
    · split at hdirective
      · cases hdirective
        exact ⟨rfl, id⟩
      · have hkept := directiveFile_keeps hdirective
        exact hkept

theorem moveAll_keeps {s s' : Frontend h} {moves : List (Move h)} (hmove : moveAll s moves = some s') :
    s'.oldline = s.oldline ∧ (s'.filechange = false → s.filechange = false) := by
  induction moves generalizing s with
  | nil =>
    cases hmove
    exact ⟨rfl, id⟩
  | cons m moves ih =>
    obtain ⟨s1, hmove1, hrest⟩ := Option.bind_eq_some_iff.mp hmove
    obtain ⟨hline1, hfile1⟩ := move_keeps hmove1
    obtain ⟨hline, hfile⟩ := ih hrest
    exact ⟨hline.trans hline1, fun hfc => hfile1 (hfile hfc)⟩

theorem InStep.moved {r : Lexer h} {s s' : Frontend h} {moves : List (Move h)} (hstep : InStep r s)
    (hmove : moveAll s moves = some s') : InStep r s' where
  no_pushed := hstep.no_pushed
  low_line := hstep.low_line
  same_line := fun hfc => (hstep.same_line ((moveAll_keeps hmove).2 hfc)).trans (moveAll_keeps hmove).1.symm

/-- The token and its position come back if and only if they fit. -/
theorem nextToken_fits {r r' : Lexer h} {s : Frontend h} (hstep : InStep r s) (tok : Tok) {rest rest' : List Byte}
    (hread : nextToken r ((writeToken s tok.token tok.data).1 ++ rest) = some (r', rest'))
    (hsees : readerSees r' = writerSees s tok) : TokenFits r.filename s tok := by
  have hline : s.line.toNat < 0x8000 := by
    have hlow := nextToken_low hstep.low_line hread
    have hsame : r'.lineNum.toNat = s.line.toNat := congrArg Seen.line hsees
    omega
  have hname : s.filechange = true → s.name.length < 32 := by
    intro hfc
    by_contra hlong
    exact nextToken_shifted hstep hline hfc (by omega) tok hread (congrArg Seen.token hsees)
  obtain ⟨r1, hread1, -, -, hfilename, hsees1⟩ := nextToken_written hstep hline hname tok rest
  rw [hread1] at hread
  cases hread
  rw [hsees1] at hsees
  refine ⟨hline, ?_, ?_⟩
  · have hsame : r'.filename = s.name.take 32 := congrArg Seen.filename hsees
    split
    · next hfc => exact hname hfc
    · next hfc => rw [← hsame, hfilename, if_neg hfc]
  · intro value hvalue
    have hsame : tok.value.map (· % 2 ^ h.intBits) = tok.value := congrArg Seen.value hsees
    rw [hvalue, Option.map_some, Option.some_inj] at hsame
    exact hsame ▸ Nat.mod_lt _ (Nat.two_pow_pos _)

/-- A token that fits is read, its body is skipped, and the passes are in step again. -/
theorem readToken_fits {r : Lexer h} {s : Frontend h} (hstep : InStep r s) {tok : Tok} (rest : List Byte)
    (hfits : TokenFits r.filename s tok) :
    ∃ r', nextToken r ((writeToken s tok.token tok.data).1 ++ (tok.body ++ rest)) = some (r', tok.body ++ rest) ∧
      skipString r' (tok.body ++ rest) = some rest ∧ InStep r' (writeToken s tok.token tok.data).2 ∧
      readerSees r' = writerSees s tok ∧ r'.filename = s.name.take 32 := by
  obtain ⟨hline, hname, hvalue⟩ := hfits
  have hshort : s.filechange = true → s.name.length < 32 := fun hfc => by rwa [if_pos hfc] at hname
  obtain ⟨r', hread, hstep', htoken, hfilename, hsees⟩ := nextToken_written hstep hline hshort tok (tok.body ++ rest)
  have hfile : r'.filename = s.name.take 32 := by
    rw [hfilename]
    split
    · rfl
    · next hfc => exact (if_neg hfc ▸ hname).symm
  have hmod : tok.value.map (· % 2 ^ h.intBits) = tok.value := by
    cases hv : tok.value with
    | none => rfl
    | some value => rw [Option.map_some, Nat.mod_eq_of_lt (hvalue value hv)]
  refine ⟨r', hread, skipString_body tok rest htoken, hstep', ?_, hfile⟩
  rw [hsees, hmod, hfile]
  rfl

/-- From any state in step, what is read is what was written exactly if all of it fits. -/
theorem readTokens_iff {r : Lexer h} {s : Frontend h} {items : List (Item h)} {bytes : List Byte} {seen : List Seen}
    (hstep : InStep r s) (hwrite : writeItems s items = some (bytes, seen)) :
    readTokens r items.length bytes = some (seen, []) ↔ StreamFits r.filename s items := by
  induction items generalizing r s bytes seen with
  | nil =>
    cases hwrite
    exact ⟨fun _ => trivial, fun _ => rfl⟩
  | cons it items ih =>
    obtain ⟨s1, hmove, hwrite⟩ := Option.bind_eq_some_iff.mp hwrite
    obtain ⟨⟨stream, seen'⟩, hwrite', heq⟩ := Option.bind_eq_some_iff.mp hwrite
    cases heq
    have hstep1 := hstep.moved hmove
    have hrest (hfits : TokenFits r.filename s1 it.tok) :
        readTokens r (items.length + 1) ((writeToken s1 it.tok.token it.tok.data).1 ++ (it.tok.body ++ stream)) =
            some (writerSees s1 it.tok :: seen', []) ↔
          StreamFits (s1.name.take 32) (writeToken s1 it.tok.token it.tok.data).2 items := by
      obtain ⟨r1, hread, hskip, hstep', hsees, hfile⟩ := readToken_fits hstep1 stream hfits
      rw [← hfile, ← ih hstep' hwrite', readTokens, hread]
      simp only [Option.bind_eq_bind, Option.bind_some, hskip, hsees]
      cases readTokens r1 items.length stream <;> simp [Prod.ext_iff]
    rw [List.append_assoc, List.length_cons]
    constructor
    · intro hread s2 hmove2
      rw [hmove] at hmove2
      cases hmove2
      obtain ⟨⟨r1, rest1⟩, hread1, hread2⟩ := Option.bind_eq_some_iff.mp hread
      obtain ⟨rest2, -, hread3⟩ := Option.bind_eq_some_iff.mp hread2
      obtain ⟨⟨seen2, rest3⟩, -, heq⟩ := Option.bind_eq_some_iff.mp hread3
      simp only [pure, Option.some.injEq, Prod.mk.injEq, List.cons.injEq] at heq
      have hfits := nextToken_fits hstep1 it.tok hread1 heq.1.1
      exact ⟨hfits, (hrest hfits).mp hread⟩
    · intro hfits
      obtain ⟨htok, hstream⟩ := hfits s1 hmove
      exact (hrest htok).mpr hstream

/-- The second pass reads the tokens, values and positions that the first one knew, and nothing is
left over, exactly if the stream fits. -/
theorem token_stream_iff (items : List (Item h)) (bytes : List Byte) (seen : List Seen)
    (hwrite : writeItems Frontend.start items = some (bytes, seen)) :
    readTokens (Lexer.start (h := h)) items.length bytes = some (seen, []) ↔ StreamFits [] Frontend.start items :=
  readTokens_iff start_inStep hwrite

/-- `# 7 "a.c"`, and the tokens `(` and 0x1234 there, with a 16 bit `unsigned`. -/
def shortNameItems : List (Item Host.fuzix) :=
  [⟨[.directive [0x37, 0x20, 0x22, 0x61, 0x2E, 0x63, 0x22, 0x0A]], .plain ⟨T_LPAREN, by decide, by decide, by decide, by decide⟩⟩,
    ⟨[], .numeric .intval 0x1234⟩]

theorem token_stream_iff_short_name : ∃ bytes seen, writeItems Frontend.start shortNameItems = some (bytes, seen) ∧
    readTokens (Lexer.start (h := .fuzix)) 2 bytes = some (seen, []) ∧ StreamFits [] Frontend.start shortNameItems :=
  ⟨_, _, rfl, by decide +kernel, (token_stream_iff shortNameItems _ _ rfl).mp (by decide +kernel)⟩

/-- A file name of 32 characters, and the token `(`. -/
def longNameItems : List (Item Host.linux) :=
  [⟨[.directive ([0x37, 0x20, 0x22] ++ List.replicate 32 0x61 ++ [0x22, 0x0A])],
    .plain ⟨T_LPAREN, by decide, by decide, by decide, by decide⟩⟩]

/-- The zero behind the name is taken for the low byte of the token. -/
theorem long_name_shifts_tokens : ∃ bytes seen, writeItems Frontend.start longNameItems = some (bytes, seen) ∧
    readTokens (Lexer.start (h := .linux)) 1 bytes ≠ some (seen, []) :=
  ⟨_, _, rfl, by decide +kernel⟩

end Fuzemsys.Fcc
