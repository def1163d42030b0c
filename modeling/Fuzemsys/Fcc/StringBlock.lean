import Fuzemsys.Fcc.StringLiteral

/-!
# From the token stream to data

The second pass copies the quoted bytes of a string into a block, cut or padded for a
char array, and the back end turns the block into data. The bytes are those of C
unless an escape `\xAB` has two different digits, or the literal is too long for an
`unsigned`.
-/

namespace Fuzemsys.Fcc

variable {h : Host}

/-! ## The second pass -/

structure Header (h : Host) where
  htype : BitVec h.intBits
  name : BitVec h.intBits
  data : BitVec h.intBits

def H_STRING : BitVec h.intBits := 0x0013
def H_FOOTER : BitVec h.intBits := 0x8000

/-- A header, bytes up to a zero, and a footer. -/
structure StringBlock (h : Host) where
  header : Header h
  bytes : List Byte
  footer : Header h

/-- The arguments of `copy_string`. -/
structure CopyArgs (h : Host) where
  label : BitVec h.intBits
  maxlen : BitVec h.intBits
  pad : Bool
  lit : BitVec h.intBits

/-- A quoted zero for each byte that is missing. -/
def padLoop (maxlen l : BitVec h.intBits) : List Byte × BitVec h.intBits :=
  if l < maxlen then
    let (out, l) := padLoop maxlen (l + 1)
    (0xFF :: 0xFE :: out, l)
  else ([], l + 1)
termination_by maxlen.toNat - l.toNat
decreasing_by
  have hlt := BitVec.lt_def.mp ‹_›
  rw [succ_toNat ‹_›]
  omega

/-- What `copy_string` writes, the count it returns, and what follows the string. -/
def copyBlock (args : CopyArgs h) (inp : List Byte) : Option (StringBlock h × BitVec h.intBits × List Byte) := do
  let (out, l, inp) ← copyLoop args.maxlen 0 inp
  let (padding, l) := if args.pad then padLoop args.maxlen l else ([], l)
  some ({ header := ⟨H_STRING, args.label, args.lit⟩
          bytes := out ++ padding ++ [0]
          footer := ⟨H_STRING ||| H_FOOTER, args.label, l⟩ }, l, inp)

/-- The flag is the error "bad token stream". -/
def copyString (args : CopyArgs h) (s : Lexer h) (inp : List Byte) :
    Option (StringBlock h × BitVec h.intBits × Bool × Lexer h × List Byte) := do
  let (block, l, inp) ← copyBlock args inp
  let (s, inp) ← nextToken s inp
  let bad := decide (s.token ≠ T_STRING_END)
  let (s, inp) ← nextToken s inp
  some (block, l, bad, s, inp)

def quotedArgs (label : BitVec h.intBits) : CopyArgs h := ⟨label, BitVec.allOnes _, false, 1⟩

/-- `quoted_string`: no block if the token is not a string. -/
def quotedString (labelTag : BitVec h.intBits) (s : Lexer h) (inp : List Byte) :
    Option (Option (StringBlock h × BitVec h.intBits × Bool) × BitVec h.intBits × Lexer h × List Byte) :=
  let label := labelTag + 1
  if s.token ≠ T_STRING then some (none, label, s, inp)
  else (copyString (quotedArgs label) s inp).map fun (block, l, bad, s, inp) => (some (block, l, bad), label, s, inp)

def TARGET_MAX_PTR : BitVec h.intBits := 65535

def iniArgs (n : BitVec h.intBits) : CopyArgs h :=
  if n ≠ 0 then ⟨0, n, true, 0⟩ else ⟨0, TARGET_MAX_PTR, false, 0⟩

/-- A string that initialises an array of `n` characters, or of unknown size if `n` is zero. -/
def iniString (n : BitVec h.intBits) (s : Lexer h) (inp : List Byte) :=
  copyString (iniArgs n) s inp

/-! ## The back end -/

/-- The bytes up to the zero, and what is left. `none` is "unexpected EOF". -/
def processLiteral (shifted : Bool) : List Byte → Option (List Byte × List Byte)
  | [] => none
  | c :: inp =>
    if c = 0 then some ([], inp)
    else if c = 255 ∧ shifted = false then processLiteral true inp
    else (processLiteral false inp).map fun (out, inp) => ((if shifted ∧ c = 254 then 0 else c) :: out, inp)

/-- The data for a string, if the back end reads its block to the end and no further. -/
def emits (args : CopyArgs h) (inp : List Byte) : Option (List Byte) := do
  let (block, _, _) ← copyBlock args inp
  match ← processLiteral false block.bytes with
  | (out, []) => some out
  | _ => none

/-! ## What is emitted -/

theorem processLiteral_quoted (chars rest : List Byte) :
    processLiteral false (quoted chars ++ 0 :: rest) = some (chars, rest) := by
  induction chars with
  | nil => rfl
  | cons c chars ih =>
    rw [quoted_cons, List.append_assoc]
    by_cases h0 : c = 0
    · subst h0
      change processLiteral false (0xFF :: 0xFE :: (quoted chars ++ 0 :: rest)) = _
      rw [processLiteral, if_neg (by decide), if_pos (by decide), processLiteral, if_neg (by decide),
        if_neg (by decide), ih]
      rfl
    · by_cases hff : c = 0xFF
      · subst hff
        change processLiteral false (0xFF :: 0xFF :: (quoted chars ++ 0 :: rest)) = _
        rw [processLiteral, if_neg (by decide), if_pos (by decide), processLiteral, if_neg (by decide),
          if_neg (by decide), ih]
        rfl
      · have hplain : outbyteQuoted c = [c] := by
          unfold outbyteQuoted
          rw [if_neg (by tauto), if_neg h0, List.nil_append]
        rw [hplain, List.cons_append, List.nil_append, processLiteral, if_neg h0, if_neg (by tauto), ih]
        rfl

theorem padLoop_quoted (maxlen l : BitVec h.intBits) :
    (padLoop maxlen l).1 = quoted (List.replicate (maxlen.toNat - l.toNat) 0) := by
  fun_induction padLoop maxlen l with
  | case1 l hroom out l' heq ih =>
    have hlt := BitVec.lt_def.mp hroom
    rw [heq, succ_toNat hroom] at ih
    rw [show maxlen.toNat - l.toNat = maxlen.toNat - (l.toNat + 1) + 1 by omega, List.replicate_succ, quoted_cons, ← ih]
    rfl
  | case2 l hfull =>
    rw [BitVec.lt_def] at hfull
    rw [show maxlen.toNat - l.toNat = 0 by omega]
    rfl

/-- What becomes of `bytes`, which end in a NUL. -/
def CopyArgs.cut (args : CopyArgs h) (bytes : List Byte) : List Byte :=
  bytes.take args.maxlen.toNat ++
    if args.pad then List.replicate (args.maxlen.toNat - bytes.length) 0 else []

theorem emits_quoted (args : CopyArgs h) (bytes stream : List Byte) :
    emits args (quoted bytes ++ [0] ++ stream) = some (args.cut bytes) := by
  have hzero : (0 : BitVec h.intBits).toNat = 0 := by simp
  have hcopy := copyLoop_quoted args.maxlen 0 (by simp) bytes stream
  rw [hzero, Nat.sub_zero, Nat.zero_add] at hcopy
  have hcount : (BitVec.ofNat h.intBits (min args.maxlen.toNat bytes.length)).toNat =
      min args.maxlen.toNat bytes.length :=
    Nat.mod_eq_of_lt (lt_of_le_of_lt (Nat.min_le_left _ _) args.maxlen.isLt)
  have hpad := padLoop_quoted args.maxlen (BitVec.ofNat _ (min args.maxlen.toNat bytes.length))
  rw [hcount, show args.maxlen.toNat - min args.maxlen.toNat bytes.length = args.maxlen.toNat - bytes.length by omega]
    at hpad
  unfold emits copyBlock
  rw [List.append_assoc, List.cons_append, List.nil_append, hcopy]
  simp only [Option.bind_eq_bind, Option.bind_some, CopyArgs.cut]
  cases args.pad with
  | true =>
    simp only [if_true, hpad, ← quoted_append]
    rw [processLiteral_quoted]
    rfl
  | false =>
    simp only [Bool.false_eq_true, if_false, List.append_nil]
    rw [processLiteral_quoted]
    rfl

/-- A char array gets exactly its size. -/
theorem cut_array {n : BitVec h.intBits} (hn : n ≠ 0) (bytes : List Byte) :
    (iniArgs n).cut bytes = (bytes ++ List.replicate n.toNat 0).take n.toNat := by
  rw [iniArgs, if_pos hn, CopyArgs.cut, if_pos rfl, List.take_append, List.take_replicate, Nat.min_eq_left (Nat.sub_le _ _)]

theorem cut_literal (label : BitVec h.intBits) (bytes : List Byte) :
    (quotedArgs label).cut bytes = bytes.take (2 ^ h.intBits - 1) := by
  simp [quotedArgs, CopyArgs.cut]

/-! ## The bytes of C -/

/-- The back end emits the bytes of the literal, with its NUL, and for an array of `n` characters
these bytes cut or padded. -/
def Literal.Kept (h : Host) (lit : Literal) (body : List Byte) : Prop :=
  (∀ (label : BitVec h.intBits) stream, emits (quotedArgs label) (body ++ stream) = some (lit.value ++ [0])) ∧
    ∀ (n : BitVec h.intBits) stream, n ≠ 0 →
      emits (iniArgs n) (body ++ stream) = some ((lit.value ++ [0] ++ List.replicate n.toNat 0).take n.toNat)

/-- No hexadecimal escape has two different digits, and the length is an `unsigned`. -/
def Literal.Fits (h : Host) (lit : Literal) : Prop :=
  (∀ d1 d2, Element.hex d1 d2 ∈ lit.elements → d1.value = d2.value) ∧ lit.elements.length + 1 < 2 ^ h.intBits

theorem nibbles_swap (n1 n2 : BitVec 4) :
    (16 * n2.setWidth 8 + n1.setWidth 8 : Byte) = 16 * n1.setWidth 8 + n2.setWidth 8 ↔
      (n1.setWidth 8 : Byte) = n2.setWidth 8 := by
  revert n1 n2
  decide

theorem emitted_eq_iff (e : Element) :
    e.emitted = e.value ↔ ∀ d1 d2, e = .hex d1 d2 → d1.value = d2.value := by
  cases e with
  | hex d1 d2 =>
    obtain ⟨-, n1, -, hv1⟩ := xdigit_ok d1.char d1.ok
    obtain ⟨-, n2, -, hv2⟩ := xdigit_ok d2.char d2.ok
    have hswap := nibbles_swap n1 n2
    rw [← hv1, ← hv2] at hswap
    constructor
    · intro heq d1' d2' hhex
      cases hhex
      exact hswap.mp heq
    · intro hsame
      exact hswap.mpr (hsame d1 d2 rfl)
  | _ => exact ⟨fun _ _ _ hhex => (nomatch hhex), fun _ => rfl⟩

theorem emitted_map_iff (elements : List Element) : elements.map Element.emitted = elements.map Element.value ↔
    ∀ d1 d2, Element.hex d1 d2 ∈ elements → d1.value = d2.value := by
  rw [List.map_inj_left]
  constructor
  · intro hsame d1 d2 hmem
    exact (emitted_eq_iff _).mp (hsame _ hmem) d1 d2 rfl
  · intro hdigits e hmem
    refine (emitted_eq_iff e).mpr ?_
    rintro d1 d2 rfl
    exact hdigits d1 d2 hmem

theorem kept_iff_fits (lit : Literal) :
    lit.Kept h (quoted (lit.elements.map Element.emitted ++ [0]) ++ [0]) ↔ lit.Fits h := by
  unfold Literal.Kept Literal.Fits
  simp only [emits_quoted, cut_literal, Option.some.injEq]
  rw [← emitted_map_iff]
  constructor
  · rintro ⟨hliteral, -⟩
    have htake := hliteral 0 []
    have hlen := congrArg List.length htake
    simp only [List.length_take, List.length_append, List.length_map, Literal.value, List.length_singleton] at hlen
    have hpow := Nat.two_pow_pos h.intBits
    rw [List.take_of_length_le (by simp; omega)] at htake
    exact ⟨List.append_cancel_right htake, by omega⟩
  · rintro ⟨hsame, hlen⟩
    rw [hsame]
    refine ⟨fun _ _ => ?_, fun n _ hn => cut_array hn _⟩
    exact List.take_of_length_le (by simp; omega)

/-- The bytes of a literal come out as C has them if and only if it fits. -/
theorem string_literal_iff (lit : Literal) {s : Source h} {tail : List Byte} {fuel : Nat}
    (hs : s.After 0x22 (lit.source ++ tail)) (hends : Ends h tail) (hfuel : lit.turns ≤ fuel) :
    ∃ body s', tokenizeString fuel s = some ((writeToken s.front T_STRING []).1 ++ body, T_STRING_END, s') ∧
      (lit.Kept h body ↔ lit.Fits h) := by
  obtain ⟨s', htokenize⟩ := tokenizeString_literal lit hs hends hfuel
  exact ⟨_, s', htokenize, kept_iff_fits lit⟩

/-- `"a\x11" "\7";` -/
def twoPieces : Literal :=
  ⟨⟨[.plain 0x61 (by decide), .hex ⟨0x31, by decide⟩ ⟨0x31, by decide⟩], by simp [Element.takes]⟩,
    [⟨[0x20], by decide, ⟨[.octal1 7], by simp⟩⟩]⟩

theorem string_literal_iff_two_pieces : ∃ body s',
    tokenizeString (h := .linux) 5 ⟨Frontend.start, twoPieces.source ++ [0x3B], [], false, false⟩ =
      some ((writeToken (Frontend.start (h := .linux)) T_STRING []).1 ++ body, T_STRING_END, s') ∧
      (twoPieces.Kept .linux body ↔ twoPieces.Fits .linux) :=
  string_literal_iff twoPieces ⟨rfl, rfl, rfl, rfl⟩
    (ends_of_cons (List.forall_mem_nil _) (by decide) (by decide) (by decide)) (by decide)

/-- `"\x41";` -/
def hexLiteral : Literal := ⟨⟨[.hex ⟨0x34, by decide⟩ ⟨0x31, by decide⟩], by simp⟩, []⟩

/-- The digits of `\x41` are swapped, which makes it 0x14. -/
theorem hex_escape_swapped : hexLiteral.value ++ [0] = [0x41, 0] ∧
    ((tokenizeString (h := .linux) 2 ⟨Frontend.start, hexLiteral.source ++ [0x3B], [], false, false⟩).bind fun t =>
      emits (h := .linux) (quotedArgs 1) (t.1.drop (writeToken (Frontend.start (h := .linux)) T_STRING []).1.length)) =
        some [0x14, 0] := by
  decide +kernel

end Fuzemsys.Fcc
