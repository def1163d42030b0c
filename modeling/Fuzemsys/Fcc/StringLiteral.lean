import Mathlib.Data.List.Chain
import Fuzemsys.Fcc.Quoted
import Fuzemsys.Fcc.Source

/-!
# String literals

What the first pass makes of a string literal: `tokenize_string` and the escapes, and
the literals of C.
-/

namespace Fuzemsys.Fcc

variable {h : Host}

/-! ## Escapes

The values fit in 16 bits, and an `unsigned` has at least as many. -/

def toupper (c : Byte) : Byte := if 0x61 ≤ c ∧ c ≤ 0x7A then c - 0x20 else c

def unhex (c : Byte) : BitVec 16 :=
  let c := (toupper c).setWidth 16 - 0x30
  if c > 9 then c - 7 else c

def hexpair (s : Source h) : Option (BitVec 16 × Source h) := do
  let (c, s) ← get s
  if isxdigit c then
    let (c2, s) ← get s
    if isxdigit c2 then some (unhex c2 <<< 4 ||| unhex c, s)
    else some (T_INVALID, s)
  else some (T_INVALID, s)

/-- Up to `ct` more digits. -/
def octalDigits : Nat → BitVec 16 → Source h → Option (BitVec 16 × Source h)
  | 0, n, s => some (n, s)
  | ct + 1, n, s => do
    let (c, s) ← get s
    if isoctal c then octalDigits ct (n <<< 3 ||| (c.setWidth 16 - 0x30)) s
    else (unget s c).map fun s => (n, s)

def octalset (s : Source h) (c : Byte) : Option (BitVec 16 × Source h) :=
  octalDigits 2 (c.setWidth 16 - 0x30) s

def simpleEscape (c : Byte) : Option (BitVec 16) :=
  match c with
  | 0x61 => some 0x07
  | 0x62 => some 0x08
  | 0x65 => some 0x1B  -- Non standard but common
  | 0x66 => some 0x0C
  | 0x6E => some 0x0A
  | 0x72 => some 0x0D
  | 0x74 => some 0x09
  | 0x76 => some 0x0B
  | 0x5C => some 0x5C
  | 0x27 => some 0x27
  | 0x22 => some 0x22
  | 0x3F => some 0x3F
  | _ => none

def escaped (s : Source h) (c : Byte) : Option (BitVec 16 × Source h) :=
  match simpleEscape c with
  | some n => some (n, s)
  | none =>
    if c = 0x78 then hexpair s
    else if isdigit c then octalset s c
    else some (T_INVALID, s)

/-! ## The literal -/

/-- The byte for a character that is not a quote. -/
def stringChar (s : Source h) (c : Byte) : Option (Byte × Source h) :=
  if c ≠ 0x5C then some (c, s)
  else do
    let (c2, s) ← get s
    let (c, s) ← escaped s c2
    some (if c = T_INVALID then c2 else c.setWidth 8, s)

/-- The loops of `tokenize_string`. They never end in a literal without its last quote. -/
def stringLoop : Nat → Source h → Option (List Byte × Source h)
  | 0, _ => none
  | fuel + 1, s => do
    let (c, s) ← get s
    if c ≠ 0x22 then
      let (b, s) ← stringChar s c
      let (out, s) ← stringLoop fuel s
      some (outbyteQuoted b ++ out, s)
    else
      -- This is slightly odd because we do the string catenation here too
      let (c, s) ← getNb s
      if c = 0x22 then stringLoop fuel s
      else (unget s c).map fun s => ([], s)

/-- After the first quote. The output, and the token that follows it. -/
def tokenizeString (fuel : Nat) (s : Source h) : Option (List Byte × Token × Source h) := do
  let (token, front) := writeToken s.front T_STRING []
  let (out, s) ← stringLoop fuel { s with front := front }
  some (token ++ out ++ outbyteQuoted 0 ++ [0], T_STRING_END, s)

/-! ## Literals in C -/

inductive SimpleEscape where
  | a
  | b
  | f
  | n
  | r
  | t
  | v
  | backslash
  | quote
  | doubleQuote
  | question
  deriving DecidableEq, Repr

def SimpleEscape.letter : SimpleEscape → Byte
  | a => 0x61
  | b => 0x62
  | f => 0x66
  | n => 0x6E
  | r => 0x72
  | t => 0x74
  | v => 0x76
  | backslash => 0x5C
  | quote => 0x27
  | doubleQuote => 0x22
  | question => 0x3F

def SimpleEscape.value : SimpleEscape → Byte
  | a => 7
  | b => 8
  | f => 12
  | n => 10
  | r => 13
  | t => 9
  | v => 11
  | backslash => 0x5C
  | quote => 0x27
  | doubleQuote => 0x22
  | question => 0x3F

structure HexDigit where
  char : Byte
  ok : isxdigit char = true

def HexDigit.value (d : HexDigit) : Byte :=
  if d.char ≤ 0x39 then d.char - 0x30
  else if d.char ≤ 0x46 then d.char - 0x41 + 10
  else d.char - 0x61 + 10

def octalChar {n : Nat} (d : Fin n) : Byte := 0x30 + BitVec.ofNat 8 d

/-- What stands for one byte. -/
inductive Element where
  | plain (c : Byte) (ok : c ≠ 0x22 ∧ c ≠ 0x5C ∧ c ≠ 0x0A)
  | simple (e : SimpleEscape)
  | octal1 (d : Fin 8)
  | octal2 (d1 d2 : Fin 8)
  | octal3 (d1 : Fin 4) (d2 d3 : Fin 8)
  | hex (d1 d2 : HexDigit)

def Element.source : Element → List Byte
  | plain c _ => [c]
  | simple e => [0x5C, e.letter]
  | octal1 d => [0x5C, octalChar d]
  | octal2 d1 d2 => [0x5C, octalChar d1, octalChar d2]
  | octal3 d1 d2 d3 => [0x5C, octalChar d1, octalChar d2, octalChar d3]
  | hex d1 d2 => [0x5C, 0x78, d1.char, d2.char]

/-- The byte in C. -/
def Element.value : Element → Byte
  | plain c _ => c
  | simple e => e.value
  | octal1 d => BitVec.ofNat 8 d
  | octal2 d1 d2 => BitVec.ofNat 8 (8 * d1 + d2)
  | octal3 d1 d2 d3 => BitVec.ofNat 8 (64 * d1 + 8 * d2 + d3)
  | hex d1 d2 => 16 * d1.value + d2.value

/-- In C an escape takes all the digits there are, up to three if it is octal. -/
def Element.takes (c : Byte) : Element → Bool
  | octal1 _ => isoctal c
  | octal2 _ _ => isoctal c
  | hex _ _ => isxdigit c
  | _ => false

/-- What is between two quotes. -/
structure Piece where
  elements : List Element
  apart : elements.IsChain fun e e' => ∀ c ∈ e'.source.head?, e.takes c = false

def Piece.source (p : Piece) : List Byte := p.elements.flatMap Element.source

/-- One more piece, which belongs to the same literal. -/
structure Adjacent where
  gap : List Byte
  spaces : ∀ c ∈ gap, isspace c = true
  piece : Piece

structure Literal where
  piece : Piece
  adjacent : List Adjacent

/-- After the first quote. -/
def Literal.source (lit : Literal) : List Byte :=
  lit.piece.source ++ 0x22 :: lit.adjacent.flatMap fun a => a.gap ++ 0x22 :: a.piece.source ++ [0x22]

def Literal.elements (lit : Literal) : List Element :=
  lit.piece.elements ++ lit.adjacent.flatMap fun a => a.piece.elements

/-- The bytes that C assigns, without the NUL. -/
def Literal.value (lit : Literal) : List Byte := lit.elements.map Element.value

/-! ## One element -/

/-- The byte that the tokenizer makes: it takes the digits of a hexadecimal escape the wrong way round. -/
def Element.emitted : Element → Byte
  | hex d1 d2 => 16 * d2.value + d1.value
  | e => e.value

theorem letter_ok (e : SimpleEscape) : e.letter ≠ 0x0A ∧ simpleEscape e.letter = some (e.value.setWidth 16) ∧
    e.value.setWidth 16 ≠ T_INVALID := by
  cases e <;> decide

theorem octalChar_ok (d : Fin 8) : octalChar d ≠ 0x0A ∧ isoctal (octalChar d) = true ∧
    isdigit (octalChar d) = true ∧ simpleEscape (octalChar d) = none ∧ octalChar d ≠ 0x78 ∧
    (octalChar d).setWidth 16 - 0x30 = BitVec.ofNat 16 d := by
  revert d
  decide

theorem octalChar_low (d : Fin 4) : octalChar d = octalChar (d.castLE (by decide) : Fin 8) := by
  revert d
  decide

theorem octal_value (d1 d2 : Fin 8) :
    BitVec.ofNat 16 d1 <<< 3 ||| BitVec.ofNat 16 d2 = BitVec.ofNat 16 (8 * d1 + d2) := by
  revert d1 d2
  decide

theorem octal_value3 (d1 : Fin 4) (d2 d3 : Fin 8) :
    BitVec.ofNat 16 (8 * d1 + d2) <<< 3 ||| BitVec.ofNat 16 d3 = BitVec.ofNat 16 (64 * d1 + 8 * d2 + d3) := by
  revert d1 d2 d3
  decide

theorem byte_value {n : Nat} (hn : n < 256) :
    BitVec.ofNat 16 n ≠ T_INVALID ∧ (BitVec.ofNat 16 n).setWidth 8 = BitVec.ofNat 8 n := by
  constructor
  · intro heq
    have hnat := congrArg BitVec.toNat heq
    simp [T_INVALID] at hnat
    omega
  · simp [BitVec.setWidth_ofNat_of_le]

theorem xdigit_ok (c : Byte) (hc : isxdigit c = true) : c ≠ 0x0A ∧ ∃ n : BitVec 4, unhex c = n.setWidth 16 ∧
    (if c ≤ 0x39 then c - 0x30 else if c ≤ 0x46 then c - 0x41 + 10 else c - 0x61 + 10) = n.setWidth 8 := by
  refine ⟨?_, (unhex c).setWidth 4, ?_, ?_⟩ <;> revert c <;> decide

theorem nibbles (n1 n2 : BitVec 4) : (n2.setWidth 16 <<< 4 ||| n1.setWidth 16 : BitVec 16) ≠ T_INVALID ∧
    (n2.setWidth 16 <<< 4 ||| n1.setWidth 16 : BitVec 16).setWidth 8 = 16 * n2.setWidth 8 + n1.setWidth 8 := by
  revert n1 n2
  decide

section
variable {s : Source h} {c : Byte} {rest : List Byte}

/-- Where the digits end, the next character is pushed back. -/
theorem octalDigits_end (ct : Nat) (n : BitVec 16) {last : Byte} (hs : s.After last (c :: rest)) (hlast : last ≠ 0x0A)
    (hc : isoctal c = false) (hline : c ≠ 0x0A) :
    ∃ s', octalDigits (ct + 1) n s = some (n, s') ∧ s'.At (c :: rest) := by
  obtain ⟨s1, hget, hafter⟩ := get_after hs (fun _ => hline) (absurd · hlast)
  obtain ⟨s2, hunget, hat⟩ := unget_after hafter hline
  refine ⟨s2, ?_, hat⟩
  simp [octalDigits, hget, hc, hunget]

theorem octalDigits_digit (ct : Nat) (n : BitVec 16) {last : Byte} (d : Fin 8)
    (hs : s.After last (octalChar d :: rest)) (hlast : last ≠ 0x0A) :
    ∃ s', octalDigits (ct + 1) n s = octalDigits ct (n <<< 3 ||| BitVec.ofNat 16 d) s' ∧
      s'.After (octalChar d) rest := by
  obtain ⟨hline, hoctal, -, -, -, hvalue⟩ := octalChar_ok d
  obtain ⟨s1, hget, hafter⟩ := get_after hs (fun _ => hline) (absurd · hlast)
  refine ⟨s1, ?_, hafter⟩
  simp only [octalDigits, hget, Option.bind_eq_bind, Option.bind_some, hoctal, if_true, hvalue]

theorem escaped_octal (d : Fin 8) : escaped s (octalChar d) = octalDigits 2 (BitVec.ofNat 16 d) s := by
  obtain ⟨-, -, hdigit, hsimple, hx, hvalue⟩ := octalChar_ok d
  simp only [escaped, hsimple, if_neg hx, if_pos hdigit, octalset, hvalue]

theorem stringChar_escape {s1 s2 : Source h} {c2 : Byte} {n : BitVec 16} (hget : get s = some (c2, s1))
    (hescaped : escaped s1 c2 = some (n, s2)) (hn : n ≠ T_INVALID) :
    stringChar s 0x5C = some (n.setWidth 8, s2) := by
  simp [stringChar, hget, hescaped, hn]

theorem get_escape {c2 : Byte} (hs : s.At (0x5C :: c2 :: rest)) (hline : c2 ≠ 0x0A) :
    ∃ s1 s2, get s = some (0x5C, s1) ∧ get s1 = some (c2, s2) ∧ s2.After c2 rest := by
  obtain ⟨s1, hget, hafter⟩ := get_at hs (by decide)
  obtain ⟨s2, hget2, hafter2⟩ := get_after hafter (fun _ => hline) (absurd · (by decide))
  exact ⟨s1, s2, hget, hget2, hafter2⟩

/-- An element is one byte, and what follows it is next. -/
theorem stringChar_element (e : Element) (hs : s.At (e.source ++ c :: rest)) (htakes : e.takes c = false)
    (hline : c ≠ 0x0A) : ∃ c1 s1 s2, get s = some (c1, s1) ∧ c1 ≠ 0x22 ∧
      stringChar s1 c1 = some (e.emitted, s2) ∧ s2.At (c :: rest) := by
  cases e with
  | plain c1 ok =>
    obtain ⟨hquote, hbslash, hnl⟩ := ok
    obtain ⟨s1, hget, hafter⟩ := get_at hs hnl
    exact ⟨c1, s1, s1, hget, hquote, if_pos hbslash, hafter.at hnl⟩
  | simple e =>
    obtain ⟨hnl, hsimple, hvalid⟩ := letter_ok e
    obtain ⟨s1, s2, hget, hget2, hafter⟩ := get_escape hs hnl
    have hescaped : escaped s2 e.letter = some (e.value.setWidth 16, s2) := by simp only [escaped, hsimple]
    refine ⟨0x5C, s1, s2, hget, by decide, ?_, hafter.at hnl⟩
    rw [stringChar_escape hget2 hescaped hvalid, BitVec.setWidth_setWidth_of_le _ (by decide), BitVec.setWidth_eq]
    rfl
  | octal1 d =>
    obtain ⟨hnl, -⟩ := octalChar_ok d
    obtain ⟨s1, s2, hget, hget2, hafter⟩ := get_escape hs hnl
    obtain ⟨s3, hend, hat⟩ := octalDigits_end 1 (BitVec.ofNat 16 d) hafter hnl htakes hline
    obtain ⟨hvalid, hvalue⟩ := byte_value (n := d) (by omega)
    refine ⟨0x5C, s1, s3, hget, by decide, ?_, hat⟩
    rw [stringChar_escape hget2 ((escaped_octal d).trans hend) hvalid, hvalue]
    rfl
  | octal2 d1 d2 =>
    obtain ⟨hnl1, -⟩ := octalChar_ok d1
    obtain ⟨hnl2, -⟩ := octalChar_ok d2
    obtain ⟨s1, s2, hget, hget2, hafter⟩ := get_escape hs hnl1
    obtain ⟨s3, hdigit, hafter3⟩ := octalDigits_digit 1 (BitVec.ofNat 16 d1) d2 hafter hnl1
    rw [octal_value] at hdigit
    obtain ⟨s4, hend, hat⟩ := octalDigits_end 0 (BitVec.ofNat 16 (8 * d1 + d2)) hafter3 hnl2 htakes hline
    obtain ⟨hvalid, hvalue⟩ := byte_value (n := 8 * d1 + d2) (by omega)
    refine ⟨0x5C, s1, s4, hget, by decide, ?_, hat⟩
    rw [stringChar_escape hget2 ((escaped_octal d1).trans (hdigit.trans hend)) hvalid, hvalue]
    rfl
  | octal3 d1 d2 d3 =>
    have hlow := octalChar_low d1
    obtain ⟨hnl1, -⟩ := octalChar_ok (d1.castLE (by decide))
    obtain ⟨hnl2, -⟩ := octalChar_ok d2
    obtain ⟨hnl3, -⟩ := octalChar_ok d3
    simp only [Element.source, hlow] at hs
    obtain ⟨s1, s2, hget, hget2, hafter⟩ := get_escape hs hnl1
    obtain ⟨s3, hdigit, hafter3⟩ := octalDigits_digit 1 (BitVec.ofNat 16 d1) d2 hafter hnl1
    obtain ⟨s4, hdigit4, hafter4⟩ := octalDigits_digit 0 (BitVec.ofNat 16 (8 * d1 + d2)) d3 hafter3 hnl2
    have hvalue1 := octal_value (d1.castLE (by decide)) d2
    rw [Fin.val_castLE] at hvalue1
    rw [hvalue1] at hdigit
    rw [octal_value3] at hdigit4
    have hescaped : escaped s2 (octalChar (d1.castLE (by decide) : Fin 8)) =
        some (BitVec.ofNat 16 (64 * d1 + 8 * d2 + d3), s4) :=
      (escaped_octal _).trans (hdigit.trans hdigit4)
    obtain ⟨hvalid, hvalue⟩ := byte_value (n := 64 * d1 + 8 * d2 + d3) (by omega)
    refine ⟨0x5C, s1, s4, hget, by decide, ?_, hafter4.at hnl3⟩
    rw [stringChar_escape hget2 hescaped hvalid, hvalue]
    rfl
  | hex d1 d2 =>
    obtain ⟨hnl1, n1, hn1, hv1⟩ := xdigit_ok d1.char d1.ok
    obtain ⟨hnl2, n2, hn2, hv2⟩ := xdigit_ok d2.char d2.ok
    obtain ⟨s1, s2, hget, hget2, hafter⟩ := get_escape hs (by decide)
    obtain ⟨s3, hget3, hafter3⟩ := get_after hafter (fun _ => hnl1) (absurd · (by decide))
    obtain ⟨s4, hget4, hafter4⟩ := get_after hafter3 (fun _ => hnl2) (absurd · hnl1)
    obtain ⟨hvalid, hvalue⟩ := nibbles n1 n2
    have hescaped : escaped s2 0x78 = some (n2.setWidth 16 <<< 4 ||| n1.setWidth 16, s4) := by
      simp [escaped, simpleEscape, hexpair, hget3, hget4, d1.ok, d2.ok, hn1, hn2]
    refine ⟨0x5C, s1, s4, hget, by decide, ?_, hafter4.at hnl2⟩
    rw [stringChar_escape hget2 hescaped hvalid, hvalue, Element.emitted, HexDigit.value, HexDigit.value, hv1, hv2]

/-! ## The whole literal -/

theorem stringLoop_element (fuel : Nat) (e : Element) (hs : s.At (e.source ++ c :: rest)) (htakes : e.takes c = false)
    (hline : c ≠ 0x0A) : ∃ s', stringLoop (fuel + 1) s =
      (stringLoop fuel s').map (fun (out, s) => (outbyteQuoted e.emitted ++ out, s)) ∧ s'.At (c :: rest) := by
  obtain ⟨c1, s1, s2, hget, hquote, hchar, hat⟩ := stringChar_element e hs htakes hline
  refine ⟨s2, ?_, hat⟩
  simp only [stringLoop, hget, Option.bind_eq_bind, Option.bind_some, if_pos hquote, hchar]
  cases stringLoop fuel s2 <;> rfl

theorem source_head (e : Element) : ∃ c rest, e.source = c :: rest ∧ c ≠ 0x0A := by
  cases e with
  | plain c ok => exact ⟨c, _, rfl, ok.2.2⟩
  | _ => exact ⟨0x5C, _, rfl, by decide⟩

theorem takes_quote (e : Element) : e.takes 0x22 = false := by
  cases e <;> rfl

theorem stringLoop_elements (fuel : Nat) {elements : List Element}
    (hs : s.At (elements.flatMap Element.source ++ 0x22 :: rest))
    (hapart : elements.IsChain fun e e' => ∀ c ∈ e'.source.head?, e.takes c = false) :
    ∃ s', stringLoop (elements.length + fuel) s =
      (stringLoop fuel s').map (fun (out, s) => (quoted (elements.map Element.emitted) ++ out, s)) ∧
      s'.At (0x22 :: rest) := by
  induction elements generalizing s with
  | nil =>
    refine ⟨s, ?_, hs⟩
    simp
  | cons e elements ih =>
    rw [List.flatMap_cons, List.append_assoc] at hs
    have hnext : ∃ c rest', elements.flatMap Element.source ++ 0x22 :: rest = c :: rest' ∧ e.takes c = false ∧
        c ≠ 0x0A := by
      cases elements with
      | nil => exact ⟨0x22, rest, rfl, takes_quote e, by decide⟩
      | cons e' elements =>
        obtain ⟨c, rest', hsource, hline⟩ := source_head e'
        rw [List.isChain_cons_cons] at hapart
        refine ⟨c, rest' ++ elements.flatMap Element.source ++ 0x22 :: rest, ?_, ?_, hline⟩
        · simp [hsource]
        · exact hapart.1 c (by simp [hsource])
    obtain ⟨c, rest', heq, htakes, hline⟩ := hnext
    rw [heq] at hs
    obtain ⟨s1, hloop1, hat1⟩ := stringLoop_element (elements.length + fuel) e hs htakes hline
    rw [← heq] at hat1
    obtain ⟨s', hloop, hat⟩ := ih hat1 hapart.tail
    refine ⟨s', ?_, hat⟩
    rw [List.length_cons, Nat.add_right_comm, hloop1, hloop, Option.map_map]
    simp [quoted_cons, Function.comp_def]

/-- What comes after the last quote is not one more piece. -/
def Ends (h : Host) (tail : List Byte) : Prop :=
  ∀ s : Source h, s.After 0x22 tail → ∃ c s', getNb s = some (c, s') ∧ c ≠ 0x22

theorem ends_of_cons {gap : List Byte} (hspaces : ∀ g ∈ gap, isspace g = true) (hspace : isspace c = false)
    (hhash : c ≠ 0x23) (hquote : c ≠ 0x22) : Ends h (gap ++ c :: rest) := by
  intro s hs
  obtain ⟨s', hnb, -⟩ := getNb_gap hs (by decide) hspaces hspace hhash
  exact ⟨c, s', hnb, hquote⟩

theorem stringLoop_quote (fuel : Nat) (hs : s.At (0x22 :: rest)) : ∃ s1, s1.After 0x22 rest ∧
    stringLoop (fuel + 1) s = (getNb s1).bind fun (c, s) =>
      if c = 0x22 then stringLoop fuel s else (unget s c).map fun s => ([], s) := by
  obtain ⟨s1, hget, hafter⟩ := get_at hs (by decide)
  refine ⟨s1, hafter, ?_⟩
  simp only [stringLoop, hget, Option.bind_eq_bind, Option.bind_some]
  rfl

theorem stringLoop_end (fuel : Nat) (hs : s.At (0x22 :: rest)) (hends : Ends h rest) :
    ∃ s', stringLoop (fuel + 1) s = some ([], s') := by
  obtain ⟨s1, hafter, hloop⟩ := stringLoop_quote fuel hs
  obtain ⟨c, s2, hnb, hquote⟩ := hends s1 hafter
  have hpush := getNb_pushback hnb
  rw [hloop, hnb, Option.bind_some]
  simp only [if_neg hquote, unget, hpush]
  exact ⟨_, rfl⟩

theorem stringLoop_adjacent (fuel : Nat) (a : Adjacent) (hs : s.At (0x22 :: (a.gap ++ 0x22 :: rest))) :
    ∃ s', stringLoop (fuel + 1) s = stringLoop fuel s' ∧ s'.At rest := by
  obtain ⟨s1, hafter, hloop⟩ := stringLoop_quote fuel hs
  obtain ⟨s2, hnb, hafter2⟩ := getNb_gap hafter (by decide) a.spaces (by decide) (by decide)
  refine ⟨s2, ?_, hafter2.at (by decide)⟩
  rw [hloop, hnb, Option.bind_some]
  exact if_pos rfl

/-- The turns of the loop. -/
def Literal.turns (lit : Literal) : Nat := lit.elements.length + lit.adjacent.length + 1

theorem source_cons (piece : Piece) (a : Adjacent) (adjacent : List Adjacent) :
    (Literal.mk piece (a :: adjacent)).source =
      piece.source ++ 0x22 :: (a.gap ++ 0x22 :: (Literal.mk a.piece adjacent).source) := by
  simp [Literal.source]

theorem elements_cons (piece : Piece) (a : Adjacent) (adjacent : List Adjacent) :
    (Literal.mk piece (a :: adjacent)).elements = piece.elements ++ (Literal.mk a.piece adjacent).elements := by
  simp [Literal.elements]

theorem turns_cons (piece : Piece) (a : Adjacent) (adjacent : List Adjacent) :
    (Literal.mk piece (a :: adjacent)).turns = piece.elements.length + ((Literal.mk a.piece adjacent).turns + 1) := by
  simp only [Literal.turns, elements_cons, List.length_append, List.length_cons]
  omega

/-- By induction on the pieces. -/
theorem stringLoop_literal (fuel : Nat) {piece : Piece} {adjacent : List Adjacent}
    (hs : s.At ((Literal.mk piece adjacent).source ++ rest)) (hends : Ends h rest) :
    ∃ s', stringLoop ((Literal.mk piece adjacent).turns + fuel) s =
      some (quoted ((Literal.mk piece adjacent).elements.map Element.emitted), s') := by
  induction adjacent generalizing s piece with
  | nil =>
    have hsource : (Literal.mk piece []).source ++ rest = piece.source ++ 0x22 :: rest := by simp [Literal.source]
    rw [hsource] at hs
    obtain ⟨s1, hloop, hat⟩ := stringLoop_elements (1 + fuel) hs piece.apart
    obtain ⟨s2, hend⟩ := stringLoop_end fuel hat hends
    refine ⟨s2, ?_⟩
    have hturns : (Literal.mk piece []).turns + fuel = piece.elements.length + (1 + fuel) := by
      simp [Literal.turns, Literal.elements, Nat.add_assoc]
    rw [hturns, hloop, Nat.add_comm 1 fuel, hend]
    simp [Literal.elements]
  | cons a adjacent ih =>
    rw [source_cons, List.append_assoc, List.cons_append, List.append_assoc, List.cons_append] at hs
    obtain ⟨s1, hloop, hat⟩ := stringLoop_elements ((Literal.mk a.piece adjacent).turns + fuel + 1) hs piece.apart
    obtain ⟨s2, hadjacent, hat2⟩ := stringLoop_adjacent ((Literal.mk a.piece adjacent).turns + fuel) a hat
    obtain ⟨s3, hrest⟩ := ih hat2
    refine ⟨s3, ?_⟩
    rw [turns_cons, Nat.add_assoc, Nat.add_right_comm, hloop, hadjacent, hrest, elements_cons, List.map_append,
      quoted_append]
    rfl

/-- `tokenize_string` after the first quote: the token, and the quoted bytes with a quoted zero and the end. -/
theorem tokenizeString_literal (lit : Literal) {fuel : Nat} (hs : s.After 0x22 (lit.source ++ rest))
    (hends : Ends h rest) (hfuel : lit.turns ≤ fuel) :
    ∃ s', tokenizeString fuel s = some ((writeToken s.front T_STRING []).1 ++
      (quoted (lit.elements.map Element.emitted ++ [0]) ++ [0]), T_STRING_END, s') := by
  have hafter : { s with front := (writeToken s.front T_STRING []).2 }.After 0x22 (lit.source ++ rest) :=
    ⟨hs.pushback, hs.inp, hs.isnl, hs.lastbslash⟩
  have hat := hafter.at (by decide)
  obtain ⟨s', hloop⟩ := stringLoop_literal (fuel - lit.turns) hat hends
  refine ⟨s', ?_⟩
  rw [Nat.add_sub_cancel' hfuel] at hloop
  simp only [tokenizeString, hloop, Option.bind_eq_bind, Option.bind_some, quoted_append, quoted_cons]
  simp

end

end Fuzemsys.Fcc
