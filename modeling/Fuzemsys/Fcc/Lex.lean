import Fuzemsys.Fcc.Token

/-!
# Reading the token stream

`next_token` of the second pass, over the list of bytes that are still to be read.
A read past the end inside a token is the error "corrupt stream", on which the
compiler exits.
-/

namespace Fuzemsys.Fcc

variable {h : Host}

/-! ## One token -/

/-- No token is pushed back. -/
def NO_TOKEN : Token := 0xFFFF

structure Lexer (h : Host) where
  filename : List Byte
  lineNum : BitVec h.intBits
  tokenValue : BitVec h.longBits
  token : Token
  lastToken : Token

def Lexer.start : Lexer h where
  filename := []
  lineNum := 0
  tokenValue := 0
  token := 0
  lastToken := NO_TOKEN

/-- A file name in a line record: `n` bytes at most, or up to a zero, which is read too. -/
def readName : Nat → List Byte → Option (List Byte × List Byte)
  | 0, inp => some ([], inp)
  | _ + 1, [] => none
  | n + 1, c :: inp =>
    if c = 0 then some ([], inp)
    else (readName n inp).map fun (name, inp) => (c :: name, inp)

/-- What follows `T_LINE`. -/
def readLine (s : Lexer h) : List Byte → Option (Lexer h × List Byte)
  | lo :: hi :: inp =>
    let lineNum := lo.setWidth h.intBits ||| hi.setWidth h.intBits <<< 8
    if lineNum &&& 0x8000 ≠ 0 then
      (readName 32 inp).map fun (name, inp) =>
        ({ s with token := T_LINE, lineNum := lineNum &&& 0x7FFF, filename := name }, inp)
    else some ({ s with token := T_LINE, lineNum := lineNum }, inp)
  | _ => none

/-- Four bytes, each shifted as an `unsigned` before it goes into the value. -/
def readValue (s : Lexer h) : List Byte → Option (Lexer h × List Byte)
  | b0 :: b1 :: b2 :: b3 :: inp =>
    let v0 := (b0.setWidth h.intBits).setWidth h.longBits
    let v1 := (b1.setWidth h.intBits <<< 8).setWidth h.longBits
    let v2 := (b2.setWidth h.intBits <<< 16).setWidth h.longBits
    let v3 := (b3.setWidth h.intBits <<< 24).setWidth h.longBits
    some ({ s with tokenValue := v0 ||| v1 ||| v2 ||| v3 }, inp)
  | _ => none

theorem readName_length {n : Nat} {inp name rest : List Byte} (hread : readName n inp = some (name, rest)) :
    rest.length ≤ inp.length := by
  induction n generalizing inp name with
  | zero =>
    cases hread
    exact le_rfl
  | succ n ih =>
    cases inp with
    | nil => cases hread
    | cons c inp =>
      rw [readName] at hread
      split at hread
      · cases hread
        exact Nat.le_succ _
      · obtain ⟨⟨name', rest'⟩, hread', heq⟩ := Option.map_eq_some_iff.mp hread
        cases heq
        exact (ih hread').trans (Nat.le_succ _)

theorem readLine_length {s s' : Lexer h} {inp rest : List Byte} (hread : readLine s inp = some (s', rest)) :
    rest.length ≤ inp.length := by
  unfold readLine at hread
  split at hread
  · dsimp only at hread
    split at hread
    · obtain ⟨⟨name, rest'⟩, hread', heq⟩ := Option.map_eq_some_iff.mp hread
      cases heq
      have := readName_length hread'
      simp only [List.length_cons]
      omega
    · cases hread
      simp only [List.length_cons]
      omega
  · cases hread

def nextToken (s : Lexer h) (inp : List Byte) : Option (Lexer h × List Byte) :=
  -- Handle pushed back tokens
  if s.lastToken ≠ NO_TOKEN then some ({ s with token := s.lastToken, lastToken := NO_TOKEN }, inp)
  else
    match inp with
    | lo :: hi :: rest =>
      let token : Token := lo.setWidth 16 ||| hi.setWidth 16 <<< 8
      if token = T_LINE then
        match _hread : readLine s rest with
        | some (s, rest) => nextToken s rest
        | none => none
      else if isNumeric token then readValue { s with token := token } rest
      else some ({ s with token := token }, rest)
    | _ => some ({ s with token := T_EOF }, [])
termination_by inp.length
decreasing_by
  have := readLine_length _hread
  simp only [List.length_cons]
  omega

/-- Only one token can be pushed back. -/
def pushToken (s : Lexer h) (t : Token) : Lexer h := { s with lastToken := s.token, token := t }

/-! ## Strings -/

/-- The loop of `copy_string`: `l` bytes are copied so far. The output, the new count and the
input after the terminating zero. -/
def copyLoop (maxlen l : BitVec h.intBits) : List Byte → Option (List Byte × BitVec h.intBits × List Byte)
  | [] => none
  | c :: inp =>
    if c = 0 then some ([], l, inp)
    else if l < maxlen then
      -- Quoted FFFF FFFE pairs count as one byte
      if c = 0xFF then
        match inp with
        | [] => none
        | c2 :: inp => (copyLoop maxlen (l + 1) inp).map fun (out, l, inp) => (c :: c2 :: out, l, inp)
      else (copyLoop maxlen (l + 1) inp).map fun (out, l, inp) => (c :: out, l, inp)
    else copyLoop maxlen l inp

section
variable {maxlen l : BitVec h.intBits} {c : Byte} {inp : List Byte}

theorem copyLoop_end : copyLoop maxlen l (0 :: inp) = some ([], l, inp) := by
  rw [copyLoop.eq_def]
  exact if_pos rfl

theorem copyLoop_pair (hl : l < maxlen) (c2 : Byte) : copyLoop maxlen l (0xFF :: c2 :: inp) =
    (copyLoop maxlen (l + 1) inp).map fun (out, l, inp) => (0xFF :: c2 :: out, l, inp) := by
  rw [copyLoop.eq_def]
  simp only [if_pos hl]
  rfl

theorem copyLoop_byte (hl : l < maxlen) (hc : c ≠ 0) (hff : c ≠ 0xFF) : copyLoop maxlen l (c :: inp) =
    (copyLoop maxlen (l + 1) inp).map fun (out, l, inp) => (c :: out, l, inp) := by
  rw [copyLoop.eq_def]
  simp only [if_pos hl, if_neg hc, if_neg hff]

theorem copyLoop_skip (hl : ¬ l < maxlen) (hc : c ≠ 0) :
    copyLoop maxlen l (c :: inp) = copyLoop maxlen l inp := by
  rw [copyLoop.eq_def]
  simp only [if_neg hl, if_neg hc]

end

end Fuzemsys.Fcc
