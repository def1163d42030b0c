import Fuzemsys.Libs.Ltostr

/-!
# vfprintf

Formats are lists of characters before the NUL. Conversions of floating point are those of
another build and not modelled. `none` stands for an argument of the wrong type, or for a
field whose loop does not end.
-/

namespace Fuzemsys.Libs.Printf

open Fuzemsys.Libs.Strtol Fuzemsys.Libs.Ltostr

/-- An argument of the variable list. -/
inductive Arg where
  | int (v : Int)
  | long (v : BitVec 32)
  | str (s : List Byte)
  deriving DecidableEq, Repr

def vaInt : List Arg → Option (Int × List Arg)
  | .int v :: args => some (v, args)
  | _ => none

def vaLong : List Arg → Option (BitVec 32 × List Arg)
  | .long v :: args => some (v, args)
  | _ => none

def vaStr : List Arg → Option (List Byte × List Arg)
  | .str s :: args => some (s, args)
  | _ => none

/-! ## One field -/

/-- `while (width || len)`: the characters put out. -/
def prtLoop (ljustf : Bool) (pad : Byte) : Nat → Int → Int → List Byte → Byte → Option (List Byte)
  | 0, _, _, _, _ => none
  | fuel + 1, width, len, buf, sign =>
    if width = 0 ∧ len = 0 then some []
    else if ljustf = false ∧ width ≠ 0 then
      if len ≠ 0 ∧ sign ≠ 0 ∧ pad = 0x30 then
        (prtLoop ljustf pad fuel width (len - 1) buf 0).map (sign :: ·)
      else (prtLoop ljustf pad fuel (width - 1) len buf sign).map (pad :: ·)
    else if len ≠ 0 then
      if sign ≠ 0 then (prtLoop ljustf pad fuel width (len - 1) buf 0).map (sign :: ·)
      else (prtLoop ljustf pad fuel width (len - 1) buf.tail sign).map (buf.headD 0 :: ·)
    else (prtLoop ljustf pad fuel (width - 1) len buf sign).map (pad :: ·)

/-- What the flags of a conversion say. -/
structure Field where
  ljustf : Bool
  sign : Byte
  pad : Byte
  width : Int
  dpoint : Bool
  preci : Int
  hash : Bool
  lval : Bool
  deriving DecidableEq, Repr

/-- The characters of a field and their number. -/
def prtfld (buf : List Byte) (f : Field) : Option (List Byte × Int) := do
  let len : Int := buf.length
  let (sign, buf, len) :=
    if buf.head? = some 0x2d then (0x2d, buf.tail, len)
    else if f.sign ≠ 0 then (f.sign, buf, len + 1)
    else (0, buf, len)
  let len := if f.preci ≠ -1 ∧ len > f.preci then f.preci else len
  let width := if f.width < len then len else f.width
  let text ← prtLoop f.ljustf f.pad (width.natAbs + len.natAbs + 1) (width - len) len buf sign
  return (text, width)

/-! ## The format -/

/-- From `fmtnxt` to the conversion: digits, flags and size. -/
def fmtnxt : List Byte → Int → Field → List Arg → Option (Field × List Byte × List Arg)
  | [], _, f, args => some (f, [], args)
  | c :: fmt, i, f, args =>
    if isdigit c then
      let i := i * 10 + (c.toNat - 48)
      if f.dpoint then fmtnxt fmt i { f with preci := i } args
      else if i = 0 ∧ f.pad = 0x20 then fmtnxt fmt 0 { f with pad := 0x30 } args
      else fmtnxt fmt i { f with width := i } args
    else if c = 0x2d then fmtnxt fmt 0 { f with ljustf := true } args
    else if c = 0x20 ∨ c = 0x2b then fmtnxt fmt 0 { f with sign := c } args
    else if c = 0x23 then fmtnxt fmt 0 { f with hash := true } args
    else if c = 0x2a then
      match vaInt args with
      | none => none
      | some (i, args) =>
        if f.dpoint then fmtnxt fmt 0 { f with preci := i } args
        else if i < 0 then fmtnxt fmt 0 { f with ljustf := true, width := -i } args
        else fmtnxt fmt 0 { f with width := i } args
    else if c = 0x2e then fmtnxt fmt 0 { f with dpoint := true } args
    else if c = 0x6c then fmtnxt fmt 0 { f with lval := true } args
    else if c = 0x68 then fmtnxt fmt 0 { f with lval := false } args
    else some (f, c :: fmt, args)

/-- `wide` tells that `int` and pointers have the size of `long`. -/
def startField (wide : Bool) : Field :=
  { ljustf := false, sign := 0, pad := 0x20, width := -1, dpoint := false, preci := -1, hash := false,
    lval := wide }

/-- The number of a conversion, from an `int` or a `long`. -/
def vaNumber (f : Field) (args : List Arg) : Option (BitVec 32 × List Arg) :=
  if f.lval then vaLong args else (vaInt args).map fun (v, args) => (BitVec.ofInt 32 v, args)

/-- The same for unsigned numbers, where an `int` of 16 bits is not extended. -/
def vaUnsigned (wide : Bool) (f : Field) (args : List Arg) : Option (BitVec 32 × List Arg) :=
  if f.lval then vaLong args
  else (vaInt args).map fun (v, args) =>
    (BitVec.ofInt 32 (if wide then v else v % 2 ^ 16), args)

/-- `usproc`. -/
def usproc (wide : Bool) (radix : Int) (f : Field) (args : List Arg) :
    Option (List Byte × Field × List Arg) := do
  let (val, args) ← vaUnsigned wide f args
  let ptmp ← __ultostr_r val (if radix < 0 then -radix else radix)
  let add : List Byte :=
    if !f.hash then []
    else if radix = 2 then [0x30, 0x62]
    else if radix = 8 then (if val ≠ 0 then [0x30] else [])
    else if radix = 16 then [0x30, 0x78]
    else if radix = -16 then [0x30, 0x58]
    else []
  return if add = [] then (ptmp, f, args) else (add ++ ptmp, { f with pad := 0 }, args)

/-- `Chr`. -/
def chr (i : Byte) (f : Field) : List Byte × Field :=
  ([i].takeWhile (· ≠ 0), { f with pad := if f.hash then i else 0x20, sign := 0 })

/-- The conversion at `*fmt`: the text to print, and the format behind it. `some none` is `charout`. -/
def conversion (wide : Bool) (f : Field) (fmt : List Byte) (args : List Arg) :
    Option (Option (List Byte × Field × List Byte × List Arg)) := do
  match fmt with
  | [] => return none
  | c :: rest =>
    if c = 0x64 ∨ c = 0x69 then
      let (v, args) ← vaNumber f args
      let ptmp ← __ltostr_r v 10
      return some (ptmp, f, rest, args)
    else if c = 0x62 then
      let (ptmp, f, args) ← usproc wide 2 f args
      return some (ptmp, f, rest, args)
    else if c = 0x6f then
      let (ptmp, f, args) ← usproc wide 8 f args
      return some (ptmp, f, rest, args)
    else if c = 0x70 then
      let (ptmp, f, args) ← usproc wide 16 { f with lval := wide, pad := 0x30, width := 5, preci := 8 } args
      return some (ptmp, f, rest, args)
    else if c = 0x58 then
      let (ptmp, f, args) ← usproc wide 16 f args
      return some (ptmp, f, rest, args)
    else if c = 0x78 then
      let (ptmp, f, args) ← usproc wide (-16) f args
      return some (ptmp, f, rest, args)
    else if c = 0x75 then
      let (ptmp, f, args) ← usproc wide 10 f args
      return some (ptmp, f, rest, args)
    else if c = 0x21 then
      let (ptmp, f) := chr (rest.headD 0) f
      return some (ptmp, f, rest.tail, args)
    else if c = 0x63 then
      let (i, args) ← vaInt args
      let (ptmp, f) := chr (BitVec.ofInt 8 i) f
      return some (ptmp, f, rest, args)
    else if c = 0x73 then
      let (s, args) ← vaStr args
      return some (s, { f with pad := 0x20, sign := 0 }, rest, args)
    else return none

/-- `while (*fmt)`: the characters written, of which the stream gets the first `maxlen`, and `cnt`. -/
def vfnLoop (wide : Bool) (maxlen : Nat) : Nat → List Byte → List Arg → Int → Option (List Byte × Int)
  | 0, _, _, _ => none
  | _ + 1, [], _, cnt => some ([], cnt)
  | fuel + 1, c :: fmt, args, cnt =>
    let charout (c : Byte) (fmt : List Byte) (args : List Arg) :=
      (vfnLoop wide maxlen fuel fmt args (cnt + 1)).map fun (out, n) =>
        (if cnt < maxlen then c :: out else out, n)
    if c = 0x25 then
      match fmtnxt fmt 0 (startField wide) args with
      | none => none
      | some (f, at', args) =>
        match conversion wide f at' args with
        | none => none
        | some (some (ptmp, f, fmt, args)) =>
          match prtfld ptmp f with
          | none => none
          | some (text, n) =>
            (vfnLoop wide maxlen fuel fmt args (cnt + n)).map fun (out, total) =>
              (text.take (maxlen - cnt).toNat ++ out, total)
        -- The character before the end of the format is printed, or the unknown one.
        | some none => charout (at'.headD ((c :: fmt).getLastD c)) at'.tail args
    else charout c fmt args

def _vfnprintf (wide : Bool) (maxlen : Nat) (fmt : List Byte) (args : List Arg) :
    Option (List Byte × Int) := vfnLoop wide maxlen (fmt.length + 1) fmt args 0

/-- `~0` is the largest `size_t`. -/
def vfprintf (wide : Bool) (fmt : List Byte) (args : List Arg) : Option (List Byte × Int) :=
  _vfnprintf wide (2 ^ (if wide then 32 else 16) - 1) fmt args

/-! ## One number -/

variable {f : Field} {width len : Int}

/-- Without padding the sign comes first and then the text. -/
theorem prtLoop_plain (pad : Byte) (fuel : Nat) (buf : List Byte) (hfuel : buf.length < fuel) :
    prtLoop false pad fuel 0 buf.length buf 0 = some buf := by
  induction buf generalizing fuel with
  | nil =>
    obtain ⟨n, rfl⟩ : ∃ n, fuel = n + 1 := ⟨fuel - 1, by simp at hfuel; omega⟩
    simp [prtLoop]
  | cons c buf ih =>
    obtain ⟨n, rfl⟩ : ∃ n, fuel = n + 1 := ⟨fuel - 1, by simp at hfuel; omega⟩
    have hlen : ((c :: buf).length : Int) - 1 = buf.length := by simp
    have hpos : ((c :: buf).length : Int) ≠ 0 := by rw [List.length_cons]; omega
    unfold prtLoop
    rw [if_neg fun h => hpos h.2, if_neg (by simp), if_pos hpos, if_neg (by simp), hlen, List.tail_cons,
      ih n (by simpa using hfuel)]
    rfl

/-- A number prints as its text when no flag, width or precision asks for more. -/
theorem prtfld_plain (wide lval : Bool) {buf : List Byte} (hne : buf ≠ []) :
    prtfld buf { startField wide with lval := lval } = some (buf, (buf.length : Int)) := by
  rcases buf with _ | ⟨c, buf⟩
  · exact absurd rfl hne
  · have hpos : ((c :: buf).length : Int) ≠ 0 := by rw [List.length_cons]; omega
    have hgrow : (-1 : Int) < (c :: buf).length := by omega
    have hfuel : (c :: buf).length < ((c :: buf).length : Int).natAbs + ((c :: buf).length : Int).natAbs + 1 := by
      omega
    by_cases hminus : c = 0x2d
    · subst hminus
      have hlen : (((0x2d : Byte) :: buf).length : Int) - 1 = buf.length := by simp
      simp only [prtfld, startField, List.head?_cons, if_pos, ne_eq, not_true_eq_false, false_and, if_false, hgrow,
        Option.bind_eq_bind, Int.sub_self, List.tail_cons]
      unfold prtLoop
      rw [if_neg fun h => hpos h.2, if_neg (by simp), if_pos hpos, if_pos (by decide), hlen,
        prtLoop_plain _ _ _ (by simp; omega)]
      rfl
    · simp only [prtfld, startField, List.head?_cons, Option.some.injEq, hminus, ne_eq, not_true_eq_false,
        false_and, if_false, hgrow, if_pos, Option.bind_eq_bind, Int.sub_self]
      rw [prtLoop_plain _ _ _ hfuel]
      rfl

/-- `%ld`. -/
def longFormat : List Byte := [0x25, 0x6c, 0x64]

/-- The flags there. -/
def longField (wide : Bool) : Field := { startField wide with lval := true }

theorem fmtnxt_long (wide : Bool) (args : List Arg) :
    fmtnxt [0x6c, 0x64] 0 (startField wide) args = some (longField wide, [0x64], args) := rfl

theorem conversion_long (wide : Bool) (v : BitVec 32) {text : List Byte} (h : __ltostr_r v 10 = some text) :
    conversion wide (longField wide) [0x64] [.long v] = some (some (text, longField wide, [], [])) := by
  simp [conversion, vaNumber, vaLong, longField, h]

/-- `printf("%ld", v)` writes the text of the number. -/
theorem vfprintf_long (wide : Bool) (v : BitVec 32) {text : List Byte} (h : ltoa v 10 = some text) :
    vfprintf wide longFormat [.long v] = some (text, (text.length : Int)) := by
  have htext := @ltoa_text 10 v (by decide) (by decide)
  rw [show ((10 : Nat) : Int) = 10 from rfl, h, Option.some.injEq] at htext
  have hne : text ≠ [] := htext ▸ textOf_ne_nil _ _ _
  have hlen : text.length ≤ 33 := by
    have := magnitude_le v
    rw [htext]
    exact textOf_length _ (by decide) (by omega)
  have hshort : text.length ≤ 2 ^ (if wide then 32 else 16) - 1 := by
    rcases wide with _ | _ <;> simp <;> omega
  have hfld : prtfld text (longField wide) = some (text, (text.length : Int)) := prtfld_plain wide true hne
  simp only [vfprintf, _vfnprintf, longFormat, List.length_cons, List.length_nil, vfnLoop, if_true, fmtnxt_long,
    conversion_long wide v h, hfld, Option.map_some, List.append_nil, Int.zero_add]
  rw [List.take_of_length_le (by omega)]

end Fuzemsys.Libs.Printf
