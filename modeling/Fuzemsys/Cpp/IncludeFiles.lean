import Fuzemsys.Fcc.Token

/-!
# Include files

The characters of the preprocessor inside a directive, `#include` behind the token that `get_onetok`
returns, and the files that are open. Macro texts and warnings are not modelled.
-/

namespace Fuzemsys.Cpp.Include

open Fcc

/-! ## Characters of a directive -/

/-- Where characters come from and where they are pushed back. -/
structure Tape (S : Type) where
  chget_raw : S → Option Byte × S
  unchget : Option Byte → S → S

variable {S : Type} (T : Tape S) (ansi : Bool)

def trig1 : List Byte := [0x28, 0x29, 0x3c, 0x3e, 0x2f, 0x21, 0x27, 0x2d, 0x3d]

def trig2 : List Byte := [0x5b, 0x5d, 0x7b, 0x7d, 0x5c, 0x7c, 0x5e, 0x7e, 0x23]

def trigraph (ch : Option Byte) : Option Byte := ch.bind fun c => (trig1.zip trig2).lookup c

/-- The first two phases of translation. -/
def chget : Nat → S → Option (Option Byte × S)
  | 0, _ => none
  | fuel + 1, s =>
    let (ch, s) := T.chget_raw s
    if ch = some 0x5c then
      let (ch1, s) := T.chget_raw s
      if ch1 = some 0x0a then chget fuel s else some (ch, T.unchget ch1 s)
    else if ansi ∧ ch = some 0x3f then
      let (ch1, s) := T.chget_raw s
      if ch1 ≠ some 0x3f then some (ch, T.unchget ch1 s)
      else
        let (ch1, s) := T.chget_raw s
        if (trigraph ch1).isSome then chget fuel (T.unchget (trigraph ch1) s)
        else some (ch, T.unchget (some 0x3f) (T.unchget ch1 s))
    else some (ch, s)

/-- After `//`. -/
def lineComment : Nat → S → Option (Option Byte × S)
  | 0, _ => none
  | fuel + 1, s =>
    (chget T ansi fuel s).bind fun (ch, s) =>
      if ch ≠ some 0x0a ∧ ch ≠ none then lineComment fuel s else some (ch, s)

/-- After the `/` and the star. -/
def comment : Nat → Option Byte → S → Option (Option Byte × S)
  | 0, _, _ => none
  | fuel + 1, ch, s =>
    (chget T ansi fuel s).bind fun (ch', s) =>
      if ch = some 0x2a then
        if ch' = none then some (none, s)
        else if ch' = some 0x2f then some (some (if ansi then 0x20 else 22), s)
        else comment fuel ch' s
      else comment fuel ch' s

/-- A character that is not in a comment. -/
def pgetc (fuel : Nat) (s : S) : Option (Option Byte × S) :=
  (chget T ansi fuel s).bind fun (ch, s) =>
    if ch ≠ some 0x2f then some (ch, s)
    else
      (chget T ansi fuel s).bind fun (ch1, s) =>
        if ch1 = some 0x2f then lineComment T ansi fuel s
        else if ch1 ≠ some 0x2a then some (ch, T.unchget ch1 s)
        else comment T ansi fuel ch s

def do_proc_tail : Nat → S → Option S
  | 0, _ => none
  | fuel + 1, s => (pgetc T ansi fuel s).bind fun (ch, s) => if ch ≠ some 0x0a then do_proc_tail fuel s else some s

/-- The blanks behind the name. -/
def blanks : Nat → S → Option S
  | 0, _ => none
  | fuel + 1, s =>
    (pgetc T ansi fuel s).bind fun (ch1, s) =>
      if ch1 = some 0x20 ∨ ch1 = some 0x09 then blanks fuel s else some (T.unchget ch1 s)

/-! ## The directive -/

inductive NameEnd where
  | closed | newline | full
  deriving DecidableEq

/-- The name up to the mark `ch1`, the end of the line or the end of `curword`. -/
def include_name (full : List Byte → Bool) (ch1 : Byte) : Nat → List Byte → S → Option (NameEnd × List Byte × S)
  | 0, _, _ => none
  | fuel + 1, curword, s =>
    if full curword then some (.full, curword, s)
    else
      (pgetc T ansi fuel s).bind fun (ch, s) =>
        if ch = some 0x0a then some (.newline, curword, s)
        else if ch = some ch1 then some (.closed, curword, s)
        else include_name full ch1 fuel (curword ++ [ch.getD 0xff]) s

/-- The name and whether it is in quotes, with the directive read to its end. Without a name it is bad. -/
def include_line (full : List Byte → Bool) (fuel ch : Nat) (s : S) : Option (Option (List Byte × Bool) × S) :=
  if ch = 0x3c ∨ ch = 0x22 then
    (include_name T ansi full (if ch = 0x22 then 0x22 else 0x3e) fuel [] s).bind fun (e, curword, s) =>
      if e = .closed then
        ((blanks T ansi fuel s).bind (do_proc_tail T ansi fuel)).map fun s => (some (curword, decide (ch = 0x22)), s)
      else if e = .newline then some (none, s)
      else (do_proc_tail T ansi fuel s).map fun s => (none, s)
  else if ch = 0x0a then some (none, s)
  else (do_proc_tail T ansi fuel s).map fun s => (none, s)

/-! ## The files -/

def WORDSIZE : Nat := 128

def MAX_INCLUDE : Nat := 16

def EOT : Byte := 4

/-- A file being read, with its name and line. -/
structure Place where
  rest : List Byte
  c_fname : List Byte
  c_lineno : Int
  deriving DecidableEq

inductive Trouble where
  | cannotOpen (fname : List Byte)
  | badInclude
  | tooDeep
  | pushbackOverflow
  deriving DecidableEq

structure Reader where
  cur : Place
  /-- The last one pushed comes first. -/
  unputc : List Byte
  /-- `saved_files`, `saved_fname` and `saved_lines`. -/
  saved : Vector Place MAX_INCLUDE
  fi_count : Nat
  errors : List Trouble
  inside : fi_count ≤ MAX_INCLUDE

def Reader.start (rest c_fname : List Byte) : Reader where
  cur := ⟨rest, c_fname, 1⟩
  unputc := []
  saved := Vector.replicate MAX_INCLUDE ⟨[], [], 0⟩
  fi_count := 0
  errors := []
  inside := Nat.zero_le _

def Place.newlines (p : Place) (ch : Byte) (n : Int) : Place := if ch = 0x0a then { p with c_lineno := p.c_lineno + n } else p

def unchget (ch : Option Byte) (r : Reader) : Reader :=
  if ch = some 0 then r
  else
    let c := ch.getD EOT
    if r.unputc.length ≥ 4 then { r with errors := .pushbackOverflow :: r.errors, cur := r.cur.newlines c (-1) }
    else { r with unputc := c :: r.unputc, cur := r.cur.newlines c (-1) }

/-- Control characters are not seen. -/
def invisible (c : Byte) : Bool := c < 0x20 && c ≠ 0x0a && c ≠ 0x09

/-- `chget_raw` outside of macros. -/
def chget_raw (in_preproc : Bool) (r : Reader) : Option Byte × Reader :=
  match r.unputc with
  | c :: more =>
    if c = EOT ∧ in_preproc then (some 0x0a, r)
    else if c = EOT then (none, { r with unputc := more })
    else (some c, { r with unputc := more, cur := r.cur.newlines c 1 })
  | [] =>
    match r.cur.rest.dropWhile invisible with
    | c :: rest => (some c, { r with cur := { r.cur with rest := rest }.newlines c 1 })
    | [] =>
      if h : r.fi_count ≠ 0 then
        (some 0x0a, { r with
          cur := r.saved.get ⟨r.fi_count - 1, by have := r.inside; omega⟩
          fi_count := r.fi_count - 1
          inside := by have := r.inside; omega })
      else (some 0x0a, unchget none { r with cur := { r.cur with rest := [] } })

def tape : Tape Reader := ⟨chget_raw true, unchget⟩

/-! ## Opening -/

/-- What `fopen` does for a name: a file, `ENOENT` or another error. -/
inductive Opened where
  | file (content : List Byte)
  | missing
  | failed

/-- The name up to its last slash. -/
def dirPart (name : List Byte) : List Byte := (name.reverse.dropWhile (· ≠ 0x2f)).reverse

def strlcpy (src : List Byte) (size : Nat) : List Byte := src.take (size - 1)

def strlcat (buf src : List Byte) (size : Nat) : List Byte := buf ++ src.take (size - 1 - buf.length)

variable (fopen : List Byte → Opened) (include_paths : List (List Byte))

/-- The `-I` directories. `none` when the preprocessor exits, or looks in front of an empty name. -/
def search (fname : List Byte) : List (List Byte) → Option (Option (List Byte × List Byte))
  | [] => some none
  | path :: paths =>
    let buf := strlcpy path 256
    if buf = [] then none
    else
      let buf := if buf.getLast? ≠ some 0x2f then strlcat buf [0x2f] 256 else buf
      let buf := strlcat buf fname 256
      match fopen buf with
      | .file content => some (some (buf, content))
      | .missing => search fname paths
      | .failed => none

def open_include (c_fname fname : List Byte) (checkrel : Bool) : Option (Option (List Byte × List Byte)) :=
  let dir := dirPart (strlcpy c_fname 256)
  let buf := dir ++ strlcpy fname dir.length
  if checkrel then
    match fopen buf with
    | .file content => some (some (buf, content))
    | _ => search fopen fname include_paths
  else search fopen fname include_paths

def Reader.failed (r : Reader) (t : Trouble) : Reader := { r with errors := t :: r.errors }

/-- `#include` behind the token `ch`. `none` when it does not end, exits, or writes behind the tables. -/
def do_proc_include (fuel ch : Nat) (r : Reader) : Option Reader :=
  (include_line tape ansi (fun curword => decide (WORDSIZE - 1 ≤ curword.length)) fuel ch r).bind fun (named, r) =>
    match named with
    | none => some (r.failed .badInclude)
    | some (fname, checkrel) =>
      if h : r.fi_count < MAX_INCLUDE then
        let r := { r with saved := r.saved.set r.fi_count r.cur }
        (open_include fopen include_paths r.cur.c_fname fname checkrel).map fun found =>
          match found with
          | none => r.failed (.cannotOpen fname)
          | some (buf, content) => { r with cur := ⟨content, buf, 1⟩, fi_count := r.fi_count + 1, inside := h }
      else none

end Fuzemsys.Cpp.Include
