import Fuzemsys.Cpp.IncludeFiles

/-!
# Nested files

What `#include` is for: the including files wait, each where it was left, while the innermost one is
read. Then runs of the preprocessor's reading, and where its includes are right.
-/

namespace Fuzemsys.Cpp.Include

open Fcc

variable {S : Type} (ansi : Bool) (fopen : List Byte → Opened) (include_paths : List (List Byte))

/-! ## The nest -/

/-- A file that is read, with the characters that were pushed back. -/
structure Input where
  place : Place
  unputc : List Byte
  deriving DecidableEq

/-- The file that is read, and the including files, the innermost first. -/
structure Nest where
  cur : Input
  suspended : List Input
  errors : List Trouble
  deriving DecidableEq

namespace Nest

def failed (n : Nest) (t : Trouble) : Nest := { n with errors := t :: n.errors }

def unchget (ch : Option Byte) (n : Nest) : Nest :=
  if ch = some 0 then n
  else
    let c := ch.getD EOT
    let place := n.cur.place.newlines c (-1)
    if n.cur.unputc.length ≥ 4 then { n with cur := { n.cur with place := place } }.failed .pushbackOverflow
    else { n with cur := ⟨place, c :: n.cur.unputc⟩ }

/-- At the end of an included file the including one goes on where it was left. -/
def chget_raw (in_preproc : Bool) (n : Nest) : Option Byte × Nest :=
  match n.cur.unputc with
  | c :: more =>
    if c = EOT ∧ in_preproc then (some 0x0a, n)
    else if c = EOT then (none, { n with cur := ⟨n.cur.place, more⟩ })
    else (some c, { n with cur := ⟨n.cur.place.newlines c 1, more⟩ })
  | [] =>
    match n.cur.place.rest.dropWhile invisible with
    | c :: rest => (some c, { n with cur := ⟨{ n.cur.place with rest := rest }.newlines c 1, []⟩ })
    | [] =>
      match n.suspended with
      | input :: suspended => (some 0x0a, { n with cur := input, suspended := suspended })
      | [] => (some 0x0a, unchget none { n with cur := ⟨{ n.cur.place with rest := [] }, []⟩ })

def tape : Tape Nest := ⟨chget_raw true, unchget⟩

end Nest

/-- A file in a directory. -/
def inDirectory (path fname : List Byte) : List Byte :=
  path ++ (if path.getLast? ≠ some 0x2f then [0x2f] else []) ++ fname

def Opened.content : Opened → Option (List Byte)
  | file content => some content
  | _ => none

/-- The first of the names that is a file. -/
def firstFile (names : List (List Byte)) : Option (List Byte × List Byte) :=
  names.findSome? fun name => (fopen name).content.map (name, ·)

/-- What the preprocessor does with the input: all its reading is made of the first two. -/
inductive Step where
  | chget_raw (in_preproc : Bool)
  | unchget (ch : Option Byte)
  | do_proc_include (fuel ch : Nat)

/-- The characters that a run reads, and where it ends. -/
def run (read : Bool → S → Option Byte × S) (back : Option Byte → S → S) (file : Nat → Nat → S → Option S) :
    List Step → S → Option (List (Option Byte) × S)
  | [], s => some ([], s)
  | .chget_raw b :: steps, s => (run read back file steps (read b s).2).map fun (out, s') => ((read b s).1 :: out, s')
  | .unchget ch :: steps, s => run read back file steps (back ch s)
  | .do_proc_include fuel ch :: steps, s => (file fuel ch s).bind (run read back file steps)

/-! ## Where includes are right -/

/-- Each directory up to the one that has the file can be looked into. -/
def SearchRight (fname : List Byte) : List (List Byte) → Prop
  | [] => True
  | path :: paths =>
    path ≠ [] ∧ path.length + 1 + fname.length ≤ 255 ∧
      match fopen (inDirectory path fname) with
      | .file _ => True
      | .missing => SearchRight fname paths
      | .failed => False

end Fuzemsys.Cpp.Include
