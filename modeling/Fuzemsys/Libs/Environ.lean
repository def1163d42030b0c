import Mathlib.Logic.Function.Basic
import Mathlib.Data.List.Basic
import Fuzemsys.Lib.Run

/-!
# setenv, putenv, unsetenv and getenv

The three mutators change one vector, `environ`, and two of them keep private
notes about it. Vectors are numbered in the order `malloc` hands them out, and
each call also returns the stores that it makes.
-/

open Fuzemsys.Lib

namespace Fuzemsys.Libs

/-! ## Memory -/

/-- The bytes of a C string in front of its NUL. -/
abbrev Str := List Char

/-- A string of the environment, and the bytes of memory it lies in. -/
structure EnvStr where
  bytes : Str
  room : Nat
  deriving DecidableEq, Repr

/-- A store of `len` cells at `off`, into a vector or (without a number) into a string. -/
structure Store where
  vec : Option Nat
  off : Nat
  len : Nat
  size : Nat
  deriving DecidableEq, Repr

/-- The vector `environ` points to, its strings up to the NULL, and the static variables. -/
structure Environ where
  entries : List EnvStr
  vec : Nat
  slots : Nat
  last_environ : Option Nat
  mall_env : Option Nat
  extras : Int
  freed : List Nat
  next : Nat
  deriving DecidableEq, Repr

structure Result where
  st : Environ
  ret : Int
  stores : List Store
  deriving DecidableEq, Repr

/-! ## Searching -/

/-- `memcmp` of the name, then the test for an equals sign. -/
def isEntry (name : Str) (p : EnvStr) : Bool := (name ++ ['=']).isPrefixOf p.bytes

/-- The search loop: what is in front of the first entry of the name, the entry, and the rest. -/
def findEntry (name : Str) : List EnvStr → Option (List EnvStr × EnvStr × List EnvStr)
  | [] => none
  | p :: ps =>
    if isEntry name p then some ([], p, ps)
    else
      match findEntry name ps with
      | some (pre, q, post) => some (p :: pre, q, post)
      | none => none

/-- The string that is made for a name and a value. -/
def makeVar (name value : Str) : Str := name ++ '=' :: value

/-! ## The four functions -/

def ADD_NUM : Nat := 4

/-- `free` of a vector, if there is one. -/
def freeVec (v : Option Nat) (freed : List Nat) : List Nat :=
  match v with
  | some id => id :: freed
  | none => freed

/-- `malloc` number `k` of the call succeeds when `ok k` holds. -/
def setenv (ok : Nat → Bool) (st : Environ) (name value : Str) (replace : Bool) : Result :=
  let need := name.length + 1 + value.length + 1
  match findEntry name st.entries with
  | none =>
    let size := st.entries.length
    if !ok 0 then { st := st, ret := -1, stores := [] }
    else
      let copy : Store := { vec := some st.next, off := 0, len := size, size := size + 2 }
      if !ok 1 then
        { st := { st with freed := st.next :: st.freed, next := st.next + 1 }, ret := -1, stores := [copy] }
      else
        { st := { st with
            entries := st.entries ++ [{ bytes := makeVar name value, room := need }]
            vec := st.next
            slots := size + 2
            last_environ := some st.next
            freed := freeVec st.last_environ st.freed
            next := st.next + 1 }
          ret := 0
          stores := [copy, { vec := none, off := 0, len := need, size := need },
            { vec := some st.next, off := size, len := 2, size := size + 2 }] }
  | some (pre, p, post) =>
    if !replace then { st := st, ret := 0, stores := [] }
    else if p.bytes.length < name.length + 1 + value.length then
      if !ok 0 then { st := st, ret := -1, stores := [] }
      else
        { st := { st with entries := pre ++ { bytes := makeVar name value, room := need } :: post }
          ret := 0
          stores := [{ vec := some st.vec, off := pre.length, len := 1, size := st.slots },
            { vec := none, off := 0, len := need, size := need }] }
    else
      -- The old string is long enough, and is changed where it lies.
      { st := { st with
          entries := pre ++ { p with bytes := p.bytes.take (name.length + 1) ++ value } :: post }
        ret := 0
        stores := [{ vec := none, off := name.length + 1, len := value.length + 1, size := p.room }] }

def unsetenv (st : Environ) (name : Str) : Result :=
  let kept := st.entries.filter fun p => !isEntry name p
  { st := { st with entries := kept }
    ret := 0
    stores := [{ vec := some st.vec, off := 0, len := kept.length + 1, size := st.slots }] }

/-- The name in front of the first equals sign, or the whole string. -/
def varName (var : Str) : Str := var.takeWhile (· ≠ '=')

/-- The first half of `putenv`: an old entry is taken out, and its slot is counted. -/
def dropOld (st : Environ) (var : Str) : Result :=
  match findEntry (varName var) st.entries with
  | some (pre, _, post) =>
    { st := { st with entries := pre ++ post, extras := st.extras + 1 }
      ret := 0
      stores := [{ vec := some st.vec, off := pre.length, len := post.length + 1, size := st.slots }] }
  | none => { st := st, ret := 0, stores := [] }

/-- The second half, for a string with an equals sign. -/
def appendVar (ok : Nat → Bool) (st : Environ) (var : Str) : Result :=
  let n := st.entries.length
  let entry : EnvStr := { bytes := var, room := var.length + 1 }
  if st.extras ≤ 0 then
    if !ok 0 then { st := st, ret := -1, stores := [] }
    else
      let slots := n + 1 + ADD_NUM
      { st := { st with
          entries := st.entries ++ [entry]
          vec := st.next
          slots := slots
          mall_env := some st.next
          extras := ADD_NUM - 1
          freed := freeVec st.mall_env st.freed
          next := st.next + 1 }
        ret := 0
        stores := [{ vec := some st.next, off := 0, len := n + 1, size := slots },
          { vec := some st.next, off := n, len := 2, size := slots }] }
  else
    { st := { st with entries := st.entries ++ [entry], extras := st.extras - 1 }
      ret := 0
      stores := [{ vec := some st.vec, off := n, len := 2, size := st.slots }] }

def putenv (ok : Nat → Bool) (st : Environ) (var : Str) : Result :=
  let r := dropOld st var
  if '=' ∉ var then r
  else
    let r' := appendVar ok r.st var
    { r' with stores := r.stores ++ r'.stores }

def getenv (st : Environ) (name : Str) : Option Str :=
  if name = [] then none
  else (findEntry name st.entries).map fun e => e.2.1.bytes.drop (name.length + 1)

/-! ## Calls -/

inductive Call where
  | setenv (name value : Str) (replace : Bool)
  | putenv (var : Str)
  | unsetenv (name : Str)
  | getenv (name : Str)
  deriving DecidableEq, Repr

/-- One call in which every allocation succeeds. -/
def call (st : Environ) : Call → Result
  | .setenv name value replace => setenv (fun _ => true) st name value replace
  | .putenv var => putenv (fun _ => true) st var
  | .unsetenv name => unsetenv st name
  | .getenv _ => { st := st, ret := 0, stores := [] }

/-! ## The map that is meant -/

abbrev Vars := Str → Option Str

def Vars.step (m : Vars) : Call → Vars
  | .setenv name value replace =>
    if replace ∨ m name = none then Function.update m name (some value) else m
  | .putenv var =>
    -- Without an equals sign there is no value: the name is taken out.
    Function.update m (varName var)
      (if '=' ∈ var then some (var.drop ((varName var).length + 1)) else none)
  | .unsetenv name => Function.update m name none
  | .getenv _ => m

/-- The variables of an inherited environment. -/
def varsOf (entries : List EnvStr) : Vars := fun name =>
  (findEntry name entries).map fun e => e.2.1.bytes.drop (name.length + 1)

/-- The environment, and beside it the variables that the calls so far have set. -/
def envStep (s : Environ × Vars) (c : Call) : Environ × Vars := ((call s.1 c).st, s.2.step c)

/-! ## The law of one call, and its condition -/

/-- A store stays in what was allocated, and that was not freed. -/
def Store.Inside (freed : List Nat) (s : Store) : Prop :=
  s.off + s.len ≤ s.size ∧ ∀ v, s.vec = some v → v ∉ freed

structure EnvLaw (s : Environ × Vars) (c : Call) : Prop where
  value : ∀ name, c = .getenv name → getenv s.1 name = s.2 name
  terminated : (call s.1 c).st.entries.length + 1 ≤ (call s.1 c).st.slots
  live : (call s.1 c).st.vec ∉ (call s.1 c).st.freed
  unique : ∀ name, '=' ∉ name → (call s.1 c).st.entries.countP (isEntry name) ≤ 1
  stores : ∀ t ∈ (call s.1 c).stores, t.Inside s.1.freed

/-- Names have no equals sign, nobody asks for the value of the empty name, and a new entry that
`putenv` counts a spare slot for has one. -/
def EnvGood (s : Environ × Vars) : Call → Prop
  | .setenv name _ _ => '=' ∉ name
  | .putenv var =>
    '=' ∈ var → findEntry (varName var) s.1.entries = none → 0 < s.1.extras →
      s.1.entries.length + 2 ≤ s.1.slots
  | .unsetenv name => '=' ∉ name
  | .getenv name => '=' ∉ name ∧ (name = [] → s.2 name = none)

/-- What a program inherits: one entry for a name, and nothing allocated yet. -/
structure EnvStart (st : Environ) : Prop where
  terminated : st.entries.length + 1 ≤ st.slots
  unique : ∀ name, '=' ∉ name → st.entries.countP (isEntry name) ≤ 1
  rooms : ∀ p ∈ st.entries, p.bytes.length + 1 ≤ p.room
  last_environ : st.last_environ = none
  mall_env : st.mall_env = none
  extras : st.extras = 0
  freed : st.freed = []
  vec : st.vec < st.next

end Fuzemsys.Libs
