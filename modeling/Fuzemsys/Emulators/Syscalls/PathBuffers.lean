import Fuzemsys.Emulators.Syscalls.Host

/-!
# The two buffers of a translated file name

A name that begins with a slash is copied behind the root directory, into one of two static arrays in turn.
What the host is given is a pointer into that array, or into the emulated memory.
-/

namespace Fuzemsys.Emulators.Syscalls.PathBuffers

/-! ## Texts -/

/-- The bytes up to a NUL, of which at most `n` are read. -/
def textFrom (f : Nat → BitVec 8) : Nat → Nat → CStr
  | 0, _ => []
  | n + 1, p => if f p = 0 then [] else f p :: textFrom f n (p + 1)

/-- A text in the emulated memory may have its end among the host's own bytes. -/
def textAt (behind : CStr) (m : Mem) (p : Nat) : CStr :=
  textFrom (fun i => if i < 65536 then byteAt m i else behind.getD (i - 65536) 0) (65536 + behind.length) p

/-! ## The translation -/

/-- Where one of the arrays begins. They lie one behind the other. -/
def realfilename (i : Fin 2) : Nat := i.val * realfilenameSize

structure Buffers where
  bytes : Nat → BitVec 8
  /-- Where the copy of a name goes. -/
  rfn : Fin 2 → Nat
  whichrfn : Fin 2
  /-- Each store of the translation, with the array that it is for. -/
  stored : List (Fin 2 × Nat)

def Buffers.strcpy (b : Buffers) (dst : Nat) (s : CStr) : Buffers :=
  { b with bytes := fun i => if dst ≤ i ∧ i < dst + s.length + 1 then s.getD (i - dst) 0 else b.bytes i }

/-- The name of a directory. -/
structure Root where
  dirname : CStr
  ends : 0 ∉ dirname

def set_fuzix_root (root : Root) : Buffers :=
  let b : Buffers := ⟨fun _ => 0, fun i => realfilename i + root.dirname.length, 0, []⟩
  (b.strcpy (realfilename 0) root.dirname).strcpy (realfilename 1) root.dirname

/-- What a pointer points into. -/
inductive Pointer where
  | memory (p : Nat)
  | buffer (i : Fin 2)

def xlate_filename (behind : CStr) (m : Mem) (name : Option Nat) (b : Buffers) : Option (Pointer × Buffers) :=
  name.map fun p =>
    if byteAt m p ≠ 0x2F then (.memory p, b)
    else
      let i := b.whichrfn
      let s := textAt behind m p
      (.buffer i,
        { b.strcpy (b.rfn i) s with
          whichrfn := 1 - i, stored := b.stored ++ (List.range (s.length + 1)).map fun k => (i, b.rfn i + k) })

/-- What the host finds there. -/
def Buffers.read (b : Buffers) (behind : CStr) (m : Mem) : Pointer → CStr
  | .memory p => textAt behind m p
  | .buffer i => textFrom b.bytes (2 * realfilenameSize) (realfilename i)

/-! ## System calls with paths -/

inductive PathCall where
  | open | rename | link | unlink | chdir | access | chmod | chown | stat | execve | mkdir | rmdir
  deriving DecidableEq

/-- One call, with the memory and the addresses it has. -/
structure Turn where
  mem : Mem
  call : PathCall
  path : BitVec 16
  newpath : BitVec 16
  /-- Whether `make_dirent_file`, or the first `open` of `execve`, succeeds. -/
  found : Bool

/-- The operation has both paths, of which the first is already translated. -/
def twoPaths (behind : CStr) (t : Turn) (path : Pointer) (b : Buffers) : List CStr × Buffers :=
  match xlate_filename behind t.mem (getMemptr t.newpath) b with
  | none => ([], b)
  | some (newpath, b) => ([b.read behind t.mem path, b.read behind t.mem newpath], b)

/-- The paths that the host operations of a call are given, in their order. -/
def passed (behind : CStr) (t : Turn) (b : Buffers) : List CStr × Buffers :=
  match xlate_filename behind t.mem (getMemptr t.path) b with
  | none => ([], b)
  | some (path, b) =>
    match t.call with
    | .rename | .link => twoPaths behind t path b
    | .open => (b.read behind t.mem path :: if t.found then [] else [b.read behind t.mem path], b)
    -- If not found, the original pathname could be a native binary.
    | .execve =>
      ([b.read behind t.mem path,
        if t.found then b.read behind t.mem path else textAt behind t.mem t.path.toNat], b)
    | _ => ([b.read behind t.mem path], b)

def run (behind : CStr) : List Turn → Buffers → List (List CStr) × Buffers
  | [], b => ([], b)
  | t :: ts, b =>
    let paths := passed behind t b
    (paths.1 :: (run behind ts paths.2).1, (run behind ts paths.2).2)

/-! ## What is promised -/

/-- The root followed by a path that begins with a slash, and another path as it is. -/
def rooted (root s : CStr) : CStr := if s.head? = some 0x2F then root ++ s else s

/-- The text of an argument. -/
def Turn.text (behind : CStr) (t : Turn) (addr : BitVec 16) : CStr := textAt behind t.mem addr.toNat

/-- Only the second try of `execve` is with the path itself. -/
def Turn.promised (root behind : CStr) (t : Turn) : List CStr :=
  if t.path = 0 then []
  else
    match t.call with
    | .rename | .link =>
      if t.newpath = 0 then [] else [rooted root (t.text behind t.path), rooted root (t.text behind t.newpath)]
    | .open =>
      rooted root (t.text behind t.path) :: if t.found then [] else [rooted root (t.text behind t.path)]
    | .execve =>
      [rooted root (t.text behind t.path),
        if t.found then rooted root (t.text behind t.path) else t.text behind t.path]
    | _ => [rooted root (t.text behind t.path)]

/-- The arguments that are translated. -/
def Turn.translated (t : Turn) : List (BitVec 16) :=
  if t.path = 0 then []
  else if (t.call = .rename ∨ t.call = .link) ∧ t.newpath ≠ 0 then [t.path, t.newpath]
  else [t.path]

/-- A path that is copied leaves room for its end mark. -/
def Turn.Fits (root behind : CStr) (t : Turn) : Prop :=
  ∀ addr ∈ t.translated, byteAt t.mem addr.toNat = 0x2F →
    root.length + (t.text behind addr).length + 1 ≤ realfilenameSize

end Fuzemsys.Emulators.Syscalls.PathBuffers
