import Fuzemsys.Lib.Ensures
import Fuzemsys.Emulators.ArgEnv
import Fuzemsys.Emulators.Brk

/-!
# The host of the emulator

A system call of the emulated program is served by operations of the host. What
the host answers is a parameter. The handler reaches the emulated memory through
host pointers, so an access is an index into `ram[]` and may lie behind its end.
-/

open Fuzemsys.Lib

namespace Fuzemsys.Emulators.Syscalls

/-! ## Host operations -/

/-- Linux, for what the handler calls. -/
inductive HostFn where
  | exit | open | close | rename | link | unlink | read | write | lseek | chdir | sync | access | chmod | chown
  | stat | fstat | dup | getpid | getppid | getuid | umask | setuid | setgid | time | tcgetattr | tcsetattr
  | tcflush | tcflow | isatty | ioctl | fork | signal | dup2 | usleep | pause | kill | pipe | getgid | geteuid
  | getegid | fcntl | fchdir | fchmod | fchown | mkdir | rmdir | setpgrp | waitpid | flock | getpgrp | sleep
  | ftruncate | setpgid | setsid | getsid | opendir | closedir | mkstemp
  deriving DecidableEq, Repr

/-- `struct stat`, as far as it is copied. -/
structure Stat where
  st_dev : Int
  st_ino : Int
  st_mode : Int
  st_nlink : Int
  st_uid : Int
  st_gid : Int
  st_rdev : Int
  st_size : Int
  st_atime : Int
  st_mtime : Int
  st_ctime : Int
  deriving DecidableEq, Inhabited, Repr

/-- `struct termios`. -/
structure Termios where
  c_iflag : BitVec 32
  c_oflag : BitVec 32
  c_cflag : BitVec 32
  c_lflag : BitVec 32
  c_cc : Fin 32 → BitVec 8

structure Winsize where
  ws_row : BitVec 16
  ws_col : BitVec 16
  deriving DecidableEq, Inhabited, Repr

structure Dirent where
  d_ino : Int
  d_name : CStr
  deriving DecidableEq, Inhabited, Repr

inductive HostArg where
  | int (x : Int)
  | str (s : CStr)
  | bytes (b : List (BitVec 8))
  | termios (t : Termios)

structure HostCall where
  fn : HostFn
  args : List HostArg

/-- What a host operation stores for its caller, besides its result. -/
@[reducible]
def HostFn.Data : HostFn → Type
  | .read => List (BitVec 8)
  | .stat | .fstat => Stat
  | .tcgetattr => Termios
  | .ioctl => Winsize
  | .pipe => Int × Int
  | .waitpid => Int
  -- The entries that `readdir` gives one by one, or NULL.
  | .opendir => Option (List Dirent)
  | .mkstemp => CStr
  | _ => Unit

structure Reply (fn : HostFn) where
  result : Int
  /-- `errno`, where the operation sets it. -/
  errno : Option Nat
  data : fn.Data

/-- What the host answers after the operations performed before. -/
abbrev Host := List HostCall → (c : HostCall) → Reply c.fn

/-! ## The handler's state -/

structure World where
  mem : Mem
  brk : Brk
  errno : Nat
  performed : List HostCall

/-- A call that does not return. -/
inductive Ending where
  | exit (status : Int)
  /-- The message is printed, and the exit status is 1. -/
  | rejected (msg : String)
  /-- A byte behind the end of `ram[]` was used. -/
  | outside
  /-- Some other array was used behind its end. -/
  | overrun
  /-- `main` is entered again, with these arguments. -/
  | main (argv : List CStr)
  deriving DecidableEq, Repr

/-- What is fixed during a call. -/
structure Emulator where
  cpu : Cpu
  sp : BitVec 16
  /-- The directory given to `set_fuzix_root`. -/
  root : CStr
  Emuname : CStr

abbrev Handler := EStateM Ending World

def perform (host : Host) (c : HostCall) : Handler (Reply c.fn) := do
  let w ← get
  let r := host w.performed c
  set { w with errno := r.errno.getD w.errno, performed := w.performed ++ [c] }
  pure r

def setErrno (e : Nat) : Handler PUnit := modify fun w => { w with errno := e }

/-! ## The emulated memory -/

def byteAt (m : Mem) (i : Nat) : BitVec 8 := m.ram (BitVec.ofNat 16 i)

/-- `n` bytes behind a host pointer. -/
def load (p n : Nat) : Handler (List (BitVec 8)) := do
  let w ← get
  if p + n ≤ 65536 then pure ((List.range n).map fun i => byteAt w.mem (p + i)) else throw .outside

def store (p : Nat) (bytes : List (BitVec 8)) : Handler PUnit := do
  let w ← get
  match memcpy w.mem (some p) bytes with
  | .ok m => set { w with mem := m }
  | .error _ => throw .outside

/-- The string that starts at an index, if its NUL is among the next `n` bytes. -/
def cstrWithin (m : Mem) : Nat → Nat → Option CStr
  | 0, _ => none
  | n + 1, p => if byteAt m p = 0 then some [] else (cstrWithin m n (p + 1)).map (byteAt m p :: ·)

/-- The string at a host pointer, if it ends in the memory. -/
def cstrAt (m : Mem) (p : Nat) : Option CStr := cstrWithin m (65536 - p) p

def loadStr (p : Nat) : Handler CStr := do
  let w ← get
  match cstrAt w.mem p with
  | some s => pure s
  | none => throw .outside

/-! ## Arguments of a call -/

section
variable (e : Emulator)

def uintArg (off : BitVec 16) : Handler Nat := do
  let w ← get
  pure (Emulators.uiarg e.cpu w.mem e.sp off).toNat

def intArg (off : BitVec 16) : Handler Int := do
  let w ← get
  pure (Emulators.siarg e.cpu w.mem e.sp off)

/-- Unsigned 32-bit integer argument. -/
def ularg (cpu : Cpu) (m : Mem) (sp off : BitVec 16) : BitVec 32 :=
  let addr := sp + 2 + off
  match cpu with
  | .cpu6809 => wordAt cpu m addr <<< 16 ||| wordAt cpu m (addr + 2)
  | .cpuZ80 => wordAt cpu m (addr + 2) <<< 16 ||| wordAt cpu m addr

def ulongArg (off : BitVec 16) : Handler Nat := do
  let w ← get
  pure (ularg e.cpu w.mem e.sp off).toNat

/-- A pointer argument, NULL for address zero. -/
def ptrArg (off : BitVec 16) : Handler (Option Nat) := do
  let w ← get
  pure (getMemptr ((Emulators.uiarg e.cpu w.mem e.sp off).setWidth 16))

def putuiM (addr val : BitVec 16) : Handler PUnit := do
  let w ← get
  match putui e.cpu w.mem addr val with
  | .ok m => set { w with mem := m }
  | .error (.exit status) => throw (.exit status)
  | .error (.rejected msg) => throw (.rejected msg)
  | .error .fault => throw .outside

/-! ## File names -/

/-- A name that is still in the emulated memory, or one copied behind the root directory. -/
inductive Path where
  | inMemory (p : Nat)
  | copied (name : CStr)

/-- The size of each of the two buffers. -/
def realfilenameSize : Nat := 2 * 4096

/-- Translate to a filename possibly rooted in `$FUZIXROOT`. Relative, keep it relative. -/
def xlateFilename (name : Option Nat) : Handler (Option Path) := do
  match name with
  | none => pure none
  | some p => do
    let w ← get
    if byteAt w.mem p ≠ 0x2F then pure (some (.inMemory p))
    else do
      let s ← loadStr p
      if e.root.length + s.length + 1 ≤ realfilenameSize then pure (some (.copied (e.root ++ s)))
      else throw .overrun

/-- The host reads the name. -/
def Path.str : Path → Handler CStr
  | .inMemory p => loadStr p
  | .copied name => pure name

/-! ## Results -/

/-- The value a call returns. It is missing where `result` was never assigned. -/
abbrev Result := Option (BitVec 32)

/-- `result & 0xffff` -/
def sres (result : Int) : Result := some (BitVec.ofInt 32 result &&& 0xffff)

def EFAULT : Nat := 14
def EACCES : Nat := 13
def EINVAL : Nat := 22

def fail (errno : Nat) : Handler Result := do
  setErrno errno
  pure (sres (-1))

/-- Most calls fail on a NULL pointer. -/
def withPtr (off : BitVec 16) (k : Nat → Handler Result) : Handler Result := do
  match ← ptrArg e off with
  | none => fail EFAULT
  | some p => k p

def withPath (off : BitVec 16) (k : Path → Handler Result) : Handler Result := do
  match ← xlateFilename e (← ptrArg e off) with
  | none => fail EFAULT
  | some path => k path

end

/-- The result of one host operation is the result of the call. -/
def hostResult (host : Host) (fn : HostFn) (args : List HostArg) : Handler Result := do
  let r ← perform host ⟨fn, args⟩
  pure (sres r.result)

end Fuzemsys.Emulators.Syscalls
