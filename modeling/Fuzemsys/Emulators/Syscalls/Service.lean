import Fuzemsys.Emulators.Syscalls.Bounds

/-!
# What each number stands for

A call is seen by the operations of the host it performs, by the value the
program gets and by `errno`. `standsFor` says what should be seen: for most
numbers one operation, on the arguments as the program's header files type them.
-/

open Fuzemsys.Lib

namespace Fuzemsys.Emulators.Syscalls

/-! ## What is seen of a call -/

inductive Seen where
  | returned (performed : List HostCall) (value : BitVec 16) (errno : Nat)
  | ended (performed : List HostCall) (x : Ending)

def Seen.performed : Seen → List HostCall
  | .returned performed _ _ => performed
  | .ended performed _ => performed

/-- After operations of the host, one after the other. -/
def World.doing (w : World) (host : Host) (calls : List HostCall) : World :=
  calls.foldl (fun w c => w.after c (host w.performed c)) w

def Seen.of (w : World) (result : Int) : Seen := .returned w.performed (BitVec.ofInt 16 result) w.errno

def refused (w : World) (errno : Nat) : Seen := Seen.of (w.failed errno) (-1)

section
variable (e : Emulator) (host : Host) (w : World)

/-- One operation, whose result is the value. -/
def one (c : HostCall) : Seen := Seen.of (w.after c (host w.performed c)) (host w.performed c).result

/-- One operation that reports success or failure only. -/
def status (c : HostCall) : Seen :=
  Seen.of (w.after c (host w.performed c)) (if (host w.performed c).result = -1 then -1 else 0)

/-- One operation that cannot fail. -/
def silent (c : HostCall) : Seen := Seen.of (w.after c (host w.performed c)) 0

def unsignedArg (off : BitVec 16) : HostArg := .int (e.arg w.mem off).toNat

/-- A process id is signed: a negative one is a process group. -/
def pidArg (off : BitVec 16) : HostArg := .int (e.arg w.mem off).toInt

def ints (fn : HostFn) (offs : List (BitVec 16)) : Option Seen :=
  some (one host w ⟨fn, offs.map (unsignedArg e w)⟩)

/-- A call with a pointer, refused if that is NULL. -/
def pointed (off : BitVec 16) (seen : Seen) : Option Seen :=
  some (if e.arg w.mem off = 0 then refused w EFAULT else seen)

/-- A call on a file name, if the host can get it. -/
def named (off : BitVec 16) (seen : CStr → Option Seen) : Option Seen :=
  if e.arg w.mem off = 0 then some (refused w EFAULT) else (e.nameArg w.mem off).bind seen

def names (fn : HostFn) (offs : List (BitVec 16)) : Option Seen :=
  named e w 0 fun name => some (one host w ⟨fn, .str name :: offs.map (unsignedArg e w)⟩)

def twoNames (fn : HostFn) : Option Seen :=
  if e.arg w.mem 0 = 0 ∨ e.arg w.mem 2 = 0 then some (refused w EFAULT)
  else (e.nameArg w.mem 0).bind fun name => (e.nameArg w.mem 2).map fun newname =>
    one host w ⟨fn, [.str name, .str newname]⟩

/-! ## The calls of more than one operation -/

def direntWrite (fd : Int) (d : Dirent) : HostCall := ⟨.write, [.int fd, .bytes (direntBytes e d), .int 32]⟩

/-- The entries are written to a temporary file, which is then opened in place of the directory. -/
def listService (entries : List Dirent) (openIt : HostCall) : Seen :=
  let tmp := host w.performed ⟨.mkstemp, []⟩
  if tmp.result = -1 then one host (w.doing host [⟨.mkstemp, []⟩, ⟨.closedir, []⟩]) openIt
  else Seen.of (w.doing host (⟨.mkstemp, []⟩ :: entries.map (direntWrite e tmp.result) ++
    [⟨.lseek, [.int tmp.result, .int 0, .int 0]⟩, ⟨.closedir, []⟩, ⟨.unlink, [.str tmp.data]⟩])) tmp.result

/-- A directory is served as a file of its entries, every other file by opening it. -/
def openService (name : CStr) (flags mode : Nat) : Seen :=
  let opendir : HostCall := ⟨.opendir, [.str name]⟩
  let openIt : HostCall := ⟨.open, [.str name, .int flags, .int mode]⟩
  let dir := host w.performed opendir
  match dir.data with
  | none => one host (w.after opendir dir) openIt
  | some entries => listService e host (w.after opendir dir) entries openIt

/-- Whether a file opens, and the host after that. -/
def tryOpen (name : CStr) : Bool × World :=
  let c : HostCall := ⟨.open, [.str name, .int 0]⟩
  let r := host w.performed c
  if r.result = -1 then (false, w.doing host [c]) else (true, w.doing host [c, ⟨.close, [.int r.result]⟩])

/-- The translated file is run, or the original one if that does not open. -/
def execService (name original : CStr) (args : List CStr) : Seen :=
  let chosen := if (tryOpen host w name).1 then name else original
  let (opened, w') := tryOpen host (tryOpen host w name).2 chosen
  if opened then .ended w'.performed (.main (e.Emuname :: chosen :: args)) else refused w' EACCES

/-- The settings are read, changed and written back. -/
def settermService (flags : Nat) : Seen :=
  let c : HostCall := ⟨.tcgetattr, [unsignedArg e w 0]⟩
  let r := host w.performed c
  if e.arg w.mem 4 = 0 then refused (w.after c r) EFAULT
  else one host (w.after c r)
    ⟨.tcsetattr, [unsignedArg e w 0, .int flags, .termios (termiosAt e.cpu w.mem (e.arg w.mem 4).toNat r.data)]⟩

def terminalService : Request → Option Seen
  | .tcgets => pointed e w 4 (one host w ⟨.tcgetattr, [unsignedArg e w 0]⟩)
  | .tcsets => some (settermService e host w TCSANOW)
  | .tcsetsw => some (settermService e host w TCSADRAIN)
  | .tcsetsf => some (settermService e host w TCSAFLUSH)
  | .tiocflush => ints e host w .tcflush [0, 4]
  | .tiochangup => some (Seen.of w 0)
  | .tiocostop => some (one host w ⟨.tcflow, [unsignedArg e w 0, .int TCOOFF]⟩)
  | .tiocostart => some (one host w ⟨.tcflow, [unsignedArg e w 0, .int TCOON]⟩)
  | .tiocgwinsz => pointed e w 4 (one host w ⟨.ioctl, [unsignedArg e w 0, .int TIOCGWINSZ]⟩)
  | .tiocgpgrp => ints e host w .isatty [0]

def ioctlService : Option Seen :=
  match requests.lookup (e.arg w.mem 2).toNat with
  | some request => terminalService e host w request
  | none => some (.ended w.performed (.rejected "Unimplemented ioctl %d\n"))

/-- The break of the process, which the host knows nothing of. -/
def breakService (op : BreakOp) : Seen :=
  let out := Emulators.doSyscall w.brk ⟨op, e.cpu, w.mem, e.sp⟩
  .returned w.performed (out.sres.setWidth 16) out.errno

def statService : Option Seen :=
  if e.arg w.mem 0 = 0 ∨ e.arg w.mem 2 = 0 then some (refused w EFAULT)
  else (e.nameArg w.mem 0).map fun name => one host w ⟨.stat, [.str name]⟩

/-- Only close-on-exec can be set. -/
def fcntlService : Seen :=
  if e.arg w.mem 2 = 3 ∧ e.arg w.mem 4 = 4096 then
    one host w ⟨.fcntl, [unsignedArg e w 0, .int F_SETFD, .int FD_CLOEXEC]⟩
  else Seen.of w (-1)

/-- Only the default action and ignoring, which have the same numbers on the host. -/
def signalService : Seen :=
  if 1 < (e.arg w.mem 2).toNat then refused w EINVAL
  else one host w ⟨.signal, [unsignedArg e w 0, unsignedArg e w 2]⟩

/-- A pause, or a sleep in tenths of a second. -/
def pauseService : Seen :=
  if e.arg w.mem 0 = 0 then one host w ⟨.pause, []⟩
  else one host w ⟨.usleep, [.int ((e.arg w.mem 0).toNat * 100000 : Nat)]⟩

/-! ## The numbers -/

def standsFor : Sysno → Option Seen
  | ._exit =>
    let code := Emulators.siarg e.cpu w.mem e.sp 0
    some (.ended (w.doing host [⟨.exit, [.int code]⟩]).performed (.exit code))
  | .open => named e w 0 fun name => some (openService e host w name (hostFlags (e.arg w.mem 2).toNat) (e.arg w.mem 4).toNat)
  | .close => ints e host w .close [0]
  | .rename => twoNames e host w .rename
  | .link => twoNames e host w .link
  | .unlink => names e host w .unlink []
  | .read => pointed e w 2 (one host w ⟨.read, [unsignedArg e w 0, unsignedArg e w 4]⟩)
  | .write => pointed e w 2 (one host w ⟨.write, [unsignedArg e w 0,
      .bytes (bytesAt w.mem (e.arg w.mem 2).toNat (e.arg w.mem 4).toNat), unsignedArg e w 4]⟩)
  | ._lseek => pointed e w 2 (status host w ⟨.lseek, [unsignedArg e w 0,
      .int (longOf e.cpu (bytesAt w.mem (e.arg w.mem 2).toNat 4)).toInt, unsignedArg e w 4]⟩)
  | .chdir => names e host w .chdir []
  | .sync => some (silent host w ⟨.sync, []⟩)
  | .access => names e host w .access [2]
  | .chmod => names e host w .chmod [2]
  | .chown => names e host w .chown [2, 4]
  | ._stat => statService e host w
  | ._fstat => pointed e w 2 (one host w ⟨.fstat, [unsignedArg e w 0]⟩)
  | .dup => ints e host w .dup [0]
  | .getpid => ints e host w .getpid []
  | .getppid => ints e host w .getppid []
  | .getuid => ints e host w .getuid []
  | .umask => ints e host w .umask [0]
  | .execve => named e w 0 fun name => (cstrAt w.mem (e.arg w.mem 0).toNat).bind fun original =>
      (argsAt e.cpu w.mem (MAX_ARGS - 2) (e.arg w.mem 2 + 2)).map fun args => execService e host w name original args
  | .setuid => ints e host w .setuid [0]
  | .setgid => ints e host w .setgid [0]
  | ._time => pointed e w 0 (silent host w ⟨.time, []⟩)
  | .ioctl => ioctlService e host w
  | .brk => some (breakService e w .brk)
  | .sbrk => some (breakService e w .sbrk)
  | ._fork => ints e host w .fork []
  | .signal => some (signalService e host w)
  | .dup2 => ints e host w .dup2 [0, 2]
  | ._pause => some (pauseService e host w)
  | .kill => some (one host w ⟨.kill, [pidArg e w 0, unsignedArg e w 2]⟩)
  | .pipe => pointed e w 0 (one host w ⟨.pipe, []⟩)
  | .getgid => ints e host w .getgid []
  | .geteuid => ints e host w .geteuid []
  | .getegid => ints e host w .getegid []
  | .fcntl => some (fcntlService e host w)
  | .fchdir => ints e host w .fchdir [0]
  | .fchmod => ints e host w .fchmod [0, 2]
  | .fchown => ints e host w .fchown [0, 2, 4]
  | .mkdir => names e host w .mkdir [2]
  | .rmdir => names e host w .rmdir []
  | .setpgrp => ints e host w .setpgrp []
  | .waitpid => pointed e w 2 (one host w ⟨.waitpid, [pidArg e w 0, unsignedArg e w 4]⟩)
  | .flock => ints e host w .flock [0, 2]
  | .getpgrp => ints e host w .getpgrp []
  | .sleep => ints e host w .sleep [0]
  | .ftruncate => some (one host w ⟨.ftruncate, [unsignedArg e w 0, .int (ularg e.cpu w.mem e.sp 2).toInt]⟩)
  | .setpgid => some (one host w ⟨.setpgid, [pidArg e w 0, pidArg e w 2]⟩)
  | .setsid => ints e host w .setsid []
  | .getsid => some (one host w ⟨.getsid, [pidArg e w 0]⟩)

end

/-! ## Dispatch -/

/-- The handler shows what it should. A value that was never assigned shows nothing. -/
def Shows (h : Handler Result) (w : World) (seen : Option Seen) : Prop :=
  Ensures h (fun r w' => ∃ x, r = some x ∧ seen = some (.returned w'.performed (x.setWidth 16) w'.errno))
    (fun x w' => seen = some (.ended w'.performed x)) w

/-- Whatever the host answers, the call does what its number stands for. -/
def Dispatches (e : Emulator) (op : Int) (w : World) : Prop :=
  ∀ n, Sysno.ofOp op = some n → ∀ host, Shows (doSyscall e host op) w (standsFor e host (w.failed 0) n)

/-- A 16-bit argument that is not negative. -/
def Emulator.Positive (e : Emulator) (m : Mem) (off : BitVec 16) : Prop := (e.arg m off).toNat < 2 ^ 15

/-- Where the case of a number does what the number stands for. -/
def RightCase (e : Emulator) (m : Mem) : Sysno → Prop
  | ._pause | .getgid => False
  | .signal => 1 < (e.arg m 2).toNat
  | .kill | .getsid => e.Positive m 0
  | .setpgid => e.Positive m 0 ∧ e.Positive m 2
  | .waitpid => e.arg m 2 = 0 ∨ e.Positive m 0
  | .ftruncate => (ularg e.cpu m e.sp 2).toNat < 2 ^ 31
  | .ioctl => requests.lookup (e.arg m 2).toNat ≠ some .tiocostop ∧ requests.lookup (e.arg m 2).toNat ≠ some .tiocostart
  -- A store to the special location 0xFEFF ends the emulator.
  | .pipe => e.cpu = .cpu6809 → (e.arg m 0).toNat + 3 < 0xFEFF ∨ 0xFEFF < (e.arg m 0).toNat
  | _ => True

end Fuzemsys.Emulators.Syscalls
