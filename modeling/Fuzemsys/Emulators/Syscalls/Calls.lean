import Fuzemsys.Emulators.Syscalls.Host

/-!
# The system calls

The cases of `do_syscall`. Each takes its arguments from the stack of the
emulated program, and most end with the result of one host operation.
-/

open Fuzemsys.Lib

namespace Fuzemsys.Emulators.Syscalls

inductive Sysno where
  | _exit | open | close | rename | link | unlink | read | write | _lseek | chdir | sync | access | chmod | chown
  | _stat | _fstat | dup | getpid | getppid | getuid | umask | execve | setuid | setgid | _time | ioctl | brk
  | sbrk | _fork | signal | dup2 | _pause | kill | pipe | getgid | geteuid | getegid | fcntl | fchdir | fchmod
  | fchown | mkdir | rmdir | setpgrp | waitpid | flock | getpgrp | sleep | ftruncate | setpgid | setsid | getsid
  deriving DecidableEq, Repr

/-- The cases of the switch. -/
def sysnos : List (Int × Sysno) :=
  [(0, ._exit), (1, .open), (2, .close), (3, .rename), (5, .link), (6, .unlink), (7, .read), (8, .write),
    (9, ._lseek), (10, .chdir), (11, .sync), (12, .access), (13, .chmod), (14, .chown), (15, ._stat), (16, ._fstat),
    (17, .dup), (18, .getpid), (19, .getppid), (20, .getuid), (21, .umask), (23, .execve), (25, .setuid),
    (26, .setgid), (27, ._time), (29, .ioctl), (30, .brk), (31, .sbrk), (32, ._fork), (35, .signal), (36, .dup2),
    (37, ._pause), (39, .kill), (40, .pipe), (41, .getgid), (44, .geteuid), (45, .getegid), (47, .fcntl),
    (48, .fchdir), (49, .fchmod), (50, .fchown), (51, .mkdir), (52, .rmdir), (53, .setpgrp), (55, .waitpid),
    (60, .flock), (61, .getpgrp), (67, .sleep), (68, .ftruncate), (77, .setpgid), (78, .setsid), (79, .getsid)]

def Sysno.ofOp (op : Int) : Option Sysno := sysnos.lookup op

section
variable (e : Emulator) (host : Host)

/-! ## Structures in the emulated memory -/

/-- Fields of a structure, each at its offset, in the order of the assignments. -/
def storeFields (p : Nat) : List (Nat × List (BitVec 8)) → Handler PUnit
  | [] => pure ⟨⟩
  | (off, bytes) :: rest => do
    store (p + off) bytes
    storeFields p rest

/-- A 32-bit value in the order of the CPU. -/
def longBytes (cpu : Cpu) (x : BitVec 32) : List (BitVec 8) :=
  match cpu with
  | .cpu6809 => wordBytes cpu ((x >>> 16).setWidth 16) ++ wordBytes cpu (x.setWidth 16)
  | .cpuZ80 => wordBytes cpu (x.setWidth 16) ++ wordBytes cpu ((x >>> 16).setWidth 16)

def wordOf (cpu : Cpu) (b : List (BitVec 8)) : BitVec 32 :=
  match cpu with
  | .cpu6809 => hiLo (b.getD 0 0) (b.getD 1 0)
  | .cpuZ80 => hiLo (b.getD 1 0) (b.getD 0 0)

def longOf (cpu : Cpu) (b : List (BitVec 8)) : BitVec 32 :=
  match cpu with
  | .cpu6809 => wordOf cpu (b.take 2) <<< 16 ||| wordOf cpu (b.drop 2)
  | .cpuZ80 => wordOf cpu (b.drop 2) <<< 16 ||| wordOf cpu (b.take 2)

/-- `struct _uzistat` begins with its 32-bit fields. -/
def statFields (src : Stat) : List (Nat × List (BitVec 8)) :=
  let word (x : Int) := wordBytes e.cpu (BitVec.ofInt 16 x)
  let long (x : Int) := longBytes e.cpu (BitVec.ofInt 32 x)
  [(20, word src.st_dev), (22, word src.st_ino), (24, word src.st_mode), (26, word src.st_nlink),
    (28, word src.st_uid), (30, word src.st_gid), (32, word src.st_rdev), (0, long src.st_size),
    (4, long src.st_atime), (8, long src.st_mtime), (12, long src.st_ctime)]

def copystat (src : Stat) (dst : Nat) : Handler PUnit := storeFields dst (statFields e src)

/-- The characters of both termios structures: the FUZIX index and the host's. VEOF shares a place with VMIN. -/
def ccMap : List (Nat × Fin 32) :=
  [(0, 6), (1, 5), (0, 4), (2, 2), (3, 0), (4, 3), (5, 1), (6, 8), (7, 9), (11, 13)]

/-- Flags of the host beside the FUZIX flags. -/
abbrev FlagMap := List (BitVec 32 × BitVec 16)

/-- ICRNL, INLCR, ISTRIP -/
def iflagMap : FlagMap := [(0x100, 0x0002), (0x40, 0x0020), (0x20, 0x0080)]

/-- OPOST, ONLCR -/
def oflagMap : FlagMap := [(0x1, 0x0001), (0x4, 0x0004)]

/-- ECHO, ECHOE, ECHOK, ICANON, ISIG -/
def lflagMap : FlagMap := [(0x8, 0x0001), (0x10, 0x0002), (0x20, 0x0004), (0x2, 0x0010), (0x1, 0x0040)]

def maptoflag (map : FlagMap) (hostflag : BitVec 32) : BitVec 16 :=
  map.foldl (fun fuzflag (hostval, fuzval) =>
    if hostflag &&& hostval ≠ 0 then fuzflag ||| fuzval else fuzflag &&& ~~~fuzval) 0

def mapfromflag (map : FlagMap) (fuzflag : BitVec 16) (hostflag : BitVec 32) : BitVec 32 :=
  map.foldl (fun hostflag (hostval, fuzval) =>
    if fuzflag &&& fuzval ≠ 0 then hostflag ||| hostval else hostflag &&& ~~~hostval) hostflag

def termiosFields (t : Termios) : List (Nat × List (BitVec 8)) :=
  ccMap.map (fun (i, j) => (8 + i, [t.c_cc j])) ++
    [(0, wordBytes e.cpu (maptoflag iflagMap t.c_iflag)), (2, wordBytes e.cpu (maptoflag oflagMap t.c_oflag)),
      (6, wordBytes e.cpu (maptoflag lflagMap t.c_lflag))]

def toFuzixTermios (f : Nat) (t : Termios) : Handler PUnit := storeFields f (termiosFields e t)

def loadChars (f : Nat) (cc : Fin 32 → BitVec 8) : List (Nat × Fin 32) → Handler (Fin 32 → BitVec 8)
  | [] => pure cc
  | (i, j) :: rest => do
    let c ← load (f + 8 + i) 1
    loadChars f (Function.update cc j (c.getD 0 0)) rest

def fromFuzixTermios (f : Nat) (t : Termios) : Handler Termios := do
  let iflag := (wordOf e.cpu (← load f 2)).setWidth 16
  let oflag := (wordOf e.cpu (← load (f + 2) 2)).setWidth 16
  let lflag := (wordOf e.cpu (← load (f + 6) 2)).setWidth 16
  let cc ← loadChars f t.c_cc ccMap
  pure { t with
    c_cc := cc
    c_iflag := mapfromflag iflagMap iflag t.c_iflag
    c_oflag := mapfromflag oflagMap oflag t.c_oflag
    c_lflag := mapfromflag lflagMap lflag t.c_lflag }

/-! ## open -/

/-- `struct _dirent`: the name is cut or filled up to 30 bytes. -/
def direntBytes (d : Dirent) : List (BitVec 8) :=
  wordBytes e.cpu (BitVec.ofInt 16 d.d_ino) ++ (d.d_name.take 30 ++ List.replicate (30 - d.d_name.length) 0)

def writeDirents (fd : Int) : List Dirent → Handler PUnit
  | [] => pure ⟨⟩
  | d :: rest => do
    let _ ← perform host ⟨.write, [.int fd, .bytes (direntBytes e d), .int 32]⟩
    writeDirents fd rest

/-- Serves a directory as a temporary file of `_dirent` records. -/
def makeDirentFile (path : Path) : Handler Int := do
  let dir ← perform host ⟨.opendir, [.str (← path.str)]⟩
  match dir.data with
  | none => pure (-1)
  | some entries => do
    let tmp ← perform host ⟨.mkstemp, []⟩
    if tmp.result = -1 then do
      let _ ← perform host ⟨.closedir, []⟩
      pure (-1)
    else do
      writeDirents e host tmp.result entries
      let _ ← perform host ⟨.lseek, [.int tmp.result, .int 0, .int 0]⟩
      let _ ← perform host ⟨.closedir, []⟩
      let _ ← perform host ⟨.unlink, [.str tmp.data]⟩
      pure tmp.result

/-- FUZIX open flags beside the host's: append, sync, ndelay, creat, excl, trunc, noctty, cloexec. -/
def openFlags : List (Nat × Nat) :=
  [(4, 0x400), (8, 0x101000), (16, 0x800), (256, 0x40), (512, 0x80), (1024, 0x200), (2048, 0x100), (4096, 0x80000)]

/-- Keep the lowest two bits. -/
def hostFlags (oflags : Nat) : Nat :=
  openFlags.foldl (fun flags (fuz, flag) => flags ||| if oflags &&& fuz ≠ 0 then flag else 0) (oflags &&& 3)

def openCall : Handler Result :=
  withPath e 0 fun path => do
    let oflags ← uintArg e 2
    let mode ← uintArg e 4
    let result ← makeDirentFile e host path
    if result = -1 then hostResult host .open [.str (← path.str), .int (hostFlags oflags), .int mode]
    else pure (sres result)

/-! ## execve -/

/-- Max cmd-line args per process. The first two places of `arglist` are taken. -/
def copyArgs (cpu : Cpu) : Nat → BitVec 16 → Handler (List CStr)
  | 0, _ => throw .overrun
  | n + 1, addr => do
    let w ← get
    if getui cpu w.mem addr = 0 then pure []
    else do
      let arg ← loadStr (getui cpu w.mem addr).toNat
      let rest ← copyArgs cpu n (addr + 2)
      pure (arg :: rest)

/-- Open and close a file: can it be opened? -/
def canOpen (name : CStr) : Handler Bool := do
  let r ← perform host ⟨.open, [.str name, .int 0]⟩
  if r.result = -1 then pure false
  else do
    let _ ← perform host ⟨.close, [.int r.result]⟩
    pure true

/-- Call ourselves, unless the file does not exist. -/
def enterMain (name : CStr) : Handler Result := do
  if ← canOpen host name then do
    let addr ← uintArg e 2
    let args ← copyArgs e.cpu (MAX_ARGS - 2) (BitVec.ofNat 16 addr + 2)
    throw (.main (e.Emuname :: name :: args))
  else fail EACCES

def execveCall : Handler Result :=
  withPath e 0 fun path => do
    if ← canOpen host (← path.str) then do enterMain e host (← path.str)
    -- The original pathname could be a native binary.
    else do enterMain e host (← loadStr (← uintArg e 0))

/-! ## ioctl -/

/-- Get the existing termios, then change it. -/
def setterm (fd flags : Nat) : Handler Result := do
  let termios ← perform host ⟨.tcgetattr, [.int fd]⟩
  withPtr e 4 fun ftios => do
    let t ← fromFuzixTermios e ftios termios.data
    hostResult host .tcsetattr [.int fd, .int flags, .termios t]

def TCSANOW : Nat := 0
def TCSADRAIN : Nat := 1
def TCSAFLUSH : Nat := 2
def TCOOFF : Nat := 0
def TCOON : Nat := 1
def TIOCGWINSZ : Nat := 0x5413

/-- The FUZIX terminal requests. Only a few are implemented. -/
inductive Request where
  | tcgets | tcsets | tcsetsw | tcsetsf | tiocflush | tiochangup | tiocostop | tiocostart | tiocgwinsz | tiocgpgrp
  deriving DecidableEq, Repr

def requests : List (Nat × Request) :=
  [(1, .tcgets), (2, .tcsets), (3, .tcsetsw), (4, .tcsetsf), (6, .tiocflush), (7, .tiochangup), (8, .tiocostop),
    (9, .tiocostart), (10, .tiocgwinsz), (12, .tiocgpgrp)]

/-- The pixels are left alone. -/
def winsizeFields (w : Winsize) : List (Nat × List (BitVec 8)) :=
  [(0, wordBytes e.cpu w.ws_row), (2, wordBytes e.cpu w.ws_col)]

def terminal (fd : Nat) : Request → Handler Result
  | .tcgets => withPtr e 4 fun ftios => do
    let r ← perform host ⟨.tcgetattr, [.int fd]⟩
    if r.result = -1 then pure (sres (-1))
    else do
      toFuzixTermios e ftios r.data
      pure (sres r.result)
  | .tcsetsw => setterm e host fd TCSADRAIN
  | .tcsetsf => setterm e host fd TCSAFLUSH
  | .tcsets => setterm e host fd TCSANOW
  | .tiocostop => hostResult host .ioctl [.int fd, .int TCOOFF]
  | .tiocostart => hostResult host .ioctl [.int fd, .int TCOON]
  | .tiochangup => pure (sres 0)
  | .tiocflush => do hostResult host .tcflush [.int fd, .int (← uintArg e 4)]
  | .tiocgpgrp => hostResult host .isatty [.int fd]
  | .tiocgwinsz => withPtr e 4 fun fw => do
    let w ← perform host ⟨.ioctl, [.int fd, .int TIOCGWINSZ]⟩
    if w.result = -1 then pure (sres (-1))
    else do
      storeFields fw (winsizeFields e w.data)
      pure (sres w.result)

def ioctlCall : Handler Result := do
  let fd ← uintArg e 0
  let options ← uintArg e 2
  match requests.lookup options with
  | some request => terminal e host fd request
  | none => throw (.rejected "Unimplemented ioctl %d\n")

/-! ## The other calls with a case of their own -/

/-- The break of the process is moved by the emulator itself. -/
def breakCall (op : BreakOp) : Handler Result := do
  let w ← get
  let out := Emulators.doSyscall w.brk ⟨op, e.cpu, w.mem, e.sp⟩
  set { w with brk := out.state, errno := out.errno }
  pure (some out.sres)

def lseekCall : Handler Result := do
  let fd ← uintArg e 0
  withPtr e 2 fun ooff => do
    let whence ← uintArg e 4
    let i32 := longOf e.cpu (← load ooff 4)
    let off ← perform host ⟨.lseek, [.int fd, .int i32.toInt, .int whence]⟩
    -- Convert result back to FUZIX endian
    store ooff (longBytes e.cpu (BitVec.ofInt 32 off.result))
    pure (some (if off.result = -1 then -1 else 0))

/-- Recognised FUZIX signal handlers: SIG_DFL, SIG_IGN. -/
def sighandlist : List Int := [0, 1]

def signalCall : Handler Result := do
  let signum ← uintArg e 0
  let sighandler ← uintArg e 2
  if sighandler > 1 then fail EINVAL
  else match sighandlist[signum]? with
    | some action => do
      let _ ← perform host ⟨.signal, [.int signum, .int action]⟩
      pure (sres 0)
    | none => throw .overrun

def killCall : Handler Result := do
  let pid ← uintArg e 0
  let sig ← uintArg e 2
  hostResult host .kill [.int pid, .int sig]

/-- If argument is zero, we do a pause. There is no break before the next case. -/
def pauseCall : Handler Result := do
  let duration ← uintArg e 0
  if duration ≠ 0 then do
    -- an int multiplied by an int, given to a parameter of 32 bits
    let _ ← perform host ⟨.usleep, [.int ((duration * 1000000 % 2 ^ 32 : Nat))]⟩
    killCall e host
  else do
    let _ ← perform host ⟨.pause, []⟩
    killCall e host

def pipeCall : Handler Result :=
  withPtr e 0 fun addr => do
    let r ← perform host ⟨.pipe, []⟩
    if r.result = -1 then pure (sres (-1))
    else do
      putuiM e (BitVec.ofNat 16 addr) (BitVec.ofInt 16 r.data.1)
      putuiM e (BitVec.ofNat 16 addr + 2) (BitVec.ofInt 16 r.data.2)
      pure (sres r.result)

def F_SETFD : Nat := 2
def FD_CLOEXEC : Nat := 1

def fcntlCall : Handler Result := do
  let fd ← uintArg e 0
  let cmd ← uintArg e 2
  let options ← uintArg e 4
  if cmd = 3 ∧ options = 4096 then hostResult host .fcntl [.int fd, .int F_SETFD, .int FD_CLOEXEC]
  else pure (sres (-1))

/-! ## Families -/

/-- Calls that take integers only. -/
def intCall (fn : HostFn) (offs : List (BitVec 16)) : Handler Result := do
  let w ← get
  hostResult host fn (offs.map fun off => .int (Emulators.uiarg e.cpu w.mem e.sp off).toNat)

/-- Calls that take a file name and then integers. -/
def pathCall (fn : HostFn) (offs : List (BitVec 16)) : Handler Result :=
  withPath e 0 fun path => do
    let w ← get
    let args := offs.map fun off => HostArg.int (Emulators.uiarg e.cpu w.mem e.sp off).toNat
    hostResult host fn (.str (← path.str) :: args)

/-- Calls that take two file names. -/
def twoPathCall (fn : HostFn) : Handler Result :=
  withPath e 0 fun path => withPath e 2 fun newpath => do
    hostResult host fn [.str (← path.str), .str (← newpath.str)]

/-! ## do_syscall -/

def Sysno.run : Sysno → Handler Result
  | ._exit => do
    let status ← intArg e 0
    let _ ← perform host ⟨.exit, [.int status]⟩
    throw (.exit status)
  | .open => openCall e host
  | .close => intCall e host .close [0]
  | .rename => twoPathCall e host .rename
  | .link => twoPathCall e host .link
  | .unlink => pathCall e host .unlink []
  | .read => do
    let fd ← uintArg e 0
    withPtr e 2 fun buf => do
      let cnt ← uintArg e 4
      let r ← perform host ⟨.read, [.int fd, .int cnt]⟩
      -- The host stores at most `cnt` bytes.
      store buf (r.data.take cnt)
      pure (sres r.result)
  | .write => do
    let fd ← uintArg e 0
    withPtr e 2 fun buf => do
      let cnt ← uintArg e 4
      hostResult host .write [.int fd, .bytes (← load buf cnt), .int cnt]
  | ._lseek => lseekCall e host
  | .chdir => pathCall e host .chdir []
  | .sync => do
    let _ ← perform host ⟨.sync, []⟩
    pure (some 0)
  | .access => pathCall e host .access [2]
  | .chmod => pathCall e host .chmod [2]
  | .chown => pathCall e host .chown [2, 4]
  | ._stat => withPath e 0 fun path => withPtr e 2 fun ustat => do
    let r ← perform host ⟨.stat, [.str (← path.str)]⟩
    if r.result = -1 then pure (sres (-1))
    else do
      copystat e r.data ustat
      pure (sres r.result)
  | ._fstat => do
    let fd ← uintArg e 0
    withPtr e 2 fun ustat => do
      let r ← perform host ⟨.fstat, [.int fd]⟩
      if r.result = -1 then pure (sres (-1))
      else do
        copystat e r.data ustat
        pure (sres r.result)
  | .dup => intCall e host .dup [0]
  | .getpid => intCall e host .getpid []
  | .getppid => intCall e host .getppid []
  | .getuid => intCall e host .getuid []
  | .umask => intCall e host .umask [0]
  | .execve => execveCall e host
  | .setuid => intCall e host .setuid [0]
  | .setgid => intCall e host .setgid [0]
  | ._time => withPtr e 0 fun ktim => do
    let tim ← perform host ⟨.time, []⟩
    store ktim (longBytes e.cpu (BitVec.ofInt 32 tim.result))
    pure (some 0)
  | .ioctl => ioctlCall e host
  | .brk => breakCall e .brk
  | .sbrk => breakCall e .sbrk
  | ._fork => intCall e host .fork []
  | .signal => signalCall e host
  | .dup2 => intCall e host .dup2 [0, 2]
  | ._pause => pauseCall e host
  | .kill => killCall e host
  | .pipe => pipeCall e host
  -- The `break` stands before the assignment.
  | .getgid => pure none
  | .geteuid => intCall e host .geteuid []
  | .getegid => intCall e host .getegid []
  | .fcntl => fcntlCall e host
  | .fchdir => intCall e host .fchdir [0]
  | .fchmod => intCall e host .fchmod [0, 2]
  | .fchown => intCall e host .fchown [0, 2, 4]
  | .mkdir => pathCall e host .mkdir [2]
  | .rmdir => pathCall e host .rmdir []
  | .setpgrp => intCall e host .setpgrp []
  | .waitpid => do
    let pid ← uintArg e 0
    withPtr e 2 fun iptr => do
      let options ← uintArg e 4
      let r ← perform host ⟨.waitpid, [.int pid, .int options]⟩
      -- Put the status into memory
      store iptr (wordBytes e.cpu (BitVec.ofInt 16 r.data))
      pure (sres r.result)
  | .flock => intCall e host .flock [0, 2]
  | .getpgrp => intCall e host .getpgrp []
  | .sleep => do
    let duration ← uintArg e 0
    hostResult host .sleep [.int duration]
  | .ftruncate => do
    let fd ← uintArg e 0
    let off ← ulongArg e 2
    hostResult host .ftruncate [.int fd, .int off]
  | .setpgid => intCall e host .setpgid [0, 2]
  | .setsid => intCall e host .setsid []
  | .getsid => intCall e host .getsid [0]

/-- Start with no syscall errors. -/
def doSyscall (op : Int) : Handler Result := do
  setErrno 0
  match Sysno.ofOp op with
  | some n => n.run e host
  | none => throw (.rejected "Unhandled syscall %d\n")

end

end Fuzemsys.Emulators.Syscalls
