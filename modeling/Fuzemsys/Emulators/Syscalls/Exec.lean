import Fuzemsys.Lib.Run
import Fuzemsys.Emulators.Syscalls.Dispatch

/-!
# Running another program

`execve` copies the arguments out of the emulated memory and enters `main` again.
`main` takes them as a command line, from where `getopt` stopped the last time.
-/

open Fuzemsys.Lib

namespace Fuzemsys.Emulators.Syscalls

/-! ## getopt -/

inductive Opt where
  | d (optarg : CStr)
  | m (optarg : CStr)
  | M
  | b (optarg : CStr)
  deriving DecidableEq, Repr

/-- A dash and something behind it. -/
def isOption (arg : CStr) : Bool := arg.head? = some 0x2D && arg.length ≥ 2

/-- The letters `d:m:b:`. -/
def optLetters : List (BitVec 8 × (CStr → Opt)) := [(0x64, .d), (0x6D, .m), (0x62, .b)]

/-- The options in one element. The argument of the last one is the rest of the element, or else the next element. -/
def getoptLetters (next : Option CStr) : CStr → Option (List Opt × Bool)
  | [] => some ([], false)
  | c :: rest =>
    if c = 0x4D then (getoptLetters next rest).map fun (opts, used) => (.M :: opts, used)
    else match optLetters.lookup c with
      | none => none
      | some opt => if rest ≠ [] then some ([opt rest], false) else next.map fun arg => ([opt arg], true)

/-- `getopt` with `+d:m:Mb:`, called until it returns -1. Returns the options and `optind`. -/
def getopts : Bool → List CStr → Nat → Option (List Opt × Nat)
  | _, [], optind => some ([], optind)
  -- This one was the argument of an option.
  | true, _ :: rest, optind => getopts false rest (optind + 1)
  | false, arg :: rest, optind =>
    if !isOption arg then some ([], optind)
    else if arg = [0x2D, 0x2D] then some ([], optind + 1)
    else match getoptLetters rest.head? arg.tail with
      | none => none
      | some (opts, used) => (getopts used rest (optind + 1)).map fun (more, optind) => (opts ++ more, optind)

/-! ## load_executable -/

/-- The files of the host when `main` is entered. -/
structure Files where
  contents : CStr → Option (List (BitVec 8))
  writable : CStr → Bool
  isDir : CStr → Bool

inductive Image where
  | exited
  | native
  | outside
  | loaded (mem : Mem) (brk : Brk) (pc : BitVec 16)

/-- The magic number and the CPU. -/
def isExec (cpu : Cpu) (E : List (BitVec 8)) : Bool :=
  match cpu with
  | .cpu6809 => E.take 3 = [0x80, 0xA8, 4]
  | .cpuZ80 => E.take 4 = [0xA8, 0x80, 1, 2]

/-- The first address after the BSS. The Z80 loader swaps the two bytes. -/
def bssend (cpu : Cpu) (E : List (BitVec 8)) : BitVec 32 :=
  match cpu with
  | .cpu6809 => hiLo (E.getD 13 0) (E.getD 14 0) + 1
  | .cpuZ80 => hiLo (E.getD 14 0) (E.getD 13 0) + 1

/-- `main` cleared the memory before. -/
def loadExecutable (cpu : Cpu) (files : Files) (m : Mem) (filename : CStr) : Image :=
  match files.contents filename with
  | none => .exited
  | some file =>
    let E := file.take 16
    if E.length = 16 ∧ isExec cpu E then
      let loadaddr := (hiLo (E.getD 4 0) 0 + (E.getD 12 0).setWidth 32).toNat
      match memcpy { m with ram := fun _ => 0 } (some loadaddr) ((file.drop 16).take 0xFFF0) with
      | .ok mem => .loaded mem (setInitialBrk ((bssend cpu E).setWidth 16)) (BitVec.ofNat 16 loadaddr)
      | .error _ => .outside
    else .native

/-! ## main -/

/-- What the emulator is given once. -/
structure Setup where
  cpu : Cpu
  /-- `$FUZIXROOT`, or empty. -/
  root : CStr
  root_string : 0 ∉ root
  Emuname : CStr

def Setup.emulator (u : Setup) (sp : BitVec 16) : Emulator := ⟨u.cpu, sp, u.root, u.Emuname⟩

/-- Below the emulator special locations. -/
def stackTop : Cpu → BitVec 16
  | .cpu6809 => 0xFDFF
  | .cpuZ80 => 0xFFFF

def ascii (s : String) : CStr := s.toList.map fun c => BitVec.ofNat 8 c.toNat

def default_envp : List CStr := ["PATH=/bin:/usr/bin:.", "HOME=/", "TERM=vt100", "USER=root"].map ascii

structure Program where
  mem : Mem
  brk : Brk
  pc : BitVec 16
  sp : BitVec 16

inductive Loaded where
  | exited
  | native
  | outside
  | stopped (stop : Stop)
  | running (program : Program)

inductive Start where
  /-- `main` exits before it loads anything. -/
  | usage
  /-- The emulator is gone. -/
  | ended
  /-- `load_executable` gets the first element of `Argv`. -/
  | load (Argv : List CStr) (result : Loaded)

/-- `optind` is kept by the C library. -/
structure Process where
  optind : Nat
  start : Start

def rootFound (u : Setup) (files : Files) : Prop := u.root = [] ∨ files.isDir u.root

instance (u : Setup) (files : Files) : Decidable (rootFound u files) := inferInstanceAs (Decidable (_ ∨ _))

def startProgram (u : Setup) (files : Files) (m : Mem) (Argv : List CStr) : Loaded :=
  match Argv with
  | [] => .exited
  | filename :: _ =>
    match loadExecutable u.cpu files m filename with
    | .exited => .exited
    | .native => .native
    | .outside => .outside
    | .loaded mem brk pc =>
      match setArgEnv u.cpu mem (stackTop u.cpu) Argv default_envp with
      | .error stop => .stopped stop
      | .ok (mem, sp) => if rootFound u files then .running ⟨mem, brk, pc, sp⟩ else .exited

def Opt.logOpens (files : Files) : Opt → Bool
  | .d optarg => files.writable optarg
  | _ => true

def main (u : Setup) (files : Files) (m : Mem) (argv : List CStr) (optind : Nat) : Process :=
  if argv.length < 2 then ⟨optind, .usage⟩
  -- getopt reads behind the null pointer of argv[].
  else if argv.length < optind then ⟨optind, .ended⟩
  else match getopts false (argv.drop optind) optind with
    | none => ⟨optind, .usage⟩
    | some (opts, optind) =>
      if opts.all (·.logOpens files) then ⟨optind, .load (argv.drop optind) (startProgram u files m (argv.drop optind))⟩
      else ⟨optind, .usage⟩

/-- The first time. -/
def boot (u : Setup) (files : Files) (m : Mem) (args : List CStr) : Process := main u files m (u.Emuname :: args) 1

/-! ## A chain of programs -/

/-- A call of `execve`, whatever the program did before. -/
structure Turn where
  sp : BitVec 16
  world : World
  host : Host
  files : Files

def Process.exec (u : Setup) (p : Process) (t : Turn) : Process :=
  match p.start with
  | .load _ (.running _) =>
    match doSyscall (u.emulator t.sp) t.host 23 t.world with
    | .ok _ _ => p
    | .error (.main argv) w => main u t.files w.mem argv p.optind
    | .error _ _ => { p with start := .ended }
  | _ => p

def Process.Running (p : Process) : Prop := ∃ Argv program, p.start = .load Argv (.running program)

/-- The program asks for a file, with these arguments behind `argv[0]`. -/
structure Asks (u : Setup) (t : Turn) (original : CStr) (rest : List CStr) : Prop where
  path : (u.emulator t.sp).arg t.world.mem 0 ≠ 0
  original : cstrAt t.world.mem ((u.emulator t.sp).arg t.world.mem 0).toNat = some original
  argv0 : getui u.cpu t.world.mem ((u.emulator t.sp).arg t.world.mem 2) ≠ 0
  rest : ∃ n, argsAt u.cpu t.world.mem n ((u.emulator t.sp).arg t.world.mem 2 + 2) = some rest

section
variable (u : Setup) (t : Turn) (original : CStr)

/-- Absolute names are under the root directory. -/
def translated : CStr := if original.head? = some 0x2F then u.root ++ original else original

/-- The translated path, or the original one if that does not open. -/
def chosen : CStr :=
  if (tryOpen t.host (t.world.failed 0) (translated u original)).1 then translated u original else original

def opens : Bool :=
  (tryOpen t.host (tryOpen t.host (t.world.failed 0) (translated u original)).2 (chosen u t original)).1

end

/-- The file is loaded, and its stack has these arguments. -/
def Handed (u : Setup) (files : Files) (path : CStr) (rest : List CStr) (p : Process) : Prop :=
  ∃ m result, p.start = .load (path :: rest) result ∧
    ∀ mem brk pc, loadExecutable u.cpu files m path = .loaded mem brk pc → rootFound u files →
      ∃ m' sp, result = .running ⟨m', brk, pc, sp⟩ ∧
        StackLayout u.cpu mem m' (stackTop u.cpu) sp (path :: rest) default_envp

/-- The program that was asked for is started. If there is no such file, the old one goes on. -/
def Transported (u : Setup) (p : Process) (t : Turn) : Prop :=
  p.Running → ∀ original rest, Asks u t original rest →
    if opens u t original then Handed u t.files (chosen u t original) rest (p.exec u t) else p.exec u t = p

/-- The path fits its buffer, the arguments fit `arglist[]`, and the stack has room for them. -/
structure Fitting (u : Setup) (t : Turn) (original : CStr) (rest : List CStr) : Prop where
  buffer : original.head? = some 0x2F → u.root.length + original.length + 1 ≤ realfilenameSize
  count : rest.length + 2 < MAX_ARGS
  room : stackNeed (chosen u t original :: rest) default_envp < (stackTop u.cpu).toNat

/-- A program that runs asks for something that fits. -/
def InBounds (u : Setup) (p : Process) (t : Turn) : Prop :=
  p.Running → ∃ original rest, Asks u t original rest ∧ Fitting u t original rest

/-- The call enters `main`, with this path. -/
def Enters (u : Setup) (p : Process) (t : Turn) (path : CStr) : Prop :=
  p.Running ∧ ∃ original rest, Asks u t original rest ∧ opens u t original ∧ path = chosen u t original

/-! ## Where getopt stops -/

theorem getopts_plain {arg : CStr} {rest : List CStr} {k : Nat} (hplain : isOption arg = false) :
    getopts false (arg :: rest) k = some ([], k) := by
  unfold getopts
  rw [hplain]
  rfl

theorem getopts_le {used : Bool} {args : List CStr} {k k' : Nat} {opts : List Opt}
    (hopts : getopts used args k = some (opts, k')) : k ≤ k' := by
  induction args generalizing used k opts with
  | nil =>
    unfold getopts at hopts
    cases hopts
    exact le_rfl
  | cons arg rest ih =>
    cases used with
    | true =>
      unfold getopts at hopts
      exact (Nat.le_succ k).trans (ih hopts)
    | false =>
      unfold getopts at hopts
      split_ifs at hopts
      · cases hopts
        exact le_rfl
      · cases hopts
        exact Nat.le_succ k
      · split at hopts
        · cases hopts
        · obtain ⟨⟨more, k''⟩, hmore, hpair⟩ := Option.map_eq_some_iff.mp hopts
          cases hpair
          exact (Nat.le_succ k).trans (ih hmore)

/-- An option moves `optind`. -/
theorem getopts_option {arg : CStr} {rest : List CStr} {k k' : Nat} {opts : List Opt} (hoption : isOption arg = true)
    (hopts : getopts false (arg :: rest) k = some (opts, k')) : k < k' := by
  unfold getopts at hopts
  rw [hoption] at hopts
  split_ifs at hopts with hfalse
  · exact absurd hfalse (by decide)
  · cases hopts
    exact Nat.lt_succ_self k
  · split at hopts
    · cases hopts
    · obtain ⟨⟨more, k''⟩, hmore, hpair⟩ := Option.map_eq_some_iff.mp hopts
      cases hpair
      exact Nat.lt_of_succ_le (getopts_le hmore)

/-! ## main -/

variable {u : Setup} {files : Files} {m : Mem} {name path original : CStr} {args rest : List CStr} {k : Nat}
  {p : Process} {t : Turn}

/-- Without an option the whole list is the program's. -/
theorem main_plain (hplain : isOption path = false) : main u files m (name :: path :: rest) 1 =
    ⟨1, .load (path :: rest) (startProgram u files m (path :: rest))⟩ := by
  have hopts : getopts false (path :: rest) 1 = some ([], 1) := getopts_plain hplain
  unfold main
  rw [if_neg (by simp), if_neg (by simp), List.drop_one, List.tail_cons, hopts]
  rfl

theorem main_optind (hk : 1 ≤ k) : 1 ≤ (main u files m args k).optind := by
  unfold main
  split_ifs
  · exact hk
  · exact hk
  · split
    · exact hk
    · next opts k' hopts =>
      split_ifs <;> exact hk.trans (getopts_le hopts)

/-- The list is the program's only without options, now and before. -/
theorem main_load {result : Loaded} (hk : 1 ≤ k)
    (hload : (main u files m (name :: path :: rest) k).start = .load (path :: rest) result) :
    k = 1 ∧ isOption path = false := by
  unfold main at hload
  split_ifs at hload
  split at hload
  · cases hload
  · next opts k' hopts =>
    split_ifs at hload
    have hdrop : (name :: path :: rest).drop k' = path :: rest := (Start.load.inj hload).1
    have hlength := congrArg List.length hdrop
    simp only [List.length_drop, List.length_cons] at hlength
    have hle := getopts_le hopts
    obtain rfl : k = 1 := by omega
    refine ⟨rfl, ?_⟩
    cases hoption : isOption path with
    | false => rfl
    | true =>
      have hlt := getopts_option hoption hopts
      omega

/-! ## Strings -/

theorem cstrWithin_string {n a : Nat} {s : CStr} (hstr : cstrWithin m n a = some s) : 0 ∉ s := by
  induction n generalizing a s with
  | zero => cases hstr
  | succ n ih =>
    unfold cstrWithin at hstr
    split_ifs at hstr with hnul
    · cases hstr
      exact List.not_mem_nil
    · obtain ⟨tail, htail, rfl⟩ := Option.map_eq_some_iff.mp hstr
      rw [List.mem_cons, not_or]
      exact ⟨fun hzero => hnul hzero.symm, ih htail⟩

theorem cstrAt_head {a : Nat} {s : CStr} (hstr : cstrAt m a = some s) : s.head? = some 0x2F ↔ Rooted m a := by
  unfold cstrAt at hstr
  unfold Rooted
  cases hn : 65536 - a with
  | zero =>
    rw [hn] at hstr
    cases hstr
  | succ n =>
    rw [hn] at hstr
    unfold cstrWithin at hstr
    split_ifs at hstr with hnul
    · cases hstr
      rw [hnul]
      decide
    · obtain ⟨tail, -, rfl⟩ := Option.map_eq_some_iff.mp hstr
      rw [List.head?_cons, Option.some.injEq]

theorem argsAt_strings {cpu : Cpu} {n : Nat} {addr : BitVec 16} (hargs : argsAt cpu m n addr = some args) :
    ∀ s ∈ args, 0 ∉ s := by
  induction n generalizing addr args with
  | zero => cases hargs
  | succ n ih =>
    unfold argsAt at hargs
    split_ifs at hargs
    · cases hargs
      exact List.forall_mem_nil _
    · obtain ⟨s, hstr, hrest⟩ := Option.bind_eq_some_iff.mp hargs
      obtain ⟨rest, htail, rfl⟩ := Option.map_eq_some_iff.mp hrest
      exact List.forall_mem_cons.mpr ⟨cstrWithin_string hstr, ih htail⟩

/-- A list is found with as many places as it needs. -/
theorem argsAt_enough {cpu : Cpu} {n n' : Nat} {addr : BitVec 16} (hargs : argsAt cpu m n addr = some args)
    (hn : args.length < n') : argsAt cpu m n' addr = some args := by
  induction n generalizing addr args n' with
  | zero => cases hargs
  | succ n ih =>
    cases n' with
    | zero => exact absurd hn (Nat.not_lt_zero _)
    | succ n' =>
      unfold argsAt at hargs ⊢
      split_ifs at hargs ⊢
      · exact hargs
      · obtain ⟨s, hstr, hrest⟩ := Option.bind_eq_some_iff.mp hargs
        obtain ⟨rest, htail, rfl⟩ := Option.map_eq_some_iff.mp hrest
        rw [hstr, Option.bind_some, ih htail (Nat.lt_of_succ_lt_succ hn)]
        rfl

theorem translated_string (horiginal : 0 ∉ original) : 0 ∉ translated u original := by
  unfold translated
  split_ifs
  · rw [List.mem_append, not_or]
    exact ⟨u.root_string, horiginal⟩
  · exact horiginal

theorem chosen_string (horiginal : 0 ∉ original) : 0 ∉ chosen u t original := by
  unfold chosen
  split_ifs
  · exact translated_string horiginal
  · exact horiginal

/-! ## The stack -/

/-- The stack begins below the special locations, so its words do not reach them. -/
theorem stackTop_avoids {cpu : Cpu} {envp : List CStr} (hroom : stackNeed args envp < (stackTop cpu).toNat)
    (hcpu : cpu = .cpu6809) : AvoidsSpecial (stackTop cpu) args envp := by
  subst hcpu
  have htop : (stackTop .cpu6809).toNat = 0xFDFF := rfl
  unfold AvoidsSpecial
  simp only [htop] at hroom ⊢
  unfold stackNeed at hroom ⊢
  omega

theorem startProgram_running {mem : Mem} {brk : Brk} {pc : BitVec 16}
    (hload : loadExecutable u.cpu files m path = .loaded mem brk pc) (hroot : rootFound u files)
    (hargc : (path :: rest).length ≤ MAX_ARGS) (hnul : ∀ str ∈ path :: rest, 0 ∉ str)
    (hroom : stackNeed (path :: rest) default_envp < (stackTop u.cpu).toNat) :
    ∃ m' sp, startProgram u files m (path :: rest) = .running ⟨m', brk, pc, sp⟩ ∧
      StackLayout u.cpu mem m' (stackTop u.cpu) sp (path :: rest) default_envp := by
  have henvp : ∀ str ∈ default_envp, 0 ∉ str := by decide
  obtain ⟨m', sp, hrun, hlayout⟩ := set_arg_env_layout u.cpu mem (stackTop u.cpu) (path :: rest) default_envp hargc
    (by decide) (List.forall_mem_append.mpr ⟨hnul, henvp⟩) hroom (stackTop_avoids hroom)
  refine ⟨m', sp, ?_, hlayout⟩
  unfold startProgram
  simp only [hload, hrun, if_pos hroot]

/-! ## One call -/

theorem nameAt_translated {e : Emulator} {a : Nat} (hroot : e.root = u.root) (hstr : cstrAt m a = some original)
    (hfits : original.head? = some 0x2F → u.root.length + original.length + 1 ≤ realfilenameSize) :
    nameAt e m a = some (translated u original) := by
  refine nameAt_eq_some.mpr ⟨original, hstr, ?_⟩
  unfold translated
  by_cases hrooted : Rooted m a
  · have hhead := (cstrAt_head hstr).mpr hrooted
    rw [if_pos hrooted, if_pos hhead, hroot]
    exact ⟨hfits hhead, rfl⟩
  · rw [if_neg hrooted, if_neg fun hhead => hrooted ((cstrAt_head hstr).mp hhead)]

/-- What the call is seen to do. -/
theorem execve_shows (hasks : Asks u t original rest) (hfitting : Fitting u t original rest) :
    Shows (doSyscall (u.emulator t.sp) t.host 23) t.world
      (some (execService (u.emulator t.sp) t.host (t.world.failed 0) (translated u original) original rest)) := by
  have hcount := hfitting.count
  obtain ⟨n, hrest⟩ := hasks.rest
  have hname : (u.emulator t.sp).nameArg t.world.mem 0 = some (translated u original) :=
    nameAt_translated rfl hasks.original hfitting.buffer
  have hargs : argsAt u.cpu t.world.mem (MAX_ARGS - 2) ((u.emulator t.sp).arg t.world.mem 2 + 2) = some rest :=
    argsAt_enough hrest (by omega)
  have hargsFit : ArgsFit (u.emulator t.sp) t.world.mem := by
    unfold ArgsFit
    rw [BitVec.ofNat_toNat, BitVec.setWidth_eq]
    exact Option.isSome_of_mem hargs
  have hfits : Fits (u.emulator t.sp) (t.world.failed 0).mem [] .execve :=
    ⟨.inr (Option.isSome_of_mem hname), .inr hargsFit⟩
  have hstands : standsFor (u.emulator t.sp) t.host (t.world.failed 0) .execve =
      some (execService (u.emulator t.sp) t.host (t.world.failed 0) (translated u original) original rest) := by
    have hmem : (t.world.failed 0).mem = t.world.mem := rfl
    rw [standsFor, named, hmem, if_neg hasks.path]
    refine Option.bind_eq_some_iff.mpr ⟨_, hname, Option.bind_eq_some_iff.mpr ⟨_, hasks.original, ?_⟩⟩
    exact Option.map_eq_some_iff.mpr ⟨_, hargs, rfl⟩
  have hop : Sysno.ofOp 23 = some .execve := by decide
  rw [← hstands]
  exact (ensures_doSyscall hop).mpr (execveCall_shows hfits)

theorem exec_closed (hrun : p.Running) (hasks : Asks u t original rest) (hfitting : Fitting u t original rest)
    (hopens : opens u t original = false) : p.exec u t = p := by
  obtain ⟨Argv, program, hstart⟩ := hrun
  have hshows := execve_shows hasks hfitting
  have hrefused : execService (u.emulator t.sp) t.host (t.world.failed 0) (translated u original) original rest =
      refused (tryOpen t.host (tryOpen t.host (t.world.failed 0) (translated u original)).2 (chosen u t original)).2
        EACCES := by
    unfold execService
    exact if_neg (ne_true_of_eq_false hopens)
  rw [hrefused] at hshows
  unfold Shows Ensures at hshows
  unfold Process.exec
  rw [hstart]
  simp only
  cases hcall : doSyscall (u.emulator t.sp) t.host 23 t.world with
  | ok r w => rfl
  | error x w =>
    rw [hcall] at hshows
    exact absurd hshows returned_ne_ended

theorem exec_enters (hrun : p.Running) (hasks : Asks u t original rest) (hfitting : Fitting u t original rest)
    (hopens : opens u t original = true) :
    ∃ m, p.exec u t = main u t.files m (u.Emuname :: chosen u t original :: rest) p.optind := by
  obtain ⟨Argv, program, hstart⟩ := hrun
  have hshows := execve_shows hasks hfitting
  have hmain : execService (u.emulator t.sp) t.host (t.world.failed 0) (translated u original) original rest =
      .ended (tryOpen t.host (tryOpen t.host (t.world.failed 0) (translated u original)).2 (chosen u t original)).2.performed
        (.main (u.Emuname :: chosen u t original :: rest)) := by
    unfold execService
    exact if_pos hopens
  rw [hmain] at hshows
  unfold Shows Ensures at hshows
  unfold Process.exec
  rw [hstart]
  simp only
  cases hcall : doSyscall (u.emulator t.sp) t.host 23 t.world with
  | ok r w =>
    rw [hcall] at hshows
    obtain ⟨_, -, hseen⟩ := hshows
    exact absurd hseen.symm returned_ne_ended
  | error x w =>
    rw [hcall] at hshows
    obtain ⟨-, rfl⟩ := Seen.ended.inj (Option.some.inj hshows)
    exact ⟨w.mem, rfl⟩

/-- A call asks for one thing only. -/
theorem Asks.unique {original' : CStr} {rest' : List CStr} (hasks : Asks u t original rest)
    (hasks' : Asks u t original' rest') : original' = original ∧ rest' = rest := by
  obtain ⟨n, hrest⟩ := hasks.rest
  obtain ⟨n', hrest'⟩ := hasks'.rest
  have hmany := argsAt_enough hrest (show rest.length < rest.length + rest'.length + 1 by omega)
  have hmany' := argsAt_enough hrest' (show rest'.length < rest.length + rest'.length + 1 by omega)
  exact ⟨Option.some.inj (hasks'.original.symm.trans hasks.original), Option.some.inj (hmany'.symm.trans hmany)⟩

/-- A call transports its arguments if `optind` is where it was at first, and the path is no option. -/
theorem transported_iff (hoptind : 1 ≤ p.optind) (hbounds : InBounds u p t) :
    Transported u p t ↔ ∀ path, Enters u p t path → p.optind = 1 ∧ isOption path = false := by
  constructor
  · rintro htransported path ⟨hrun, original, rest, hasks, hopens, rfl⟩
    obtain ⟨original', rest', hasks', hfitting⟩ := hbounds hrun
    obtain ⟨rfl, rfl⟩ := hasks'.unique hasks
    obtain ⟨m, hmain⟩ := exec_enters hrun hasks hfitting hopens
    have hhanded := htransported hrun original rest hasks
    rw [if_pos hopens, hmain] at hhanded
    obtain ⟨_, _, hload, -⟩ := hhanded
    exact main_load hoptind hload
  · intro hplain hrun original rest hasks
    obtain ⟨original', rest', hasks', hfitting⟩ := hbounds hrun
    obtain ⟨rfl, rfl⟩ := hasks'.unique hasks
    split_ifs with hopens
    · obtain ⟨hone, hpath⟩ := hplain _ ⟨hrun, original, rest, hasks, hopens, rfl⟩
      obtain ⟨m, hmain⟩ := exec_enters hrun hasks hfitting hopens
      obtain ⟨_, hargs⟩ := hasks.rest
      have hcount := hfitting.count
      have hnul : ∀ str ∈ chosen u t original :: rest, 0 ∉ str :=
        List.forall_mem_cons.mpr ⟨chosen_string (cstrWithin_string hasks.original), argsAt_strings hargs⟩
      rw [hmain, hone, main_plain hpath]
      refine ⟨m, _, rfl, ?_⟩
      intro mem brk pc hload hroot
      exact startProgram_running hload hroot (by rw [List.length_cons]; omega) hnul hfitting.room
    · exact exec_closed hrun hasks hfitting (eq_false_of_ne_true hopens)

/-! ## Chains -/

theorem exec_optind (hoptind : 1 ≤ p.optind) : 1 ≤ (p.exec u t).optind := by
  unfold Process.exec
  split
  · split
    · exact hoptind
    · exact main_optind hoptind
    · exact hoptind
  · exact hoptind

/-- No call enters `main`. -/
def Unentered (u : Setup) (p : Process) (t : Turn) : Prop := ∀ path, ¬ Enters u p t path

/-- No call enters `main` with a path that is an option. -/
def PlainPath (u : Setup) (p : Process) (t : Turn) : Prop := ∀ path, Enters u p t path → isOption path = false

theorem exec_not_running (hstop : ¬ p.Running) : p.exec u t = p := by
  unfold Process.exec
  split
  · next Argv program hstart => exact absurd ⟨Argv, program, hstart⟩ hstop
  · rfl

theorem exec_unentered (hbounds : InBounds u p t) (hunentered : Unentered u p t) : p.exec u t = p := by
  by_cases hrun : p.Running
  · obtain ⟨original, rest, hasks, hfitting⟩ := hbounds hrun
    refine exec_closed hrun hasks hfitting ?_
    exact eq_false_of_ne_true fun hopens => hunentered _ ⟨hrun, original, rest, hasks, hopens, rfl⟩
  · exact exec_not_running hrun

theorem exec_keeps_optind (hbounds : InBounds u p t) (hone : p.optind = 1) (hplain : PlainPath u p t) :
    (p.exec u t).optind = 1 := by
  by_cases hunentered : Unentered u p t
  · rw [exec_unentered hbounds hunentered]
    exact hone
  · obtain ⟨_, hrun, original, rest, hasks, hopens, rfl⟩ := not_forall_not.mp hunentered
    obtain ⟨original', rest', hasks', hfitting⟩ := hbounds hrun
    obtain ⟨rfl, rfl⟩ := hasks'.unique hasks
    obtain ⟨m, hmain⟩ := exec_enters hrun hasks hfitting hopens
    rw [hmain, hone, main_plain (hplain _ ⟨hrun, original, rest, hasks, hopens, rfl⟩)]

/-- From where `optind` is 1. -/
theorem allSteps_plain {turns : List Turn} (hone : p.optind = 1) (hbounds : AllSteps (Process.exec u) (InBounds u) p turns)
    (hplain : AllSteps (Process.exec u) (PlainPath u) p turns) :
    AllSteps (Process.exec u) (fun p t => ∀ path, Enters u p t path → p.optind = 1 ∧ isOption path = false) p turns := by
  induction turns generalizing p with
  | nil => trivial
  | cons t turns ih =>
    obtain ⟨hbound, hbounds⟩ := hbounds
    obtain ⟨hpath, hplain⟩ := hplain
    exact ⟨fun path henters => ⟨hone, hpath path henters⟩, ih (exec_keeps_optind hbound hone hpath) hbounds hplain⟩

/-- From where `optind` is not 1, no call may enter `main`. -/
theorem allSteps_unentered {turns : List Turn} (hne : p.optind ≠ 1)
    (hbounds : AllSteps (Process.exec u) (InBounds u) p turns)
    (hplain : AllSteps (Process.exec u)
      (fun p t => ∀ path, Enters u p t path → p.optind = 1 ∧ isOption path = false) p turns) :
    AllSteps (Process.exec u) (Unentered u) p turns := by
  induction turns generalizing p with
  | nil => trivial
  | cons t turns ih =>
    obtain ⟨hbound, hbounds⟩ := hbounds
    obtain ⟨hpath, hplain⟩ := hplain
    have hunentered : Unentered u p t := fun path henters => hne (hpath path henters).1
    have hsame := exec_unentered hbound hunentered
    refine ⟨hunentered, ih ?_ hbounds hplain⟩
    rw [hsame]
    exact hne

theorem allSteps_not_running {turns : List Turn} (hstop : ¬ p.Running) :
    AllSteps (Process.exec u) (Unentered u) p turns := by
  induction turns generalizing p with
  | nil => trivial
  | cons t turns ih =>
    refine ⟨fun path henters => hstop henters.1, ih ?_⟩
    rw [exec_not_running hstop]
    exact hstop

/-! ## The first command line -/

theorem boot_plain (hplain : ∀ arg ∈ args.head?, isOption arg = false) : (boot u files m args).optind = 1 := by
  unfold boot
  cases args with
  | nil => rfl
  | cons arg rest => rw [main_plain (hplain arg rfl)]

/-- An option moves `optind`, or `main` exits. -/
theorem boot_option {arg : CStr} (hoption : isOption arg = true) (hone : (boot u files m (arg :: rest)).optind = 1) :
    ¬ (boot u files m (arg :: rest)).Running := by
  rintro ⟨Argv, program, hstart⟩
  unfold boot main at hone hstart
  split_ifs at hone hstart
  split at hone
  · next hopts =>
    rw [hopts] at hstart
    cases hstart
  · next opts k hopts =>
    have hlt := getopts_option hoption hopts
    split_ifs at hone
    · exact absurd hone (Nat.ne_of_gt hlt)
    · exact absurd hone (Nat.ne_of_gt hlt)

/-- A chain of calls transports its arguments without options on the first command line and without paths that look
like one. A chain that never enters `main` has nothing to transport. -/
theorem execs_transported_iff (u : Setup) (files : Files) (m : Mem) (args : List CStr) (turns : List Turn)
    (hbounds : AllSteps (Process.exec u) (InBounds u) (boot u files m args) turns) :
    AllSteps (Process.exec u) (Transported u) (boot u files m args) turns ↔
      AllSteps (Process.exec u) (Unentered u) (boot u files m args) turns ∨
      (∀ arg ∈ args.head?, isOption arg = false) ∧
        AllSteps (Process.exec u) (PlainPath u) (boot u files m args) turns := by
  have hoptind : 1 ≤ (boot u files m args).optind := main_optind le_rfl
  have hkeep (p : Process) (t : Turn) (hp : 1 ≤ p.optind) : 1 ≤ (p.exec u t).optind := exec_optind hp
  have hsteps := allSteps_iff_under hkeep (fun _ _ => transported_iff) hoptind hbounds
  refine hsteps.trans ?_
  constructor
  · intro hplain
    by_cases hone : (boot u files m args).optind = 1
    · by_cases hoption : ∀ arg ∈ args.head?, isOption arg = false
      · exact .inr ⟨hoption, hplain.imp fun _ _ hpath path henters => (hpath path henters).2⟩
      · left
        cases args with
        | nil => exact absurd (fun _ hmem => by cases hmem) hoption
        | cons arg rest =>
          have harg : isOption arg = true := by
            by_contra hplainArg
            refine hoption fun arg' hmem => ?_
            cases hmem
            exact eq_false_of_ne_true hplainArg
          exact allSteps_not_running (boot_option harg hone)
    · exact .inl (allSteps_unentered hone hbounds hplain)
  · rintro (hunentered | ⟨hoption, hplain⟩)
    · exact hunentered.imp fun _ _ hpath path henters => absurd henters (hpath path)
    · exact allSteps_plain (boot_plain hoption) hbounds hplain

/-! ## A program that runs `b` -/

def emu6809 : Setup := ⟨.cpu6809, [], by decide, ascii "emu6809"⟩

/-- Every file is a program without instructions. -/
def emptyPrograms : Files where
  contents := fun _ => some [0x80, 0xA8, 4, 0, 1, 0, 0, 0, 0, 0, 0, 0, 0, 2, 0, 0]
  writable := fun _ => true
  isDir := fun _ => true

/-- `execve("b", { "b", NULL }, NULL)`, where every file opens. -/
def runB : Turn where
  sp := 0x8000
  world := ⟨callMem [0x80, 0x08, 0x80, 0x0A, 0, 0, 0x62, 0, 0x80, 0x08, 0, 0], setInitialBrk 0, 0, []⟩
  host := answering 3
  files := emptyPrograms

theorem runB_asks : Asks emu6809 runB [0x62] [] where
  path := by decide
  original := by decide
  argv0 := by decide
  rest := ⟨1, by decide⟩

theorem runB_inBounds {p : Process} : InBounds emu6809 p runB := by
  intro _
  exact ⟨[0x62], [], runB_asks, by decide, by decide, by decide⟩

theorem a_runs : ∃ program, startProgram emu6809 emptyPrograms emptyMem [[0x61]] = .running program := by
  have hload : loadExecutable .cpu6809 emptyPrograms emptyMem [0x61] = .loaded _ _ _ := rfl
  have hroom : stackNeed [[0x61]] default_envp < (stackTop .cpu6809).toNat := by decide
  obtain ⟨_, _, hrun, -⟩ := startProgram_running (u := emu6809) hload (.inl rfl) (by decide) (by decide) hroom
  exact ⟨_, hrun⟩

/-- `emu6809 a` -/
theorem execs_transported_after_a : AllSteps (Process.exec emu6809) (Transported emu6809)
    (boot emu6809 emptyPrograms emptyMem [[0x61]]) [runB] := by
  refine (execs_transported_iff emu6809 emptyPrograms emptyMem [[0x61]] [runB] ⟨runB_inBounds, trivial⟩).mpr (.inr ?_)
  refine ⟨by decide, ?_, trivial⟩
  rintro path ⟨-, original, rest, hasks, -, rfl⟩
  obtain ⟨rfl, rfl⟩ := runB_asks.unique hasks
  decide

/-- `emu6809 -M a` -/
theorem exec_lost_after_option : ¬ AllSteps (Process.exec emu6809) (Transported emu6809)
    (boot emu6809 emptyPrograms emptyMem [[0x2D, 0x4D], [0x61]]) [runB] := by
  rintro ⟨htransported, -⟩
  have hboot : boot emu6809 emptyPrograms emptyMem [[0x2D, 0x4D], [0x61]] =
      ⟨2, .load [[0x61]] (startProgram emu6809 emptyPrograms emptyMem [[0x61]])⟩ := rfl
  rw [hboot] at htransported
  have hplain := (transported_iff (by decide) runB_inBounds).mp htransported
  obtain ⟨program, hrun⟩ := a_runs
  have hone := (hplain _ ⟨⟨_, program, by rw [hrun]⟩, _, _, runB_asks, by decide, rfl⟩).1
  exact absurd hone (by decide)

end Fuzemsys.Emulators.Syscalls
