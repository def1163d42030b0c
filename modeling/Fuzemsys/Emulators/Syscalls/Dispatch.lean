import Fuzemsys.Emulators.Syscalls.Service

/-!
# System call dispatch

Every case of `do_syscall` beside what its number stands for. The two agree where
the case is right and the arguments lie in the memory, and nowhere else.
-/

open Fuzemsys.Lib

namespace Fuzemsys.Emulators.Syscalls

variable {e : Emulator} {host : Host} {w : World} {R : Ending → World → Prop} {seen : Option Seen} {off : BitVec 16}

/-! ## Values -/

theorem low16 (r : Int) : (BitVec.ofInt 32 r &&& 0xffff).setWidth 16 = BitVec.ofInt 16 r := by
  apply BitVec.eq_of_toNat_eq
  have hmask : ((BitVec.ofInt 32 r).toNat &&& 65535) = (BitVec.ofInt 32 r).toNat % 2 ^ 16 :=
    Nat.and_two_pow_sub_one_eq_mod _ 16
  rw [BitVec.toNat_setWidth, BitVec.toNat_and, show (0xffff : BitVec 32).toNat = 65535 from rfl, hmask,
    BitVec.toNat_ofInt, BitVec.toNat_ofInt]
  omega

theorem shown_sres {r : Int} :
    (∃ x, sres r = some x ∧ seen = some (.returned w.performed (x.setWidth 16) w.errno)) ↔
      seen = some (Seen.of w r) := by
  constructor
  · rintro ⟨x, hx, hseen⟩
    cases hx
    rw [low16] at hseen
    exact hseen
  · intro hseen
    refine ⟨_, rfl, ?_⟩
    rw [low16]
    exact hseen

theorem shown_status {r : Int} :
    (∃ x, some (if r = -1 then -1 else 0 : BitVec 32) = some x ∧
        seen = some (.returned w.performed (x.setWidth 16) w.errno)) ↔
      seen = some (Seen.of w (if r = -1 then -1 else 0)) := by
  by_cases hfail : r = -1 <;> simp [hfail, Seen.of]

theorem hostResult_shows {fn : HostFn} {args : List HostArg} :
    Shows (hostResult host fn args) w seen ↔ seen = some (one host w ⟨fn, args⟩) := by
  unfold Shows
  rw [ensures_hostResult]
  exact shown_sres

theorem pure_shows {r : Int} : Shows (pure (sres r)) w seen ↔ seen = some (Seen.of w r) := shown_sres

/-- A call that failed on the host has that result too. -/
theorem failed_shows {c : HostCall} (hfail : (host w.performed c).result = -1) :
    Shows (pure (sres (-1))) (w.after c (host w.performed c)) (some (one host w c)) := by
  rw [pure_shows, one, hfail]

/-! ## Families -/

theorem intCall_shows {fn : HostFn} {offs : List (BitVec 16)} :
    Shows (intCall e host fn offs) w (ints e host w fn offs) := by
  unfold Shows
  rw [ensures_intCall]
  exact hostResult_shows.mpr rfl

theorem withPtr_shows {k : Nat → Handler Result} {s : Seen}
    (hk : e.arg w.mem off ≠ 0 → Shows (k (e.arg w.mem off).toNat) w (some s)) :
    Shows (withPtr e off k) w (pointed e w off s) := by
  unfold Shows pointed
  rw [ensures_withPtr]
  split_ifs with hnull
  · exact shown_sres.mpr rfl
  · exact hk hnull

theorem withPath_shows {k : Path → Handler Result} {s : CStr → Option Seen} (hnamed : Named e w.mem off)
    (hk : ∀ name, e.arg w.mem off ≠ 0 → e.nameArg w.mem off = some name → Shows (k (e.pathArg w.mem off)) w (s name)) :
    Shows (withPath e off k) w (named e w off s) := by
  unfold Shows named
  by_cases hne : e.arg w.mem off = 0
  · rw [withPath_null hne, if_pos hne]
    exact shown_sres.mpr rfl
  · obtain ⟨name, hname⟩ := Option.isSome_iff_exists.mp (hnamed.resolve_left hne)
    rw [ensures_withPath hne fun _ => hnamed.resolve_left hne, if_neg hne, hname]
    exact hk name hne hname

theorem pathCall_shows {fn : HostFn} {offs : List (BitVec 16)} (hnamed : Named e w.mem 0) :
    Shows (pathCall e host fn offs) w (names e host w fn offs) := by
  refine withPath_shows hnamed ?_
  intro name _ hname
  unfold Shows
  rw [ensures_bind, ensures_get, ensures_bind, pathOf_names hname w _ _ rfl]
  have hargs : (offs.map fun off => HostArg.int (Emulators.uiarg e.cpu w.mem e.sp off).toNat) =
      offs.map (unsignedArg e w) := by
    refine List.map_congr_left fun off _ => ?_
    rw [unsignedArg, Emulator.arg, uiarg_toNat]
  rw [hargs]
  exact hostResult_shows.mpr rfl

theorem twoPathCall_shows {fn : HostFn} (hfits : Fits e w.mem [] .rename) :
    Shows (twoPathCall e host fn) w (twoNames e host w fn) := by
  unfold twoPathCall Shows twoNames
  rcases hfits with hnull | ⟨htrans, hrest⟩
  · rw [withPath_null hnull, if_pos (.inl hnull)]
    exact shown_sres.mpr rfl
  by_cases hne : e.arg w.mem 0 = 0
  · rw [withPath_null hne, if_pos (.inl hne)]
    exact shown_sres.mpr rfl
  rw [ensures_withPath hne htrans]
  rcases hrest with hnull | ⟨hname, hnewname⟩
  · rw [withPath_null hnull, if_pos (.inr hnull)]
    exact shown_sres.mpr rfl
  by_cases hne' : e.arg w.mem 2 = 0
  · rw [withPath_null hne', if_pos (.inr hne')]
    exact shown_sres.mpr rfl
  obtain ⟨name, hname⟩ := Option.isSome_iff_exists.mp hname
  obtain ⟨newname, hnewname'⟩ := Option.isSome_iff_exists.mp hnewname
  rw [ensures_withPath hne' fun _ => hnewname, if_neg (not_or.mpr ⟨hne, hne'⟩), ensures_bind,
    pathOf_names hname w _ _ rfl, ensures_bind, pathOf_names hnewname' w _ _ rfl, hname, hnewname']
  exact hostResult_shows.mpr rfl

/-! ## open -/

theorem doing_append (w : World) (host : Host) (a b : List HostCall) :
    w.doing host (a ++ b) = (w.doing host a).doing host b := List.foldl_append

@[simp]
theorem doing_mem (w : World) (host : Host) (calls : List HostCall) : (w.doing host calls).mem = w.mem := by
  induction calls generalizing w with
  | nil => rfl
  | cons c rest ih => exact ih _

theorem ensures_writeDirents {fd : Int} {entries : List Dirent} {Q : PUnit → World → Prop} :
    Ensures (writeDirents e host fd entries) Q R w ↔ Q ⟨⟩ (w.doing host (entries.map (direntWrite e fd))) := by
  induction entries generalizing w with
  | nil => rfl
  | cons d rest ih =>
    unfold writeDirents
    rw [ensures_bind, ensures_perform, ih]
    rfl

/-- What `open` does with the result of `make_dirent_file`. -/
theorem openTail_shows {path : Path} {name : CStr} {flags mode : Int} {w' : World} (hmem : w'.mem = w.mem)
    (hnames : path.Names w.mem name) {result : Int} :
    Shows (if result = -1 then path.str >>= fun name => hostResult host .open [.str name, .int flags, .int mode]
      else pure (sres result)) w' (some (if result = -1 then
        one host w' ⟨.open, [.str name, .int flags, .int mode]⟩ else Seen.of w' result)) := by
  unfold Shows
  rw [ensures_ite]
  split_ifs
  · rw [ensures_bind, hnames _ _ _ hmem]
    exact hostResult_shows.mpr rfl
  · exact shown_sres.mpr rfl

theorem openCall_shows (hnamed : Named e w.mem 0) : Shows (openCall e host) w (standsFor e host w .open) := by
  refine withPath_shows hnamed ?_
  intro name _ hname
  have hnames : (e.pathArg w.mem 0).Names w.mem name := pathOf_names hname
  unfold Shows makeDirentFile openService
  rw [ensures_bind, ensures_uintArg, ensures_bind, ensures_uintArg, ensures_bind, ensures_bind, hnames w _ _ rfl,
    ensures_bind, ensures_perform]
  cases hdir : (host w.performed ⟨.opendir, [.str name]⟩).data with
  | none =>
    simp only [hdir]
    exact openTail_shows (by rfl) hnames
  | some entries =>
    simp only [hdir]
    generalize hw' : w.after ⟨.opendir, [.str name]⟩ (host w.performed ⟨.opendir, [.str name]⟩) = w'
    have hmem : w'.mem = w.mem := by rw [← hw', after_mem]
    unfold listService
    rw [ensures_bind, ensures_perform, ensures_ite]
    by_cases htmp : (host w'.performed ⟨.mkstemp, []⟩).result = -1
    · simp only [if_pos htmp]
      rw [ensures_bind, ensures_perform]
      exact openTail_shows (by exact hmem) hnames
    · simp only [if_neg htmp]
      rw [ensures_bind, ensures_writeDirents, ensures_bind, ensures_perform, ensures_bind, ensures_perform,
        ensures_bind, ensures_perform, ensures_pure, if_neg htmp]
      refine shown_sres.mpr ?_
      rw [doing_append]
      rfl

/-! ## execve -/

theorem ensures_canOpen {name : CStr} {Q : Bool → World → Prop} :
    Ensures (canOpen host name) Q R w ↔ Q (tryOpen host w name).1 (tryOpen host w name).2 := by
  unfold canOpen tryOpen
  rw [ensures_bind, ensures_perform, ensures_ite]
  by_cases hopen : (host w.performed ⟨.open, [.str name, .int 0]⟩).result = -1
  · simp only [if_pos hopen]
    rfl
  · simp only [if_neg hopen]
    rfl

@[simp]
theorem tryOpen_mem {name : CStr} : (tryOpen host w name).2.mem = w.mem := by
  unfold tryOpen
  simp only
  split_ifs <;> simp

/-- The file that is run is known. -/
theorem enterMain_shows {name : CStr} {args : List CStr}
    (hargs : argsAt e.cpu w.mem (MAX_ARGS - 2) (e.arg w.mem 2 + 2) = some args) :
    Shows (enterMain e host name) w (some (if (tryOpen host w name).1
      then .ended (tryOpen host w name).2.performed (.main (e.Emuname :: name :: args))
      else refused (tryOpen host w name).2 EACCES)) := by
  unfold enterMain Shows
  rw [ensures_bind, ensures_canOpen, ensures_ite]
  split_ifs
  · rw [ensures_bind, ensures_uintArg, tryOpen_mem, BitVec.ofNat_toNat, BitVec.setWidth_eq, ensures_bind,
      copyArgs_some (by rw [tryOpen_mem]; exact hargs), ensures_throw]
  · exact shown_sres.mpr rfl

theorem execveCall_shows (hfits : Fits e w.mem [] .execve) :
    Shows (execveCall e host) w (standsFor e host w .execve) := by
  refine withPath_shows hfits.1 ?_
  intro name hne hname
  have hnames : (e.pathArg w.mem 0).Names w.mem name := pathOf_names hname
  obtain ⟨original, hstr, -⟩ := nameAt_eq_some.mp hname
  obtain ⟨args, hargs⟩ := Option.isSome_iff_exists.mp (hfits.2.resolve_left hne)
  rw [BitVec.ofNat_toNat, BitVec.setWidth_eq] at hargs
  rw [hstr, Option.bind_some, hargs, Option.map_some]
  unfold Shows execService
  rw [ensures_bind, hnames w _ _ rfl, ensures_bind, ensures_canOpen, ensures_ite]
  have hargs' : argsAt e.cpu (tryOpen host w name).2.mem (MAX_ARGS - 2) (e.arg (tryOpen host w name).2.mem 2 + 2) =
      some args := by
    rw [tryOpen_mem]
    exact hargs
  split_ifs
  · rw [ensures_bind, hnames _ _ _ tryOpen_mem]
    exact enterMain_shows hargs'
  · rw [ensures_bind, ensures_uintArg, ensures_bind, tryOpen_mem, loadStr_some (by rw [tryOpen_mem]; exact hstr)]
    exact enterMain_shows hargs'

/-! ## ioctl -/

theorem setterm_shows {flags : Nat} (hfit : (e.arg w.mem 4).toNat + 20 ≤ 65536) :
    Shows (setterm e host (e.arg w.mem 0).toNat flags) w (some (settermService e host w flags)) := by
  unfold setterm Shows settermService
  rw [ensures_bind, ensures_perform, ensures_withPtr, after_mem]
  by_cases hnull : e.arg w.mem 4 = 0
  · simp only [if_pos hnull]
    exact shown_sres.mpr rfl
  · simp only [if_neg hnull]
    rw [ensures_bind, fromFuzixTermios_fit hfit]
    exact hostResult_shows.mpr rfl

theorem terminal_shows {r : Request} (hreq : requests.lookup (e.arg w.mem 2).toNat = some r)
    (hfits : Inside (touched e w.mem .ioctl)) (hright : r ≠ .tiocostop ∧ r ≠ .tiocostart) :
    Shows (terminal e host (e.arg w.mem 0).toNat r) w (terminalService e host w r) := by
  unfold touched terminalStruct at hfits
  rw [hreq] at hfits
  cases r with
  | tiocostop => exact absurd rfl hright.1
  | tiocostart => exact absurd rfl hright.2
  | tcsets | tcsetsw | tcsetsf => exact setterm_shows (inside_one.mp hfits)
  | tiocflush =>
    unfold terminal Shows
    rw [ensures_bind, ensures_uintArg]
    exact hostResult_shows.mpr rfl
  | tiocgpgrp => exact hostResult_shows.mpr rfl
  | tiochangup => exact shown_sres.mpr rfl
  | tcgets =>
    refine withPtr_shows fun _ => ?_
    unfold Shows
    rw [ensures_bind, ensures_perform, ensures_ite]
    split_ifs with hfail
    · exact failed_shows hfail
    · unfold toFuzixTermios
      rw [ensures_bind, storeFields_fit (termiosFields_fit.mpr (inside_one.mp hfits))]
      exact shown_sres.mpr rfl
  | tiocgwinsz =>
    refine withPtr_shows fun _ => ?_
    unfold Shows
    rw [ensures_bind, ensures_perform, ensures_ite]
    split_ifs with hfail
    · exact failed_shows hfail
    · rw [ensures_bind, storeFields_fit (winsizeFields_fit.mpr (inside_one.mp hfits))]
      exact shown_sres.mpr rfl

theorem ioctlCall_shows (hfits : Inside (touched e w.mem .ioctl)) (hright : RightCase e w.mem .ioctl) :
    Shows (ioctlCall e host) w (ioctlService e host w) := by
  unfold ioctlCall Shows ioctlService
  rw [ensures_bind, ensures_uintArg, ensures_bind, ensures_uintArg]
  cases hreq : requests.lookup (e.arg w.mem 2).toNat with
  | none => rfl
  | some r =>
    refine terminal_shows hreq hfits ⟨?_, ?_⟩
    · rintro rfl
      exact hright.1 hreq
    · rintro rfl
      exact hright.2 hreq

/-! ## Process ids -/

theorem pidArg_positive (hpos : e.Positive w.mem off) : pidArg e w off = unsignedArg e w off := by
  have hlt : 2 * (e.arg w.mem off).toNat < 2 ^ 16 := by
    unfold Emulator.Positive at hpos
    omega
  rw [pidArg, unsignedArg, BitVec.toInt_eq_toNat_of_lt hlt]

theorem pidArg_negative (hneg : ¬ e.Positive w.mem off) : pidArg e w off ≠ unsignedArg e w off := by
  intro heq
  have hint : (e.arg w.mem off).toInt = (e.arg w.mem off).toNat := HostArg.int.inj heq
  have hlt := BitVec.toInt_lt (x := e.arg w.mem off)
  unfold Emulator.Positive at hneg
  omega

theorem killCall_shows : Shows (killCall e host) w seen ↔
    seen = some (one host w ⟨.kill, [unsignedArg e w 0, unsignedArg e w 2]⟩) := by
  unfold killCall Shows
  rw [ensures_bind, ensures_uintArg, ensures_bind, ensures_uintArg]
  exact hostResult_shows

/-! ## All cases -/

theorem copystat_shows {c : HostCall} {src : Stat} {p : Nat} (hfit : p + 34 ≤ 65536) :
    Shows (copystat e src p >>= fun _ => pure (sres (host w.performed c).result)) (w.after c (host w.performed c))
      (some (one host w c)) := by
  unfold Shows copystat
  rw [ensures_bind, storeFields_fit (statFields_fit.mpr hfit)]
  exact shown_sres.mpr rfl

theorem pipeCall_shows (hright : RightCase e w.mem .pipe) : Shows (pipeCall e host) w (standsFor e host w .pipe) := by
  refine withPtr_shows fun hne => ?_
  unfold Shows
  rw [ensures_bind, ensures_perform, ensures_ite]
  split_ifs with hfail
  · exact failed_shows hfail
  · have haddr : (BitVec.ofNat 16 (e.arg w.mem 0).toNat).toNat = (e.arg w.mem 0).toNat := by simp
    have hnext : (BitVec.ofNat 16 (e.arg w.mem 0).toNat + 2).toNat = ((e.arg w.mem 0).toNat + 2) % 65536 := by
      rw [BitVec.toNat_add, haddr]
      rfl
    have haway : e.cpu = .cpuZ80 ∨ ((e.arg w.mem 0).toNat + 3 < 0xFEFF ∨ 0xFEFF < (e.arg w.mem 0).toNat) := by
      cases hcpu : e.cpu with
      | cpu6809 => exact .inr (hright hcpu)
      | cpuZ80 => exact .inl rfl
    have hlt := (e.arg w.mem 0).isLt
    rw [ensures_bind, putuiM_stores (haway.imp_right fun _ => by omega), ensures_bind,
      putuiM_stores (haway.imp_right fun _ => by omega)]
    exact shown_sres.mpr rfl

theorem statCall_shows (hfits : Fits e w.mem (touched e w.mem ._stat) ._stat) :
    Shows (Sysno.run e host ._stat) w (statService e host w) := by
  unfold Sysno.run Shows statService
  rcases hfits with hnull | ⟨htrans, hrest⟩
  · rw [withPath_null hnull, if_pos (.inl hnull)]
    exact shown_sres.mpr rfl
  by_cases hne : e.arg w.mem 0 = 0
  · rw [withPath_null hne, if_pos (.inl hne)]
    exact shown_sres.mpr rfl
  rw [ensures_withPath hne htrans, ensures_withPtr]
  by_cases hbuf : e.arg w.mem 2 = 0
  · rw [if_pos hbuf, if_pos (.inr hbuf)]
    exact shown_sres.mpr rfl
  · obtain ⟨hname, hfit⟩ := hrest.resolve_left hbuf
    obtain ⟨name, hname⟩ := Option.isSome_iff_exists.mp hname
    rw [if_neg hbuf, if_neg (not_or.mpr ⟨hne, hbuf⟩), ensures_bind, pathOf_names hname w _ _ rfl, hname,
      ensures_bind, ensures_perform, ensures_ite]
    split_ifs with hfail
    · exact failed_shows hfail
    · exact copystat_shows (inside_one.mp hfit)

theorem fcntlCall_shows : Shows (fcntlCall e host) w (some (fcntlService e host w)) := by
  unfold fcntlCall Shows fcntlService
  rw [ensures_bind, ensures_uintArg, ensures_bind, ensures_uintArg, ensures_bind, ensures_uintArg, ensures_ite]
  have hcmd : (e.arg w.mem 2).toNat = 3 ∧ (e.arg w.mem 4).toNat = 4096 ↔
      e.arg w.mem 2 = 3 ∧ e.arg w.mem 4 = 4096 := by
    rw [BitVec.toNat_eq, BitVec.toNat_eq]
    rfl
  simp only [hcmd]
  split_ifs
  · exact hostResult_shows.mpr rfl
  · exact shown_sres.mpr rfl

theorem signalCall_shows (hhandler : 1 < (e.arg w.mem 2).toNat) :
    Shows (signalCall e host) w (some (signalService e host w)) := by
  unfold signalCall Shows signalService
  rw [ensures_bind, ensures_uintArg, ensures_bind, ensures_uintArg, if_pos hhandler, if_pos hhandler]
  exact shown_sres.mpr rfl

theorem run_shows {n : Sysno} (hfits : Fits e w.mem (touched e w.mem n) n) (hright : RightCase e w.mem n) :
    Shows (n.run e host) w (standsFor e host w n) := by
  cases n with
  | «open» => exact openCall_shows hfits
  | unlink | chdir | access | chmod | chown | mkdir | rmdir => exact pathCall_shows hfits
  | rename | link => exact twoPathCall_shows hfits
  | execve => exact execveCall_shows hfits
  | ioctl => exact ioctlCall_shows hfits hright
  | pipe => exact pipeCall_shows hright
  | close | dup | getpid | getppid | getuid | umask | setuid | setgid | _fork | dup2 | geteuid | getegid | fchdir
  | fchmod | fchown | setpgrp | flock | getpgrp | setsid => exact intCall_shows
  | _pause | getgid => exact hright.elim
  | kill => exact killCall_shows.mpr (by rw [standsFor, pidArg_positive hright])
  | getsid =>
    rw [standsFor, pidArg_positive hright]
    exact intCall_shows
  | setpgid =>
    rw [standsFor, pidArg_positive hright.1, pidArg_positive hright.2]
    exact intCall_shows
  | sleep =>
    unfold Sysno.run Shows
    rw [ensures_bind, ensures_uintArg]
    exact hostResult_shows.mpr rfl
  | ftruncate =>
    have hlong : (ularg e.cpu w.mem e.sp 2).toInt = (ularg e.cpu w.mem e.sp 2).toNat := by
      have hlt : (ularg e.cpu w.mem e.sp 2).toNat < 2 ^ 31 := hright
      exact BitVec.toInt_eq_toNat_of_lt (by omega)
    unfold Sysno.run Shows
    rw [ensures_bind, ensures_uintArg, ensures_bind, ensures_ulongArg, standsFor, hlong]
    exact hostResult_shows.mpr rfl
  | _exit => rfl
  | sync => exact ⟨_, rfl, rfl⟩
  | brk | sbrk => exact ⟨_, rfl, rfl⟩
  | fcntl => exact fcntlCall_shows
  | signal => exact signalCall_shows hright
  | read =>
    have hfit : (e.arg w.mem 2).toNat + (e.arg w.mem 4).toNat ≤ 65536 := inside_one.mp hfits
    unfold Sysno.run Shows
    rw [ensures_bind, ensures_uintArg]
    refine withPtr_shows fun _ => ?_
    unfold Shows
    rw [ensures_bind, ensures_uintArg, ensures_bind, ensures_perform, ensures_bind, ensures_store,
      if_pos (by rw [List.length_take]; omega)]
    exact shown_sres.mpr rfl
  | write =>
    unfold Sysno.run Shows
    rw [ensures_bind, ensures_uintArg]
    refine withPtr_shows fun _ => ?_
    unfold Shows
    rw [ensures_bind, ensures_uintArg, ensures_bind, ensures_load, if_pos (inside_one.mp hfits)]
    exact hostResult_shows.mpr rfl
  | _lseek =>
    have hfit : (e.arg w.mem 2).toNat + 4 ≤ 65536 := inside_one.mp hfits
    unfold Sysno.run lseekCall Shows
    rw [ensures_bind, ensures_uintArg]
    refine withPtr_shows fun _ => ?_
    unfold Shows
    rw [ensures_bind, ensures_uintArg, ensures_bind, ensures_load, if_pos hfit, ensures_bind, ensures_perform,
      ensures_bind, ensures_store, if_pos (by rw [longBytes_length]; exact hfit)]
    exact shown_status.mpr rfl
  | _stat => exact statCall_shows hfits
  | _fstat =>
    unfold Sysno.run Shows
    rw [ensures_bind, ensures_uintArg]
    refine withPtr_shows fun _ => ?_
    unfold Shows
    rw [ensures_bind, ensures_perform, ensures_ite]
    split_ifs with hfail
    · exact failed_shows hfail
    · exact copystat_shows (inside_one.mp hfits)
  | _time =>
    refine withPtr_shows fun _ => ?_
    unfold Shows
    rw [ensures_bind, ensures_perform, ensures_bind, ensures_store,
      if_pos (by rw [longBytes_length]; exact inside_one.mp hfits)]
    exact ⟨_, rfl, rfl⟩
  | waitpid =>
    have hpid (hne : e.arg w.mem 2 ≠ 0) : pidArg e w 0 = unsignedArg e w 0 :=
      pidArg_positive (Or.resolve_left hright hne)
    unfold Sysno.run Shows
    rw [ensures_bind, ensures_uintArg]
    refine withPtr_shows fun hne => ?_
    unfold Shows
    rw [ensures_bind, ensures_uintArg, ensures_bind, ensures_perform, ensures_bind, ensures_store,
      if_pos (by rw [wordBytes_length]; exact inside_one.mp hfits), hpid hne]
    exact shown_sres.mpr rfl

/-! ## Only there -/

theorem returned_ne_ended {p q : List HostCall} {v : BitVec 16} {n : Nat} {x : Ending} :
    some (Seen.returned p v n) ≠ some (.ended q x) := by simp

theorem ints_defined {fn : HostFn} {offs : List (BitVec 16)} {p : List HostCall} {x : Ending} :
    ints e host w fn offs ≠ some (.ended p x) := returned_ne_ended

theorem pointed_defined {s : Seen} {p : List HostCall} {x : Ending} (hs : some s ≠ some (.ended p x)) :
    pointed e w off s ≠ some (.ended p x) := by
  unfold pointed
  split_ifs
  · exact returned_ne_ended
  · exact hs

theorem named_defined {s : CStr → Option Seen} {p : List HostCall} {x : Ending}
    (hs : ∀ name, s name = some (.ended p x) → x.Defined) (hnamed : named e w off s = some (.ended p x)) : x.Defined := by
  unfold named at hnamed
  split_ifs at hnamed
  · exact absurd hnamed returned_ne_ended
  · obtain ⟨name, -, hname⟩ := Option.bind_eq_some_iff.mp hnamed
    exact hs name hname

theorem terminalService_defined {r : Request} {p : List HostCall} {x : Ending} :
    terminalService e host w r ≠ some (.ended p x) := by
  cases r with
  | tcgets | tiocgwinsz => exact pointed_defined returned_ne_ended
  | tcsets | tcsetsw | tcsetsf =>
    unfold terminalService settermService
    simp only
    split_ifs <;> exact returned_ne_ended
  | tiocflush | tiochangup | tiocostop | tiocostart | tiocgpgrp => exact returned_ne_ended

/-- No number stands for leaving the memory. -/
theorem standsFor_defined {n : Sysno} {p : List HostCall} {x : Ending}
    (hstands : standsFor e host w n = some (.ended p x)) : x.Defined := by
  cases n with
  | _exit =>
    cases hstands
    exact ⟨by simp, by simp⟩
  | «open» =>
    refine named_defined (fun name hname => ?_) hstands
    unfold openService at hname
    simp only at hname
    split at hname
    · exact absurd hname returned_ne_ended
    · unfold listService at hname
      simp only at hname
      split_ifs at hname <;> exact absurd hname returned_ne_ended
  | unlink | chdir | access | chmod | chown | mkdir | rmdir =>
    exact named_defined (fun _ hname => absurd hname returned_ne_ended) hstands
  | rename | link =>
    unfold standsFor twoNames at hstands
    split_ifs at hstands
    · exact absurd hstands returned_ne_ended
    · obtain ⟨_, -, hnew⟩ := Option.bind_eq_some_iff.mp hstands
      obtain ⟨_, -, hnew⟩ := Option.map_eq_some_iff.mp hnew
      exact absurd (congrArg some hnew) returned_ne_ended
  | _stat =>
    unfold standsFor statService at hstands
    split_ifs at hstands
    · exact absurd hstands returned_ne_ended
    · obtain ⟨_, -, hname⟩ := Option.map_eq_some_iff.mp hstands
      exact absurd (congrArg some hname) returned_ne_ended
  | execve =>
    refine named_defined (fun name hname => ?_) hstands
    obtain ⟨original, -, hname⟩ := Option.bind_eq_some_iff.mp hname
    obtain ⟨_, -, hname⟩ := Option.map_eq_some_iff.mp hname
    unfold execService at hname
    generalize (if (tryOpen host w name).1 then name else original) = chosen at hname
    simp only at hname
    split_ifs at hname
    · cases hname
      exact ⟨by simp, by simp⟩
    · exact absurd (congrArg some hname) returned_ne_ended
  | ioctl =>
    rw [standsFor, ioctlService] at hstands
    split at hstands
    · exact absurd hstands terminalService_defined
    · cases hstands
      exact ⟨by simp, by simp⟩
  | read | write | _lseek | _fstat | _time | pipe | waitpid => exact absurd hstands (pointed_defined returned_ne_ended)
  | fcntl =>
    unfold standsFor fcntlService at hstands
    split_ifs at hstands <;> exact absurd hstands returned_ne_ended
  | signal =>
    unfold standsFor signalService at hstands
    split_ifs at hstands <;> exact absurd hstands returned_ne_ended
  | _pause =>
    unfold standsFor pauseService at hstands
    split_ifs at hstands <;> exact absurd hstands returned_ne_ended
  | close | sync | dup | getpid | getppid | getuid | umask | setuid | setgid | brk | sbrk | _fork | dup2 | kill
  | getgid | geteuid | getegid | fchdir | fchmod | fchown | setpgrp | flock | getpgrp | sleep | ftruncate | setpgid
  | setsid | getsid => exact absurd hstands returned_ne_ended

theorem Shows.tame {h : Handler Result} (hshows : Shows h w seen)
    (hseen : ∀ p x, seen = some (.ended p x) → x.Defined) : Tame h w := by
  refine Ensures.mono hshows ?_ ?_
  · intro _ _ _
    trivial
  · intro x w' hended
    exact hseen _ _ hended

/-- Two system calls are not one. -/
theorem pauseCall_twice : ¬ Shows (pauseCall e host) w (some (pauseService e host w)) := by
  intro hshows
  unfold pauseCall Shows at hshows
  rw [ensures_bind, ensures_uintArg, ensures_ite] at hshows
  have hone : (pauseService e host w).performed.length = w.performed.length + 1 := by
    unfold pauseService
    split_ifs <;> simp [one, Seen.of, Seen.performed, World.after]
  have htwo (c : HostCall) (hkill : Shows (killCall e host) (w.after c (host w.performed c))
      (some (pauseService e host w))) : False := by
    rw [killCall_shows, Option.some.injEq] at hkill
    rw [hkill] at hone
    simp [one, Seen.of, Seen.performed, World.after] at hone
  split_ifs at hshows
  · exact htwo _ hshows
  · exact htwo _ hshows

/-- A host on which every operation has this result. -/
def answering (r : Int) : Host := fun _ _ => ⟨r, none, default⟩

theorem signalCall_wrong (hhandler : ¬ 1 < (e.arg w.mem 2).toNat) :
    ¬ Shows (signalCall e (answering 1)) w (some (signalService e (answering 1) w)) := by
  unfold signalCall Shows signalService
  rw [ensures_bind, ensures_uintArg, ensures_bind, ensures_uintArg, ensures_ite, if_neg hhandler, if_neg hhandler]
  intro hshows
  split at hshows
  · rw [ensures_bind, ensures_perform] at hshows
    have hvalue := shown_sres.mp hshows
    simp [one, Seen.of, answering] at hvalue
  · exact returned_ne_ended hshows

/-- What is seen of one operation tells which one it is. -/
theorem one_call {c c' : HostCall} (hone : some (one host w c) = some (one host w c')) : c = c' := by
  have hperformed := congrArg Seen.performed (Option.some.inj hone)
  exact (List.cons.inj (List.append_cancel_left hperformed)).1

theorem one_args {c c' : HostCall} (hone : some (one host w c) = some (one host w c')) : c.args = c'.args := by
  rw [one_call hone]

theorem one_arg {fn : HostFn} {x x' : HostArg} {args args' : List HostArg}
    (hone : some (one host w ⟨fn, x :: args⟩) = some (one host w ⟨fn, x' :: args'⟩)) : x = x' :=
  (List.cons.inj (one_args hone)).1

theorem one_secondArg {fn : HostFn} {x y y' : HostArg} {args args' : List HostArg}
    (hone : some (one host w ⟨fn, x :: y :: args⟩) = some (one host w ⟨fn, x :: y' :: args'⟩)) : y = y' :=
  (List.cons.inj (List.cons.inj (one_args hone)).2).1

theorem putuiM_exits {addr val : BitVec 16} {Q : PUnit → World → Prop} (hcpu : e.cpu = .cpu6809)
    (haddr : addr.toNat = 0xFEFF ∨ addr.toNat = 0xFEFE) (hrun : Ensures (putuiM e addr val) Q R w) :
    ∃ status, R (.exit status) w := by
  have hexits (m : Mem) (a : BitVec 16) (v : BitVec 8) (ha : a.toNat = 0xFEFF) :
      e6809Write8 m (a.setWidth 32) v = .error (.exit (if v = 0 then 0 else 1)) := by
    have heq : (a.setWidth 32 : BitVec 32) = 0xFEFF := by
      apply BitVec.eq_of_toNat_eq
      rw [BitVec.toNat_setWidth, ha]
      rfl
    exact if_pos heq
  have hput : ∃ status, putui e.cpu w.mem addr val = .error (.exit status) := by
    rw [hcpu]
    rcases haddr with hhere | hbefore
    · simp only [putui, hexits _ _ _ hhere, bind, Except.bind]
      exact ⟨_, rfl⟩
    · have hsucc : (addr + 1).toNat = 0xFEFF := by
        have hadd : (addr + 1).toNat = (addr.toNat + 1) % 65536 := BitVec.toNat_add _ _
        omega
      obtain ⟨m1, hm1⟩ := e6809Write8_stores (m := w.mem) (v := (val >>> 8).setWidth 8)
        (show addr.toNat ≠ 0xFEFF by omega)
      simp only [putui, hm1, hexits _ _ _ hsucc, bind, Except.bind]
      exact ⟨_, rfl⟩
  obtain ⟨status, hstatus⟩ := hput
  refine ⟨status, ?_⟩
  unfold putuiM at hrun
  rw [ensures_bind, ensures_get, hstatus] at hrun
  exact hrun

/-- One of the four bytes goes to the special location. -/
theorem pipeCall_exits (hcpu : e.cpu = .cpu6809)
    (hspecial : ¬ ((e.arg w.mem 0).toNat + 3 < 0xFEFF ∨ 0xFEFF < (e.arg w.mem 0).toNat)) :
    ¬ Shows (pipeCall e (answering 0)) w (standsFor e (answering 0) w .pipe) := by
  intro hshows
  have hne : ¬ e.arg w.mem 0 = 0 := by
    intro hnull
    rw [hnull] at hspecial
    exact hspecial (.inl (by decide))
  have haddr : (BitVec.ofNat 16 (e.arg w.mem 0).toNat).toNat = (e.arg w.mem 0).toNat := by simp
  have hnext : (BitVec.ofNat 16 (e.arg w.mem 0).toNat + 2).toNat = ((e.arg w.mem 0).toNat + 2) % 65536 := by
    rw [BitVec.toNat_add, haddr]
    rfl
  unfold pipeCall Shows at hshows
  rw [standsFor, pointed, ensures_withPtr, if_neg hne, if_neg hne, ensures_bind, ensures_perform, ensures_ite,
    if_neg (by simp [answering]), ensures_bind] at hshows
  by_cases hfirst : (e.arg w.mem 0).toNat = 0xFEFF ∨ (e.arg w.mem 0).toNat = 0xFEFE
  · obtain ⟨_, hended⟩ := putuiM_exits hcpu (hfirst.imp haddr.trans haddr.trans) hshows
    exact returned_ne_ended hended
  · rw [putuiM_stores (.inr (by omega)), ensures_bind] at hshows
    obtain ⟨_, hended⟩ := putuiM_exits hcpu (by omega) hshows
    exact returned_ne_ended hended

theorem rightCase_of_shows {n : Sysno} (hfits : Fits e w.mem (touched e w.mem n) n)
    (hshows : ∀ host, Shows (n.run e host) w (standsFor e host w n)) : RightCase e w.mem n := by
  cases n with
  | _pause => exact pauseCall_twice (hshows (answering 0))
  | getgid =>
    obtain ⟨_, hnone, -⟩ := hshows (answering 0)
    cases hnone
  | signal =>
    by_contra hhandler
    exact signalCall_wrong hhandler (hshows (answering 1))
  | pipe =>
    intro hcpu
    by_contra hspecial
    exact pipeCall_exits hcpu hspecial (hshows (answering 0))
  | kill =>
    by_contra hneg
    exact pidArg_negative hneg (one_arg (killCall_shows.mp (hshows (answering 0))))
  | getsid =>
    by_contra hneg
    have hshown := hshows (answering 0)
    unfold Sysno.run Shows at hshown
    rw [ensures_intCall] at hshown
    exact pidArg_negative hneg (one_arg (hostResult_shows.mp hshown))
  | setpgid =>
    have hshown := hshows (answering 0)
    unfold Sysno.run Shows at hshown
    rw [ensures_intCall] at hshown
    have hargs := one_args (hostResult_shows.mp hshown)
    constructor
    · by_contra hneg
      exact pidArg_negative hneg (List.cons.inj hargs).1
    · by_contra hneg
      exact pidArg_negative hneg (List.cons.inj (List.cons.inj hargs).2).1
  | waitpid =>
    by_contra hneg
    obtain ⟨hne, hneg⟩ := not_or.mp hneg
    have hshown := hshows (answering 0)
    unfold Sysno.run Shows at hshown
    rw [standsFor, pointed, ensures_bind, ensures_uintArg, ensures_withPtr, if_neg hne, if_neg hne, ensures_bind,
      ensures_uintArg, ensures_bind, ensures_perform, ensures_bind, ensures_store,
      if_pos (by rw [wordBytes_length]; exact inside_one.mp hfits)] at hshown
    exact pidArg_negative hneg (one_arg (shown_sres.mp hshown))
  | ftruncate =>
    have hshown := hshows (answering 0)
    unfold Sysno.run Shows at hshown
    rw [ensures_bind, ensures_uintArg, ensures_bind, ensures_ulongArg] at hshown
    have hlong := HostArg.int.inj (one_secondArg (hostResult_shows.mp hshown))
    have hlt := BitVec.toInt_lt (x := ularg e.cpu w.mem e.sp 2)
    unfold RightCase
    omega
  | ioctl =>
    have hshown := hshows (answering 0)
    unfold Sysno.run ioctlCall Shows at hshown
    rw [ensures_bind, ensures_uintArg, ensures_bind, ensures_uintArg, standsFor, ioctlService] at hshown
    constructor
    · intro hreq
      rw [hreq] at hshown
      cases one_call (hostResult_shows.mp hshown)
    · intro hreq
      rw [hreq] at hshown
      cases one_call (hostResult_shows.mp hshown)
  | _ => trivial

/-- Calls do what their numbers stand for in the right cases, where the arguments lie in the memory. -/
theorem dispatches_iff (e : Emulator) (op : Int) (w : World) : Dispatches e op w ↔
    ∀ n, Sysno.ofOp op = some n → Fits e w.mem (touched e w.mem n) n ∧ RightCase e w.mem n := by
  constructor
  · intro hdispatches n hn
    have hshows : ∀ host, Shows (n.run e host) (w.failed 0) (standsFor e host (w.failed 0) n) :=
      fun host => (ensures_doSyscall hn).mp (hdispatches n hn host)
    have hfits : Fits e w.mem (touched e w.mem n) n :=
      fits_of_tame (w := w.failed 0) fun host => (hshows host).tame fun _ _ hended => standsFor_defined hended
    exact ⟨hfits, rightCase_of_shows (w := w.failed 0) hfits hshows⟩
  · intro hright n hn host
    obtain ⟨hfits, hcase⟩ := hright n hn
    exact (ensures_doSyscall hn).mpr (run_shows (w := w.failed 0) hfits hcase)

/-- `_pause(5)` also kills. -/
theorem pause_kills : ¬ Dispatches ⟨.cpu6809, 0x8000, [], []⟩ 37
    ⟨callMem [0, 5], setInitialBrk 0, 0, []⟩ := by
  intro hdispatches
  have hpause : Sysno.ofOp 37 = some ._pause := by decide
  exact pauseCall_twice ((ensures_doSyscall hpause).mp (hdispatches ._pause hpause (answering 0)))

end Fuzemsys.Emulators.Syscalls
