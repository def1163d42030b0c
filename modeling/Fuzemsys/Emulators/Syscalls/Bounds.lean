import Fuzemsys.Emulators.Syscalls.Inside

/-!
# The bounds of each call

What a call uses behind its pointers, and what the program gave it. The first
has to lie in the memory for the call to stay inside, the second for it to be
right that the call is served.
-/

open Fuzemsys.Lib

namespace Fuzemsys.Emulators.Syscalls

variable {e : Emulator} {host : Host} {w : World} {R : Ending → World → Prop}

/-! ## Regions -/

/-- The structure behind a terminal request, of which the window size is used in part. -/
def terminalStruct (e : Emulator) (m : Mem) (winsize : Nat) : List (Nat × Nat) :=
  match requests.lookup (e.arg m 2).toNat with
  | some .tcgets | some .tcsets | some .tcsetsw | some .tcsetsf => [((e.arg m 4).toNat, 20)]
  | some .tiocgwinsz => [((e.arg m 4).toNat, winsize)]
  | _ => []

/-- What a call uses behind its pointers, by start and length. -/
def touched (e : Emulator) (m : Mem) : Sysno → List (Nat × Nat)
  | .read | .write => [((e.arg m 2).toNat, (e.arg m 4).toNat)]
  | ._lseek => [((e.arg m 2).toNat, 4)]
  | ._stat | ._fstat => [((e.arg m 2).toNat, 34)]
  | ._time => [((e.arg m 0).toNat, 4)]
  | .waitpid => [((e.arg m 2).toNat, 2)]
  | .ioctl => terminalStruct e m 4
  | _ => []

/-- The buffers and structures that the program gave. The words of a pipe are stored by address. -/
def buffers (e : Emulator) (m : Mem) : Sysno → List (Nat × Nat)
  | .pipe => [((e.arg m 0).toNat, 4)]
  | .ioctl => terminalStruct e m 8
  | n => touched e m n

def Inside (regions : List (Nat × Nat)) : Prop := ∀ b ∈ regions, b.1 + b.2 ≤ 65536

theorem inside_one {a l : Nat} : Inside [(a, l)] ↔ a + l ≤ 65536 := List.forall_mem_singleton

/-- The names that a call reads end in the memory and fit, and the regions lie in the memory. A call that is refused
for a NULL pointer before it gets there needs no more. -/
def Fits (e : Emulator) (m : Mem) (regions : List (Nat × Nat)) : Sysno → Prop
  | .open | .unlink | .chdir | .access | .chmod | .chown | .mkdir | .rmdir => Named e m 0
  | .rename | .link => e.arg m 0 = 0 ∨ (Translates e m (e.arg m 0).toNat ∧
      (e.arg m 2 = 0 ∨ (e.nameArg m 0).isSome ∧ (e.nameArg m 2).isSome))
  | ._stat => e.arg m 0 = 0 ∨ (Translates e m (e.arg m 0).toNat ∧
      (e.arg m 2 = 0 ∨ (e.nameArg m 0).isSome ∧ Inside regions))
  | .execve => Named e m 0 ∧ (e.arg m 0 = 0 ∨ ArgsFit e m)
  -- The table of two actions is indexed by the signal number.
  | .signal => (e.arg m 2).toNat ≤ 1 → (e.arg m 0).toNat < 2
  | _ => Inside regions

/-! ## Calls with a pointer -/

theorem putuiM_tame {addr val : BitVec 16} {k : PUnit → Handler Result} (hk : ∀ a w', Tame (k a) w') :
    Tame (putuiM e addr val >>= k) w := by
  unfold putuiM Tame
  rw [ensures_bind, ensures_bind, ensures_get]
  split
  · exact hk _ _
  · exact ⟨by simp, by simp⟩
  · exact ⟨by simp, by simp⟩
  · next hfault =>
    exfalso
    cases hcpu : e.cpu with
    | cpuZ80 => simp [putui, hcpu] at hfault
    | cpu6809 =>
      simp only [putui, hcpu, bind, Except.bind] at hfault
      have hwrite (m : Mem) (a : BitVec 32) (v : BitVec 8) : e6809Write8 m a v ≠ .error .fault := by
        unfold e6809Write8
        split_ifs <;> simp
      split at hfault
      · next hfirst =>
        cases hfault
        exact hwrite _ _ _ hfirst
      · exact hwrite _ _ _ hfault

theorem setterm_tame {fd flags : Nat} : Tame (setterm e host fd flags) w ↔
    e.arg w.mem 4 = 0 ∨ (e.arg w.mem 4).toNat + 20 ≤ 65536 := by
  unfold setterm Tame
  rw [ensures_bind, ensures_perform]
  exact withPtr_tame.trans (or_congr_right (fromFuzixTermios_tame fun t => trivial))

theorem lseekCall_tame : Tame (lseekCall e host) w ↔ e.arg w.mem 2 = 0 ∨ (e.arg w.mem 2).toNat + 4 ≤ 65536 := by
  unfold lseekCall Tame
  rw [ensures_bind, ensures_uintArg]
  refine withPtr_tame.trans (or_congr_right ?_)
  unfold Tame
  rw [ensures_bind, ensures_uintArg]
  by_cases hfit : (e.arg w.mem 2).toNat + 4 ≤ 65536
  · refine (load_tame ?_).trans Iff.rfl
    unfold Tame
    rw [ensures_bind, ensures_perform]
    refine (store_tame ?_).mpr ?_
    · exact trivial
    · rw [longBytes_length]
      exact hfit
  · refine iff_of_false ?_ hfit
    rw [ensures_bind, ensures_load, if_neg hfit]
    exact not_defined_outside

/-- A buffer at NULL lies inside, but no call uses it. -/
theorem fits_or_null {p : BitVec 16} {n : Nat} (hn : n ≤ 65536) : p = 0 ∨ p.toNat + n ≤ 65536 ↔ p.toNat + n ≤ 65536 := by
  refine or_iff_right_of_imp ?_
  rintro rfl
  simpa using hn

theorem terminal_tame {fd : Nat} {r : Request} (hreq : requests.lookup (e.arg w.mem 2).toNat = some r)
    (hfits : Inside (touched e w.mem .ioctl)) : Tame (terminal e host fd r) w := by
  unfold touched terminalStruct at hfits
  rw [hreq] at hfits
  cases r with
  | tcgets =>
    have hfit := inside_one.mp hfits
    refine withPtr_tame.mpr (.inr ?_)
    unfold Tame
    rw [ensures_bind, ensures_perform, ensures_ite]
    split_ifs
    · trivial
    · exact (toFuzixTermios_tame (by intro _ _; trivial)).mpr hfit
  | tiocgwinsz =>
    have hfit := inside_one.mp hfits
    refine withPtr_tame.mpr (.inr ?_)
    unfold Tame
    rw [ensures_bind, ensures_perform, ensures_ite]
    split_ifs
    · trivial
    · exact (storeFields_tame (by trivial)).mpr (winsizeFields_fit.mpr hfit)
  | tcsets | tcsetsw | tcsetsf =>
    have hfit := inside_one.mp hfits
    exact setterm_tame.mpr (.inr hfit)
  | tiocflush | tiochangup | tiocostop | tiocostart | tiocgpgrp => trivial

theorem ioctlCall_tame (hfits : Inside (touched e w.mem .ioctl)) : Tame (ioctlCall e host) w := by
  unfold ioctlCall Tame
  rw [ensures_bind, ensures_uintArg, ensures_bind, ensures_uintArg]
  split
  · next r hreq => exact terminal_tame hreq hfits
  · exact ⟨by simp, by simp⟩

theorem signalCall_tame : Tame (signalCall e host) w ↔ ((e.arg w.mem 2).toNat ≤ 1 → (e.arg w.mem 0).toNat < 2) := by
  unfold signalCall Tame
  rw [ensures_bind, ensures_uintArg, ensures_bind, ensures_uintArg, ensures_ite]
  by_cases hhandler : (e.arg w.mem 2).toNat > 1
  · rw [if_pos hhandler]
    exact iff_of_true trivial fun hle => by omega
  · rw [if_neg hhandler]
    by_cases hsignum : (e.arg w.mem 0).toNat < 2
    · have hsome : sighandlist[(e.arg w.mem 0).toNat]? = some (sighandlist.get ⟨(e.arg w.mem 0).toNat, hsignum⟩) :=
        List.getElem?_eq_getElem hsignum
      rw [hsome]
      exact iff_of_true trivial fun _ => hsignum
    · have hnone : sighandlist[(e.arg w.mem 0).toNat]? = none := List.getElem?_eq_none (Nat.le_of_not_lt hsignum)
      rw [hnone]
      exact iff_of_false not_defined_overrun fun himp => hsignum (himp (by omega))

/-! ## A call inside its bounds -/

theorem run_tame {n : Sysno} (hfits : Fits e w.mem (touched e w.mem n) n) : Tame (n.run e host) w := by
  cases n with
  | «open» => exact openCall_tame.mpr hfits
  | unlink | chdir | access | chmod | chown | mkdir | rmdir => exact pathCall_tame.mpr hfits
  | rename | link => exact twoPathCall_tame.mpr hfits
  | execve => exact execveCall_tame hfits.1 hfits.2
  | ioctl => exact ioctlCall_tame hfits
  | signal => exact signalCall_tame.mpr hfits
  | _lseek => exact lseekCall_tame.mpr (.inr (inside_one.mp hfits))
  | read =>
    have hfit : (e.arg w.mem 2).toNat + (e.arg w.mem 4).toNat ≤ 65536 := inside_one.mp hfits
    unfold Sysno.run Tame
    rw [ensures_bind, ensures_uintArg]
    refine withPtr_tame.mpr (.inr ?_)
    unfold Tame
    rw [ensures_bind, ensures_uintArg, ensures_bind, ensures_perform]
    refine (store_tame (by trivial)).mpr ?_
    rw [List.length_take]
    omega
  | write =>
    unfold Sysno.run Tame
    rw [ensures_bind, ensures_uintArg]
    refine withPtr_tame.mpr (.inr ?_)
    unfold Tame
    rw [ensures_bind, ensures_uintArg]
    exact (load_tame (by trivial)).mpr (inside_one.mp hfits)
  | _stat =>
    unfold Sysno.run
    refine withPath_ptr_tame.mpr (hfits.imp_right (And.imp_right (Or.imp_right ?_)))
    rintro ⟨hname, hbuf⟩
    obtain ⟨s, hs⟩ := Option.isSome_iff_exists.mp hname
    refine str_tame (pathOf_names hs) ?_
    unfold Tame
    rw [ensures_bind, ensures_perform, ensures_ite]
    split_ifs
    · trivial
    · exact (copystat_tame (by intro _ _; trivial)).mpr (inside_one.mp hbuf)
  | _fstat =>
    unfold Sysno.run Tame
    rw [ensures_bind, ensures_uintArg]
    refine withPtr_tame.mpr (.inr ?_)
    unfold Tame
    rw [ensures_bind, ensures_perform, ensures_ite]
    split_ifs
    · trivial
    · exact (copystat_tame (by intro _ _; trivial)).mpr (inside_one.mp hfits)
  | _time =>
    unfold Sysno.run
    refine withPtr_tame.mpr (.inr ?_)
    unfold Tame
    rw [ensures_bind, ensures_perform]
    refine (store_tame (by trivial)).mpr ?_
    rw [longBytes_length]
    exact inside_one.mp hfits
  | pipe =>
    unfold Sysno.run pipeCall
    refine withPtr_tame.mpr (.inr ?_)
    unfold Tame
    rw [ensures_bind, ensures_perform, ensures_ite]
    split_ifs
    · trivial
    · exact putuiM_tame fun _ _ => putuiM_tame (by intro _ _; trivial)
  | waitpid =>
    unfold Sysno.run Tame
    rw [ensures_bind, ensures_uintArg]
    refine withPtr_tame.mpr (.inr ?_)
    unfold Tame
    rw [ensures_bind, ensures_uintArg, ensures_bind, ensures_perform]
    refine (store_tame (by trivial)).mpr ?_
    rw [wordBytes_length]
    exact inside_one.mp hfits
  | _exit => exact ⟨by simp, by simp⟩
  | _pause =>
    unfold Sysno.run pauseCall Tame
    rw [ensures_bind, ensures_uintArg, ensures_ite]
    split_ifs <;> trivial
  | fcntl =>
    unfold Sysno.run fcntlCall Tame
    rw [ensures_bind, ensures_uintArg, ensures_bind, ensures_uintArg, ensures_bind, ensures_uintArg, ensures_ite]
    split_ifs <;> trivial
  | close | sync | dup | getpid | getppid | getuid | umask | setuid | setgid | brk | sbrk | _fork | dup2 | kill
  | getgid | geteuid | getegid | fchdir | fchmod | fchown | setpgrp | flock | getpgrp | sleep | ftruncate | setpgid
  | setsid | getsid => trivial

/-! ## Only there -/

instance : Inhabited Termios := ⟨0, 0, 0, 0, fun _ => 0⟩

instance (fn : HostFn) : Inhabited fn.Data := by
  cases fn <;> exact ⟨default⟩

def grant (n : Nat) : (fn : HostFn) → fn.Data
  | .read => List.replicate n 0
  | _ => default

/-- A host on which everything succeeds. A read gives `n` bytes. -/
def granting (n : Nat) : Host := fun _ c => ⟨0, none, grant n c.fn⟩

theorem canOpen_granting (n : Nat) (name : CStr) (w : World) :
    ∃ w', canOpen (granting n) name w = .ok true w' ∧ w'.mem = w.mem := by
  have hopen : Ensures (canOpen (granting n) name) (fun b w' => b = true ∧ w'.mem = w.mem) (fun _ _ => False) w := by
    unfold canOpen
    rw [ensures_bind, ensures_perform, ensures_ite, if_neg (by simp [granting]), ensures_bind, ensures_perform]
    exact ⟨rfl, rfl⟩
  obtain ⟨_, w', hrun, rfl, hmem⟩ := hopen.exists_ok
  exact ⟨w', hrun, hmem⟩

theorem argsFit_of_tame (hne : e.arg w.mem 0 ≠ 0) (htame : Tame (execveCall e (granting 0)) w) : ArgsFit e w.mem := by
  have htrans := withPath_translates hne htame
  have hnamed : Named e w.mem 0 := named_of_tame (fun path hlost => str_not_tame hlost) htame
  obtain ⟨s, hs⟩ := Option.isSome_iff_exists.mp (hnamed.resolve_left hne)
  have hpath : (e.pathArg w.mem 0).Names w.mem s := pathOf_names hs
  unfold execveCall Tame at htame
  obtain ⟨w1, hopen1, hw1⟩ := canOpen_granting 0 s w
  rw [ensures_withPath hne htrans, ensures_bind, hpath w _ _ rfl, ensures_bind, ensures_ok hopen1, if_pos rfl,
    ensures_bind, hpath w1 _ _ hw1] at htame
  unfold enterMain at htame
  obtain ⟨w2, hopen2, hw2⟩ := canOpen_granting 0 s w1
  rw [ensures_bind, ensures_ok hopen2, if_pos rfl, ensures_bind, ensures_uintArg] at htame
  have hmain (args : List CStr) : Tame (throw (.main (e.Emuname :: s :: args)) : Handler Result) w2 :=
    ⟨by simp, by simp⟩
  have hargs := (copyArgs_tame hmain).mp htame
  rw [hw2, hw1] at hargs
  exact hargs

theorem ioctl_inside (htame : Tame (Sysno.run e (granting 0) .ioctl) w) : Inside (touched e w.mem .ioctl) := by
  unfold Sysno.run ioctlCall Tame at htame
  rw [ensures_bind, ensures_uintArg, ensures_bind, ensures_uintArg] at htame
  unfold touched terminalStruct
  cases hreq : requests.lookup (e.arg w.mem 2).toNat with
  | none =>
    intro b hb
    cases hb
  | some r =>
    rw [hreq] at htame
    cases r with
    | tcsets | tcsetsw | tcsetsf => exact inside_one.mpr ((fits_or_null (by omega)).mp (setterm_tame.mp htame))
    | tcgets =>
      refine inside_one.mpr ((fits_or_null (by omega)).mp ((withPtr_tame.mp htame).imp_right fun hget => ?_))
      unfold Tame at hget
      rw [ensures_bind, ensures_perform, ensures_ite, if_neg (by simp [granting])] at hget
      exact (toFuzixTermios_tame (by intro _ _; trivial)).mp hget
    | tiocgwinsz =>
      refine inside_one.mpr ((fits_or_null (by omega)).mp ((withPtr_tame.mp htame).imp_right fun hget => ?_))
      unfold Tame at hget
      rw [ensures_bind, ensures_perform, ensures_ite, if_neg (by simp [granting])] at hget
      exact winsizeFields_fit.mp ((storeFields_tame (by trivial)).mp hget)
    | tiocflush | tiochangup | tiocostop | tiocostart | tiocgpgrp =>
      intro b hb
      cases hb

theorem fits_of_tame {n : Sysno} (hinside : ∀ host, Tame (n.run e host) w) : Fits e w.mem (touched e w.mem n) n := by
  cases n with
  | «open» => exact openCall_tame.mp (hinside (granting 0))
  | unlink | chdir | access | chmod | chown | mkdir | rmdir => exact pathCall_tame.mp (hinside (granting 0))
  | rename | link => exact twoPathCall_tame.mp (hinside (granting 0))
  | execve =>
    refine ⟨named_of_tame (fun path hlost => str_not_tame hlost) (hinside (granting 0)), ?_⟩
    by_cases hne : e.arg w.mem 0 = 0
    · exact .inl hne
    · exact .inr (argsFit_of_tame hne (hinside (granting 0)))
  | signal => exact signalCall_tame.mp (hinside (granting 0))
  | _lseek => exact inside_one.mpr ((fits_or_null (by omega)).mp (lseekCall_tame.mp (hinside (granting 0))))
  | read =>
    have htame := hinside (granting (e.arg w.mem 4).toNat)
    unfold Sysno.run Tame at htame
    rw [ensures_bind, ensures_uintArg] at htame
    refine inside_one.mpr ((fits_or_null (by omega)).mp ((withPtr_tame.mp htame).imp_right fun hread => ?_))
    unfold Tame at hread
    rw [ensures_bind, ensures_uintArg, ensures_bind, ensures_perform] at hread
    have hfit := (store_tame (by trivial)).mp hread
    simpa [granting, grant] using hfit
  | write =>
    have htame := hinside (granting 0)
    unfold Sysno.run Tame at htame
    rw [ensures_bind, ensures_uintArg] at htame
    refine inside_one.mpr ((fits_or_null (by omega)).mp ((withPtr_tame.mp htame).imp_right fun hwrite => ?_))
    unfold Tame at hwrite
    rw [ensures_bind, ensures_uintArg] at hwrite
    exact (load_tame (by trivial)).mp hwrite
  | _stat =>
    have htame := hinside (granting 0)
    unfold Sysno.run at htame
    refine (withPath_ptr_tame.mp htame).imp_right ?_
    rintro ⟨htrans, hstat⟩
    refine ⟨htrans, hstat.imp_right fun hstat => ?_⟩
    cases hname : e.nameArg w.mem 0 with
    | none => exact absurd hstat (str_not_tame (pathOf_lost htrans hname))
    | some s =>
      have hpath : (e.pathArg w.mem 0).Names w.mem s := pathOf_names hname
      unfold Tame at hstat
      rw [ensures_bind, hpath w _ _ rfl, ensures_bind, ensures_perform, ensures_ite,
        if_neg (by simp [granting])] at hstat
      exact ⟨rfl, inside_one.mpr ((copystat_tame (by intro _ _; trivial)).mp hstat)⟩
  | _fstat =>
    have htame := hinside (granting 0)
    unfold Sysno.run Tame at htame
    rw [ensures_bind, ensures_uintArg] at htame
    refine inside_one.mpr ((fits_or_null (by omega)).mp ((withPtr_tame.mp htame).imp_right fun hstat => ?_))
    unfold Tame at hstat
    rw [ensures_bind, ensures_perform, ensures_ite, if_neg (by simp [granting])] at hstat
    exact (copystat_tame (by intro _ _; trivial)).mp hstat
  | _time =>
    have htame := hinside (granting 0)
    unfold Sysno.run at htame
    refine inside_one.mpr ((fits_or_null (by omega)).mp ((withPtr_tame.mp htame).imp_right fun htime => ?_))
    unfold Tame at htime
    rw [ensures_bind, ensures_perform] at htime
    have hfit := (store_tame (by trivial)).mp htime
    rwa [longBytes_length] at hfit
  | waitpid =>
    have htame := hinside (granting 0)
    unfold Sysno.run Tame at htame
    rw [ensures_bind, ensures_uintArg] at htame
    refine inside_one.mpr ((fits_or_null (by omega)).mp ((withPtr_tame.mp htame).imp_right fun hwait => ?_))
    unfold Tame at hwait
    rw [ensures_bind, ensures_uintArg, ensures_bind, ensures_perform] at hwait
    have hfit := (store_tame (by trivial)).mp hwait
    rwa [wordBytes_length] at hfit
  | ioctl => exact ioctl_inside (hinside (granting 0))
  | _exit | close | sync | dup | getpid | getppid | getuid | umask | setuid | setgid | brk | sbrk | _fork | dup2
  | _pause | kill | pipe | getgid | geteuid | getegid | fcntl | fchdir | fchmod | fchown | setpgrp | flock | getpgrp
  | sleep | ftruncate | setpgid | setsid | getsid =>
    intro b hb
    cases hb

theorem tame_iff {n : Sysno} : (∀ host, Tame (n.run e host) w) ↔ Fits e w.mem (touched e w.mem n) n :=
  ⟨fits_of_tame, fun hfits _ => run_tame hfits⟩

/-! ## A buffer behind the end is refused -/

theorem terminalStruct_mono {m : Mem} (hfit : Inside (terminalStruct e m 8)) : Inside (terminalStruct e m 4) := by
  unfold terminalStruct at hfit ⊢
  cases hreq : requests.lookup (e.arg m 2).toNat with
  | none =>
    rw [hreq] at hfit
    exact hfit
  | some r =>
    rw [hreq] at hfit
    cases r with
    | tiocgwinsz =>
      have := inside_one.mp hfit
      exact inside_one.mpr (by omega)
    | tcgets | tcsets | tcsetsw | tcsetsf | tiocflush | tiochangup | tiocostop | tiocostart | tiocgpgrp => exact hfit

/-- What fits the buffers fits what the call uses of them. -/
theorem fits_touched {m : Mem} {n : Sysno} (hfits : Fits e m (buffers e m n) n) : Fits e m (touched e m n) n := by
  cases n
  case pipe =>
    intro b hb
    cases hb
  case ioctl => exact terminalStruct_mono hfits
  all_goals exact hfits

/-- The call fails, and leaves the memory as it was. -/
def Refused (h : Handler Result) (w : World) : Prop :=
  Ensures h (fun r w' => r = sres (-1) ∧ w'.mem = w.mem) (fun _ _ => False) w

theorem inside_of_fits {m : Mem} {n : Sysno} (hn : n ≠ ._stat) (hfits : Fits e m (buffers e m n) n) :
    Inside (buffers e m n) := by
  cases n
  case _stat => exact absurd rfl hn
  case «open» | unlink | chdir | access | chmod | chown | mkdir | rmdir | rename | link | execve | signal =>
    intro b hb
    cases hb
  all_goals exact hfits

theorem run_refuses {n : Sysno} (hfits : Fits e w.mem (buffers e w.mem n) n)
    (hpast : ∃ b ∈ buffers e w.mem n, 65536 < b.1 + b.2) : Refused (n.run e host) w := by
  obtain ⟨b, hb, hlt⟩ := hpast
  by_cases hn : n = ._stat
  · subst hn
    have hbuf : b = ((e.arg w.mem 2).toNat, 34) := List.mem_singleton.mp hb
    rcases hfits with hnull | ⟨-, hnull | ⟨-, hfit⟩⟩
    · unfold Sysno.run Refused
      rw [withPath_null hnull]
      exact ⟨rfl, rfl⟩
    · rw [hbuf, hnull] at hlt
      exact absurd hlt (by decide)
    · exact absurd (hfit b hb) (by omega)
  · exact absurd (inside_of_fits hn hfits b hb) (by omega)

/-- The pipe's two words wrap around the end of the memory. -/
theorem pipe_not_refused (hpast : 65536 < (e.arg w.mem 0).toNat + 4) : ¬ Refused (Sysno.run e (granting 0) .pipe) w := by
  intro hrefuses
  have hlt := (e.arg w.mem 0).isLt
  have hne : ¬ e.arg w.mem 0 = 0 := by
    intro hnull
    rw [hnull] at hpast
    exact absurd hpast (by decide)
  unfold Refused Sysno.run pipeCall at hrefuses
  rw [ensures_withPtr, if_neg hne, ensures_bind, ensures_perform, ensures_ite, if_neg (by simp [granting]),
    ensures_bind] at hrefuses
  have haddr : (BitVec.ofNat 16 (e.arg w.mem 0).toNat).toNat = (e.arg w.mem 0).toNat := by simp
  have hnext : (BitVec.ofNat 16 (e.arg w.mem 0).toNat + 2).toNat = ((e.arg w.mem 0).toNat + 2) % 65536 := by
    rw [BitVec.toNat_add, haddr]
    rfl
  rw [putuiM_stores (.inr (by omega)), ensures_bind, putuiM_stores (.inr (by omega))] at hrefuses
  exact absurd hrefuses.1 (by simp [granting, sres])


/-- The window size is stored although the structure does not fit. -/
theorem winsize_not_refused (hreq : requests.lookup (e.arg w.mem 2).toNat = some .tiocgwinsz)
    (hpast : 65536 < (e.arg w.mem 4).toNat + 8) : ¬ Refused (Sysno.run e (granting 0) .ioctl) w := by
  intro hrefuses
  have hne : ¬ e.arg w.mem 4 = 0 := by
    intro hnull
    rw [hnull] at hpast
    exact absurd hpast (by decide)
  unfold Refused Sysno.run ioctlCall at hrefuses
  rw [ensures_bind, ensures_uintArg, ensures_bind, ensures_uintArg, hreq] at hrefuses
  unfold terminal at hrefuses
  rw [ensures_withPtr, if_neg hne, ensures_bind, ensures_perform, ensures_ite, if_neg (by simp [granting]),
    ensures_bind] at hrefuses
  obtain ⟨_, _, hrun, hresult, -⟩ := hrefuses.exists_ok
  exact absurd hresult (by simp [granting, sres])

/-- The call stays inside the memory for every host, and refuses a buffer that does not. -/
structure StaysInside (e : Emulator) (op : Int) (w : World) : Prop where
  inside : ∀ host, Tame (doSyscall e host op) w
  refuses : ∀ n, Sysno.ofOp op = some n → (∃ b ∈ buffers e w.mem n, 65536 < b.1 + b.2) →
    ∀ host, Refused (doSyscall e host op) w

theorem ioctl_fits (hfits : Inside (touched e w.mem .ioctl))
    (hrefuses : (∃ b ∈ buffers e w.mem .ioctl, 65536 < b.1 + b.2) → Refused (Sysno.run e (granting 0) .ioctl) w) :
    Inside (buffers e w.mem .ioctl) := by
  intro b hb
  by_contra hpast
  have hrefused := hrefuses ⟨b, hb, Nat.lt_of_not_le hpast⟩
  unfold touched terminalStruct at hfits
  unfold buffers terminalStruct at hb
  cases hreq : requests.lookup (e.arg w.mem 2).toNat with
  | none =>
    rw [hreq] at hb
    cases hb
  | some r =>
    rw [hreq] at hb hfits
    cases r with
    | tiocgwinsz =>
      rw [List.mem_singleton.mp hb] at hpast
      exact winsize_not_refused hreq (Nat.lt_of_not_le hpast) hrefused
    | tcgets | tcsets | tcsetsw | tcsetsf | tiocflush | tiochangup | tiocostop | tiocostart | tiocgpgrp =>
      exact hpast (hfits b hb)

theorem fits_buffers {n : Sysno} (hfits : Fits e w.mem (touched e w.mem n) n)
    (hrefuses : (∃ b ∈ buffers e w.mem n, 65536 < b.1 + b.2) → Refused (n.run e (granting 0)) w) :
    Fits e w.mem (buffers e w.mem n) n := by
  cases n
  case pipe =>
    refine inside_one.mpr ?_
    by_contra hpast
    have hlt := Nat.lt_of_not_le hpast
    exact pipe_not_refused hlt (hrefuses ⟨_, List.mem_singleton_self _, hlt⟩)
  case ioctl => exact ioctl_fits hfits hrefuses
  all_goals exact hfits

/-- Calls stay inside the memory where their names and buffers do. -/
theorem staysInside_iff (e : Emulator) (op : Int) (w : World) : StaysInside e op w ↔
    ∀ n, Sysno.ofOp op = some n → Fits e w.mem (buffers e w.mem n) n := by
  constructor
  · intro hstays n hn
    have htame : ∀ host, Tame (n.run e host) (w.failed 0) := fun host => (ensures_doSyscall hn).mp (hstays.inside host)
    exact fits_buffers (w := w.failed 0) (fits_of_tame htame) fun hpast =>
      (ensures_doSyscall hn).mp (hstays.refuses n hn hpast (granting 0))
  · intro hfits
    constructor
    · intro host
      cases hn : Sysno.ofOp op with
      | none =>
        unfold Tame doSyscall
        rw [ensures_bind, ensures_setErrno, hn]
        exact ⟨by simp, by simp⟩
      | some n =>
        exact (ensures_doSyscall hn).mpr (run_tame (w := w.failed 0) (fits_touched (hfits n hn)))
    · intro n hn hpast host
      exact (ensures_doSyscall hn).mpr (run_refuses (w := w.failed 0) (hfits n hn) hpast)

/-- A memory with the arguments of a call on the stack at 0x8000. -/
def callMem (args : List (BitVec 8)) : Mem where
  ram := fun a => if 0x8002 ≤ a.toNat then args.getD (a.toNat - 0x8002) 0 else 0
  fefcval := 0
  printed := []

/-- `read(0, 0xFFFF, 2)` gives the host a buffer of which one byte is in the memory. -/
theorem read_past_end : ¬ StaysInside ⟨.cpu6809, 0x8000, [], []⟩ 7
    ⟨callMem [0, 0, 0xFF, 0xFF, 0, 2], setInitialBrk 0, 0, []⟩ := by
  intro hstays
  have hread : Sysno.ofOp 7 = some .read := by decide
  have hfits := fits_of_tame fun host => (ensures_doSyscall hread).mp (hstays.inside host)
  exact absurd (inside_one.mp hfits) (by decide)

end Fuzemsys.Emulators.Syscalls
