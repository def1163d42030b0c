import Mathlib.Data.Set.Card
import Fuzemsys.Lib.Run
import Fuzemsys.Emulators.Cpu6809.Watch
import Fuzemsys.Emulators.Cpu6809.Breakpoints

/-!
# Stopping at breakpoints

The list of slots stands for a set of breakpoints, as long as each new one finds a
free slot. The ignored address is the one of the instruction about to be stepped,
and is forgotten before the instruction runs.
-/

namespace Fuzemsys.Emulators.Cpu6809

open Fuzemsys.Emulators Fuzemsys.Lib

variable {H : Type}

/-! ## The set of breakpoints -/

/-- The breakpoints that were asked for, and not removed since. -/
abbrev Asked := Set (BrkType × BitVec 32)

/-- What a command makes of them. -/
def asked (set : Asked) : Monitor.Action → Asked
  | .setBrk addr => insert (.inst, addr) set
  | .setWbrk addr => insert (.write, addr) set
  | .remove addr => {b ∈ set | b.2 ≠ addr}
  | .removeAll => ∅
  | _ => set

/-- The list has exactly these breakpoints. -/
def Brkpoints.Shows (l : Brkpoints) (set : Asked) : Prop :=
  ∀ type ≠ .empty, ∀ addr, l.has type addr ↔ (type, addr) ∈ set

def Brkpoints.Free (l : Brkpoints) : Prop := ∃ p ∈ l.brkpointlist, p.brktype = .empty

section
variable {l : Brkpoints} {set : Asked} {addr : BitVec 32} {type : BrkType}

theorem has_iff : l.has type addr ↔ ∃ p ∈ l.brkpointlist, p.brktype = type ∧ p.addr = addr := by
  simp [Brkpoints.has]

theorem shows_init : monitorInit.Shows ∅ := by
  intro type htype addr
  rw [has_iff]
  simp only [monitorInit, List.mem_replicate, Set.mem_empty_iff_false, iff_false]
  rintro ⟨p, ⟨-, rfl⟩, hp, -⟩
  exact htype hp.symm

theorem shows_isBreakpoint (h : l.Shows set) (a : BitVec 16) (type : BrkType) : (isBreakpoint l a type).2.Shows set := by
  unfold isBreakpoint
  split
  · exact h
  · exact h

theorem shows_remove (h : l.Shows set) (addr : BitVec 32) :
    (removeBreakpoint l addr).Shows {b ∈ set | b.2 ≠ addr} := by
  intro type htype a
  rw [Set.mem_ofPred_eq, ← h type htype a, has_iff, has_iff]
  simp only [removeBreakpoint, List.mem_map]
  constructor
  · rintro ⟨_, ⟨p, hp, rfl⟩, hq, ha⟩
    split at hq
    · exact absurd hq.symm htype
    next hne =>
      rw [if_neg hne] at ha
      exact ⟨⟨p, hp, hq, ha⟩, ha ▸ hne⟩
  · rintro ⟨⟨p, hp, hq, rfl⟩, hne⟩
    exact ⟨p, ⟨p, hp, if_neg hne⟩, hq, rfl⟩

theorem shows_removeAll : (removeAllBreakpoints l).Shows ∅ := by
  intro type htype a
  rw [has_iff]
  simp only [removeAllBreakpoints, List.mem_map, Set.mem_empty_iff_false, iff_false]
  rintro ⟨_, ⟨p, hp, rfl⟩, hq, -⟩
  exact htype hq.symm

theorem mem_setSlot {ps : List Brkpoint} (hfree : ∃ p ∈ ps, p.brktype = .empty) (addr : BitVec 32) (new : BrkType)
    (htype : type ≠ .empty) (a : BitVec 32) :
    (∃ p ∈ setSlot addr new ps, p.brktype = type ∧ p.addr = a) ↔
      (type = new ∧ a = addr) ∨ ∃ p ∈ ps, p.brktype = type ∧ p.addr = a := by
  induction ps with
  | nil => simp at hfree
  | cons q ps ih =>
    unfold setSlot
    split
    next hempty =>
      have hq : ¬(q.brktype = type ∧ q.addr = a) := fun h => htype (h.1.symm.trans hempty)
      simp only [List.mem_cons, exists_eq_or_imp, hq, false_or]
      rw [@eq_comm _ new type, @eq_comm _ addr a]
    next hfull =>
      obtain ⟨p, hp, hempty⟩ := hfree
      have hrest : ∃ p ∈ ps, p.brktype = .empty := by
        obtain rfl | hp := List.mem_cons.mp hp
        · exact absurd hempty hfull
        · exact ⟨p, hp, hempty⟩
      simp only [List.mem_cons, exists_eq_or_imp, ih hrest]
      tauto

theorem shows_set (h : l.Shows set) (hfree : l.Free) (addr : BitVec 32) (new : BrkType) :
    (setBreakpoint l addr new).Shows (insert (new, addr) set) := by
  intro type htype a
  rw [Set.mem_insert_iff, ← h type htype a, has_iff, has_iff, Prod.mk.injEq]
  exact mem_setSlot hfree addr new htype a

end

/-! ## Running with the set -/

/-- A state of the emulator with the breakpoints that were asked for. -/
abbrev Session (H : Type) := System H × Asked

def sessionTurn (world : World H) (sp : BitVec 16) (s : Session H) (act : Monitor.Action) : Session H :=
  (turn world sp s.1 act,
    match s.1.mode with
    | .prompt _ => asked s.2 act
    | _ => s.2)

/-- What was written where a write breakpoint was asked for is reported. Until then the set decides
every check, and it stays the same. -/
structure Reported (set : Asked) (before after : Machine H) : Prop where
  checks : ∀ addr type, type ≠ .empty →
    ((isBreakpoint before.brkpoints addr type).1 ↔ (type, addr.setWidth 32) ∈ set)
  kept : after.brkpoints = before.brkpoints
  reports : ∃ new, after.accesses = new ++ before.accesses ∧
    (after.writeBrkpt ↔ before.writeBrkpt ∨ ∃ addr val, .write addr val ∈ new ∧ (.write, addr) ∈ set)

/-- A turn stops at, and reports, what it should. A processor that waits for an interrupt runs nothing. -/
structure TurnRight (world : World H) (sp : BitVec 16) (s : Session H) (act : Monitor.Action) : Prop where
  /-- In a step command only a write that was just reported stops. -/
  stop : ∀ _ : s.1.mode = .sstep, s.1.machine.irqStatus = .normal →
    ((turn world sp s.1 act).event = some .stop ↔
      s.1.machine.writeBrkpt ∨ s.1.steps = [] ∧ (.inst, s.1.machine.regPc.setWidth 32) ∈ s.2)
  report : ∀ before after, (turn world sp s.1 act).event = some (.ran before after) → before.irqStatus = .normal →
    Reported s.2 before after

/-- A new breakpoint finds a free slot, and in the session before the first instruction
no instruction is stepped that waits for an interrupt. -/
structure MayTurn (s : Session H) (act : Monitor.Action) : Prop where
  free : ∀ curpc addr, s.1.mode = .prompt curpc → act = .setBrk addr ∨ act = .setWbrk addr →
    s.1.machine.brkpoints.Free
  waits : s.1.mode = .sstep → s.1.starting → s.1.machine.irqStatus = .normal

/-! ## The invariant -/

/-- Which address is ignored: none but that of an instruction about to be stepped. -/
structure Inv (s : Session H) : Prop where
  shows : (∀ stop, s.1.mode ≠ .stopped stop) → s.1.machine.brkpoints.Shows s.2
  steps : s.1.mode = .sstep → s.1.starting → s.1.steps ≠ []
  sstep : s.1.mode = .sstep → s.1.machine.irqStatus = .normal → s.1.machine.brkpoints.ignoredAddr =
    if s.1.steps = [] then -1 else (s.1.machine.regPc.toNat : Int)
  ignored : ∀ curpc, s.1.mode = .prompt curpc → s.1.machine.irqStatus = .normal ∨ s.1.starting →
    s.1.machine.brkpoints.ignoredAddr = -1
  curpc : ∀ curpc, s.1.mode = .prompt curpc → s.1.machine.irqStatus = .normal → curpc = s.1.machine.regPc.toNat

/-- What `e6809_sstep` relies on once the check is over. -/
structure Ready (s : System H) (set : Asked) : Prop where
  shows : s.machine.brkpoints.Shows set
  steps : s.starting → s.steps ≠ []
  ignored : s.machine.irqStatus = .normal ∨ s.starting → s.machine.brkpoints.ignoredAddr = -1

section
variable {world : World H} {sp : BitVec 16} {s : System H} {set : Asked}

theorem toInt_setWidth (pc : BitVec 16) : (pc.setWidth 32).toInt = pc.toNat := by
  rw [BitVec.toInt_eq_toNat_of_lt] <;> rw [BitVec.toNat_setWidth] <;> omega

theorem inv_stopped {stop : Stop} (hstop : s.mode = .stopped stop) : Inv (s, set) := by
  refine ⟨fun h => absurd hstop (h stop), ?_, ?_, ?_, ?_⟩
  all_goals simp [hstop]

/-- Back from an instruction, at the address it returned. -/
theorem inv_return (hready : Ready s set) {addr : Int}
    (haddr : s.machine.irqStatus = .normal → addr = s.machine.regPc.toNat) :
    Inv (returnFromSstep s addr, set) := by
  unfold returnFromSstep
  split
  next hsteps =>
    refine ⟨fun _ => hready.shows, fun _ hstarting => absurd hsteps (hready.steps hstarting), fun _ hirq => ?_, ?_, ?_⟩
    · simp [hready.ignored (.inl hirq), hsteps]
    · simp
    · simp
  next steps hsteps =>
    refine ⟨fun _ => hready.shows, by simp, by simp, fun _ _ h => hready.ignored h, ?_⟩
    intro curpc hmode hirq
    cases hmode
    exact haddr hirq
  next n steps hsteps =>
    unfold runInstruction System.setBrkpoints ignoreBreakpoint
    exact ⟨fun _ => hready.shows, by simp, fun _ hirq => by simpa using haddr hirq, by simp, by simp⟩

theorem inv_runRest (hready : Ready s set) : Inv (runRest world s, set) := by
  unfold runRest
  dsimp only
  split
  · exact inv_stopped rfl
  next addr m hrun =>
    obtain ⟨hirq, hwatched, rfl⟩ | ⟨hirq, rfl⟩ := sstepRest_ok world hrun
    · obtain ⟨hbrk, -⟩ := hwatched (hready.ignored (.inl hirq))
      apply inv_return
      · refine ⟨?_, hready.steps, fun _ => ?_⟩
        · rw [hbrk]
          exact hready.shows
        · rw [hbrk]
          exact hready.ignored (.inl hirq)
      · intro _
        exact toInt_setWidth _
    · apply inv_return
      · exact ⟨hready.shows, hready.steps, hready.ignored⟩
      · intro h
        exact absurd h hirq

/-- The check uses the ignored address up. -/
theorem hits_iff (hinv : Inv (s, set)) (hmode : s.mode = .sstep) (hirq : s.machine.irqStatus = .normal) :
    ((hits s.machine).1 ↔ s.machine.writeBrkpt ∨ s.steps = [] ∧ (.inst, s.machine.regPc.setWidth 32) ∈ set) ∧
      ((hits s.machine).1 = false → (hits s.machine).2.ignoredAddr = -1) := by
  have hignored := hinv.sstep hmode hirq
  have hshows := hinv.shows (by simp [hmode])
  unfold hits
  split
  next hwrite => simp [hwrite]
  next hwrite =>
    by_cases hsteps : s.steps = []
    · rw [if_pos hsteps] at hignored
      rw [isBreakpoint_free hignored]
      exact ⟨by simp [hwrite, hsteps, hshows .inst (by decide)], fun _ => hignored⟩
    · rw [if_neg hsteps] at hignored
      unfold isBreakpoint
      rw [if_pos hignored.symm]
      simp [hwrite, hsteps]

/-- The check that the monitor begins with uses it up too. -/
theorem isBreakpoint_uses (l : Brkpoints) (pc : BitVec 16) (type : BrkType)
    (h : l.ignoredAddr = -1 ∨ l.ignoredAddr = pc.toNat) : (isBreakpoint l pc type).2.ignoredAddr = -1 := by
  unfold isBreakpoint
  split
  · rfl
  · obtain h | h := h
    · exact h
    · exact absurd h.symm ‹_›

theorem hits_shows (hinv : Inv (s, set)) (hmode : s.mode = .sstep) : (hits s.machine).2.Shows set := by
  have hshows := hinv.shows (by simp [hmode])
  unfold hits
  split
  · exact hshows
  · exact shows_isBreakpoint hshows _ _

theorem ready_of_miss (hinv : Inv (s, set)) (hmode : s.mode = .sstep)
    (hwaits : s.starting → s.machine.irqStatus = .normal) (hmiss : (hits s.machine).1 = false) :
    Ready (s.setBrkpoints (hits s.machine).2) set := by
  refine ⟨hits_shows hinv hmode, hinv.steps hmode, fun hor => ?_⟩
  exact (hits_iff hinv hmode (hor.elim id hwaits)).2 hmiss

theorem inv_sstepTurn (hinv : Inv (s, set)) (hmode : s.mode = .sstep)
    (hwaits : s.starting → s.machine.irqStatus = .normal) : Inv (sstepTurn world s, set) := by
  have hshows := hits_shows hinv hmode
  unfold sstepTurn
  dsimp only
  split
  next hhit =>
    have hused (hirq : s.machine.irqStatus = .normal) :
        (hits s.machine).2.ignoredAddr = -1 ∨ (hits s.machine).2.ignoredAddr = s.machine.regPc.toNat := by
      have hignored := hinv.sstep hmode hirq
      have huses := isBreakpoint_uses s.machine.brkpoints s.machine.regPc .inst
      unfold hits
      split at hignored <;> split <;> simp_all
    refine ⟨fun _ => shows_isBreakpoint hshows _ _, by simp [callMonitor], by simp [callMonitor], ?_, ?_⟩
    · intro _ _ hor
      exact isBreakpoint_uses _ _ _ (hused (hor.elim id hwaits))
    · intro _ h _
      cases h
      rfl
  next hmiss => exact inv_runRest (ready_of_miss hinv hmode hwaits (by simpa using hmiss))

theorem inv_endSession {curpc : Int} (hinv : Inv (s, set)) (hmode : s.mode = .prompt curpc)
    (addr : Option (BitVec 32)) : Inv (endSession world sp s addr, set) := by
  have hshows := hinv.shows (by simp [hmode])
  unfold endSession
  split
  next hstart =>
    have hignored := hinv.ignored curpc hmode (.inr hstart.1)
    refine ⟨fun _ => ?_, by simp, fun _ _ => ?_, by simp, by simp⟩
    · cases addr <;> exact hshows
    · rw [if_pos hstart.2]
      cases addr <;> exact hignored
  next hstart =>
    apply inv_runRest
    refine ⟨hshows, fun hstarting hsteps => hstart ⟨hstarting, hsteps⟩, ?_⟩
    exact hinv.ignored curpc hmode

theorem inv_setBrkpoints {curpc : Int} (hinv : Inv (s, set)) (hmode : s.mode = .prompt curpc) {l : Brkpoints}
    {set' : Asked} (hshows : l.Shows set') (hl : l.ignoredAddr = s.machine.brkpoints.ignoredAddr) :
    Inv (s.setBrkpoints l, set') := by
  refine ⟨fun _ => hshows, by simp [System.setBrkpoints, hmode], by simp [System.setBrkpoints, hmode], ?_, hinv.curpc⟩
  intro c hc hor
  exact hl.trans (hinv.ignored c hc hor)

theorem inv_command {curpc : Int} (hinv : Inv (s, set)) (hmode : s.mode = .prompt curpc) {act : Monitor.Action}
    (hfree : ∀ addr, act = .setBrk addr ∨ act = .setWbrk addr → s.machine.brkpoints.Free) :
    Inv (command world sp s curpc act, asked set act) := by
  have hshows := hinv.shows (by simp [hmode])
  cases act with
  | resume =>
    rw [command]
    exact inv_endSession hinv hmode none
  | quit => exact inv_stopped rfl
  | go addr =>
    rw [command]
    exact inv_endSession hinv hmode _
  | setBrk addr => exact inv_setBrkpoints hinv hmode (shows_set hshows (hfree addr (.inl rfl)) _ _) rfl
  | setWbrk addr => exact inv_setBrkpoints hinv hmode (shows_set hshows (hfree addr (.inr rfl)) _ _) rfl
  | remove addr => exact inv_setBrkpoints hinv hmode (shows_remove hshows _) rfl
  | removeAll => exact inv_setBrkpoints hinv hmode shows_removeAll rfl
  | step count =>
    rw [command]
    split
    · refine ⟨fun _ => hshows, fun _ _ => by simp [runInstruction, System.setBrkpoints], fun _ hirq => ?_, ?_, ?_⟩
      · simpa [runInstruction, System.setBrkpoints, ignoreBreakpoint] using hinv.curpc curpc hmode hirq
      · simp [runInstruction]
      · simp [runInstruction]
    · exact hinv
  | write addr val =>
    rw [command]
    split
    · exact inv_stopped rfl
    · exact ⟨hinv.shows, hinv.steps, hinv.sstep, hinv.ignored, hinv.curpc⟩
  | listBrks | dump | malformed | usage | monitorUsage => exact hinv

/-! ## What a turn stops at and reports -/

@[simp]
theorem returnFromSstep_event (s : System H) (addr : Int) : (returnFromSstep s addr).event = s.event := by
  unfold returnFromSstep
  split <;> rfl

theorem runRest_event (hnone : s.event = none) : (runRest world s).event ≠ some .stop := by
  unfold runRest
  dsimp only
  split
  · simp [hnone]
  · simp

theorem reported_runRest (hready : Ready s set) (hnone : s.event = none) {before after : Machine H}
    (hran : (runRest world s).event = some (.ran before after)) (hirq : before.irqStatus = .normal) :
    Reported set before after := by
  unfold runRest at hran
  dsimp only at hran
  split at hran
  · simp [hnone] at hran
  next addr m hrun =>
    rw [returnFromSstep_event] at hran
    cases hran
    have hfree := hready.ignored (.inl hirq)
    obtain ⟨-, hwatched, -⟩ | ⟨hwaits, -⟩ := sstepRest_ok world hrun
    · obtain ⟨hbrk, new, hnew, hflag⟩ := hwatched hfree
      refine ⟨fun addr type htype => ?_, hbrk, new, hnew, ?_⟩
      · rw [isBreakpoint_free hfree]
        exact hready.shows type htype _
      · rw [hflag]
        simp only [Brkpoints.watches, hready.shows .write (by decide)]
    · exact absurd hirq hwaits

theorem ready_of_session {curpc : Int} (hinv : Inv (s, set)) (hmode : s.mode = .prompt curpc)
    (hstart : ¬(s.starting ∧ s.steps = [])) (pc : BitVec 16) :
    Ready { s with machine := { s.machine with regPc := pc } } set :=
  ⟨hinv.shows (by simp [hmode]), fun hstarting hsteps => hstart ⟨hstarting, hsteps⟩, hinv.ignored curpc hmode⟩

theorem reported_endSession {curpc : Int} (hinv : Inv (s, set)) (hmode : s.mode = .prompt curpc) (hnone : s.event = none)
    {addr : Option (BitVec 32)} {before after : Machine H}
    (hran : (endSession world sp s addr).event = some (.ran before after)) (hirq : before.irqStatus = .normal) :
    Reported set before after := by
  unfold endSession at hran
  split at hran
  · simp [hnone] at hran
  next hstart =>
    dsimp only at hran
    refine reported_runRest ?_ ?_ hran hirq
    · exact ready_of_session hinv hmode hstart _
    · exact hnone

/-- Only what ends a session runs an instruction. -/
theorem command_event {curpc : Int} {act : Monitor.Action} (hnone : s.event = none) :
    (command world sp s curpc act).event = none ∨ ∃ addr, command world sp s curpc act = endSession world sp s addr := by
  cases act with
  | resume => exact .inr ⟨_, by rw [command]⟩
  | go addr => exact .inr ⟨_, by rw [command]⟩
  | step count =>
    left
    rw [command]
    split
    · exact hnone
    · exact hnone
  | write addr val =>
    left
    rw [command]
    split
    · exact hnone
    · exact hnone
  | quit | setBrk | setWbrk | remove | removeAll | listBrks | dump | malformed | usage | monitorUsage => exact .inl hnone

end

section
variable {world : World H} {sp : BitVec 16} {s : Session H} {act : Monitor.Action}

theorem inv_quiet (hinv : Inv s) : Inv ({ s.1 with event := none }, s.2) :=
  ⟨hinv.shows, hinv.steps, hinv.sstep, hinv.ignored, hinv.curpc⟩

theorem inv_turn (hinv : Inv s) (hmay : MayTurn s act) : Inv (sessionTurn world sp s act) := by
  have hquiet := inv_quiet hinv
  unfold sessionTurn turn
  cases hmode : s.1.mode with
  | sstep =>
    simp only [hmode] at hquiet ⊢
    exact inv_sstepTurn hquiet rfl (hmay.waits hmode)
  | prompt curpc =>
    simp only [hmode] at hquiet ⊢
    exact inv_command hquiet rfl fun addr => hmay.free curpc addr hmode
  | stopped stop =>
    exact inv_stopped rfl

theorem turn_stops (hmode : s.1.mode = .sstep) :
    (turn world sp s.1 act).event = some .stop ↔ (hits s.1.machine).1 := by
  unfold turn
  simp only [hmode]
  unfold sstepTurn
  dsimp only
  split
  next hhit => exact iff_of_true rfl hhit
  next hmiss => exact iff_of_false (runRest_event rfl) hmiss

theorem turn_right (hinv : Inv s) (hmay : MayTurn s act) : TurnRight world sp s act := by
  have hquiet := inv_quiet hinv
  constructor
  · intro hmode hirq
    rw [turn_stops hmode]
    exact (hits_iff hquiet hmode hirq).1
  · intro before after hran hirq
    unfold turn at hran
    dsimp only at hran
    split at hran
    next hmode =>
      unfold sstepTurn at hran
      dsimp only at hran
      split at hran
      · simp [callMonitor, System.setBrkpoints] at hran
      next hmiss =>
        exact reported_runRest (ready_of_miss hquiet hmode (hmay.waits hmode) (by simpa using hmiss)) rfl hran hirq
    next curpc hmode =>
      obtain hnone | ⟨addr, hend⟩ := @command_event H world sp { s.1 with event := none } curpc act rfl
      · simp [hnone] at hran
      · rw [hend] at hran
        exact reported_endSession hquiet hmode rfl hran hirq
    next => simp at hran

end

/-! ## Every run -/

/-- The breakpoints of the options. -/
def optionSet (options : List (BitVec 32)) : Asked := {b | b.1 = .inst ∧ b.2 ∈ options}

/-- How many slots are free. -/
def freeSlots (l : Brkpoints) : Nat := l.brkpointlist.countP fun p => p.brktype = .empty

theorem freeSlots_set (l : Brkpoints) (addr : BitVec 32) : freeSlots l ≤ freeSlots (setBreakpoint l addr .inst) + 1 := by
  unfold freeSlots setBreakpoint
  dsimp only
  induction l.brkpointlist with
  | nil => simp
  | cons p ps ih =>
    unfold setSlot
    split
    next hempty => simp [hempty]
    next hfull =>
      simp only [List.countP_cons, hfull]
      omega

theorem boot_brkpoints (options : List (BitVec 32)) : ∀ (l : Brkpoints) (set : Asked), l.Shows set →
    l.ignoredAddr = -1 → options.length ≤ freeSlots l →
    (options.foldl (fun l addr => setBreakpoint l addr .inst) l).Shows (set ∪ optionSet options) ∧
      (options.foldl (fun l addr => setBreakpoint l addr .inst) l).ignoredAddr = -1 := by
  induction options with
  | nil =>
    intro l set hshows hignored _
    exact ⟨by simpa [optionSet] using hshows, hignored⟩
  | cons addr options ih =>
    intro l set hshows hignored hlen
    rw [List.length_cons] at hlen
    have hfree : l.Free := by
      obtain ⟨p, hp, hempty⟩ := List.countP_pos_iff.mp (show 0 < freeSlots l by omega)
      exact ⟨p, hp, by simpa using hempty⟩
    have hslots := freeSlots_set l addr
    obtain ⟨hrest, hminus⟩ := ih (setBreakpoint l addr .inst) _ (shows_set hshows hfree addr .inst) hignored (by omega)
    have hset : set ∪ optionSet (addr :: options) = insert (.inst, addr) set ∪ optionSet options := by
      ext ⟨type, a⟩
      simp only [optionSet, Set.mem_union, Set.mem_ofPred_eq, List.mem_cons, Set.mem_insert_iff, Prod.mk.injEq]
      tauto
    rw [hset]
    exact ⟨hrest, hminus⟩

theorem inv_boot (m : Machine H) (sp pc : BitVec 16) {options : List (BitVec 32)}
    (hlen : options.length ≤ NUM_BRKPOINTS) (startInMonitor : Bool) :
    Inv (boot m sp pc options startInMonitor, optionSet options) := by
  have hslots : freeSlots monitorInit = NUM_BRKPOINTS := by decide
  obtain ⟨hshows, hignored⟩ := boot_brkpoints options monitorInit ∅ shows_init rfl (hslots ▸ hlen)
  rw [Set.empty_union] at hshows
  unfold boot
  cases startInMonitor with
  | false =>
    refine ⟨fun _ => hshows, by simp, fun _ _ => ?_, by simp, by simp⟩
    simpa [e6809Reset] using hignored
  | true =>
    refine ⟨fun _ => shows_isBreakpoint hshows _ _, by simp [callMonitor], by simp [callMonitor], fun _ _ _ => ?_, ?_⟩
    · exact isBreakpoint_uses _ _ _ (.inl hignored)
    · intro curpc hmode _
      cases hmode
      rfl

/-- Whatever is typed at the monitor, execution stops at the breakpoints that are set, and nowhere else, and
writes are reported at the write breakpoints that are set. -/
theorem breakpoints_right (world : World H) (m : Machine H) (sp pc : BitVec 16) (options : List (BitVec 32))
    (startInMonitor : Bool) (acts : List Monitor.Action) (hlen : options.length ≤ NUM_BRKPOINTS)
    (hmay : AllSteps (sessionTurn world sp) MayTurn (boot m sp pc options startInMonitor, optionSet options) acts) :
    AllSteps (sessionTurn world sp) (TurnRight world sp) (boot m sp pc options startInMonitor, optionSet options) acts :=
  AllSteps.of_inv (fun _ _ => inv_turn) (fun _ _ => turn_right) (inv_boot m sp pc hlen startInMonitor) hmay

/-- A breakpoint at the start address, set in a session before the first instruction. -/
theorem breakpoints_right_start :
    AllSteps (sessionTurn quietWorld 0) (TurnRight quietWorld 0)
      (boot (clearMachine fun _ => 0) 0 0x100 [] true, optionSet []) [.setBrk 0x100, .resume, .listBrks] := by
  apply breakpoints_right
  · decide
  · refine ⟨⟨?_, ?_⟩, ⟨?_, ?_⟩, ⟨?_, ?_⟩, trivial⟩
    · intro _ _ _ _
      exact ⟨⟨0, .empty⟩, by decide, rfl⟩
    · intro h
      cases h
    · intro _ _ _ h
      simp at h
    · intro h
      cases h
    · intro _ _ _ h
      simp at h
    · intro _ h
      cases h

theorem twoBreakpoints_turn (s : Session Unit) (act : Monitor.Action)
    (hset : s.2 ⊆ {(.inst, 0x100), (.inst, 0x200)})
    (hact : act ∈ List.replicate 30 (.setBrk 0x200) ++ [.setBrk 0x100, .resume, .listBrks]) :
    (sessionTurn quietWorld 0 s act).2 ⊆ {(.inst, 0x100), (.inst, 0x200)} := by
  have hasked : asked s.2 act ⊆ {(.inst, 0x100), (.inst, 0x200)} := by
    simp only [List.mem_append, List.mem_replicate, List.mem_cons, List.not_mem_nil, or_false] at hact
    obtain ⟨-, rfl⟩ | rfl | rfl | rfl := hact
    · exact Set.insert_subset (by simp) hset
    · exact Set.insert_subset (by simp) hset
    · exact hset
    · exact hset
  unfold sessionTurn
  dsimp only
  split
  · exact hasked
  · exact hset

/-- The same breakpoint thirty times leaves no room for another: there are never more than two. -/
theorem thirty_times_no_other : ¬∀ acts : List Monitor.Action,
    AllSteps (sessionTurn quietWorld 0) (fun s _ => s.2.encard ≤ NUM_BRKPOINTS)
        (boot (clearMachine fun _ => 0) 0 0x100 [] true, optionSet []) acts →
      AllSteps (sessionTurn quietWorld 0) (TurnRight quietWorld 0)
        (boot (clearMachine fun _ => 0) 0 0x100 [] true, optionSet []) acts := by
  intro h
  have hfew : AllSteps (sessionTurn quietWorld 0) (fun s _ => s.2.encard ≤ NUM_BRKPOINTS)
      (boot (clearMachine fun _ => 0) 0 0x100 [] true, optionSet [])
      (List.replicate 30 (.setBrk 0x200) ++ [.setBrk 0x100, .resume, .listBrks]) := by
    refine AllSteps.of_inv twoBreakpoints_turn (fun s act hinv _ => ?_) ?_ (allSteps_of_mem (fun _ act hact => hact) _)
    · calc s.2.encard ≤ ({(.inst, 0x100), (.inst, 0x200)} : Asked).encard := Set.encard_le_encard hinv
        _ ≤ ({(.inst, 0x200)} : Asked).encard + 1 := Set.encard_insert_le _ _
        _ = (2 : Nat) := by rw [Set.encard_singleton]; rfl
        _ ≤ NUM_BRKPOINTS := Nat.cast_le.mpr (by decide)
    · simp [optionSet]
  obtain ⟨-, -, -, hlast, -⟩ := (allSteps_append _ _ _).mp (h _ hfew)
  have hstops := (hlast.stop rfl rfl).mpr (.inr ⟨rfl, .inl rfl⟩)
  rw [turn_stops rfl] at hstops
  exact absurd hstops (by decide)

end Fuzemsys.Emulators.Cpu6809
