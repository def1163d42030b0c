import Mathlib.Data.Set.Insert
import Fuzemsys.Emulators.Monitor
import Fuzemsys.Emulators.Cpu6809.Frame

/-!
# The monitor at work

The monitor's list of breakpoints, its commands, and the emulator going back and
forth between sessions at the monitor and the instructions. `e6809_sstep` calls
the monitor, whose step command calls `e6809_sstep` again: `steps` is the stack of
the step commands in progress.
-/

namespace Fuzemsys.Emulators.Cpu6809

open Fuzemsys.Emulators Fuzemsys.Lib

/-! ## The list of breakpoints -/

def NUM_BRKPOINTS : Nat := 30

/-- Remove what is at the address, of any type. -/
def removeBreakpoint (l : Brkpoints) (addr : BitVec 32) : Brkpoints :=
  { l with brkpointlist := l.brkpointlist.map fun p => if p.addr = addr then { p with brktype := .empty } else p }

def removeAllBreakpoints (l : Brkpoints) : Brkpoints :=
  { l with brkpointlist := l.brkpointlist.map fun p => { p with brktype := .empty } }

/-- Use the first free slot, if there is one. -/
def setSlot (addr : BitVec 32) (type : BrkType) : List Brkpoint → List Brkpoint
  | [] => []
  | p :: ps => if p.brktype = .empty then ⟨addr, type⟩ :: ps else p :: setSlot addr type ps

def setBreakpoint (l : Brkpoints) (addr : BitVec 32) (type : BrkType) : Brkpoints :=
  { l with brkpointlist := setSlot addr type l.brkpointlist }

def ignoreBreakpoint (l : Brkpoints) (addr : Int) : Brkpoints := { l with ignoredAddr := addr }

/-- The list and the ignored address before `main`, after `monitor_init`. -/
def monitorInit : Brkpoints := ⟨List.replicate NUM_BRKPOINTS ⟨0, .empty⟩, -1⟩

/-! ## The state -/

inductive Mode where
  /-- `e6809_sstep` has been called. -/
  | sstep
  /-- In a session at the monitor. -/
  | prompt (curpc : Int)
  | stopped (stop : Stop)

/-- What a turn did. -/
inductive Event (H : Type) where
  /-- The monitor was called before an instruction. -/
  | stop
  | ran (before after : Machine H)

structure System (H : Type) where
  machine : Machine H
  mode : Mode
  /-- For each step command in progress, the innermost first, how many instructions come after this one. -/
  steps : List Nat
  /-- The session that `main` starts with has not ended. -/
  starting : Bool
  event : Option (Event H)

variable {H : Type}

def System.setBrkpoints (s : System H) (l : Brkpoints) : System H :=
  { s with machine := { s.machine with brkpoints := l } }

/-! ## Instructions -/

/-- `monitor` begins with a check of its own. -/
def callMonitor (s : System H) : System H :=
  { s.setBrkpoints (isBreakpoint s.machine.brkpoints s.machine.regPc .inst).2 with
    mode := .prompt s.machine.regPc.toNat }

/-- `run_instructions` before it runs the instruction at the address. -/
def runInstruction (s : System H) (addr : Int) : System H :=
  { s.setBrkpoints (ignoreBreakpoint s.machine.brkpoints addr) with mode := .sstep }

/-- `e6809_sstep` returns to `main`, or to `run_instructions`, which may return to the monitor. -/
def returnFromSstep (s : System H) (addr : Int) : System H :=
  match s.steps with
  | [] => { s with mode := .sstep }
  | 0 :: steps => { s with steps := steps, mode := .prompt addr }
  | (n + 1) :: steps => runInstruction { s with steps := n :: steps } addr

/-- The rest of `e6809_sstep`. -/
def runRest (world : World H) (s : System H) : System H :=
  let before := { s.machine with cycles := 0 }
  match (sstepRest world).run before with
  | .error stop m => { s with machine := m, mode := .stopped stop }
  | .ok addr m => returnFromSstep { s with machine := m, event := some (.ran before m) } addr.toInt

/-- Whether `e6809_sstep` calls the monitor, and the breakpoints after that check. -/
def hits (m : Machine H) : Bool × Brkpoints :=
  if m.writeBrkpt then (true, m.brkpoints) else isBreakpoint m.brkpoints m.regPc .inst

theorem breakpointHit_run (m : Machine H) :
    breakpointHit.run m = .ok (hits m).1 { m with brkpoints := (hits m).2 } := by
  unfold breakpointHit hits
  simp only [EStateM.run]
  split <;> rfl

/-- Where the check finds nothing, `e6809_sstep` is what comes behind it. -/
theorem sstep_miss (world : World H) {m : Machine H} (hmiss : (hits m).1 = false) :
    (e6809Sstep world false false).run m = (sstepRest world).run { m with cycles := 0, brkpoints := (hits m).2 } := by
  have hhit : breakpointHit { m with cycles := 0 } = .ok false { m with cycles := 0, brkpoints := (hits m).2 } := by
    rw [← hmiss]
    exact breakpointHit_run _
  simp only [EStateM.run, e6809Sstep, prologue, checkBreakpoint, startCycles, bind, EStateM.bind, hhit]
  rfl

def sstepTurn (world : World H) (s : System H) : System H :=
  let hit := hits s.machine
  let s := s.setBrkpoints hit.2
  if hit.1 then callMonitor { s with machine := { s.machine with writeBrkpt := false }, event := some .stop }
  else runRest world s

/-! ## Sessions -/

/-- Reset the 6809. -/
def e6809Reset (sp pc : BitVec 16) (m : Machine H) : Machine H :=
  { m with
    reg8 := fun r => if r = .cc then Flag.I.val ||| Flag.F.val else 0
    reg16 := fun r => if r = .s then sp.setWidth 32 else 0
    regPc := pc
    irqStatus := .normal }

/-- The monitor returns an address, or none for -1. -/
def endSession (world : World H) (sp : BitVec 16) (s : System H) (addr : Option (BitVec 32)) : System H :=
  if s.starting ∧ s.steps = [] then
    let machine :=
      match addr with
      | none => s.machine
      | some addr => e6809Reset sp (addr.setWidth 16) s.machine
    { s with machine := machine, mode := .sstep, starting := false }
  else
    let regPc :=
      match addr with
      | none => s.machine.regPc
      | some addr => addr.setWidth 16
    runRest world { s with machine := { s.machine with regPc := regPc } }

def command (world : World H) (sp : BitVec 16) (s : System H) (curpc : Int) : Monitor.Action → System H
  | .quit => { s with mode := .stopped (.exit 0) }
  | .resume => endSession world sp s none
  | .go addr => endSession world sp s (if addr = -1 then none else some addr)
  | .setBrk addr => s.setBrkpoints (setBreakpoint s.machine.brkpoints addr .inst)
  | .setWbrk addr => s.setBrkpoints (setBreakpoint s.machine.brkpoints addr .write)
  | .remove addr => s.setBrkpoints (removeBreakpoint s.machine.brkpoints addr)
  | .removeAll => s.setBrkpoints (removeAllBreakpoints s.machine.brkpoints)
  | .step count =>
    if 0 < count.toInt then runInstruction { s with steps := (count.toInt.toNat - 1) :: s.steps } curpc else s
  | .write addr val =>
    match e6809Write8 s.machine.mem addr (val.setWidth 8) with
    | .error stop => { s with mode := .stopped stop }
    | .ok mem => { s with machine := { s.machine with mem := mem } }
  | .listBrks | .dump _ _ _ | .malformed _ | .usage _ _ | .monitorUsage => s

/-- A turn at the prompt takes a command. -/
def turn (world : World H) (sp : BitVec 16) (s : System H) (act : Monitor.Action) : System H :=
  let s := { s with event := none }
  match s.mode with
  | .sstep => sstepTurn world s
  | .prompt curpc => command world sp s curpc act
  | .stopped _ => s

/-- `main` once the program is loaded, with the breakpoints of its options. -/
def boot (m : Machine H) (sp pc : BitVec 16) (options : List (BitVec 32)) (startInMonitor : Bool) : System H :=
  let brkpoints := options.foldl (fun l addr => setBreakpoint l addr .inst) monitorInit
  let machine := e6809Reset sp pc { m with brkpoints := brkpoints, writeBrkpt := false }
  let s : System H := ⟨machine, .sstep, [], startInMonitor, none⟩
  if startInMonitor then callMonitor s else s

end Fuzemsys.Emulators.Cpu6809
