import Fuzemsys.Emulators.MapFile

/-!
# The command lines of the monitor

The monitor cuts a line into words in place, looks the first word up among its
commands and reads the others as addresses and numbers. A pointer into the line
is the index of a character.
-/

namespace Fuzemsys.Emulators.Monitor

open MapFile (Text cstr firstWord skipHex hexValue)

/-! ## Cutting a line into words -/

def isgraph (c : BitVec 8) : Bool := 0x21 ≤ c ∧ c ≤ 0x7e

/-- The argument table of the monitor. An entry that is none was not assigned for this line: it is
what earlier lines left there, or uninitialised. -/
abbrev ArgTable := List (Option Nat)

structure Scanned where
  /-- What `str_scan` returns, one short of the number of arguments. -/
  count : Nat
  str : Text
  table : ArgTable

/-- An argument was read that this line did not assign. -/
inductive LineFault where
  | unassigned (i : Nat)
  deriving DecidableEq

/-- `arg[i]` -/
def Scanned.arg (sc : Scanned) (i : Nat) : Except LineFault Text :=
  match sc.table[i]? with
  | some (some start) => .ok (cstr (sc.str.drop start))
  | _ => .error (.unassigned i)

/-! ## Numbers and addresses -/

/-- The value of the leading digits. -/
def leadingDigits (base acc : Nat) : Text → Nat
  | [] => acc
  | c :: cs =>
    match (hexValue c).filter (· < base) with
    | some d => leadingDigits base (base * acc + d) cs
    | none => acc

/-- `strtol(s, NULL, base)` for the bases 10 and 16, which stays within a long. -/
def strtol (base : Nat) (s : Text) : Int :=
  let digits (cs : Text) : Int := leadingDigits base 0 (if base = 16 then skipHex cs else cs)
  match firstWord s with
  | 0x2d :: cs => max (-2 ^ 63) (-digits cs)
  | 0x2b :: cs => min (digits cs) (2 ^ 63 - 1)
  | cs => min (digits cs) (2 ^ 63 - 1)

/-- The symbols of the map file. -/
structure Symbols where
  address : Text → Option (BitVec 32)
  getSymEndAddress : Text → Int

/-- `get_sym_address` -/
def Symbols.getSymAddress (syms : Symbols) (sym : Text) : Int :=
  if sym = [] then -1
  else
    match syms.address sym with
    | none => -1
    | some addr => addr.toInt

def isdigit (c : BitVec 8) : Bool := 0x30 ≤ c ∧ c ≤ 0x39

def dollar : BitVec 8 := 0x24

def plus : BitVec 8 := 0x2b

structure ParsedAddr where
  value : BitVec 32
  issym : Bool
  /-- The text is cut at its plus. -/
  text : Text

/-- `parse_addr` -/
def parseAddr (syms : Symbols) (addr : Text) : ParsedAddr :=
  match addr with
  | [] => ⟨-1, false, addr⟩
  | c :: cs =>
    if c = dollar then ⟨BitVec.ofInt 32 (strtol 16 cs), false, addr⟩
    else if isdigit c then ⟨BitVec.ofInt 32 (strtol 10 addr), false, addr⟩
    else
      let name := (c :: cs).takeWhile (· ≠ plus)
      let offset : Option (BitVec 32) :=
        match _h : (c :: cs).dropWhile (· ≠ plus) with
        | [] => some 0
        | _ :: behind =>
          let offset := (parseAddr syms behind).value
          if offset = -1 then none else some offset
      match offset with
      -- Offset was garbage
      | none => ⟨-1, false, name⟩
      | some offset =>
        let symaddr := syms.getSymAddress name
        if symaddr = -1 then ⟨-1, true, name⟩ else ⟨BitVec.ofInt 32 symaddr + offset, true, name⟩
termination_by addr.length
decreasing_by
  have hle := (List.dropWhile_suffix (fun x => decide (x ≠ plus)) (l := c :: cs)).length_le
  rw [_h, List.length_cons] at hle
  omega

/-! ## Commands -/

/-- The commands of `cmd_numbers` that have a word. -/
inductive Cmd where
  | brk
  | disasm
  | exit
  | go
  | nobrk
  | print
  | quit
  | step
  | wbrk
  | write
  deriving DecidableEq

inductive Action where
  /-- Back to running, for the empty line too. -/
  | resume
  | quit
  | go (addr : BitVec 32)
  | setBrk (addr : BitVec 32)
  | setWbrk (addr : BitVec 32)
  | listBrks
  | remove (addr : BitVec 32)
  | removeAll
  | dump (cmd : Cmd) (addr addr2 : BitVec 32)
  | step (count : BitVec 32)
  | write (addr val : BitVec 32)
  /-- The text of the address is printed. -/
  | malformed (addr : Text)
  /-- The command is printed with the arguments it takes. -/
  | usage (cmd : Cmd) (word : Text)
  | monitorUsage
  deriving DecidableEq

end Fuzemsys.Emulators.Monitor
