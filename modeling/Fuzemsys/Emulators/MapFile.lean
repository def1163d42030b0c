import Mathlib.Data.BitVec
import Mathlib.Data.List.Perm.Basic

/-!
# The map file

The emulator reads the code symbols of a map file into an array sorted by
address, and looks addresses and names up in it. The array lives on the heap: an
access to it can miss the array, meet an element that was never filled, or come
after the array was freed.
-/

namespace Fuzemsys.Emulators.MapFile

/-- The bytes of a C string, or of a file. -/
abbrev Text := List (BitVec 8)

/-! ## The state -/

structure MapEntry where
  addr : BitVec 32
  /-- None is the NULL of the final entry. -/
  sym : Option Text
  deriving DecidableEq

/-- What an access to the array can run into. -/
inductive MapFault where
  | null
  | freed
  | outOfBounds
  | uninitialised
  deriving DecidableEq

/-- The pointer to the array. An element that is none was never filled. -/
inductive Maparray where
  | null
  | live (entries : List (Option MapEntry))
  | freed
  deriving DecidableEq

structure State where
  maparray : Maparray
  /-- The most recently used entry. -/
  mapidx : Nat
  mapcnt : Nat
  mapfileLoaded : Bool
  deriving DecidableEq

def start : State := ⟨.null, 0, 0, false⟩

def entryAt (s : State) (i : Nat) : Except MapFault MapEntry :=
  match s.maparray with
  | .null => .error .null
  | .freed => .error .freed
  | .live entries =>
    match entries[i]? with
    | none => .error .outOfBounds
    | some none => .error .uninitialised
    | some (some e) => .ok e

/-! ## Lines -/

def newline : BitVec 8 := 0x0a

/-- The results of `fgets(buf, 1023, zin)` up to the end of the file, with `buf` so far. -/
def fgetsAll : Text → Text → List Text
  | buf, [] => if buf = [] then [] else [buf]
  | buf, c :: cs =>
    if c = newline ∨ buf.length + 1 = 1022 then (buf ++ [c]) :: fgetsAll [] cs
    else fgetsAll (buf ++ [c]) cs

/-- The string in the buffer ends at its first NUL. -/
def cstr (buf : Text) : Text := buf.takeWhile (· ≠ 0)

/-- `" C "` -/
def codeMark : Text := [0x20, 0x43, 0x20]

/-- `strstr(s, " C ")`: what is before the first mark and what is behind it. -/
def splitAtCode : Text → Option (Text × Text)
  | [] => none
  | c :: cs =>
    if codeMark.isPrefixOf (c :: cs) then some ([], (c :: cs).drop 3)
    else (splitAtCode cs).map fun (before, behind) => (c :: before, behind)

def isspace (c : BitVec 8) : Bool := c = 0x20 ∨ (0x09 ≤ c ∧ c ≤ 0x0d)

def hexValue (c : BitVec 8) : Option Nat :=
  if 0x30 ≤ c ∧ c ≤ 0x39 then some (c.toNat - 0x30)
  else if 0x41 ≤ c ∧ c ≤ 0x46 then some (c.toNat - 0x41 + 10)
  else if 0x61 ≤ c ∧ c ≤ 0x66 then some (c.toNat - 0x61 + 10)
  else none

/-- The value of the leading hexadecimal digits. -/
def hexDigits (acc : Nat) : Text → Nat
  | [] => acc
  | c :: cs =>
    match hexValue c with
    | some d => hexDigits (16 * acc + d) cs
    | none => acc

/-- The 0x in front of a number is optional. -/
def skipHex : Text → Text
  | 0x30 :: 0x78 :: cs => cs
  | 0x30 :: 0x58 :: cs => cs
  | cs => cs

/-- The first word of a string is all that `strtol` can read. -/
def firstWord (s : Text) : Text := (s.dropWhile isspace).takeWhile (!isspace ·)

/-- `strtol(s, NULL, 16)`, which stays within a long, as an unsigned int. -/
def strtol (s : Text) : BitVec 32 :=
  let clamp (v : Int) : Int := max (-2 ^ 63) (min v (2 ^ 63 - 1))
  match firstWord s with
  | 0x2d :: cs => BitVec.ofInt 32 (clamp (-(hexDigits 0 (skipHex cs))))
  | 0x2b :: cs => BitVec.ofInt 32 (clamp (hexDigits 0 (skipHex cs)))
  | cs => BitVec.ofInt 32 (clamp (hexDigits 0 (skipHex cs)))

/-- What is stored for one filled buffer. The last character of the symbol is cut off; of an empty
symbol it is the blank in front of it. -/
def lineEntry (buf : Text) : Option MapEntry :=
  (splitAtCode (cstr buf)).map fun (before, sym) =>
    let cut := if sym = [] then before ++ codeMark.dropLast else before ++ codeMark ++ sym.dropLast
    { addr := strtol cut, sym := some sym.dropLast }

/-! ## Sorting -/

def mapcompare (c d : MapEntry) : Int := (c.addr - d.addr).toInt

/-- What `qsort` asks of a comparison: that it is one order on the elements. -/
structure Orders (l : List MapEntry) : Prop where
  anti : ∀ c ∈ l, ∀ d ∈ l, 0 < mapcompare c d ↔ mapcompare d c < 0
  trans : ∀ c ∈ l, ∀ d ∈ l, ∀ e ∈ l, mapcompare c d ≤ 0 → mapcompare d e ≤ 0 → mapcompare c e ≤ 0

/-- A `qsort` for the comparison of addresses. It may leave equal elements in any order. -/
structure Qsort where
  sort : List MapEntry → List MapEntry
  perm : ∀ l, (sort l).Perm l
  sorted : ∀ l, Orders l → (sort l).Pairwise fun c d => mapcompare c d ≤ 0

/-! ## Reading a map file -/

/-- Free any existing map entries. The loop variable is left behind the last one. -/
def freeEntries (s : State) : Except MapFault (Nat × State) :=
  match s.maparray with
  | .null => .ok (0, s)
  | .freed => .error .freed
  | .live entries =>
    if (entries.take s.mapcnt).all Option.isSome then
      .ok (s.mapcnt, { s with maparray := .freed, mapidx := 0, mapcnt := 0 })
    else .error .uninitialised

/-- Store the entries from index `i` on. -/
def fill : Nat → List (Option MapEntry) → List MapEntry → Except MapFault (List (Option MapEntry))
  | _, entries, [] => .ok entries
  | i, entries, e :: es =>
    if i < entries.length then fill (i + 1) (entries.set i (some e)) es else .error .outOfBounds

/-- The elements that `qsort` compares. -/
def initialised (entries : List (Option MapEntry)) : Except MapFault (List MapEntry) :=
  match entries.mapM id with
  | some es => .ok es
  | none => .error .uninitialised

def finalEntry : MapEntry := ⟨0xFFFF, none⟩

/-- `read_mapfile`. The file is none when it cannot be opened. -/
def readMapfile (q : Qsort) (file : Option Text) (s : State) : Except MapFault State := do
  let (i, s) ← freeEntries s
  match file with
  | none => return s
  | some text =>
    let found := (fgetsAll [] text).filterMap lineEntry
    let mapcnt := s.mapcnt + found.length
    let entries ← fill i (List.replicate (mapcnt + 1) none) found
    let sorted ← initialised (entries.take mapcnt)
    let entries := ((q.sort sorted).map some ++ entries.drop mapcnt).set mapcnt (some finalEntry)
    return { s with maparray := .live entries, mapcnt := mapcnt, mapfileLoaded := true }

/-! ## Lookups -/

/-- The index of the first entry from `i` on with that name, among the next `n`. -/
def findSym (s : State) (sym : Text) : Nat → Nat → Except MapFault (Option Nat)
  | _, 0 => return none
  | i, n + 1 => do
    let e ← entryAt s i
    match e.sym with
    | none => .error .null
    | some name => if name = sym then return some i else findSym s sym (i + 1) n

def getSymAddress (s : State) (sym : Text) : Except MapFault Int := do
  if sym = [] then return -1
  match ← findSym s sym 0 s.mapcnt with
  | none => return -1
  | some i => return (← entryAt s i).addr.toInt

/-- The first entry from `j` on with a higher address, among the next `n`. -/
def findHigher (s : State) (addr : BitVec 32) : Nat → Nat → Except MapFault Int
  | _, 0 => return -1
  | j, n + 1 => do
    let e ← entryAt s j
    if e.addr > addr then return (e.addr - 1).toInt else findHigher s addr (j + 1) n

def getSymEndAddress (s : State) (sym : Text) : Except MapFault Int := do
  if sym = [] then return -1
  match ← findSym s sym 0 s.mapcnt with
  | none => return -1
  | some i => findHigher s (← entryAt s i).addr (i + 1) (s.mapcnt - i)

/-- Whether the address is at the entry or between it and the next one. -/
def between (s : State) (addr : BitVec 32) (i : Nat) : Except MapFault Bool := do
  if (← entryAt s i).addr ≤ addr then return (← entryAt s (i + 1)).addr > addr else return false

/-- The symbol of an entry and the offset from it. -/
def symbolAt (s : State) (addr : BitVec 32) (i : Nat) : Except MapFault (Option (Text × Int)) := do
  let e ← entryAt s i
  return e.sym.map fun name => (name, (addr - e.addr).toInt)

/-- The search loop, from `mapidx` on, with `n` entries left. -/
def search (s : State) (addr : BitVec 32) : Nat → Nat → Except MapFault (Option (Text × Int) × Nat)
  | idx, 0 => return (none, idx)
  | idx, n + 1 => do
    if ← between s addr idx then return (← symbolAt s addr idx, idx) else search s addr (idx + 1) n

/-- `get_symbol_and_offset` with a place for the offset. -/
def getSymbolAndOffset (s : State) (addr : BitVec 32) : Except MapFault (Option (Text × Int) × State) := do
  if s.mapcnt = 0 then return (none, s)
  if ← between s addr s.mapidx then return (← symbolAt s addr s.mapidx, s)
  let (found, idx) ← search s addr 0 s.mapcnt
  return (found, { s with mapidx := idx })

end Fuzemsys.Emulators.MapFile
