import Fuzemsys.Emulators.MapFileRuns
import Fuzemsys.Emulators.Monitor

/-!
# Which command lines the monitor reads right

`str_scan` returns one less than the number of words, or their number when the
line ends in blanks. The table is full at the sixth word, which is not
terminated then.
-/

namespace Fuzemsys.Emulators.Monitor

open MapFile (Text cstr)

/-! ## What is asked of a line -/

/-- The words that blanks, characters that are not graphic, separate. -/
def words (line : Text) : List Text := (line.splitOnP (!isgraph ·)).filter (· ≠ [])

/-- Blanks, then perhaps a word that ends the line or has a blank behind it. -/
inductive Form : Text → Prop where
  | blank {str : Text} (hstr : ∀ c ∈ str, isgraph c = false) : Form str
  | last {blanks word : Text} (hblanks : ∀ c ∈ blanks, isgraph c = false) (hword : ∀ c ∈ word, isgraph c)
      (hne : word ≠ []) : Form (blanks ++ word)
  | more {blanks word : Text} {c : BitVec 8} (hblanks : ∀ c ∈ blanks, isgraph c = false)
      (hword : ∀ c ∈ word, isgraph c) (hne : word ≠ []) (hc : isgraph c = false) (behind : Text) :
      Form (blanks ++ (word ++ c :: behind))

theorem form (str : Text) : Form str := by
  have hsplit := List.takeWhile_append_dropWhile (p := (!isgraph ·)) (l := str)
  have hblanks : ∀ c ∈ str.takeWhile (!isgraph ·), isgraph c = false := fun c hc => by
    simpa using List.mem_takeWhile_imp hc
  generalize str.takeWhile (!isgraph ·) = blanks at *
  by_cases hrest : str.dropWhile (!isgraph ·) = []
  · rw [hrest, List.append_nil] at hsplit
    exact .blank (hsplit ▸ hblanks)
  have hhead : isgraph ((str.dropWhile (!isgraph ·)).head hrest) := by
    simpa using List.head_dropWhile_not (!isgraph ·) hrest
  generalize str.dropWhile (!isgraph ·) = rest at *
  have hagain := List.takeWhile_append_dropWhile (p := isgraph) (l := rest)
  have hword : ∀ c ∈ rest.takeWhile isgraph, isgraph c := fun c hc => List.mem_takeWhile_imp hc
  have hne : rest.takeWhile isgraph ≠ [] := by
    obtain ⟨c, cs, rfl⟩ := List.exists_cons_of_ne_nil hrest
    simp_all
  match hdrop : rest.dropWhile isgraph with
  | [] =>
    rw [hdrop, List.append_nil] at hagain
    rw [← hsplit, ← hagain]
    exact .last hblanks hword hne
  | c :: behind =>
    have hc : isgraph c = false := by
      have hfirst := List.head_dropWhile_not isgraph (l := rest) (by simp [hdrop])
      simpa [hdrop] using hfirst
    rw [hdrop] at hagain
    rw [← hsplit, ← hagain]
    exact .more hblanks hword hne hc behind

section
variable {maxi i : Nat} {done blanks word behind str : Text} {c : BitVec 8} {table : ArgTable}

end

section
variable {maxi i limit : Nat} {done blanks word behind str : Text} {c : BitVec 8} {table : ArgTable}

end

section
variable (syms : Symbols) {sc : Scanned} {n : Nat} (word : Text) (hargs : ∀ i < n, ∃ text, sc.arg i = .ok text)
include hargs

end

def IsLiteral (t : Text) : Prop := ∃ c, t.head? = some c ∧ (c = dollar ∨ isdigit c)

/-- The text of an address: a number, a symbol, or a symbol and an offset that is such a text again. -/
inductive AddrText where
  | number (t : { t : Text // IsLiteral t })
  | symbol (name : { t : Text // ¬IsLiteral t ∧ plus ∉ t })
  | offset (name : { t : Text // ¬IsLiteral t ∧ plus ∉ t }) (offset : AddrText)

namespace AddrText

def text : AddrText → Text
  | number t => t
  | symbol name => name
  | offset name t => name ++ plus :: t.text

/-- The value of a number, as `strtol` reads it. -/
def numberValue (t : Text) : Int := if t.head? = some dollar then strtol 16 t.tail else strtol 10 t

end AddrText

/-- The address of a symbol, which no empty name has. -/
def Symbols.known (syms : Symbols) (name : Text) : Option (BitVec 32) := if name = [] then none else syms.address name

namespace AddrText

/-- The sum of the parts, if none is unknown. -/
def sum (syms : Symbols) : AddrText → Option Int
  | number t => some (numberValue t)
  | symbol name => (syms.known name).map fun addr => addr.toNat
  | offset name t => (syms.known name).bind fun addr => (t.sum syms).map fun v => addr.toNat + v

/-- Neither a symbol's address nor the sum of the parts from some part on is -1, modulo `2 ^ 32`. -/
def Plain (syms : Symbols) : AddrText → Prop
  | number t => BitVec.ofInt 32 (numberValue t) ≠ -1
  | symbol name => syms.known name ≠ some (-1)
  | offset name t => t.Plain syms ∧ syms.known name ≠ some (-1) ∧
      ∀ v, (offset name t).sum syms = some v → BitVec.ofInt 32 v ≠ -1

/-- `parse_addr` returns the sum of the parts, or -1 exactly when a part is unknown. -/
def Right (syms : Symbols) (t : AddrText) : Prop :=
  match t.sum syms with
  | some v => (parseAddr syms t.text).value ≠ -1 ∧ (parseAddr syms t.text).value.toInt = v
  | none => (parseAddr syms t.text).value = -1

end AddrText

section
variable (syms : Symbols) {t : Text}

end

namespace AddrText

variable (syms : Symbols)

/-- No address that is known passes for the error. -/
def Fits (t : AddrText) : Prop := ∀ v, t.sum syms = some v → t.Plain syms ∧ -2 ^ 31 ≤ v ∧ v < 2 ^ 31

end AddrText

/-- What lookups in a map file with these symbols find. -/
def symbolsOf (s : MapFile.State) (found : List MapFile.Symbol) : Symbols where
  address name :=
    if ∃ c ∈ found, c.2 = name then (MapFile.getSymAddress s name).toOption.map fun v => BitVec.ofInt 32 v
    else none
  getSymEndAddress name := (MapFile.getSymEndAddress s name).toOption.getD (-1)

theorem getSymAddress_symbolsOf {s : MapFile.State} {found : List MapFile.Symbol} (h : MapFile.Inv s found)
    (name : Text) : MapFile.getSymAddress s name = .ok ((symbolsOf s found).getSymAddress name) := by
  obtain ⟨v, hv, haddr⟩ := h.address name
  unfold Symbols.getSymAddress
  obtain ⟨c, hc, hne, hname, rfl⟩ | ⟨hnone, rfl⟩ := haddr
  · have hfound : ∃ c ∈ found, c.2 = name := ⟨c, hc, hname⟩
    rw [hv]
    simp only [hne, symbolsOf, if_false, if_pos hfound, hv, Except.toOption, Option.map_some, BitVec.ofInt_toInt]
  · obtain rfl | hnone := hnone
    · simp [hv]
    · have hmissing : ¬∃ c ∈ found, c.2 = name := fun ⟨c, hc, hname⟩ => hnone c hc hname
      rw [hv]
      simp only [symbolsOf, if_neg hmissing, ite_self]

end Fuzemsys.Emulators.Monitor
