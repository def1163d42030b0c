import Mathlib.Data.List.DropRight
import Fuzemsys.Bintools.Obj
import Fuzemsys.Libs.Ltostr

/-!
# Archives

How `ar` appends members to an archive, and how it reads them for a list and for extraction. A file is its bytes and a
position.
-/

namespace Fuzemsys.Bintools.Ar

open Fuzemsys.Libs.Ltostr (digitsOf)

def text (s : String) : List Byte := s.toList.map fun c => BitVec.ofNat 8 c.toNat

def blank : Byte := 32

def ARFMAG : List Byte := [96, 10]
def AR_EFMT1 : List Byte := [35, 49, 47]
def MAXNAMLEN : Nat := 30

/-! ## Writing -/

/-- A file that goes into an archive: its last name component, what `fstat` says and its bytes. -/
structure Member where
  name : List Byte
  mtime : Nat
  uid : Nat
  gid : Nat
  mode : Nat
  data : List Byte

/-- `%-nd`, `%-no` and `%-ns`. -/
def left (n : Nat) (t : List Byte) : List Byte := t ++ List.replicate (n - t.length) blank

def number (radix n : Nat) : List Byte := (digitsOf radix n).map fun d => BitVec.ofNat 8 (48 + d)

/-- The name does not go into its field. -/
def Member.isLong (m : Member) : Bool := decide (16 < m.name.length) || m.name.contains blank

/-- `lname` after the header is made. -/
def Member.lname (m : Member) : Nat := if m.isLong then m.name.length else 0

/-- What stands in the field of the name. -/
def Member.nameField (m : Member) : List Byte :=
  if m.isLong then AR_EFMT1 ++ left 13 (number 10 m.name.length) else left 16 (m.name.take 16)

/-- `HDR1` and `HDR2`. -/
def Member.header (m : Member) : List Byte :=
  m.nameField ++ (left 12 (number 10 m.mtime) ++ (left 6 (number 10 m.uid) ++ (left 6 (number 10 m.gid) ++
    (left 8 (number 8 m.mode) ++ (left 10 (number 10 (m.data.length + m.lname)) ++ ARFMAG)))))

/-- `copy_ar` to the archive. An empty file gets no padding. -/
def Member.copied (m : Member) : List Byte :=
  if m.data = [] then []
  else m.data ++ if (m.data.length + m.lname) % 2 = 1 then [10] else []

def put_arobj (m : Member) : List Byte := m.header.take 60 ++ (m.name.take m.lname ++ m.copied)

def append (ms : List Member) : List Byte := ms.flatMap put_arobj

/-! ## Reading -/

structure Chdr where
  size : Int
  date : Int
  lname : Nat
  gid : Int
  uid : Int
  mode : Int
  name : List Byte
  deriving DecidableEq

inductive Ending where
  | done
  | badfmt
  | error
  deriving DecidableEq, Repr

def isDigit (radix : Nat) (c : Byte) : Bool := decide (48 ≤ c.toNat) && decide (c.toNat < 48 + radix)

def digits (radix : Nat) (t : List Byte) : Nat :=
  (t.takeWhile (isDigit radix)).foldl (fun v c => v * radix + (c.toNat - 48)) 0

/-- `strtol` and `atoi`. -/
def atoi (radix : Nat) (t : List Byte) : Int :=
  match t.dropWhile fun c => c = blank ∨ 9 ≤ c.toNat ∧ c.toNat ≤ 13 with
  | 45 :: t => -digits radix t
  | 43 :: t => digits radix t
  | t => digits radix t

def field (start len : Nat) (hb : List Byte) : List Byte := (hb.drop start).take len

/-- The member found at `pos`, and where its bytes start. -/
def get_arobj (file : List Byte) (pos : Nat) : Except Ending (Chdr × Nat) :=
  let hb := field pos 60 file
  if hb = [] then .error .done
  else if hb.length ≠ 60 then .error .badfmt
  else if field 58 2 hb ≠ ARFMAG then .error .badfmt
  else if hb.take 1 = [blank] then .error .badfmt
  else
    let size := atoi 10 (field 48 10 hb)
    let date := atoi 10 (field 16 12 hb)
    let uid := atoi 10 (field 28 6 hb)
    let gid := atoi 10 (field 34 6 hb)
    let mode := atoi 8 (field 40 8 hb) % 65536
    if hb.take 3 = AR_EFMT1 then
      let len := atoi 10 (hb.drop 3)
      if len ≤ 0 ∨ MAXNAMLEN < len then .error .badfmt
      else
        let name := field (pos + 60) len.toNat file
        if name.length ≠ len.toNat then .error .badfmt
        else .ok (⟨size - len, date, len.toNat, gid, uid, mode, name⟩, pos + 60 + len.toNat)
    else .ok (⟨size, date, 0, gid, uid, mode, (hb.take 16).rdropWhile (· = blank)⟩, pos + 60)

/-- Where the next header is looked for. -/
def skip_arobj (h : Chdr) (pos : Nat) : Except Ending Nat :=
  let next := pos + (h.size + (h.size + h.lname) % 2)
  if next < 0 then .error .error else .ok next.toNat

/-- The headers that are listed, and how the list ends. -/
def contents (file : List Byte) : Nat → Nat → List Chdr × Ending
  | 0, _ => ([], .error)
  | fuel + 1, pos =>
    match get_arobj file pos with
    | .error e => ([], e)
    | .ok (h, pos) =>
      match skip_arobj h pos with
      | .error e => ([h], e)
      | .ok pos =>
        let (hs, e) := contents file fuel pos
        (h :: hs, e)

end Fuzemsys.Bintools.Ar
