import Mathlib.Data.BitVec
import Mathlib.Data.Fin.VecNotation
import Mathlib.Logic.Function.Basic

/-!
# The block cipher

A block is sixteen bytes and a key is thirty-two. The key of each round is worked out from that of the one before.
-/

namespace Fuzemsys.Libs.Aes256

abbrev Byte := BitVec 8

/-! ## The substitution -/

/-- Read from a table. -/
def sboxTable : List Nat := [
  0x63, 0x7c, 0x77, 0x7b, 0xf2, 0x6b, 0x6f, 0xc5, 0x30, 0x01, 0x67, 0x2b, 0xfe, 0xd7, 0xab, 0x76,
  0xca, 0x82, 0xc9, 0x7d, 0xfa, 0x59, 0x47, 0xf0, 0xad, 0xd4, 0xa2, 0xaf, 0x9c, 0xa4, 0x72, 0xc0,
  0xb7, 0xfd, 0x93, 0x26, 0x36, 0x3f, 0xf7, 0xcc, 0x34, 0xa5, 0xe5, 0xf1, 0x71, 0xd8, 0x31, 0x15,
  0x04, 0xc7, 0x23, 0xc3, 0x18, 0x96, 0x05, 0x9a, 0x07, 0x12, 0x80, 0xe2, 0xeb, 0x27, 0xb2, 0x75,
  0x09, 0x83, 0x2c, 0x1a, 0x1b, 0x6e, 0x5a, 0xa0, 0x52, 0x3b, 0xd6, 0xb3, 0x29, 0xe3, 0x2f, 0x84,
  0x53, 0xd1, 0x00, 0xed, 0x20, 0xfc, 0xb1, 0x5b, 0x6a, 0xcb, 0xbe, 0x39, 0x4a, 0x4c, 0x58, 0xcf,
  0xd0, 0xef, 0xaa, 0xfb, 0x43, 0x4d, 0x33, 0x85, 0x45, 0xf9, 0x02, 0x7f, 0x50, 0x3c, 0x9f, 0xa8,
  0x51, 0xa3, 0x40, 0x8f, 0x92, 0x9d, 0x38, 0xf5, 0xbc, 0xb6, 0xda, 0x21, 0x10, 0xff, 0xf3, 0xd2,
  0xcd, 0x0c, 0x13, 0xec, 0x5f, 0x97, 0x44, 0x17, 0xc4, 0xa7, 0x7e, 0x3d, 0x64, 0x5d, 0x19, 0x73,
  0x60, 0x81, 0x4f, 0xdc, 0x22, 0x2a, 0x90, 0x88, 0x46, 0xee, 0xb8, 0x14, 0xde, 0x5e, 0x0b, 0xdb,
  0xe0, 0x32, 0x3a, 0x0a, 0x49, 0x06, 0x24, 0x5c, 0xc2, 0xd3, 0xac, 0x62, 0x91, 0x95, 0xe4, 0x79,
  0xe7, 0xc8, 0x37, 0x6d, 0x8d, 0xd5, 0x4e, 0xa9, 0x6c, 0x56, 0xf4, 0xea, 0x65, 0x7a, 0xae, 0x08,
  0xba, 0x78, 0x25, 0x2e, 0x1c, 0xa6, 0xb4, 0xc6, 0xe8, 0xdd, 0x74, 0x1f, 0x4b, 0xbd, 0x8b, 0x8a,
  0x70, 0x3e, 0xb5, 0x66, 0x48, 0x03, 0xf6, 0x0e, 0x61, 0x35, 0x57, 0xb9, 0x86, 0xc1, 0x1d, 0x9e,
  0xe1, 0xf8, 0x98, 0x11, 0x69, 0xd9, 0x8e, 0x94, 0x9b, 0x1e, 0x87, 0xe9, 0xce, 0x55, 0x28, 0xdf,
  0x8c, 0xa1, 0x89, 0x0d, 0xbf, 0xe6, 0x42, 0x68, 0x41, 0x99, 0x2d, 0x0f, 0xb0, 0x54, 0xbb, 0x16]

def sboxinvTable : List Nat := [
  0x52, 0x09, 0x6a, 0xd5, 0x30, 0x36, 0xa5, 0x38, 0xbf, 0x40, 0xa3, 0x9e, 0x81, 0xf3, 0xd7, 0xfb,
  0x7c, 0xe3, 0x39, 0x82, 0x9b, 0x2f, 0xff, 0x87, 0x34, 0x8e, 0x43, 0x44, 0xc4, 0xde, 0xe9, 0xcb,
  0x54, 0x7b, 0x94, 0x32, 0xa6, 0xc2, 0x23, 0x3d, 0xee, 0x4c, 0x95, 0x0b, 0x42, 0xfa, 0xc3, 0x4e,
  0x08, 0x2e, 0xa1, 0x66, 0x28, 0xd9, 0x24, 0xb2, 0x76, 0x5b, 0xa2, 0x49, 0x6d, 0x8b, 0xd1, 0x25,
  0x72, 0xf8, 0xf6, 0x64, 0x86, 0x68, 0x98, 0x16, 0xd4, 0xa4, 0x5c, 0xcc, 0x5d, 0x65, 0xb6, 0x92,
  0x6c, 0x70, 0x48, 0x50, 0xfd, 0xed, 0xb9, 0xda, 0x5e, 0x15, 0x46, 0x57, 0xa7, 0x8d, 0x9d, 0x84,
  0x90, 0xd8, 0xab, 0x00, 0x8c, 0xbc, 0xd3, 0x0a, 0xf7, 0xe4, 0x58, 0x05, 0xb8, 0xb3, 0x45, 0x06,
  0xd0, 0x2c, 0x1e, 0x8f, 0xca, 0x3f, 0x0f, 0x02, 0xc1, 0xaf, 0xbd, 0x03, 0x01, 0x13, 0x8a, 0x6b,
  0x3a, 0x91, 0x11, 0x41, 0x4f, 0x67, 0xdc, 0xea, 0x97, 0xf2, 0xcf, 0xce, 0xf0, 0xb4, 0xe6, 0x73,
  0x96, 0xac, 0x74, 0x22, 0xe7, 0xad, 0x35, 0x85, 0xe2, 0xf9, 0x37, 0xe8, 0x1c, 0x75, 0xdf, 0x6e,
  0x47, 0xf1, 0x1a, 0x71, 0x1d, 0x29, 0xc5, 0x89, 0x6f, 0xb7, 0x62, 0x0e, 0xaa, 0x18, 0xbe, 0x1b,
  0xfc, 0x56, 0x3e, 0x4b, 0xc6, 0xd2, 0x79, 0x20, 0x9a, 0xdb, 0xc0, 0xfe, 0x78, 0xcd, 0x5a, 0xf4,
  0x1f, 0xdd, 0xa8, 0x33, 0x88, 0x07, 0xc7, 0x31, 0xb1, 0x12, 0x10, 0x59, 0x27, 0x80, 0xec, 0x5f,
  0x60, 0x51, 0x7f, 0xa9, 0x19, 0xb5, 0x4a, 0x0d, 0x2d, 0xe5, 0x7a, 0x9f, 0x93, 0xc9, 0x9c, 0xef,
  0xa0, 0xe0, 0x3b, 0x4d, 0xae, 0x2a, 0xf5, 0xb0, 0xc8, 0xeb, 0xbb, 0x3c, 0x83, 0x53, 0x99, 0x61,
  0x17, 0x2b, 0x04, 0x7e, 0xba, 0x77, 0xd6, 0x26, 0xe1, 0x69, 0x14, 0x63, 0x55, 0x21, 0x0c, 0x7d]

def sbox (x : Byte) : Byte := BitVec.ofNat 8 (sboxTable.getD x.toNat 0)

def sboxinv (x : Byte) : Byte := BitVec.ofNat 8 (sboxinvTable.getD x.toNat 0)

def rj_xtime (x : Byte) : Byte := if x &&& 0x80 ≠ 0 then (x <<< 1) ^^^ 0x1b else x <<< 1

/-- `FD`, which takes back `rj_xtime`. -/
def FD (x : Byte) : Byte := (x >>> 1) ^^^ (if x &&& 1 ≠ 0 then 0x8d else 0)

namespace Tableless

end Tableless

/-! ## The steps of a round -/

abbrev Block := Fin 16 → Byte

abbrev Key := Fin 32 → Byte

instance neZero_block : NeZero 16 := ⟨by decide⟩

instance neZero_key : NeZero 32 := ⟨by decide⟩

theorem block_le_key : 16 ≤ 32 := by decide

def aes_subBytes (buf : Block) : Block := fun i => sbox (buf i)

def aes_subBytes_inv (buf : Block) : Block := fun i => sboxinv (buf i)

/-- With the sixteen bytes of the key from this one on. -/
def aes_addRoundKey (buf : Block) (key : Key) (start : Fin 32) : Block := fun i =>
  buf i ^^^ key (start + i.castLE block_le_key)

/-- One byte is assigned. -/
def put (buf : Block) (i : Fin 16) (v : Byte) : Block := Function.update buf i v

def aes_shiftRows (b : Block) : Block :=
  let i := b 1
  let b := put b 1 (b 5)
  let b := put b 5 (b 9)
  let b := put b 9 (b 13)
  let b := put b 13 i
  let i := b 10
  let b := put b 10 (b 2)
  let b := put b 2 i
  let j := b 3
  let b := put b 3 (b 15)
  let b := put b 15 (b 11)
  let b := put b 11 (b 7)
  let b := put b 7 j
  let j := b 14
  let b := put b 14 (b 6)
  put b 6 j

def aes_shiftRows_inv (b : Block) : Block :=
  let i := b 1
  let b := put b 1 (b 13)
  let b := put b 13 (b 9)
  let b := put b 9 (b 5)
  let b := put b 5 i
  let i := b 2
  let b := put b 2 (b 10)
  let b := put b 10 i
  let j := b 3
  let b := put b 3 (b 7)
  let b := put b 7 (b 11)
  let b := put b 11 (b 15)
  let b := put b 15 j
  let j := b 6
  let b := put b 6 (b 14)
  put b 14 j

/-- Four bytes from this one on get these values as well. -/
def mixAt (buf : Block) (i : Fin 16) (p q r s : Byte) : Block :=
  let buf := put buf i (buf i ^^^ p)
  let buf := put buf (i + 1) (buf (i + 1) ^^^ q)
  let buf := put buf (i + 2) (buf (i + 2) ^^^ r)
  put buf (i + 3) (buf (i + 3) ^^^ s)

def mixColumn (buf : Block) (i : Fin 16) : Block :=
  let a := buf i
  let b := buf (i + 1)
  let c := buf (i + 2)
  let d := buf (i + 3)
  let e := a ^^^ b ^^^ c ^^^ d
  mixAt buf i (e ^^^ rj_xtime (a ^^^ b)) (e ^^^ rj_xtime (b ^^^ c)) (e ^^^ rj_xtime (c ^^^ d))
    (e ^^^ rj_xtime (d ^^^ a))

def mixColumnInv (buf : Block) (i : Fin 16) : Block :=
  let a := buf i
  let b := buf (i + 1)
  let c := buf (i + 2)
  let d := buf (i + 3)
  let e := a ^^^ b ^^^ c ^^^ d
  let z := rj_xtime e
  let x := e ^^^ rj_xtime (rj_xtime (z ^^^ a ^^^ c))
  let y := e ^^^ rj_xtime (rj_xtime (z ^^^ b ^^^ d))
  mixAt buf i (x ^^^ rj_xtime (a ^^^ b)) (y ^^^ rj_xtime (b ^^^ c)) (x ^^^ rj_xtime (c ^^^ d))
    (y ^^^ rj_xtime (d ^^^ a))

def aes_mixColumns (buf : Block) : Block := [0, 4, 8, 12].foldl mixColumn buf

def aes_mixColumns_inv (buf : Block) : Block := [0, 4, 8, 12].foldl mixColumnInv buf

/-! ## The keys of the rounds -/

/-- Four bytes of the key from this one on get the four from the other as well. -/
def chain (k : Key) (i : Fin 32) : Key :=
  let k := Function.update k i (k i ^^^ k (i - 4))
  let k := Function.update k (i + 1) (k (i + 1) ^^^ k (i - 3))
  let k := Function.update k (i + 2) (k (i + 2) ^^^ k (i - 2))
  Function.update k (i + 3) (k (i + 3) ^^^ k (i - 1))

/-- The first four bytes, from the last four. -/
def first (k : Key) (rc : Byte) : Key :=
  let k := Function.update k 0 (k 0 ^^^ (sbox (k 29) ^^^ rc))
  let k := Function.update k 1 (k 1 ^^^ sbox (k 30))
  let k := Function.update k 2 (k 2 ^^^ sbox (k 31))
  Function.update k 3 (k 3 ^^^ sbox (k 28))

/-- The four bytes in the middle. -/
def middle (k : Key) : Key :=
  let k := Function.update k 16 (k 16 ^^^ sbox (k 12))
  let k := Function.update k 17 (k 17 ^^^ sbox (k 13))
  let k := Function.update k 18 (k 18 ^^^ sbox (k 14))
  Function.update k 19 (k 19 ^^^ sbox (k 15))

def aes_expandEncKey (k : Key) (rc : Byte) : Key × Byte :=
  ([20, 24, 28].foldl chain (middle ([4, 8, 12].foldl chain (first k rc))), rj_xtime rc)

def aes_expandDecKey (k : Key) (rc : Byte) : Key × Byte :=
  (first ([12, 8, 4].foldl chain (middle ([28, 24, 20].foldl chain k))) (FD rc), FD rc)

/-! ## The cipher -/

structure Context where
  key : Key
  enckey : Key
  deckey : Key

/-- The block, the key worked on, and the round constant. -/
structure Work where
  buf : Block
  key : Key
  rcon : Byte

namespace Work

variable (w : Work)

def sub : Work := { w with buf := aes_subBytes w.buf }
def shift : Work := { w with buf := aes_shiftRows w.buf }
def mix : Work := { w with buf := aes_mixColumns w.buf }
def subInv : Work := { w with buf := aes_subBytes_inv w.buf }
def shiftInv : Work := { w with buf := aes_shiftRows_inv w.buf }
def mixInv : Work := { w with buf := aes_mixColumns_inv w.buf }
def add (start : Fin 32) : Work := { w with buf := aes_addRoundKey w.buf w.key start }

def expand : Work := { w with key := (aes_expandEncKey w.key w.rcon).1, rcon := (aes_expandEncKey w.key w.rcon).2 }

def expandInv : Work := { w with key := (aes_expandDecKey w.key w.rcon).1, rcon := (aes_expandDecKey w.key w.rcon).2 }

end Work

end Fuzemsys.Libs.Aes256
