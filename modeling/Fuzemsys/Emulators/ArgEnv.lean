import Fuzemsys.Lib.Blocks
import Fuzemsys.Emulators.Memory

/-!
# Arguments and the environment

`set_arg_env` builds the first stack of a program: argc, the pointers to the
two tables, the argv table, the envp table and then all the strings.
-/

open Fuzemsys.Lib

namespace Fuzemsys.Emulators

/-- Max cmd-line args per process. -/
def MAX_ARGS : Nat := 200

/-- A C string of the host, without its NUL. -/
abbrev CStr := List (BitVec 8)

/-! ## The function -/

/-- A pointer to a location in the emulated memory, NULL for address zero. -/
def getMemptr (addr : BitVec 16) : Option Nat := if addr = 0 then none else some addr.toNat

/-- `memcpy` into `ram[]`. A null pointer or a copy past the array is a fault. -/
def memcpy (m : Mem) (cptr : Option Nat) (bytes : List (BitVec 8)) : Except Stop Mem :=
  match cptr with
  | none => .error .fault
  | some at_ =>
    if at_ + bytes.length ≤ 65536 then .ok { m with ram := overlay at_ bytes m.ram }
    else .error .fault

/-- Copies strings below `posn`, the last one first. Returns where each one went. -/
def copyStrings (m : Mem) (posn : BitVec 16) :
    List CStr → Except Stop (Mem × BitVec 16 × List (BitVec 16))
  | [] => .ok (m, posn, [])
  | str :: rest => do
    let (m, posn, eposn) ← copyStrings m posn rest
    let len := BitVec.ofNat 16 (str.length + 1)
    let posn := posn - len
    let m ← memcpy m (getMemptr posn) ((str ++ [0]).take len.toNat)
    .ok (m, posn, posn :: eposn)

/-- Puts pointers below `posn`, the last one first. -/
def putPointers (cpu : Cpu) (m : Mem) (posn : BitVec 16) :
    List (BitVec 16) → Except Stop (Mem × BitVec 16)
  | [] => .ok (m, posn)
  | ptr :: rest => do
    let (m, posn) ← putPointers cpu m posn rest
    let posn := posn - 2
    let m ← putui cpu m posn ptr
    .ok (m, posn)

/-- Build an envp[] and argv[] array below the sp value. Return the new stack pointer value. -/
def setArgEnv (cpu : Cpu) (m : Mem) (sp : BitVec 16) (argv envp : List CStr) :
    Except Stop (Mem × BitVec 16) :=
  -- More than MAX_ARGS entries overrun eposn[] or aposn[].
  if MAX_ARGS < argv.length ∨ MAX_ARGS < envp.length then .error .fault
  else do
    let argc := BitVec.ofNat 16 argv.length
    let posn := sp - 2
    let m ← putui cpu m posn 0
    let (m, posn, eposn) ← copyStrings m posn envp
    let (m, posn, aposn) ← copyStrings m posn argv
    let posn := posn - 2
    let m ← putui cpu m posn 0
    let (m, posn) ← putPointers cpu m posn eposn
    let envpposn := posn
    let posn := posn - 2
    let m ← putui cpu m posn 0
    let (m, posn) ← putPointers cpu m posn aposn
    let argvposn := posn
    let posn := posn - 2
    let m ← putui cpu m posn envpposn
    let posn := posn - 2
    let m ← putui cpu m posn argvposn
    let posn := posn - 2
    let m ← putui cpu m posn argc
    .ok (m, posn)

/-! ## The layout it should build -/

/-- `str`, ended by a NUL, stands at address `a`. -/
def CStringAt (m : Mem) (a : BitVec 16) (str : CStr) : Prop :=
  0 ∉ str ∧ valuesAt m.ram a (str.length + 1) = str ++ [0]

/-- The first `n` words of a table of pointers. -/
def pointerTable (cpu : Cpu) (m : Mem) (tab : BitVec 16) (n : Nat) : List (BitVec 16) :=
  (List.range n).map fun i => getui cpu m (tab + BitVec.ofNat 16 (2 * i))

/-- The bytes of strings with their NULs. -/
def stringBytes (strs : List CStr) : Nat := (strs.map (·.length + 1)).sum

/-- The three words at the stack pointer and both tables with their null pointers. -/
def tableBytes (argv envp : List CStr) : Nat := 6 + 2 * (argv.length + 1) + 2 * (envp.length + 1)

/-- All that is stored below the old stack pointer. -/
def stackNeed (argv envp : List CStr) : Nat :=
  tableBytes argv envp + stringBytes argv + stringBytes envp + 2

/-- Where each string stands, with its length. -/
def stringRegions (ptrs : List (BitVec 16)) (strs : List CStr) : List Region :=
  List.zipWith (fun a str => { start := a.toNat, len := str.length + 1 }) ptrs strs

/-- The initial stack at `p`, below the old stack pointer `sp`. `m0` is the memory before. -/
structure StackLayout (cpu : Cpu) (m0 m : Mem) (sp p : BitVec 16) (argv envp : List CStr) :
    Prop where
  argc : getui cpu m p = BitVec.ofNat 16 argv.length
  argv_strings : List.Forall₂ (CStringAt m)
    (pointerTable cpu m (getui cpu m (p + 2)) argv.length) argv
  argv_null : getui cpu m (getui cpu m (p + 2) + BitVec.ofNat 16 (2 * argv.length)) = 0
  envp_strings : List.Forall₂ (CStringAt m)
    (pointerTable cpu m (getui cpu m (p + 4)) envp.length) envp
  envp_null : getui cpu m (getui cpu m (p + 4) + BitVec.ofNat 16 (2 * envp.length)) = 0
  disjoint : List.Pairwise Region.Disjoint
    ([{ start := p.toNat, len := 6 },
      { start := (getui cpu m (p + 2)).toNat, len := 2 * (argv.length + 1) },
      { start := (getui cpu m (p + 4)).toNat, len := 2 * (envp.length + 1) }] ++
      stringRegions (pointerTable cpu m (getui cpu m (p + 2)) argv.length) argv ++
      stringRegions (pointerTable cpu m (getui cpu m (p + 4)) envp.length) envp)
  unchanged : ∀ a : BitVec 16, a.toNat < p.toNat ∨ sp.toNat ≤ a.toNat → m.ram a = m0.ram a

/-- No word of the tables is at a special location of the 6809, and the word on top of the
stack is not at the one that exits. -/
def AvoidsSpecial (sp : BitVec 16) (argv envp : List CStr) : Prop :=
  let p := sp.toNat - stackNeed argv envp
  (p + tableBytes argv envp ≤ 0xFEFC ∨ 0xFEFF < p) ∧ sp.toNat - 2 ≠ 0xFEFF ∧ sp.toNat - 1 ≠ 0xFEFF

instance (sp : BitVec 16) (argv envp : List CStr) : Decidable (AvoidsSpecial sp argv envp) :=
  inferInstanceAs (Decidable (_ ∧ _))

/-! ## One word, one string -/

def Mem.setRam (m : Mem) (ram : BitVec 16 → BitVec 8) : Mem := { m with ram := ram }

@[simp]
theorem setRam_ram (m : Mem) (g : BitVec 16 → BitVec 8) : (m.setRam g).ram = g := rfl

@[simp]
theorem setRam_setRam (m : Mem) (g h : BitVec 16 → BitVec 8) : (m.setRam g).setRam h = m.setRam h := rfl

/-- The bytes of a word in the order of the CPU. -/
def wordBytes (cpu : Cpu) (val : BitVec 16) : List (BitVec 8) :=
  match cpu with
  | .cpu6809 => [(val >>> 8).setWidth 8, (val &&& 0xff).setWidth 8]
  | .cpuZ80 => [(val &&& 0xff).setWidth 8, (val >>> 8).setWidth 8]

@[simp]
theorem wordBytes_length (cpu : Cpu) (val : BitVec 16) : (wordBytes cpu val).length = 2 := by
  cases cpu <;> rfl

theorem hiLo_split (val : BitVec 16) :
    (hiLo ((val >>> 8).setWidth 8) ((val &&& 0xff).setWidth 8)).setWidth 16 = val := by
  apply BitVec.eq_of_toNat_eq
  have hval := val.isLt
  have hmask : val.toNat &&& 255 = val.toNat % 2 ^ 8 := Nat.and_two_pow_sub_one_eq_mod _ 8
  have hlow : (val &&& 0xff).toNat = val.toNat % 2 ^ 8 := hmask
  rw [BitVec.toNat_setWidth, hiLo_toNat, BitVec.toNat_setWidth, BitVec.toNat_setWidth, hlow,
    BitVec.toNat_ushiftRight, Nat.shiftRight_eq_div_pow]
  omega

/-- A word reads back as it was stored. -/
theorem getui_of_bytes (cpu : Cpu) (m : Mem) (a val : BitVec 16)
    (h : valuesAt m.ram a 2 = wordBytes cpu val) : getui cpu m a = val := by
  have hnext : (a.setWidth 32 + 1 : BitVec 32).setWidth 16 = a + 1 := by
    rw [BitVec.setWidth_add _ _ (by decide)]
    simp
  have hself : (a.setWidth 32 : BitVec 32).setWidth 16 = a := by simp
  cases cpu
  · simp only [valuesAt, wordBytes, List.range_succ, List.range_zero, List.nil_append,
      List.cons_append, List.map_cons, List.map_nil, List.cons.injEq, BitVec.add_zero] at h
    obtain ⟨hhi, hlo, -⟩ := h
    simp only [getui, wordAt, e6809Read8, hnext, hself]
    rw [hhi, show a + 1 = a + BitVec.ofNat 16 1 from rfl, hlo]
    exact hiLo_split val
  · simp only [valuesAt, wordBytes, List.range_succ, List.range_zero, List.nil_append,
      List.cons_append, List.map_cons, List.map_nil, List.cons.injEq, BitVec.add_zero] at h
    obtain ⟨hlo, hhi, -⟩ := h
    simp only [getui, wordAt, memRead]
    rw [hlo, show a + 1 = a + BitVec.ofNat 16 1 from rfl, hhi]
    exact hiLo_split val

theorem addr_succ_toNat (a : BitVec 16) (h : a.toNat + 1 < 65536) : (a + 1).toNat = a.toNat + 1 := by
  rw [BitVec.toNat_add, show (1 : BitVec 16).toNat = 1 from rfl]
  exact Nat.mod_eq_of_lt h

/-- A store away from the special locations is a plain store. -/
theorem e6809Write8_plain (m : Mem) (a : BitVec 16) (v : BitVec 8)
    (ha : a.toNat < 0xFEFC ∨ 0xFEFF < a.toNat) :
    e6809Write8 m (a.setWidth 32) v = .ok (m.setRam (Function.update m.ram a v)) := by
  have hlt := a.isLt
  have hne : ∀ c : BitVec 32, 0xFEFC ≤ c.toNat → c.toNat ≤ 0xFEFF → (a.setWidth 32 : BitVec 32) ≠ c := by
    intro c h1 h2 heq
    have := congrArg BitVec.toNat heq
    rw [BitVec.toNat_setWidth] at this
    omega
  rw [e6809Write8, if_neg (hne _ (by decide) (by decide)), if_neg (hne _ (by decide) (by decide)),
    if_neg (hne _ (by decide) (by decide)), if_neg (hne _ (by decide) (by decide))]
  simp [Mem.setRam]

/-- Away from the special locations, `putui` stores the two bytes and does nothing else. -/
theorem putui_spec (cpu : Cpu) (m : Mem) (addr val : BitVec 16) (hroom : addr.toNat + 2 ≤ 65536)
    (hspecial : cpu = .cpu6809 → addr.toNat + 2 ≤ 0xFEFC ∨ 0xFEFF < addr.toNat) :
    putui cpu m addr val = .ok (m.setRam (overlay addr.toNat (wordBytes cpu val) m.ram)) := by
  have hnext := addr_succ_toNat addr (by omega)
  cases cpu
  · have hs := hspecial rfl
    have hfirst := e6809Write8_plain m addr ((val >>> 8).setWidth 8) (by omega)
    have hsecond := e6809Write8_plain (m.setRam (Function.update m.ram addr ((val >>> 8).setWidth 8)))
      (addr + 1) ((val &&& 0xff).setWidth 8) (by omega)
    simp only [putui, hfirst, bind, Except.bind, hsecond, setRam_ram, setRam_setRam]
    rw [update_update_eq_overlay _ _ _ _ (by omega)]
    rfl
  · simp only [putui, memWrite, wordBytes]
    rw [update_update_eq_overlay _ _ _ _ (by omega)]
    rfl

/-- The word on top of the stack: at worst a special location swallows it. -/
theorem putui_top (cpu : Cpu) (m : Mem) (addr val : BitVec 16) (hroom : addr.toNat + 2 ≤ 65536)
    (hexit : cpu = .cpu6809 → addr.toNat ≠ 0xFEFF ∧ addr.toNat + 1 ≠ 0xFEFF) :
    ∃ m', putui cpu m addr val = .ok m' ∧
      ∀ a : BitVec 16, a.toNat < addr.toNat ∨ addr.toNat + 2 ≤ a.toNat → m'.ram a = m.ram a := by
  have hnext := addr_succ_toNat addr (by omega)
  have hwrite : ∀ (m : Mem) (b : BitVec 16) (v : BitVec 8), b.toNat ≠ 0xFEFF →
      ∃ m', e6809Write8 m (b.setWidth 32) v = .ok m' ∧ ∀ a, a ≠ b → m'.ram a = m.ram a := by
    intro m b v hb
    have hlt := b.isLt
    have hne : (b.setWidth 32 : BitVec 32) ≠ 0xFEFF := by
      intro heq
      have := congrArg BitVec.toNat heq
      rw [BitVec.toNat_setWidth, show (0xFEFF : BitVec 32).toNat = 0xFEFF from rfl] at this
      omega
    rw [e6809Write8, if_neg hne]
    split
    · exact ⟨_, rfl, fun _ _ => rfl⟩
    split
    · exact ⟨_, rfl, fun _ _ => rfl⟩
    split
    · exact ⟨_, rfl, fun _ _ => rfl⟩
    · refine ⟨_, rfl, fun a ha => ?_⟩
      simp [Function.update_of_ne ha]
  have houtside : ∀ a : BitVec 16, a.toNat < addr.toNat ∨ addr.toNat + 2 ≤ a.toNat →
      a ≠ addr ∧ a ≠ addr + 1 := by
    intro a ha
    constructor <;> rintro rfl <;> omega
  cases cpu
  · have he := hexit rfl
    obtain ⟨m1, h1, hr1⟩ := hwrite m addr ((val >>> 8).setWidth 8) he.1
    obtain ⟨m2, h2, hr2⟩ := hwrite m1 (addr + 1) ((val &&& 0xff).setWidth 8) (by omega)
    refine ⟨m2, by simp only [putui, h1, bind, Except.bind, h2], fun a ha => ?_⟩
    obtain ⟨hne1, hne2⟩ := houtside a ha
    rw [hr2 a hne2, hr1 a hne1]
  · refine ⟨_, rfl, fun a ha => ?_⟩
    obtain ⟨hne1, hne2⟩ := houtside a ha
    simp only [memWrite]
    rw [Function.update_of_ne hne2, Function.update_of_ne hne1]

/-! ## The filling loops -/

theorem sub_toNat_of_le (a : BitVec 16) (n : Nat) (hn : n ≤ a.toNat) :
    (a - BitVec.ofNat 16 n).toNat = a.toNat - n := by
  have ha := a.isLt
  rw [BitVec.toNat_sub, BitVec.toNat_ofNat, Nat.mod_eq_of_lt (by omega : n < 2 ^ 16)]
  omega

/-- The memory from `posn` up to `top` holds `img`, the rest is as in `ram0`. -/
def Filled (top : Nat) (ram0 : BitVec 16 → BitVec 8) (img : List (BitVec 8)) (m : Mem)
    (posn : BitVec 16) : Prop :=
  posn.toNat + img.length = top ∧ m.ram = overlay posn.toNat img ram0

/-- None of the addresses from `lo` to below `hi` is special to the CPU. -/
def Plain (cpu : Cpu) (lo hi : Nat) : Prop := cpu = .cpu6809 → hi ≤ 0xFEFC ∨ 0xFEFF < lo

theorem Plain.mono {cpu : Cpu} {lo hi lo' hi' : Nat} (h : Plain cpu lo hi) (hlo : lo ≤ lo')
    (hhi : hi' ≤ hi) : Plain cpu lo' hi' := by
  intro h6809
  have := h h6809
  omega

variable {cpu : Cpu} {top : Nat} {ram0 : BitVec 16 → BitVec 8} {img : List (BitVec 8)} {m : Mem}
  {posn : BitVec 16}

/-- `posn -= 2; putui(posn, val)` adds one word in front. -/
theorem putui_filled (cpu : Cpu) (val : BitVec 16) (hfill : Filled top ram0 img m posn)
    (hroom : 2 ≤ posn.toNat) (hplain : Plain cpu (posn.toNat - 2) posn.toNat) :
    ∃ m' posn', posn - 2 = posn' ∧ putui cpu m posn' val = .ok m' ∧
      Filled top ram0 (wordBytes cpu val ++ img) m' posn' ∧ posn'.toNat + 2 = posn.toNat := by
  obtain ⟨htop, hram⟩ := hfill
  have hposn := posn.isLt
  have hsub : (posn - 2).toNat = posn.toNat - 2 := sub_toNat_of_le posn 2 hroom
  generalize posn - 2 = posn' at hsub ⊢
  have hput := putui_spec cpu m posn' val (by omega)
    (by intro h6809; have := hplain h6809; omega)
  refine ⟨_, posn', rfl, hput, ⟨?_, ?_⟩, by omega⟩
  · rw [List.length_append, wordBytes_length]
    omega
  · rw [setRam_ram, hram, ← overlay_append, wordBytes_length, hsub, Nat.sub_add_cancel hroom]

theorem putPointers_filled (cpu : Cpu) (ptrs : List (BitVec 16)) (hfill : Filled top ram0 img m posn)
    (hroom : 2 * ptrs.length ≤ posn.toNat)
    (hplain : Plain cpu (posn.toNat - 2 * ptrs.length) posn.toNat) :
    ∃ m' posn', putPointers cpu m posn ptrs = .ok (m', posn') ∧
      Filled top ram0 (ptrs.flatMap (wordBytes cpu) ++ img) m' posn' ∧
      posn'.toNat + 2 * ptrs.length = posn.toNat := by
  induction ptrs with
  | nil => exact ⟨m, posn, rfl, hfill, rfl⟩
  | cons ptr rest ih =>
    rw [List.length_cons] at hroom hplain
    obtain ⟨m1, posn1, hrest, hfill1, hposn1⟩ := ih (by omega) (hplain.mono (by omega) le_rfl)
    obtain ⟨m2, posn2, hsub, hput, hfill2, hposn2⟩ := putui_filled cpu ptr hfill1 (by omega)
      (hplain.mono (by omega) (by omega))
    refine ⟨m2, posn2, ?_, ?_, ?_⟩
    · simp only [putPointers, hrest, bind, Except.bind, hsub, hput]
    · rw [List.flatMap_cons, List.append_assoc]
      exact hfill2
    · rw [List.length_cons]
      omega

/-- Where the strings start when the first one is at `base`. -/
def starts (base : Nat) : List CStr → List (BitVec 16)
  | [] => []
  | str :: rest => BitVec.ofNat 16 base :: starts (base + (str.length + 1)) rest

/-- The strings with their NULs, as bytes of memory. -/
def stringImage (strs : List CStr) : List (BitVec 8) := strs.flatMap fun str => str ++ [0]

@[simp]
theorem stringBytes_cons (str : CStr) (rest : List CStr) :
    stringBytes (str :: rest) = str.length + 1 + stringBytes rest := by
  simp [stringBytes]

theorem stringImage_cons (str : CStr) (rest : List CStr) :
    stringImage (str :: rest) = (str ++ [0]) ++ stringImage rest := by
  simp [stringImage]

theorem stringImage_length (strs : List CStr) : (stringImage strs).length = stringBytes strs := by
  simp [stringImage, stringBytes, List.length_flatMap]

@[simp]
theorem starts_length (base : Nat) (strs : List CStr) : (starts base strs).length = strs.length := by
  induction strs generalizing base with
  | nil => rfl
  | cons str rest ih => simp [starts, ih]

theorem copyStrings_filled (strs : List CStr) (hfill : Filled top ram0 img m posn)
    (hroom : stringBytes strs < posn.toNat) :
    ∃ m' posn', copyStrings m posn strs = .ok (m', posn', starts posn'.toNat strs) ∧
      Filled top ram0 (stringImage strs ++ img) m' posn' ∧
      posn'.toNat + stringBytes strs = posn.toNat := by
  have hlt := posn.isLt
  induction strs with
  | nil => exact ⟨m, posn, rfl, hfill, rfl⟩
  | cons str rest ih =>
    rw [stringBytes_cons] at hroom
    obtain ⟨m1, posn1, hrest, ⟨htop1, hram1⟩, hposn1⟩ := ih (by omega)
    have hsub := sub_toNat_of_le posn1 (str.length + 1) (by omega)
    have hptr : getMemptr (posn1 - BitVec.ofNat 16 (str.length + 1)) =
        some (posn1 - BitVec.ofNat 16 (str.length + 1)).toNat := by
      rw [getMemptr, if_neg]
      intro hzero
      rw [hzero, show (0 : BitVec 16).toNat = 0 from rfl] at hsub
      omega
    have hlen : (str ++ [0]).take (BitVec.ofNat 16 (str.length + 1)).toNat = str ++ [0] := by
      rw [BitVec.toNat_ofNat, Nat.mod_eq_of_lt (by omega)]
      exact List.take_of_length_le (by simp)
    have hback : posn1.toNat - (str.length + 1) + (str.length + 1) = posn1.toNat := by omega
    refine ⟨m1.setRam (overlay (posn1 - BitVec.ofNat 16 (str.length + 1)).toNat (str ++ [0]) m1.ram),
      posn1 - BitVec.ofNat 16 (str.length + 1), ?_, ⟨?_, ?_⟩, ?_⟩
    · simp only [copyStrings, hrest, bind, Except.bind, hptr, hlen, memcpy]
      rw [if_pos (by rw [List.length_append, List.length_singleton]; omega), starts, hsub, hback, ← hsub,
        BitVec.ofNat_toNat, BitVec.setWidth_eq]
      rfl
    · rw [stringImage_cons, List.length_append, List.length_append, List.length_append,
        List.length_singleton, hsub]
      rw [List.length_append] at htop1
      omega
    · rw [stringImage_cons, List.append_assoc, ← overlay_append _ (str ++ [0]), setRam_ram, hram1, hsub,
        List.length_append, List.length_singleton, hback]
    · rw [stringBytes_cons]
      omega

/-! ## The whole stack -/

/-- The words of the stack: three for main, then both tables. -/
def tableWords (argc argvposn envpposn : BitVec 16) (aposn eposn : List (BitVec 16)) :
    List (BitVec 16) :=
  [argc, argvposn, envpposn] ++ aposn ++ [0] ++ eposn ++ [0]

/-- The words and strings of a stack that starts at `p`. -/
def stackImage (cpu : Cpu) (p : Nat) (argv envp : List CStr) : List (BitVec 8) :=
  let strings := p + tableBytes argv envp
  (tableWords (BitVec.ofNat 16 argv.length) (BitVec.ofNat 16 (p + 6))
    (BitVec.ofNat 16 (p + 6 + 2 * (argv.length + 1))) (starts strings argv)
    (starts (strings + stringBytes argv) envp)).flatMap (wordBytes cpu) ++
    (stringImage argv ++ stringImage envp)

/-- The function succeeds, and what it stores below the top word is one block. -/
theorem setArgEnv_filled (cpu : Cpu) (m : Mem) (sp : BitVec 16) (argv envp : List CStr)
    (hargc : argv.length ≤ MAX_ARGS) (henvc : envp.length ≤ MAX_ARGS)
    (hfit : stackNeed argv envp < sp.toNat)
    (hspecial : cpu = .cpu6809 → AvoidsSpecial sp argv envp) :
    ∃ (m1 m' : Mem) (p : BitVec 16), setArgEnv cpu m sp argv envp = .ok (m', p) ∧
      p.toNat + stackNeed argv envp = sp.toNat ∧
      m'.ram = overlay p.toNat (stackImage cpu p.toNat argv envp) m1.ram ∧
      ∀ a : BitVec 16, a.toNat + 2 < sp.toNat ∨ sp.toNat ≤ a.toNat → m1.ram a = m.ram a := by
  have hsp := sp.isLt
  simp only [stackNeed, tableBytes] at hfit
  have hplain : Plain cpu (sp.toNat - stackNeed argv envp)
      (sp.toNat - stackNeed argv envp + tableBytes argv envp) := fun h => (hspecial h).1
  simp only [stackNeed, tableBytes] at hplain
  have hbelow : (sp - 2).toNat = sp.toNat - 2 := sub_toNat_of_le sp 2 (by omega)
  obtain ⟨p1, hsub, hp1⟩ : ∃ p1, sp - 2 = p1 ∧ p1.toNat + 2 = sp.toNat := ⟨_, rfl, by omega⟩
  clear hbelow
  obtain ⟨m1, htop, hout⟩ := putui_top cpu m p1 0 (by omega)
    (by intro h; have := (hspecial h).2; omega)
  have h1 : Filled p1.toNat m1.ram [] m1 p1 := ⟨rfl, (overlay_nil _ _).symm⟩
  obtain ⟨m2, p2, hcopy2, h2, hp2⟩ := copyStrings_filled envp h1 (by omega)
  obtain ⟨m3, p3, hcopy3, h3, hp3⟩ := copyStrings_filled argv h2 (by omega)
  obtain ⟨m4, p4, hsub4, hput4, h4, hp4⟩ := putui_filled cpu 0 h3 (by omega)
    (hplain.mono (by omega) (by omega))
  obtain ⟨m5, p5, hput5, h5, hp5⟩ := putPointers_filled cpu (starts p2.toNat envp) h4
    (by rw [starts_length]; omega) (by rw [starts_length]; exact hplain.mono (by omega) (by omega))
  rw [starts_length] at hp5
  obtain ⟨m6, p6, hsub6, hput6, h6, hp6⟩ := putui_filled cpu 0 h5 (by omega)
    (hplain.mono (by omega) (by omega))
  obtain ⟨m7, p7, hput7, h7, hp7⟩ := putPointers_filled cpu (starts p3.toNat argv) h6
    (by rw [starts_length]; omega) (by rw [starts_length]; exact hplain.mono (by omega) (by omega))
  rw [starts_length] at hp7
  obtain ⟨m8, p8, hsub8, hput8, h8, hp8⟩ := putui_filled cpu p5 h7 (by omega)
    (hplain.mono (by omega) (by omega))
  obtain ⟨m9, p9, hsub9, hput9, h9, hp9⟩ := putui_filled cpu p7 h8 (by omega)
    (hplain.mono (by omega) (by omega))
  obtain ⟨m10, p10, hsub10, hput10, h10, hp10⟩ := putui_filled cpu (BitVec.ofNat 16 argv.length) h9
    (by omega) (hplain.mono (by omega) (by omega))
  refine ⟨m1, m10, p10, ?_, ?_, ?_, fun a ha => hout a (by omega)⟩
  · rw [setArgEnv, if_neg (by omega)]
    simp only [hsub, htop, hcopy2, hcopy3, hsub4, hput4, hput5, hsub6, hput6, hput7, hsub8, hput8, hsub9,
      hput9, hsub10, hput10, bind, Except.bind]
  · simp only [stackNeed, tableBytes]
    omega
  · have hofNat : ∀ (q : BitVec 16) (n : Nat), n = q.toNat → BitVec.ofNat 16 n = q := by
      rintro q n rfl
      simp
    obtain ⟨-, himage⟩ := h10
    obtain ⟨base, hbase⟩ : ∃ base, p10.toNat = base := ⟨_, rfl⟩
    rw [hbase] at himage ⊢
    rw [himage, stackImage, hofNat p7 (base + 6) (by omega),
      hofNat p5 (base + 6 + 2 * (argv.length + 1)) (by omega), tableBytes,
      show base + (6 + 2 * (argv.length + 1) + 2 * (envp.length + 1)) = p3.toNat by omega, hp3]
    simp [tableWords]

/-! ## Reading the stack back -/

theorem add_toNat_of_lt (a : BitVec 16) (n : Nat) (h : a.toNat + n < 65536) :
    (a + BitVec.ofNat 16 n).toNat = a.toNat + n := by
  rw [BitVec.toNat_add, BitVec.toNat_ofNat, Nat.mod_eq_of_lt (by omega : n < 2 ^ 16)]
  exact Nat.mod_eq_of_lt h

@[simp]
theorem wordBytes_flatMap_length (cpu : Cpu) (words : List (BitVec 16)) :
    (words.flatMap (wordBytes cpu)).length = 2 * words.length := by
  induction words with
  | nil => rfl
  | cons v words ih =>
    rw [List.flatMap_cons, List.length_append, wordBytes_length, ih, List.length_cons]
    omega

theorem getui_word (base : Nat) (words : List (BitVec 16)) (rest : List (BitVec 8)) (a : BitVec 16)
    (i : Nat) (hram : m.ram = overlay base (words.flatMap (wordBytes cpu) ++ rest) ram0)
    (hroom : base + 2 * words.length ≤ 65536) (hi : i < words.length)
    (ha : a.toNat = base + 2 * i) : getui cpu m a = words[i] := by
  apply getui_of_bytes
  have hcut : words = words.take i ++ words[i] :: words.drop (i + 1) := by
    rw [← List.drop_eq_getElem_cons hi, List.take_append_drop]
  have hsplit : words.flatMap (wordBytes cpu) ++ rest =
      (words.take i).flatMap (wordBytes cpu) ++ wordBytes cpu words[i] ++
        ((words.drop (i + 1)).flatMap (wordBytes cpu) ++ rest) := by
    refine (congrArg (fun ws => List.flatMap (wordBytes cpu) ws ++ rest) hcut).trans ?_
    simp only [List.flatMap_append, List.flatMap_cons, List.append_assoc]
  have hpre : ((words.take i).flatMap (wordBytes cpu)).length = 2 * i := by
    rw [wordBytes_flatMap_length, List.length_take, Nat.min_eq_left (by omega)]
  have hread := valuesAt_overlay base ((words.take i).flatMap (wordBytes cpu)) (wordBytes cpu words[i])
    ((words.drop (i + 1)).flatMap (wordBytes cpu) ++ rest) ram0 a (by rw [hpre]; exact ha)
    (by rw [hpre, wordBytes_length]; omega)
  rw [hram, hsplit]
  rwa [wordBytes_length] at hread

theorem getui_after (base : Nat) (pre : List (BitVec 16)) (val : BitVec 16) (post : List (BitVec 16))
    (rest : List (BitVec 8)) (a : BitVec 16)
    (hram : m.ram = overlay base ((pre ++ val :: post).flatMap (wordBytes cpu) ++ rest) ram0)
    (hroom : base + 2 * (pre ++ val :: post).length ≤ 65536) (ha : a.toNat = base + 2 * pre.length) :
    getui cpu m a = val := by
  rw [getui_word base _ rest a pre.length hram hroom (by simp) ha]
  simp

/-- A table in the words of the stack reads back as its pointers. -/
theorem pointerTable_word (base : Nat) (pre ptrs post : List (BitVec 16)) (rest : List (BitVec 8))
    (tab : BitVec 16)
    (hram : m.ram = overlay base ((pre ++ ptrs ++ post).flatMap (wordBytes cpu) ++ rest) ram0)
    (hroom : base + 2 * (pre ++ ptrs ++ post).length ≤ 65536)
    (htab : tab.toNat = base + 2 * pre.length) : pointerTable cpu m tab ptrs.length = ptrs := by
  apply List.ext_getElem
  · simp [pointerTable]
  · intro i hi hptr
    have hlen : (pre ++ ptrs ++ post).length = pre.length + ptrs.length + post.length := by
      rw [List.length_append, List.length_append]
    have ha : (tab + BitVec.ofNat 16 (2 * i)).toNat = base + 2 * (pre.length + i) := by
      rw [add_toNat_of_lt tab (2 * i) (by omega)]
      omega
    simp only [pointerTable, List.getElem_map, List.getElem_range]
    rw [getui_word base _ rest _ (pre.length + i) hram hroom (by omega) ha]
    simp [hptr]

theorem cstrings_at (base : Nat) (pre post : List (BitVec 8)) (strs : List CStr)
    (hram : m.ram = overlay base (pre ++ stringImage strs ++ post) ram0)
    (hroom : base + pre.length + stringBytes strs < 65536) (hnul : ∀ str ∈ strs, 0 ∉ str) :
    List.Forall₂ (CStringAt m) (starts (base + pre.length) strs) strs := by
  induction strs generalizing pre with
  | nil => exact List.Forall₂.nil
  | cons str rest ih =>
    rw [stringBytes_cons] at hroom
    rw [stringImage_cons] at hram
    refine List.Forall₂.cons ⟨hnul str List.mem_cons_self, ?_⟩ ?_
    · have hread := valuesAt_overlay base pre (str ++ [0]) (stringImage rest ++ post) ram0
        (BitVec.ofNat 16 (base + pre.length))
        (by rw [BitVec.toNat_ofNat]; exact Nat.mod_eq_of_lt (by omega))
        (by rw [List.length_append, List.length_singleton]; omega)
      rw [List.length_append, List.length_singleton] at hread
      rw [hram]
      simpa [List.append_assoc] using hread
    · have htail := ih (pre ++ (str ++ [0])) (by simpa [List.append_assoc] using hram)
        (by rw [List.length_append, List.length_append, List.length_singleton]; omega)
        (fun s hs => hnul s (List.mem_cons_of_mem _ hs))
      rwa [List.length_append, List.length_append, List.length_singleton, ← Nat.add_assoc base] at htail

theorem stringRegions_starts (base : Nat) (strs : List CStr) (hroom : base + stringBytes strs < 65536) :
    stringRegions (starts base strs) strs = consecutive base (strs.map (·.length + 1)) := by
  induction strs generalizing base with
  | nil => rfl
  | cons str rest ih =>
    rw [stringBytes_cons] at hroom
    have htail := ih (base + (str.length + 1)) (by omega)
    rw [stringRegions] at htail
    rw [stringRegions, starts, List.zipWith_cons_cons, htail, List.map_cons, consecutive,
      BitVec.toNat_ofNat, Nat.mod_eq_of_lt (by omega)]

/-- What the words of the stack say: argc, where the tables are and what is in them. -/
structure WordsRead (cpu : Cpu) (m : Mem) (p : BitVec 16) (argv envp : List CStr) : Prop where
  argc : getui cpu m p = BitVec.ofNat 16 argv.length
  argTab : getui cpu m (p + 2) = BitVec.ofNat 16 (p.toNat + 6)
  envTab : getui cpu m (p + 4) = BitVec.ofNat 16 (p.toNat + 6 + 2 * (argv.length + 1))
  argPtrs : pointerTable cpu m (BitVec.ofNat 16 (p.toNat + 6)) argv.length =
    starts (p.toNat + tableBytes argv envp) argv
  argNull : getui cpu m (BitVec.ofNat 16 (p.toNat + 6) + BitVec.ofNat 16 (2 * argv.length)) = 0
  envPtrs : pointerTable cpu m (BitVec.ofNat 16 (p.toNat + 6 + 2 * (argv.length + 1))) envp.length =
    starts (p.toNat + tableBytes argv envp + stringBytes argv) envp
  envNull : getui cpu m (BitVec.ofNat 16 (p.toNat + 6 + 2 * (argv.length + 1)) +
    BitVec.ofNat 16 (2 * envp.length)) = 0

theorem wordsRead_of_image (cpu : Cpu) (m : Mem) (p : BitVec 16) (argv envp : List CStr)
    (hroom : p.toNat + tableBytes argv envp < 65536)
    (hram : m.ram = overlay p.toNat (stackImage cpu p.toNat argv envp) ram0) :
    WordsRead cpu m p argv envp := by
  obtain ⟨argTab, hargTab⟩ : ∃ argTab, p.toNat + 6 = argTab := ⟨_, rfl⟩
  obtain ⟨envTab, henvTab⟩ : ∃ envTab, p.toNat + 6 + 2 * (argv.length + 1) = envTab := ⟨_, rfl⟩
  obtain ⟨aposn, haposn⟩ : ∃ aposn, starts (p.toNat + tableBytes argv envp) argv = aposn := ⟨_, rfl⟩
  obtain ⟨eposn, heposn⟩ : ∃ eposn,
    starts (p.toNat + tableBytes argv envp + stringBytes argv) envp = eposn := ⟨_, rfl⟩
  have hargc : aposn.length = argv.length := by rw [← haposn, starts_length]
  have henvc : eposn.length = envp.length := by rw [← heposn, starts_length]
  have hargNat : (BitVec.ofNat 16 argTab).toNat = argTab := by
    rw [BitVec.toNat_ofNat]
    exact Nat.mod_eq_of_lt (by simp only [tableBytes] at hroom; omega)
  have henvNat : (BitVec.ofNat 16 envTab).toNat = envTab := by
    rw [BitVec.toNat_ofNat]
    exact Nat.mod_eq_of_lt (by simp only [tableBytes] at hroom; omega)
  simp only [stackImage, haposn, heposn] at hram
  rw [henvTab, hargTab] at hram
  simp only [tableBytes] at hroom
  have hlen : (tableWords (BitVec.ofNat 16 argv.length) (BitVec.ofNat 16 argTab) (BitVec.ofNat 16 envTab)
      aposn eposn).length = argv.length + envp.length + 5 := by
    simp only [tableWords, List.length_append, List.length_cons, List.length_nil]
    omega
  have hfits : p.toNat + 2 * (tableWords (BitVec.ofNat 16 argv.length) (BitVec.ofNat 16 argTab)
      (BitVec.ofNat 16 envTab) aposn eposn).length ≤ 65536 := by omega
  simp only [tableWords, List.append_assoc, List.cons_append, List.nil_append] at hram hfits
  generalize stringImage argv ++ stringImage envp = rest at hram
  generalize hc : BitVec.ofNat 16 argv.length = argc at hram hfits
  constructor
  · rw [hc]
    exact getui_after p.toNat [] _ _ rest p hram hfits rfl
  · rw [hargTab]
    exact getui_after p.toNat [_] _ _ rest (p + 2) hram hfits (add_toNat_of_lt p 2 (by omega))
  · rw [henvTab]
    exact getui_after p.toNat [_, _] _ _ rest (p + 4) hram hfits (add_toNat_of_lt p 4 (by omega))
  · rw [hargTab, haposn, ← hargc]
    exact pointerTable_word p.toNat [_, _, _] aposn (0 :: (eposn ++ [0])) rest _ (by simpa using hram)
      (by simpa using hfits) (by rw [hargNat, ← hargTab]; rfl)
  · rw [hargTab]
    refine getui_after p.toNat ([_, _, _] ++ aposn) 0 (eposn ++ [0]) rest _ (by simpa using hram)
      (by simpa using hfits) ?_
    rw [add_toNat_of_lt _ _ (by omega), hargNat, List.length_append, hargc]
    simp only [List.length_cons, List.length_nil]
    omega
  · rw [henvTab, heposn, ← henvc]
    refine pointerTable_word p.toNat ([_, _, _] ++ aposn ++ [0]) eposn [0] rest _ (by simpa using hram)
      (by simpa using hfits) ?_
    rw [henvNat, List.length_append, List.length_append, hargc]
    simp only [List.length_cons, List.length_nil]
    omega
  · rw [henvTab]
    refine getui_after p.toNat ([_, _, _] ++ aposn ++ [0] ++ eposn) 0 [] rest _ (by simpa using hram)
      (by simpa using hfits) ?_
    rw [add_toNat_of_lt _ _ (by omega), henvNat, List.length_append, List.length_append,
      List.length_append, hargc, henvc]
    simp only [List.length_cons, List.length_nil]
    omega

/-- The block that `setArgEnv` stores has the layout. -/
theorem stackLayout_of_image (cpu : Cpu) (m0 m1 m : Mem) (sp p : BitVec 16) (argv envp : List CStr)
    (hp : p.toNat + stackNeed argv envp = sp.toNat) (hnul : ∀ str ∈ argv ++ envp, 0 ∉ str)
    (hram : m.ram = overlay p.toNat (stackImage cpu p.toNat argv envp) m1.ram)
    (hout : ∀ a : BitVec 16, a.toNat + 2 < sp.toNat ∨ sp.toNat ≤ a.toNat → m1.ram a = m0.ram a) :
    StackLayout cpu m0 m sp p argv envp := by
  have hsp := sp.isLt
  simp only [stackNeed] at hp
  have hread := wordsRead_of_image cpu m p argv envp (by omega) hram
  obtain ⟨table, htable⟩ : ∃ table, m.ram = overlay p.toNat (table ++ stringImage argv ++ stringImage envp)
      m1.ram ∧ table.length = tableBytes argv envp := by
    refine ⟨_, hram.trans (by rw [stackImage, List.append_assoc]), ?_⟩
    rw [wordBytes_flatMap_length]
    simp only [tableWords, tableBytes, List.length_append, List.length_cons, List.length_nil, starts_length]
    omega
  obtain ⟨hblock, htlen⟩ := htable
  have hargStr := cstrings_at (m := m) p.toNat table (stringImage envp) argv hblock
    (by omega) (fun s hs => hnul s (List.mem_append_left _ hs))
  have henvStr := cstrings_at (m := m) p.toNat (table ++ stringImage argv) [] envp
    (by rw [hblock, List.append_nil]) (by rw [List.length_append, stringImage_length]; omega)
    (fun s hs => hnul s (List.mem_append_right _ hs))
  rw [htlen] at hargStr
  rw [List.length_append, stringImage_length, htlen, ← Nat.add_assoc] at henvStr
  constructor
  · exact hread.argc
  · rw [hread.argTab, hread.argPtrs]
    exact hargStr
  · rw [hread.argTab, hread.argNull]
  · rw [hread.envTab, hread.envPtrs]
    exact henvStr
  · rw [hread.envTab, hread.envNull]
  · rw [hread.argTab, hread.envTab, hread.argPtrs, hread.envPtrs, stringRegions_starts _ _ (by omega),
      stringRegions_starts _ _ (by omega)]
    have hregions := consecutive_disjoint p.toNat ([6, 2 * (argv.length + 1), 2 * (envp.length + 1)] ++
      argv.map (·.length + 1) ++ envp.map (·.length + 1))
    have hargTab : (BitVec.ofNat 16 (p.toNat + 6)).toNat = p.toNat + 6 := by
      rw [BitVec.toNat_ofNat]
      exact Nat.mod_eq_of_lt (by simp only [tableBytes] at hp; omega)
    have henvTab : (BitVec.ofNat 16 (p.toNat + 6 + 2 * (argv.length + 1))).toNat =
        p.toNat + 6 + 2 * (argv.length + 1) := by
      rw [BitVec.toNat_ofNat]
      exact Nat.mod_eq_of_lt (by simp only [tableBytes] at hp; omega)
    have hsum : ([6, 2 * (argv.length + 1), 2 * (envp.length + 1)] : List Nat).sum =
        tableBytes argv envp := by
      simp [tableBytes, Nat.add_assoc]
    rw [consecutive_append, consecutive_append, List.sum_append, hsum, ← Nat.add_assoc] at hregions
    rw [hargTab, henvTab]
    exact hregions
  · intro a ha
    have hlen : (stackImage cpu p.toNat argv envp).length + 2 = stackNeed argv envp := by
      rw [stackImage, List.length_append, List.length_append, stringImage_length, stringImage_length,
        wordBytes_flatMap_length]
      simp only [tableWords, stackNeed, tableBytes, List.length_append, List.length_cons, List.length_nil,
        starts_length]
      omega
    rw [stackNeed] at hlen
    rw [hram]
    rcases ha with hbelow | habove
    · rw [overlay_below _ _ _ _ hbelow]
      exact hout a (by omega)
    · rw [overlay_above _ _ _ _ (by omega)]
      exact hout a (.inr habove)

/-- The initial stack, for both CPUs. On the 6809 the words have to miss the special locations. -/
theorem set_arg_env_layout (cpu : Cpu) (m : Mem) (sp : BitVec 16) (argv envp : List CStr)
    (hargc : argv.length ≤ MAX_ARGS) (henvc : envp.length ≤ MAX_ARGS)
    (hnul : ∀ str ∈ argv ++ envp, 0 ∉ str) (hfit : stackNeed argv envp < sp.toNat)
    (hspecial : cpu = .cpu6809 → AvoidsSpecial sp argv envp) :
    ∃ m' p, setArgEnv cpu m sp argv envp = .ok (m', p) ∧ StackLayout cpu m m' sp p argv envp := by
  obtain ⟨m1, m', p, hrun, hp, hram, hout⟩ :=
    setArgEnv_filled cpu m sp argv envp hargc henvc hfit hspecial
  exact ⟨m', p, hrun, stackLayout_of_image cpu m m1 m' sp p argv envp hp hnul hram hout⟩

def emptyMem : Mem := { ram := fun _ => 0, fefcval := 0, printed := [] }

/-- Two arguments and one environment string below 0xFDFF, where the emulator starts the stack. -/
theorem set_arg_env_layout_at_fdff :
    ∃ m' p, setArgEnv .cpu6809 emptyMem 0xFDFF [[97, 98], [99]] [[120]] = .ok (m', p) ∧
      StackLayout .cpu6809 emptyMem m' 0xFDFF p [[97, 98], [99]] [[120]] :=
  set_arg_env_layout .cpu6809 emptyMem 0xFDFF [[97, 98], [99]] [[120]] (by decide) (by decide)
    (by decide) (by decide) (fun _ => by decide)

/-- With the stack at 0xFF08, the pointer to the argv table is stored at 0xFEFE. Its low byte
goes to the exit location, so the call never returns. -/
theorem set_arg_env_exits_at_ff08 :
    stackNeed [] [] < (0xFF08 : BitVec 16).toNat ∧
      ¬ ∃ m' p, setArgEnv .cpu6809 emptyMem 0xFF08 [] [] = .ok (m', p) ∧
        StackLayout .cpu6809 emptyMem m' 0xFF08 p [] [] := by
  refine ⟨by decide, ?_⟩
  rintro ⟨m', p, hrun, -⟩
  have hstop : (setArgEnv .cpu6809 emptyMem 0xFF08 [] []).isOk = false := by decide
  rw [hrun] at hstop
  cases hstop

end Fuzemsys.Emulators
