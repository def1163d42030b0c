import Fuzemsys.Emulators.Syscalls.Calls

/-!
# Rules for the handler

One rule for each primitive of the handler: when it ensures something. The
arguments of a call are the words above the return address, whatever the order
of their bytes.
-/

open Fuzemsys.Lib

namespace Fuzemsys.Emulators.Syscalls

/-- A 16-bit argument. -/
def Emulator.arg (e : Emulator) (m : Mem) (off : BitVec 16) : BitVec 16 := getui e.cpu m (e.sp + 2 + off)

def World.setMem (w : World) (m : Mem) : World := { w with mem := m }

/-- After an operation of the host. -/
def World.after (w : World) (c : HostCall) (r : Reply c.fn) : World :=
  { w with errno := r.errno.getD w.errno, performed := w.performed ++ [c] }

def World.failed (w : World) (errno : Nat) : World := { w with errno := errno }

@[simp] theorem setMem_mem (w : World) (m : Mem) : (w.setMem m).mem = m := rfl
@[simp] theorem after_mem (w : World) (c : HostCall) (r : Reply c.fn) : (w.after c r).mem = w.mem := rfl
@[simp] theorem failed_mem (w : World) (errno : Nat) : (w.failed errno).mem = w.mem := rfl

variable {α : Type} {e : Emulator} {host : Host} {off : BitVec 16} {p n : Nat} {bytes : List (BitVec 8)} {w : World}
  {R : Ending → World → Prop}

/-! ## Operations and arguments -/

@[simp]
theorem ensures_perform (c : HostCall) {Q : Reply c.fn → World → Prop} :
    Ensures (perform host c) Q R w ↔ Q (host w.performed c) (w.after c (host w.performed c)) := Iff.rfl

@[simp]
theorem ensures_setErrno {n : Nat} {Q : PUnit → World → Prop} :
    Ensures (setErrno n) Q R w ↔ Q ⟨⟩ (w.failed n) := Iff.rfl

@[simp]
theorem ensures_fail {Q : Result → World → Prop} :
    Ensures (fail n) Q R w ↔ Q (sres (-1)) (w.failed n) := Iff.rfl

@[simp]
theorem ensures_hostResult {fn : HostFn} {args : List HostArg} {Q : Result → World → Prop} :
    Ensures (hostResult host fn args) Q R w ↔
      Q (sres (host w.performed ⟨fn, args⟩).result) (w.after ⟨fn, args⟩ (host w.performed ⟨fn, args⟩)) := Iff.rfl

@[simp]
theorem ensures_uintArg {Q : Nat → World → Prop} : Ensures (uintArg e off) Q R w ↔ Q (e.arg w.mem off).toNat w := by
  unfold uintArg Emulator.arg
  rw [ensures_bind, ensures_get, ensures_pure, uiarg_toNat]

@[simp]
theorem ensures_intArg {Q : Int → World → Prop} :
    Ensures (intArg e off) Q R w ↔ Q (Emulators.siarg e.cpu w.mem e.sp off) w := Iff.rfl

@[simp]
theorem ensures_ulongArg {Q : Nat → World → Prop} :
    Ensures (ulongArg e off) Q R w ↔ Q (ularg e.cpu w.mem e.sp off).toNat w := Iff.rfl

@[simp]
theorem ensures_intCall {fn : HostFn} {offs : List (BitVec 16)} {Q : Result → World → Prop} :
    Ensures (intCall e host fn offs) Q R w ↔
      Ensures (hostResult host fn (offs.map fun off => .int (e.arg w.mem off).toNat)) Q R w := by
  unfold intCall Emulator.arg
  rw [ensures_bind, ensures_get]
  simp only [uiarg_toNat]

/-! ## Memory -/

/-- The bytes behind a host pointer. -/
def bytesAt (m : Mem) (p n : Nat) : List (BitVec 8) := (List.range n).map fun i => byteAt m (p + i)

@[simp]
theorem bytesAt_length (m : Mem) (p n : Nat) : (bytesAt m p n).length = n := by simp [bytesAt]

theorem ensures_load {Q : List (BitVec 8) → World → Prop} : Ensures (load p n) Q R w ↔
    if p + n ≤ 65536 then Q (bytesAt w.mem p n) w else R .outside w := by
  unfold load
  rw [ensures_bind, ensures_get, ensures_ite]
  rfl

/-- The memory after a store inside it. -/
def Mem.stored (m : Mem) (p : Nat) (bytes : List (BitVec 8)) : Mem := { m with ram := overlay p bytes m.ram }

theorem ensures_store {Q : PUnit → World → Prop} : Ensures (store p bytes) Q R w ↔
    if p + bytes.length ≤ 65536 then Q ⟨⟩ (w.setMem (Mem.stored w.mem p bytes)) else R .outside w := by
  unfold store
  rw [ensures_bind, ensures_get]
  by_cases hfit : p + bytes.length ≤ 65536
  · have hcopy : memcpy w.mem (some p) bytes = .ok (Mem.stored w.mem p bytes) := if_pos hfit
    rw [hcopy, if_pos hfit]
    rfl
  · have hcopy : memcpy w.mem (some p) bytes = .error .fault := if_neg hfit
    rw [hcopy, if_neg hfit]
    rfl

theorem loadStr_some {s : CStr} {Q : CStr → World → Prop} (hstr : cstrAt w.mem p = some s) :
    Ensures (loadStr p) Q R w ↔ Q s w := by
  unfold loadStr
  rw [ensures_bind, ensures_get, hstr, ensures_pure]

theorem loadStr_none {Q : CStr → World → Prop} (hstr : cstrAt w.mem p = none) :
    Ensures (loadStr p) Q R w ↔ R .outside w := by
  unfold loadStr
  rw [ensures_bind, ensures_get, hstr, ensures_throw]

/-- Only a store to 0xFEFF ends the emulator. -/
theorem e6809Write8_stores {m : Mem} {a : BitVec 16} {v : BitVec 8} (ha : a.toNat ≠ 0xFEFF) :
    ∃ m', e6809Write8 m (a.setWidth 32) v = .ok m' := by
  have hne : (a.setWidth 32 : BitVec 32) ≠ 0xFEFF := by
    intro heq
    have := congrArg BitVec.toNat heq
    have hlt := a.isLt
    rw [BitVec.toNat_setWidth, Nat.mod_eq_of_lt (by omega)] at this
    exact ha this
  unfold e6809Write8
  rw [if_neg hne]
  split_ifs <;> exact ⟨_, rfl⟩

/-- The memory after a word was put there. -/
def Mem.putting (m : Mem) (cpu : Cpu) (addr val : BitVec 16) : Mem := (putui cpu m addr val).toOption.getD m

theorem putuiM_stores {addr val : BitVec 16} {Q : PUnit → World → Prop}
    (haddr : e.cpu = .cpuZ80 ∨ addr.toNat ≠ 0xFEFF ∧ addr.toNat ≠ 0xFEFE) :
    Ensures (putuiM e addr val) Q R w ↔ Q ⟨⟩ (w.setMem (Mem.putting w.mem e.cpu addr val)) := by
  have hput : ∃ m, putui e.cpu w.mem addr val = .ok m := by
    cases hcpu : e.cpu with
    | cpuZ80 => exact ⟨_, rfl⟩
    | cpu6809 =>
      obtain ⟨hhere, hbefore⟩ := haddr.resolve_left (by rw [hcpu]; decide)
      have hsucc : (addr + 1).toNat ≠ 0xFEFF := by
        have hadd : (addr + 1).toNat = (addr.toNat + 1) % 65536 := BitVec.toNat_add _ _
        have hlt := addr.isLt
        omega
      obtain ⟨m1, hm1⟩ := e6809Write8_stores (m := w.mem) (v := (val >>> 8).setWidth 8) hhere
      obtain ⟨m2, hm2⟩ := e6809Write8_stores (m := m1) (v := (val &&& 0xff).setWidth 8) hsucc
      refine ⟨m2, ?_⟩
      simp only [putui, hm1, bind, Except.bind]
      exact hm2
  obtain ⟨m, hm⟩ := hput
  have hafter : Mem.putting w.mem e.cpu addr val = m := by
    unfold Mem.putting
    rw [hm]
    rfl
  unfold putuiM
  rw [ensures_bind, ensures_get, hm, hafter]
  rfl

/-! ## Structures -/

def Mem.withFields (m : Mem) (p : Nat) : List (Nat × List (BitVec 8)) → Mem
  | [] => m
  | (off, bytes) :: rest => Mem.withFields (Mem.stored m (p + off) bytes) p rest

def FieldsFit (p : Nat) (fields : List (Nat × List (BitVec 8))) : Prop := ∀ f ∈ fields, p + f.1 + f.2.length ≤ 65536

theorem storeFields_fit {fields : List (Nat × List (BitVec 8))} {Q : PUnit → World → Prop} (hfit : FieldsFit p fields) :
    Ensures (storeFields p fields) Q R w ↔ Q ⟨⟩ (w.setMem (Mem.withFields w.mem p fields)) := by
  induction fields generalizing w with
  | nil => rfl
  | cons f rest ih =>
    obtain ⟨hf, hrest⟩ := List.forall_mem_cons.mp hfit
    unfold storeFields
    rw [ensures_bind, ensures_store, if_pos hf]
    exact ih hrest

theorem storeFields_outside {fields : List (Nat × List (BitVec 8))} (hfit : ¬ FieldsFit p fields) :
    Ensures (storeFields p fields) (fun _ _ => False) (fun end' _ => end' = .outside) w := by
  induction fields generalizing w with
  | nil => simp [FieldsFit] at hfit
  | cons f rest ih =>
    unfold storeFields
    rw [ensures_bind, ensures_store]
    by_cases hf : p + f.1 + f.2.length ≤ 65536
    · rw [if_pos hf]
      exact ih fun hrest => hfit (List.forall_mem_cons.mpr ⟨hf, hrest⟩)
    · rw [if_neg hf]

@[simp]
theorem longBytes_length (cpu : Cpu) (x : BitVec 32) : (longBytes cpu x).length = 4 := by
  cases cpu <;> simp [longBytes]

theorem statFields_fit {src : Stat} : FieldsFit p (statFields e src) ↔ p + 34 ≤ 65536 := by
  simp only [FieldsFit, statFields, List.forall_mem_cons, List.not_mem_nil, false_imp_iff, implies_true, and_true,
    wordBytes_length, longBytes_length]
  omega

theorem termiosFields_fit {t : Termios} : FieldsFit p (termiosFields e t) ↔ p + 20 ≤ 65536 := by
  simp only [FieldsFit, termiosFields, ccMap, List.map_cons, List.map_nil, List.cons_append, List.nil_append,
    List.forall_mem_cons, List.not_mem_nil, false_imp_iff, implies_true, and_true, wordBytes_length,
    List.length_singleton]
  omega

theorem winsizeFields_fit {size : Winsize} : FieldsFit p (winsizeFields e size) ↔ p + 4 ≤ 65536 := by
  simp only [FieldsFit, winsizeFields, List.forall_mem_cons, List.not_mem_nil, false_imp_iff, implies_true, and_true,
    wordBytes_length]
  omega

/-- The characters of a FUZIX termios structure. -/
def charsAt (m : Mem) (p : Nat) (cc : Fin 32 → BitVec 8) (map : List (Nat × Fin 32)) : Fin 32 → BitVec 8 :=
  map.foldl (fun cc (i, j) => Function.update cc j ((bytesAt m (p + 8 + i) 1).getD 0 0)) cc

theorem loadChars_fit {cc : Fin 32 → BitVec 8} {map : List (Nat × Fin 32)} {Q : (Fin 32 → BitVec 8) → World → Prop}
    (hfit : ∀ x ∈ map, p + 8 + x.1 + 1 ≤ 65536) :
    Ensures (loadChars p cc map) Q R w ↔ Q (charsAt w.mem p cc map) w := by
  induction map generalizing cc with
  | nil => rfl
  | cons x rest ih =>
    obtain ⟨hx, hrest⟩ := List.forall_mem_cons.mp hfit
    unfold loadChars
    rw [ensures_bind, ensures_load, if_pos hx]
    exact ih hrest

/-- The host's settings, changed to those of a FUZIX termios structure. -/
def termiosAt (cpu : Cpu) (m : Mem) (p : Nat) (t : Termios) : Termios :=
  { t with
    c_cc := charsAt m p t.c_cc ccMap
    c_iflag := mapfromflag iflagMap ((wordOf cpu (bytesAt m p 2)).setWidth 16) t.c_iflag
    c_oflag := mapfromflag oflagMap ((wordOf cpu (bytesAt m (p + 2) 2)).setWidth 16) t.c_oflag
    c_lflag := mapfromflag lflagMap ((wordOf cpu (bytesAt m (p + 6) 2)).setWidth 16) t.c_lflag }

theorem fromFuzixTermios_fit {t : Termios} {Q : Termios → World → Prop} (hfit : p + 20 ≤ 65536) :
    Ensures (fromFuzixTermios e p t) Q R w ↔ Q (termiosAt e.cpu w.mem p t) w := by
  have hchars : ∀ x ∈ ccMap, p + 8 + x.1 + 1 ≤ 65536 := by
    simp only [ccMap, List.forall_mem_cons, List.not_mem_nil, false_imp_iff, implies_true, and_true]
    omega
  unfold fromFuzixTermios
  rw [ensures_bind, ensures_load, if_pos (by omega), ensures_bind, ensures_load, if_pos (by omega), ensures_bind,
    ensures_load, if_pos (by omega), ensures_bind, loadChars_fit hchars]
  rfl

/-! ## The argument list of execve -/

/-- The strings of a table of pointers, up to the null pointer, if `n` places hold them and the null pointer. -/
def argsAt (cpu : Cpu) (m : Mem) : Nat → BitVec 16 → Option (List CStr)
  | 0, _ => none
  | n + 1, addr =>
    if getui cpu m addr = 0 then some []
    else (cstrAt m (getui cpu m addr).toNat).bind fun s => (argsAt cpu m n (addr + 2)).map (s :: ·)

theorem copyArgs_some {cpu : Cpu} {addr : BitVec 16} {args : List CStr} {Q : List CStr → World → Prop}
    (hargs : argsAt cpu w.mem n addr = some args) : Ensures (copyArgs cpu n addr) Q R w ↔ Q args w := by
  induction n generalizing addr args Q with
  | zero => cases hargs
  | succ n ih =>
    unfold argsAt at hargs
    unfold copyArgs
    rw [ensures_bind, ensures_get, ensures_ite]
    split_ifs at hargs ⊢ with hnull
    · cases hargs
      rfl
    · obtain ⟨s, hstr, hrest⟩ := Option.bind_eq_some_iff.mp hargs
      obtain ⟨rest, htail, rfl⟩ := Option.map_eq_some_iff.mp hrest
      rw [ensures_bind, loadStr_some hstr, ensures_bind, ih htail]
      rfl

/-! ## Pointers and names -/

theorem ensures_withPtr {k : Nat → Handler Result} {Q : Result → World → Prop} : Ensures (withPtr e off k) Q R w ↔
    if e.arg w.mem off = 0 then Q (sres (-1)) (w.failed EFAULT) else Ensures (k (e.arg w.mem off).toNat) Q R w := by
  have harg : (Emulators.uiarg e.cpu w.mem e.sp off).setWidth 16 = e.arg w.mem off := rfl
  unfold withPtr ptrArg getMemptr
  rw [ensures_bind, ensures_bind, ensures_get, ensures_pure, harg]
  by_cases hnull : e.arg w.mem off = 0
  · rw [if_pos hnull, if_pos hnull]
    rfl
  · rw [if_neg hnull, if_neg hnull]

/-- An absolute name. -/
def Rooted (m : Mem) (p : Nat) : Prop := byteAt m p = 0x2F

instance (m : Mem) (p : Nat) : Decidable (Rooted m p) := inferInstanceAs (Decidable (_ = _))

/-- The name that the host gets for the string at `p`, if that ends in the memory and fits its buffer. -/
def nameAt (e : Emulator) (m : Mem) (p : Nat) : Option CStr :=
  match cstrAt m p with
  | none => none
  | some s =>
    if Rooted m p then if e.root.length + s.length + 1 ≤ realfilenameSize then some (e.root ++ s) else none
    else some s

theorem nameAt_eq_some {m : Mem} {s : CStr} : nameAt e m p = some s ↔ ∃ s', cstrAt m p = some s' ∧
    if Rooted m p then e.root.length + s'.length + 1 ≤ realfilenameSize ∧ s = e.root ++ s' else s = s' := by
  unfold nameAt
  cases cstrAt m p with
  | none => simp
  | some s' =>
    by_cases hroot : Rooted m p
    · by_cases hfits : e.root.length + s'.length + 1 ≤ realfilenameSize <;>
        simp only [hroot, hfits, if_true, if_false, Option.some.injEq, exists_eq_left', true_and, false_and, eq_comm,
          reduceCtorEq]
    · simp only [hroot, if_false, Option.some.injEq, exists_eq_left', eq_comm]

/-- An absolute name is read when it is translated, a relative one only by the host. -/
def Translates (e : Emulator) (m : Mem) (p : Nat) : Prop := Rooted m p → (nameAt e m p).isSome

/-- What the translation gives. -/
def pathOf (e : Emulator) (m : Mem) (p : Nat) : Path :=
  if Rooted m p then .copied ((nameAt e m p).getD []) else .inMemory p

theorem xlateFilename_rooted {Q : Option Path → World → Prop} (hroot : Rooted w.mem p) :
    Ensures (xlateFilename e (some p)) Q R w ↔ Ensures (loadStr p) (fun s w' =>
      if e.root.length + s.length + 1 ≤ realfilenameSize then Q (some (.copied (e.root ++ s))) w'
      else R .overrun w') R w := by
  have hbyte : ¬ byteAt w.mem p ≠ 0x2F := not_not.mpr hroot
  unfold xlateFilename
  simp only [ensures_bind, ensures_get, if_neg hbyte, ensures_ite, ensures_pure, ensures_throw]

theorem xlateFilename_relative {Q : Option Path → World → Prop} (hroot : ¬ Rooted w.mem p) :
    Ensures (xlateFilename e (some p)) Q R w ↔ Q (some (.inMemory p)) w := by
  have hbyte : byteAt w.mem p ≠ 0x2F := hroot
  unfold xlateFilename
  simp only [ensures_bind, ensures_get, if_pos hbyte, ensures_pure]

theorem ensures_xlateFilename {Q : Option Path → World → Prop} (htrans : Translates e w.mem p) :
    Ensures (xlateFilename e (some p)) Q R w ↔ Q (some (pathOf e w.mem p)) w := by
  unfold pathOf
  by_cases hroot : Rooted w.mem p
  · obtain ⟨s, hs⟩ := Option.isSome_iff_exists.mp (htrans hroot)
    obtain ⟨s', hstr, hname⟩ := nameAt_eq_some.mp hs
    rw [if_pos hroot] at hname
    obtain ⟨hfits, rfl⟩ := hname
    rw [xlateFilename_rooted hroot, loadStr_some hstr, if_pos hfits, if_pos hroot, hs]
    rfl
  · rw [xlateFilename_relative hroot, if_neg hroot]

/-- The path stands for a name while the memory is `m`. -/
def Path.Names (path : Path) (m : Mem) (s : CStr) : Prop :=
  ∀ (w : World) Q R, w.mem = m → (Ensures path.str Q R w ↔ Q s w)

/-- The host cannot read the name. -/
def Path.Lost (path : Path) (m : Mem) : Prop :=
  ∀ (w : World) Q R, w.mem = m → (Ensures path.str Q R w ↔ R .outside w)

theorem pathOf_names {m : Mem} {s : CStr} (hname : nameAt e m p = some s) : (pathOf e m p).Names m s := by
  intro w Q R hw
  unfold pathOf
  by_cases hroot : Rooted m p
  · rw [if_pos hroot, hname]
    rfl
  · obtain ⟨s', hstr, hs⟩ := nameAt_eq_some.mp hname
    rw [if_neg hroot] at hs ⊢
    subst hs
    exact loadStr_some (hw ▸ hstr)

theorem pathOf_lost {m : Mem} (htrans : Translates e m p) (hname : nameAt e m p = none) : (pathOf e m p).Lost m := by
  intro w Q R hw
  have hroot : ¬ Rooted m p := by
    intro hroot
    have hsome := htrans hroot
    rw [hname] at hsome
    cases hsome
  unfold pathOf
  rw [if_neg hroot]
  refine loadStr_none ?_
  cases hstr : cstrAt w.mem p with
  | none => rfl
  | some s =>
    have hs : nameAt e m p = some s := nameAt_eq_some.mpr ⟨s, hw ▸ hstr, by rw [if_neg hroot]⟩
    rw [hname] at hs
    cases hs

theorem withPath_null {k : Path → Handler Result} {Q : Result → World → Prop} (hnull : e.arg w.mem off = 0) :
    Ensures (withPath e off k) Q R w ↔ Q (sres (-1)) (w.failed EFAULT) := by
  have harg : (Emulators.uiarg e.cpu w.mem e.sp off).setWidth 16 = e.arg w.mem off := rfl
  unfold withPath ptrArg getMemptr
  rw [ensures_bind, ensures_bind, ensures_get, ensures_pure, harg, if_pos hnull]
  rfl

theorem withPath_bind {k : Path → Handler Result} {Q : Result → World → Prop} (hne : e.arg w.mem off ≠ 0) :
    Ensures (withPath e off k) Q R w ↔
      Ensures (xlateFilename e (some (e.arg w.mem off).toNat) >>= fun path =>
        match path with
        | none => fail EFAULT
        | some path => k path) Q R w := by
  have harg : (Emulators.uiarg e.cpu w.mem e.sp off).setWidth 16 = e.arg w.mem off := rfl
  unfold withPath ptrArg getMemptr
  rw [ensures_bind, ensures_bind, ensures_get, ensures_pure, harg]
  split_ifs with hnull
  · exact absurd hnull hne
  · exact Iff.rfl

/-- The name at a pointer argument. -/
abbrev Emulator.nameArg (e : Emulator) (m : Mem) (off : BitVec 16) : Option CStr := nameAt e m (e.arg m off).toNat

abbrev Emulator.pathArg (e : Emulator) (m : Mem) (off : BitVec 16) : Path := pathOf e m (e.arg m off).toNat

theorem ensures_withPath {k : Path → Handler Result} {Q : Result → World → Prop} (hne : e.arg w.mem off ≠ 0)
    (htrans : Translates e w.mem (e.arg w.mem off).toNat) :
    Ensures (withPath e off k) Q R w ↔ Ensures (k (e.pathArg w.mem off)) Q R w := by
  rw [withPath_bind hne, ensures_bind, ensures_xlateFilename htrans]

/-! ## do_syscall -/

theorem ensures_doSyscall {op : Int} {n : Sysno} {Q : Result → World → Prop} (hn : Sysno.ofOp op = some n) :
    Ensures (doSyscall e host op) Q R w ↔ Ensures (n.run e host) Q R (w.failed 0) := by
  unfold doSyscall
  rw [ensures_bind, ensures_setErrno, hn]

end Fuzemsys.Emulators.Syscalls
