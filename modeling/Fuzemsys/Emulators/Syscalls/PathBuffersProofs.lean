import Fuzemsys.Emulators.Syscalls.PathBuffers
import Fuzemsys.Emulators.Syscalls.Rules

/-!
# Translated names are intact when the host reads them

What a buffer holds, what one translation does to both, and every sequence of calls.
-/

namespace Fuzemsys.Emulators.Syscalls.PathBuffers

variable {root : Root} {behind s s' : CStr} {m : Mem} {b b' : Buffers} {p dst n : Nat} {i j : Fin 2} {ptr : Pointer}

section
attribute [local simp] textFrom cstrWithin run passed twoPaths Turn.promised
end

/-! ## Texts -/

theorem textFrom_eq {f : Nat → BitVec 8} (hbytes : ∀ k ≤ s.length, f (p + k) = s.getD k 0) (hends : 0 ∉ s)
    (hroom : s.length < n) : textFrom f n p = s := by
  induction s generalizing n p with
  | nil =>
    obtain ⟨n, rfl⟩ := Nat.exists_eq_succ_of_ne_zero (Nat.ne_of_gt hroom)
    have hend : f p = 0 := hbytes 0 le_rfl
    rw [textFrom, if_pos hend]
  | cons c s ih =>
    rw [List.length_cons] at hroom
    obtain ⟨n, rfl⟩ := Nat.exists_eq_succ_of_ne_zero (Nat.ne_of_gt (Nat.zero_lt_of_lt hroom))
    have hfirst : f p = c := hbytes 0 (Nat.zero_le _)
    have hne : f p ≠ 0 := by
      rw [hfirst]
      rintro rfl
      exact hends List.mem_cons_self
    have hrest : textFrom f n (p + 1) = s := by
      apply ih _ (fun hmem => hends (List.mem_cons_of_mem _ hmem)) (by omega)
      intro k hk
      rw [Nat.add_assoc, Nat.add_comm 1 k]
      exact hbytes (k + 1) (Nat.succ_le_succ hk)
    rw [textFrom, if_neg hne, hrest, hfirst]

theorem textFrom_ends (f : Nat → BitVec 8) (n p : Nat) : 0 ∉ textFrom f n p := by
  induction n generalizing p with
  | zero => simp [textFrom]
  | succ n ih =>
    rw [textFrom]
    by_cases hend : f p = 0
    · simp [hend]
    · rw [if_neg hend, List.mem_cons, not_or]
      exact ⟨fun h => hend h.symm, ih (p + 1)⟩

theorem textAt_ends (behind : CStr) (m : Mem) (p : Nat) : 0 ∉ textAt behind m p := textFrom_ends _ _ _

/-- The first byte tells whether the text begins with a slash. -/
theorem textAt_head (hp : p < 65536) : (textAt behind m p).head? = some 0x2F ↔ byteAt m p = 0x2F := by
  have hfuel : 65536 + behind.length = (65535 + behind.length) + 1 := by omega
  unfold textAt
  rw [hfuel, textFrom, if_pos hp]
  by_cases hend : byteAt m p = 0
  · rw [if_pos hend, hend]
    simp
  · rw [if_neg hend, List.head?_cons, Option.some_inj]

/-! ## Buffers -/

theorem strcpy_inside (b : Buffers) (dst : Nat) (s : CStr) {k : Nat} (hk : k ≤ s.length) :
    (b.strcpy dst s).bytes (dst + k) = s.getD k 0 := by
  unfold Buffers.strcpy
  dsimp only
  rw [if_pos ⟨Nat.le_add_right _ _, by omega⟩, Nat.add_sub_cancel_left]

theorem strcpy_outside (b : Buffers) {dst : Nat} {s : CStr} {a : Nat} (h : a < dst ∨ dst + s.length < a) :
    (b.strcpy dst s).bytes a = b.bytes a := by
  unfold Buffers.strcpy
  dsimp only
  rw [if_neg (by omega)]

theorem realfilename_apart (h : i ≠ j) :
    realfilename i + realfilenameSize ≤ realfilename j ∨ realfilename j + realfilenameSize ≤ realfilename i := by
  unfold realfilename
  have hi := i.isLt
  have hj := j.isLt
  have hne : i.val ≠ j.val := fun heq => h (Fin.ext heq)
  rcases Nat.lt_or_gt_of_ne hne with hlt | hlt
  · left
    have : j.val = i.val + 1 := by omega
    rw [this, Nat.succ_mul]
  · right
    have : i.val = j.val + 1 := by omega
    rw [this, Nat.succ_mul]

/-- The buffer has this text, its end mark included. -/
structure Buffers.Holds (b : Buffers) (i : Fin 2) (s : CStr) : Prop where
  room : s.length < realfilenameSize
  ends : 0 ∉ s
  bytes : ∀ k ≤ s.length, b.bytes (realfilename i + k) = s.getD k 0

def Buffers.Points (b : Buffers) (behind : CStr) (m : Mem) : Pointer → CStr → Prop
  | .memory p, s => textAt behind m p = s
  | .buffer i, s => b.Holds i s

theorem read_points (h : b.Points behind m ptr s) : b.read behind m ptr = s := by
  cases ptr with
  | memory p => exact h
  | buffer i =>
    have hsize := h.room
    exact textFrom_eq h.bytes h.ends (by omega)

/-- Both copies go behind the root, and no store has been outside its buffer. -/
structure Buffers.Right (root : Root) (b : Buffers) : Prop where
  copies : ∀ i, b.rfn i = realfilename i + root.dirname.length
  begins : root.dirname.length < realfilenameSize →
    ∀ i, ∀ k < root.dirname.length, b.bytes (realfilename i + k) = root.dirname.getD k 0
  inside : ∀ p ∈ b.stored, realfilename p.1 ≤ p.2 ∧ p.2 < realfilename p.1 + realfilenameSize

theorem set_fuzix_root_right (root : Root) : (set_fuzix_root root).Right root := by
  refine ⟨fun i => rfl, ?_, ?_⟩
  · intro hroom i k hk
    unfold set_fuzix_root
    dsimp only
    by_cases hi : i = 1
    · subst hi
      exact strcpy_inside _ _ _ hk.le
    · obtain rfl : i = 0 := by omega
      have hapart : realfilename 0 + realfilenameSize ≤ realfilename 1 := by decide
      rw [strcpy_outside _ (Or.inl (by omega))]
      exact strcpy_inside _ _ _ hk.le
  · rintro p ⟨⟩

/-- A copy behind the root into one buffer leaves the other one alone. -/
theorem strcpy_holds (h : b.Right root) (hends : 0 ∉ s) (hroom : root.dirname.length + s.length + 1 ≤ realfilenameSize) :
    (b.strcpy (b.rfn i) s).Holds i (root.dirname ++ s) := by
  refine ⟨by rw [List.length_append]; omega, ?_, ?_⟩
  · rw [List.mem_append, not_or]
    exact ⟨root.ends, hends⟩
  · intro k hk
    rw [List.length_append] at hk
    rw [h.copies i]
    by_cases hroot : k < root.dirname.length
    · rw [strcpy_outside _ (Or.inl (by omega)), h.begins (by omega) i k hroot, List.getD_eq_getElem?_getD,
        List.getD_eq_getElem?_getD, List.getElem?_append_left hroot]
    · obtain ⟨d, rfl⟩ := Nat.exists_eq_add_of_le (Nat.le_of_not_lt hroot)
      rw [← Nat.add_assoc, strcpy_inside _ _ _ (by omega), List.getD_eq_getElem?_getD, List.getD_eq_getElem?_getD,
        List.getElem?_append_right (by omega), Nat.add_sub_cancel_left]

theorem strcpy_begins (h : b.Right root) (hroom : root.dirname.length + s.length + 1 ≤ realfilenameSize) {k : Nat}
    (hk : k < root.dirname.length) :
    (b.strcpy (b.rfn i) s).bytes (realfilename j + k) = b.bytes (realfilename j + k) := by
  rw [h.copies i]
  apply strcpy_outside
  by_cases hsame : j = i
  · subst hsame
    left
    omega
  · rcases realfilename_apart hsame with hapart | hapart
    · left
      omega
    · right
      omega

theorem holds_strcpy (hne : j ≠ i) (hdst : realfilename i ≤ dst)
    (hroom : dst + s.length < realfilename i + realfilenameSize) (h : b.Holds j s') : (b.strcpy dst s).Holds j s' := by
  refine ⟨h.room, h.ends, ?_⟩
  intro k hk
  have hsize := h.room
  rw [strcpy_outside _ ?_, h.bytes k hk]
  rcases realfilename_apart hne with hapart | hapart
  · left
    omega
  · right
    omega

/-- One translation: where the name is now, and that the buffer used before is as it was. -/
theorem xlate_filename_right (h : b.Right root) (hp : p < 65536)
    (hfits : byteAt m p = 0x2F → root.dirname.length + (textAt behind m p).length + 1 ≤ realfilenameSize) :
    ∃ ptr b', xlate_filename behind m (some p) b = some (ptr, b') ∧ b'.Right root ∧
      b'.Points behind m ptr (rooted root.dirname (textAt behind m p)) ∧ (∀ i, ptr = .buffer i → i ≠ b'.whichrfn) ∧
      ∀ j s, j ≠ b.whichrfn → b.Holds j s → b'.Holds j s := by
  unfold xlate_filename rooted
  rw [Option.map_some, if_congr (textAt_head hp) rfl rfl]
  by_cases hslash : byteAt m p = 0x2F
  · rw [if_neg (not_not.2 hslash), if_pos hslash]
    have hroom := hfits hslash
    have hcopies := h.copies b.whichrfn
    refine ⟨_, _, rfl, ⟨h.copies, ?_, ?_⟩, ?_, ?_, ?_⟩
    · intro hbegins i k hk
      dsimp only
      rw [strcpy_begins h hroom hk]
      exact h.begins hbegins i k hk
    · intro q hq
      rcases List.mem_append.1 hq with hq | hq
      · exact h.inside q hq
      · obtain ⟨k, hk, rfl⟩ := List.mem_map.1 hq
        rw [List.mem_range] at hk
        dsimp only
        omega
    · have hholds := strcpy_holds (i := b.whichrfn) h (textAt_ends behind m p) hroom
      exact ⟨hholds.room, hholds.ends, hholds.bytes⟩
    · rintro i heq
      cases heq
      dsimp only
      omega
    · intro j s hj hold
      have hkept : (b.strcpy (b.rfn b.whichrfn) (textAt behind m p)).Holds j s :=
        holds_strcpy hj (by omega) (by omega) hold
      exact ⟨hkept.room, hkept.ends, hkept.bytes⟩
  · rw [if_pos hslash, if_neg hslash]
    refine ⟨_, _, rfl, h, rfl, ?_, fun j s _ hold => hold⟩
    rintro i ⟨⟩

/-! ## The path as a value -/

theorem textFrom_cstrWithin (behind : CStr) {n d : Nat} (hs : cstrWithin m n p = some s) (hin : p + n ≤ 65536) :
    textFrom (fun i => if i < 65536 then byteAt m i else behind.getD (i - 65536) 0) (n + d) p = s := by
  induction n generalizing p s with
  | zero => cases hs
  | succ n ih =>
    unfold cstrWithin at hs
    have hlt : p < 65536 := by omega
    rw [Nat.succ_add, textFrom]
    simp only [if_pos hlt]
    by_cases hend : byteAt m p = 0
    · rw [if_pos hend] at hs ⊢
      exact Option.some.inj hs
    · rw [if_neg hend] at hs ⊢
      obtain ⟨s, hrest, rfl⟩ := Option.map_eq_some_iff.1 hs
      rw [ih hrest (by omega)]

theorem textAt_cstrAt (behind : CStr) (hp : p < 65536) (hs : cstrAt m p = some s) : textAt behind m p = s := by
  have hfuel : 65536 + behind.length = 65536 - p + (p + behind.length) := by omega
  unfold textAt
  rw [hfuel]
  exact textFrom_cstrWithin behind hs (by omega)

/-- What a handler is given for a pointer. -/
def Pointer.path (b : Buffers) (behind : CStr) (m : Mem) : Pointer → Path
  | .memory p => .inMemory p
  | .buffer i => .copied (b.read behind m (.buffer i))

/-- The buffers give the handler of a call the path it has as a value. -/
theorem pointer_path {e : Emulator} (he : e.root = root.dirname) (h : b.Right root) (hp : p < 65536)
    (htrans : Translates e m p) : ∃ ptr b', xlate_filename behind m (some p) b = some (ptr, b') ∧ b'.Right root ∧
      ptr.path b' behind m = pathOf e m p := by
  unfold pathOf
  by_cases hroot : Rooted m p
  · obtain ⟨s, hs⟩ := Option.isSome_iff_exists.mp (htrans hroot)
    obtain ⟨s', hstr, hname⟩ := nameAt_eq_some.mp hs
    rw [if_pos hroot] at hname
    obtain ⟨hfits, rfl⟩ := hname
    have htext := textAt_cstrAt behind hp hstr
    obtain ⟨ptr, b', hone, hright, hpoints, -⟩ := xlate_filename_right h hp fun _ => by
      rw [htext, ← he]
      exact hfits
    cases ptr with
    | memory q =>
      have hslash : byteAt m p = 0x2F := hroot
      rw [xlate_filename, Option.map_some, if_neg (not_not.2 hslash)] at hone
      cases hone
    | buffer i =>
      refine ⟨.buffer i, b', hone, hright, ?_⟩
      rw [if_pos hroot, hs, Pointer.path, read_points hpoints, rooted, if_pos ((textAt_head hp).2 hroot), htext, he]
      rfl
  · have hother : byteAt m p ≠ 0x2F := hroot
    refine ⟨.memory p, b, ?_, h, ?_⟩
    · rw [xlate_filename, Option.map_some, if_pos hother]
    · rw [if_neg hroot]
      rfl

/-! ## Calls -/

theorem path_translated {t : Turn} (hpath : t.path ≠ 0) : t.path ∈ t.translated := by
  unfold Turn.translated
  rw [if_neg hpath]
  split_ifs
  · exact List.mem_cons_self
  · exact List.mem_cons_self

theorem newpath_translated {t : Turn} (hpath : t.path ≠ 0) (hcall : t.call = .rename ∨ t.call = .link)
    (hnewpath : t.newpath ≠ 0) : t.newpath ∈ t.translated := by
  unfold Turn.translated
  rw [if_neg hpath, if_pos ⟨hcall, hnewpath⟩]
  exact List.mem_cons_of_mem _ List.mem_cons_self

/-- The first path of two is still there when both are read. -/
theorem twoPaths_right (h : b.Right root) {t : Turn} (hfits : t.Fits root.dirname behind) (hpath : t.path ≠ 0)
    (hcall : t.call = .rename ∨ t.call = .link) (hpoints : b.Points behind t.mem ptr s) (hused : ∀ i, ptr = .buffer i → i ≠ b.whichrfn) :
    (twoPaths behind t ptr b).1 = (if t.newpath = 0 then [] else [s, rooted root.dirname (t.text behind t.newpath)]) ∧
      (twoPaths behind t ptr b).2.Right root := by
  unfold twoPaths getMemptr
  by_cases hnull : t.newpath = 0
  · rw [if_pos hnull, if_pos hnull]
    exact ⟨rfl, h⟩
  · rw [if_neg hnull, if_neg hnull]
    obtain ⟨ptr', b', hone, hright, hpoints', -, hkept⟩ := xlate_filename_right (p := t.newpath.toNat) h
      t.newpath.isLt (hfits t.newpath (newpath_translated hpath hcall hnull))
    have hfirst : b'.Points behind t.mem ptr s := by
      cases ptr with
      | memory p => exact hpoints
      | buffer i => exact hkept i s (hused i rfl) hpoints
    rw [hone]
    dsimp only
    rw [read_points hfirst, read_points hpoints']
    exact ⟨rfl, hright⟩

theorem passed_right (h : b.Right root) {t : Turn} (hfits : t.Fits root.dirname behind) :
    (passed behind t b).1 = t.promised root.dirname behind ∧ (passed behind t b).2.Right root := by
  unfold passed Turn.promised getMemptr
  by_cases hnull : t.path = 0
  · rw [if_pos hnull, if_pos hnull]
    exact ⟨rfl, h⟩
  rw [if_neg hnull, if_neg hnull]
  obtain ⟨ptr, b₁, hone, hright, hpoints, hused, -⟩ :=
    xlate_filename_right (p := t.path.toNat) h t.path.isLt (hfits t.path (path_translated hnull))
  rw [hone]
  dsimp only
  have hread := read_points hpoints
  cases hcall : t.call with
  | rename => exact twoPaths_right hright hfits hnull (Or.inl hcall) hpoints hused
  | link => exact twoPaths_right hright hfits hnull (Or.inr hcall) hpoints hused
  | «open» =>
    rw [hread]
    exact ⟨rfl, hright⟩
  | execve =>
    rw [hread]
    exact ⟨rfl, hright⟩
  | unlink | chdir | access | chmod | chown | stat | mkdir | rmdir =>
    rw [hread]
    exact ⟨rfl, hright⟩

theorem run_right (h : b.Right root) (ts : List Turn) (hfits : ∀ t ∈ ts, t.Fits root.dirname behind) :
    (run behind ts b).1 = ts.map (Turn.promised root.dirname behind) ∧ (run behind ts b).2.Right root := by
  induction ts generalizing b with
  | nil => exact ⟨rfl, h⟩
  | cons t ts ih =>
    obtain ⟨hpaths, hright⟩ := passed_right h (hfits t List.mem_cons_self)
    obtain ⟨hmore, hright'⟩ := ih hright fun t ht => hfits t (List.mem_cons_of_mem _ ht)
    unfold run
    dsimp only
    rw [hpaths, hmore]
    exact ⟨rfl, hright'⟩

/-- As long as each copied path leaves room for its end mark, the host is given the promised paths and the
translation stores nothing outside the buffers. -/
theorem paths_translated (root : Root) (behind : CStr) (ts : List Turn)
    (hfits : ∀ t ∈ ts, t.Fits root.dirname behind) :
    (run behind ts (set_fuzix_root root)).1 = ts.map (Turn.promised root.dirname behind) ∧
      ∀ p ∈ (run behind ts (set_fuzix_root root)).2.stored,
        realfilename p.1 ≤ p.2 ∧ p.2 < realfilename p.1 + realfilenameSize := by
  obtain ⟨hpaths, hright⟩ := run_right (set_fuzix_root_right root) ts hfits
  exact ⟨hpaths, hright.inside⟩

/-- Both names of a link are below the root. -/
theorem link_translated :
    let root : Root := ⟨[0x72], by decide⟩
    let m : Mem := ⟨fun a => if a = 16 ∨ a = 32 then 0x2F else if a = 17 then 0x78 else 0, 0, []⟩
    (run [] [⟨m, .link, 16, 32, true⟩] (set_fuzix_root root)).1 = [[[0x72, 0x2F, 0x78], [0x72, 0x2F]]] := by
  intro root m
  have hfits : ∀ t ∈ [(⟨m, .link, 16, 32, true⟩ : Turn)], t.Fits root.dirname [] := by
    intro t ht
    rw [List.mem_singleton.1 ht]
    intro addr haddr _
    rcases List.mem_pair.1 haddr with rfl | rfl
    · decide
    · decide
  exact (paths_translated root [] _ hfits).1.trans (by decide)

/-- The first path of the host's `execve` is refused, and the second one is not below the root. -/
theorem native_binary_tried :
    let root : Root := ⟨[0x72], by decide⟩
    let text : CStr := [0x2F, 0x78]
    let m : Mem := ⟨fun a => text.getD (a.toNat - 16) 0, 0, []⟩
    let t : Turn := ⟨m, .execve, 16, 0, false⟩
    (run [] [t] (set_fuzix_root root)).1 = [[root.dirname ++ text, text]] ∧ rooted root.dirname text ≠ text := by
  decide

end Fuzemsys.Emulators.Syscalls.PathBuffers
