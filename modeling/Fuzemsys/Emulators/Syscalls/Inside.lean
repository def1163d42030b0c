import Fuzemsys.Emulators.Syscalls.Rules

/-!
# Staying inside the emulated memory

Only a pointer of zero is refused. A call stays inside the memory, for every
host, where its strings end there and its buffers lie there.
-/

open Fuzemsys.Lib

namespace Fuzemsys.Emulators.Syscalls

/-! ## Defined behaviour -/

/-- Neither `ram[]` nor another array was used behind its end. -/
def Ending.Defined (x : Ending) : Prop := x ≠ .outside ∧ x ≠ .overrun

variable {α : Type} {e : Emulator} {host : Host} {off : BitVec 16} {p n : Nat} {w : World}
  {R : Ending → World → Prop}

def Tame (h : Handler α) (w : World) : Prop := Ensures h (fun _ _ => True) (fun x _ => x.Defined) w

/-- The memory is only read. -/
def Reads (h : Handler α) (w : World) : Prop := Ensures h (fun _ w' => w'.mem = w.mem) (fun _ _ => False) w

theorem not_defined_outside : ¬ Ending.Defined .outside := fun h => h.1 rfl

theorem not_defined_overrun : ¬ Ending.Defined .overrun := fun h => h.2 rfl

theorem Reads.tame {h : Handler α} (hreads : Reads h w) : Tame h w := by
  refine hreads.mono ?_ ?_
  · intro _ _ _
    trivial
  · intro _ _ hfalse
    exact hfalse.elim

/-! ## What the parts of a call need -/

theorem load_tame {k : List (BitVec 8) → Handler α} (hk : Tame (k (bytesAt w.mem p n)) w) :
    Tame (load p n >>= k) w ↔ p + n ≤ 65536 := by
  unfold Tame at hk ⊢
  rw [ensures_bind, ensures_load]
  split_ifs with hfit
  · exact iff_of_true hk hfit
  · exact iff_of_false not_defined_outside hfit

theorem store_tame {bytes : List (BitVec 8)} {k : PUnit → Handler α}
    (hk : Tame (k ⟨⟩) (w.setMem (Mem.stored w.mem p bytes))) :
    Tame (store p bytes >>= k) w ↔ p + bytes.length ≤ 65536 := by
  unfold Tame at hk ⊢
  rw [ensures_bind, ensures_store]
  split_ifs with hfit
  · exact iff_of_true hk hfit
  · exact iff_of_false not_defined_outside hfit

theorem storeFields_tame {fields : List (Nat × List (BitVec 8))} {k : PUnit → Handler α}
    (hk : Tame (k ⟨⟩) (w.setMem (Mem.withFields w.mem p fields))) :
    Tame (storeFields p fields >>= k) w ↔ FieldsFit p fields := by
  unfold Tame at hk ⊢
  rw [ensures_bind]
  by_cases hfit : FieldsFit p fields
  · rw [storeFields_fit hfit]
    exact iff_of_true hk hfit
  · refine iff_of_false ?_ hfit
    intro htame
    have hout := storeFields_outside hfit (w := w)
    unfold Ensures at hout htame
    cases hrun : storeFields p fields w with
    | ok a w' => simp [hrun] at hout
    | error x w' =>
      simp only [hrun] at hout htame
      exact not_defined_outside (hout ▸ htame)

/-! ## Names -/

/-- The pointer is NULL, or the host gets a name. -/
def Named (e : Emulator) (m : Mem) (off : BitVec 16) : Prop := e.arg m off = 0 ∨ (e.nameArg m off).isSome

theorem withPath_translates {k : Path → Handler Result} (hne : e.arg w.mem off ≠ 0)
    (htame : Tame (withPath e off k) w) : Translates e w.mem (e.arg w.mem off).toNat := by
  intro hroot
  unfold Tame at htame
  rw [withPath_bind hne, ensures_bind, xlateFilename_rooted hroot] at htame
  cases hstr : cstrAt w.mem (e.arg w.mem off).toNat with
  | none =>
    rw [loadStr_none hstr] at htame
    exact absurd htame not_defined_outside
  | some s =>
    rw [loadStr_some hstr] at htame
    split_ifs at htame with hfits
    · have hname : nameAt e w.mem (e.arg w.mem off).toNat = some (e.root ++ s) :=
        nameAt_eq_some.mpr ⟨s, hstr, by rw [if_pos hroot]; exact ⟨hfits, rfl⟩⟩
      rw [hname]
      rfl
    · exact absurd htame not_defined_overrun

theorem withPath_null_tame {k : Path → Handler Result} (hnull : e.arg w.mem off = 0) : Tame (withPath e off k) w := by
  unfold Tame
  rw [withPath_null hnull]
  trivial

/-- A call that reads its name at once needs the name. -/
theorem named_of_tame {k : Path → Handler Result} (hlost : ∀ path, path.Lost w.mem → ¬ Tame (k path) w)
    (htame : Tame (withPath e off k) w) : Named e w.mem off := by
  by_cases hne : e.arg w.mem off = 0
  · exact .inl hne
  · have htrans := withPath_translates hne htame
    unfold Tame at htame
    rw [ensures_withPath hne htrans] at htame
    cases hname : e.nameArg w.mem off with
    | none => exact absurd htame (hlost _ (pathOf_lost htrans hname))
    | some s => exact .inr (by rw [hname]; rfl)

theorem withPath_tame {k : Path → Handler Result} (hnamed : ∀ path s, path.Names w.mem s → Tame (k path) w)
    (hlost : ∀ path, path.Lost w.mem → ¬ Tame (k path) w) :
    Tame (withPath e off k) w ↔ Named e w.mem off := by
  refine ⟨named_of_tame hlost, ?_⟩
  intro hname
  by_cases hne : e.arg w.mem off = 0
  · exact withPath_null_tame hne
  · obtain ⟨s, hs⟩ := Option.isSome_iff_exists.mp (hname.resolve_left hne)
    unfold Tame
    rw [ensures_withPath hne fun _ => hname.resolve_left hne]
    exact hnamed _ s (pathOf_names hs)

theorem str_tame {path : Path} {s : CStr} {k : CStr → Handler α} (hnames : path.Names w.mem s) (hk : Tame (k s) w) :
    Tame (path.str >>= k) w := by
  unfold Tame
  rw [ensures_bind, hnames w _ _ rfl]
  exact hk

theorem str_not_tame {path : Path} {k : CStr → Handler α} (hlost : path.Lost w.mem) : ¬ Tame (path.str >>= k) w := by
  unfold Tame
  rw [ensures_bind, hlost w _ _ rfl]
  exact not_defined_outside

theorem Reads.bind_tame {h : Handler α} {β : Type} {k : α → Handler β} (hreads : Reads h w)
    (hk : ∀ a w', w'.mem = w.mem → Tame (k a) w') : Tame (h >>= k) w := by
  unfold Tame
  rw [ensures_bind]
  refine hreads.mono (fun a w' hmem => hk a w' hmem) ?_
  intro _ _ hfalse
  exact hfalse.elim

/-! ## One family after the other -/

theorem pathCall_tame {fn : HostFn} {offs : List (BitVec 16)} :
    Tame (pathCall e host fn offs) w ↔ Named e w.mem 0 := by
  unfold pathCall
  refine withPath_tame ?_ ?_
  · intro path s hnames
    unfold Tame
    rw [ensures_bind, ensures_get]
    exact str_tame hnames trivial
  · intro path hlost
    unfold Tame
    rw [ensures_bind, ensures_get]
    exact str_not_tame hlost

theorem writeDirents_reads (fd : Int) (entries : List Dirent) : Reads (writeDirents e host fd entries) w := by
  induction entries generalizing w with
  | nil => rfl
  | cons d rest ih =>
    unfold writeDirents Reads
    rw [ensures_bind, ensures_perform]
    exact ih

theorem makeDirentFile_reads {path : Path} {s : CStr} (hnames : path.Names w.mem s) :
    Reads (makeDirentFile e host path) w := by
  unfold makeDirentFile Reads
  rw [ensures_bind, hnames w _ _ rfl, ensures_bind, ensures_perform]
  split
  · rfl
  · rw [ensures_bind, ensures_perform, ensures_ite]
    split_ifs
    · rfl
    · rw [ensures_bind]
      refine (writeDirents_reads _ _).mono ?_ ?_
      · intro _ w' hmem
        exact hmem
      · intro _ _ hfalse
        exact hfalse

theorem openCall_tame : Tame (openCall e host) w ↔ Named e w.mem 0 := by
  unfold openCall
  refine withPath_tame ?_ ?_
  · intro path s hnames
    unfold Tame
    rw [ensures_bind, ensures_uintArg, ensures_bind, ensures_uintArg]
    refine (makeDirentFile_reads hnames).bind_tame ?_
    intro result w' hmem
    unfold Tame
    rw [ensures_ite]
    split_ifs
    · exact str_tame (hmem ▸ hnames) trivial
    · trivial
  · intro path hlost
    unfold Tame
    rw [ensures_bind, ensures_uintArg, ensures_bind, ensures_uintArg, ensures_bind]
    unfold makeDirentFile
    rw [ensures_bind, hlost w _ _ rfl]
    exact not_defined_outside

/-- Behind the first name stands a pointer, tested before the host reads the name. -/
theorem withPath_ptr_tame {k : Path → Nat → Handler Result} :
    Tame (withPath e 0 fun path => withPtr e 2 (k path)) w ↔ e.arg w.mem 0 = 0 ∨
      (Translates e w.mem (e.arg w.mem 0).toNat ∧
        (e.arg w.mem 2 = 0 ∨ Tame (k (e.pathArg w.mem 0) (e.arg w.mem 2).toNat) w)) := by
  by_cases hne : e.arg w.mem 0 = 0
  · exact iff_of_true (withPath_null_tame hne) (.inl hne)
  rw [or_iff_right hne]
  have hptr (htrans : Translates e w.mem (e.arg w.mem 0).toNat) :
      Tame (withPath e 0 fun path => withPtr e 2 (k path)) w ↔
        (e.arg w.mem 2 = 0 ∨ Tame (k (e.pathArg w.mem 0) (e.arg w.mem 2).toNat) w) := by
    unfold Tame
    rw [ensures_withPath hne htrans, ensures_withPtr]
    split_ifs with hnull
    · exact iff_of_true trivial (.inl hnull)
    · rw [or_iff_right hnull]
  constructor
  · intro htame
    have htrans := withPath_translates hne htame
    exact ⟨htrans, (hptr htrans).mp htame⟩
  · rintro ⟨htrans, hrest⟩
    exact (hptr htrans).mpr hrest

theorem twoPathCall_tame {fn : HostFn} : Tame (twoPathCall e host fn) w ↔ e.arg w.mem 0 = 0 ∨
    (Translates e w.mem (e.arg w.mem 0).toNat ∧
      (e.arg w.mem 2 = 0 ∨ (e.nameArg w.mem 0).isSome ∧ (e.nameArg w.mem 2).isSome)) := by
  unfold twoPathCall
  by_cases hne : e.arg w.mem 0 = 0
  · exact iff_of_true (withPath_null_tame hne) (.inl hne)
  rw [or_iff_right hne]
  have hsecond (htrans : Translates e w.mem (e.arg w.mem 0).toNat) :
      Tame (twoPathCall e host fn) w ↔
        (e.arg w.mem 2 = 0 ∨ (e.nameArg w.mem 0).isSome ∧ (e.nameArg w.mem 2).isSome) := by
    unfold twoPathCall Tame
    rw [ensures_withPath hne htrans]
    cases hname : e.nameArg w.mem 0 with
    | some s =>
      have hpath : (e.pathArg w.mem 0).Names w.mem s := pathOf_names hname
      refine (withPath_tame ?_ ?_).trans (by simp [Named])
      · intro newpath s' hnewpath
        exact str_tame hpath (str_tame hnewpath trivial)
      · intro newpath hlost
        unfold Tame
        rw [ensures_bind, hpath w _ _ rfl]
        exact str_not_tame hlost
    | none =>
      have hlost : (e.pathArg w.mem 0).Lost w.mem := pathOf_lost htrans hname
      by_cases hne' : e.arg w.mem 2 = 0
      · exact iff_of_true (withPath_null_tame hne') (.inl hne')
      · refine iff_of_false ?_ (not_or.mpr ⟨hne', by rintro ⟨hsome, -⟩; cases hsome⟩)
        intro htame
        rw [ensures_withPath hne' (withPath_translates hne' htame)] at htame
        exact str_not_tame hlost htame
  constructor
  · intro htame
    have htrans := withPath_translates hne htame
    exact ⟨htrans, (hsecond htrans).mp htame⟩
  · rintro ⟨htrans, hrest⟩
    exact (hsecond htrans).mpr hrest

/-! ## Structures -/

theorem withPtr_tame {k : Nat → Handler Result} :
    Tame (withPtr e off k) w ↔ e.arg w.mem off = 0 ∨ Tame (k (e.arg w.mem off).toNat) w := by
  unfold Tame
  rw [ensures_withPtr]
  split_ifs with hnull
  · exact iff_of_true trivial (.inl hnull)
  · rw [or_iff_right hnull]

theorem copystat_tame {src : Stat} {k : PUnit → Handler Result} (hk : ∀ a w', Tame (k a) w') :
    Tame (copystat e src p >>= k) w ↔ p + 34 ≤ 65536 := (storeFields_tame (hk _ _)).trans statFields_fit

theorem toFuzixTermios_tame {t : Termios} {k : PUnit → Handler Result} (hk : ∀ a w', Tame (k a) w') :
    Tame (toFuzixTermios e p t >>= k) w ↔ p + 20 ≤ 65536 := (storeFields_tame (hk _ _)).trans termiosFields_fit

theorem loadChars_outside {cc : Fin 32 → BitVec 8} {map : List (Nat × Fin 32)} {x : Nat × Fin 32} (hx : x ∈ map)
    (hout : 65536 < p + 8 + x.1 + 1) : ¬ Tame (loadChars p cc map) w := by
  induction map generalizing cc with
  | nil => simp at hx
  | cons y rest ih =>
    unfold loadChars
    intro htame
    unfold Tame at htame
    rw [ensures_bind, ensures_load] at htame
    split_ifs at htame with hfit
    · rcases List.mem_cons.mp hx with rfl | hx
      · omega
      · exact ih hx htame
    · exact not_defined_outside htame

theorem fromFuzixTermios_tame {t : Termios} {k : Termios → Handler Result} (hk : ∀ t, Tame (k t) w) :
    Tame (fromFuzixTermios e p t >>= k) w ↔ p + 20 ≤ 65536 := by
  by_cases hfit : p + 20 ≤ 65536
  · unfold Tame
    rw [ensures_bind, fromFuzixTermios_fit hfit]
    exact iff_of_true (hk _) hfit
  · refine iff_of_false ?_ hfit
    intro htame
    unfold Tame fromFuzixTermios at htame
    simp only [ensures_bind, ensures_load] at htame
    split_ifs at htame
    · have hlast : (11, 13) ∈ ccMap := by decide
      refine loadChars_outside hlast (by omega) (Ensures.mono htame ?_ ?_)
      · intro _ _ _
        trivial
      · intro _ _ hdefined
        exact hdefined
    all_goals exact not_defined_outside htame

/-! ## execve -/

theorem copyArgs_tame {cpu : Cpu} {addr : BitVec 16} {k : List CStr → Handler Result} (hk : ∀ args, Tame (k args) w) :
    Tame (copyArgs cpu n addr >>= k) w ↔ (argsAt cpu w.mem n addr).isSome := by
  have hnone (hargs : argsAt cpu w.mem n addr = none) : ∀ Q : List CStr → World → Prop,
      ¬ Ensures (copyArgs cpu n addr) Q (fun x _ => x.Defined) w := by
    induction n generalizing addr with
    | zero =>
      intro Q
      exact not_defined_overrun
    | succ n ih =>
      intro Q htame
      unfold argsAt at hargs
      unfold copyArgs at htame
      rw [ensures_bind, ensures_get, ensures_ite] at htame
      split_ifs at hargs htame with hnull
      rw [ensures_bind] at htame
      cases hstr : cstrAt w.mem (getui cpu w.mem addr).toNat with
      | none =>
        rw [loadStr_none hstr] at htame
        exact not_defined_outside htame
      | some s =>
        rw [loadStr_some hstr, ensures_bind] at htame
        refine ih ?_ _ htame
        simpa [hstr] using hargs
  unfold Tame at hk ⊢
  rw [ensures_bind]
  cases hargs : argsAt cpu w.mem n addr with
  | none => exact iff_of_false (hnone hargs _) (by simp)
  | some args =>
    rw [copyArgs_some hargs]
    exact iff_of_true (hk args) rfl

theorem canOpen_reads (name : CStr) : Reads (canOpen host name) w := by
  unfold canOpen Reads
  rw [ensures_bind, ensures_perform, ensures_ite]
  split_ifs <;> rfl

/-- The strings behind the second argument can be copied. -/
def ArgsFit (e : Emulator) (m : Mem) : Prop :=
  (argsAt e.cpu m (MAX_ARGS - 2) (BitVec.ofNat 16 (e.arg m 2).toNat + 2)).isSome

theorem enterMain_tame {name : CStr} (hargs : ArgsFit e w.mem) : Tame (enterMain e host name) w := by
  unfold enterMain
  refine (canOpen_reads name).bind_tame ?_
  intro opened w' hmem
  unfold Tame
  rw [ensures_ite]
  split_ifs
  · rw [ensures_bind, ensures_uintArg]
    refine (copyArgs_tame fun args => ?_).mpr ?_
    · exact ⟨by simp, by simp⟩
    · rw [hmem]
      exact hargs
  · trivial

theorem execveCall_tame (hnamed : Named e w.mem 0) (hargs : e.arg w.mem 0 = 0 ∨ ArgsFit e w.mem) :
    Tame (execveCall e host) w := by
  unfold execveCall
  by_cases hne : e.arg w.mem 0 = 0
  · exact withPath_null_tame hne
  rw [or_iff_right hne] at hargs
  obtain ⟨s, hs⟩ := Option.isSome_iff_exists.mp (hnamed.resolve_left hne)
  obtain ⟨s', hstr, -⟩ := nameAt_eq_some.mp hs
  have hpath : (e.pathArg w.mem 0).Names w.mem s := pathOf_names hs
  unfold Tame
  rw [ensures_withPath hne fun _ => hnamed.resolve_left hne]
  refine str_tame hpath ((canOpen_reads s).bind_tame ?_)
  intro opened w' hmem
  unfold Tame
  rw [ensures_ite]
  split_ifs
  · have hpath' : (e.pathArg w.mem 0).Names w'.mem s := by rw [hmem]; exact hpath
    exact str_tame hpath' (enterMain_tame (hmem ▸ hargs))
  · have hstr' : cstrAt w'.mem (e.arg w'.mem 0).toNat = some s' := by rw [hmem]; exact hstr
    rw [ensures_bind, ensures_uintArg, ensures_bind, loadStr_some hstr']
    exact enterMain_tame (hmem ▸ hargs)

end Fuzemsys.Emulators.Syscalls
