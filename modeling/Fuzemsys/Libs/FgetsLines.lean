import Fuzemsys.Libs.Fgets

/-!
# The lines fgets reads

A call reads a line exactly if the line ends before the buffer is full. Where it
does not, the NUL goes one byte past the buffer.
-/

open Fuzemsys.Lib

namespace Fuzemsys.Libs.Stdio

/-! ## Streams -/

theorem readable_not_ferror {f : FILE} (h : f.readable = true) : f.ferror = false := by
  simp only [FILE.readable, decide_eq_true_eq] at h
  have hmask : (modeRead ||| modeEof ||| modeErr) &&& modeErr = modeErr := by decide
  have herr : f.mode &&& modeErr = 0 := by
    rw [← hmask, ← BitVec.and_assoc, h]
    decide
  simp [FILE.ferror, herr]

theorem readable_reading (mode : BitVec 16) (rest : List Byte) (later : List (Option (List Byte))) :
    FILE.readable ⟨(mode ||| modeReading) &&& ~~~modeUngot, rest, later⟩ =
      FILE.readable ⟨mode, [], []⟩ := by
  have hmask : ~~~modeUngot &&& (modeRead ||| modeEof ||| modeErr) =
      modeRead ||| modeEof ||| modeErr := by decide
  have hreading : modeReading &&& (modeRead ||| modeEof ||| modeErr) = 0 := by decide
  have hand : (mode ||| modeReading) &&& ~~~modeUngot &&& (modeRead ||| modeEof ||| modeErr) =
      mode &&& (modeRead ||| modeEof ||| modeErr) := by
    rw [BitVec.and_assoc, hmask, BitVec.and_or_distrib_right, hreading]
    exact BitVec.or_zero
  simp only [FILE.readable, hand]

theorem not_readable_of_flag (mode flag : BitVec 16) (buffered : List Byte)
    (reads : List (Option (List Byte))) (h : flag = modeEof ∨ flag = modeErr) :
    FILE.readable ⟨mode ||| flag, buffered, reads⟩ = false := by
  simp only [FILE.readable, decide_eq_false_iff_not]
  intro hmode
  rcases h with rfl | rfl
  · have := congrArg (·.getLsbD 8) hmode
    simp [modeRead, modeEof, modeErr] at this
  · have := congrArg (·.getLsbD 9) hmode
    simp [modeRead, modeEof, modeErr] at this

/-- The next character is the first byte of what is left. -/
theorem fgetc_cons {f : FILE} {ch : Byte} {cs : List Byte} (h : f.contents = ch :: cs) :
    ∃ f', fgetc f = (some ch, f') ∧ f'.contents = cs := by
  unfold FILE.contents at h
  have hread : f.readable = true := by
    by_contra hread
    simp [hread] at h
  simp only [hread, if_true] at h
  unfold fgetc
  simp only [hread, Bool.not_true, Bool.false_eq_true, if_false]
  rcases hbuf : f.buffered with _ | ⟨b, rest⟩
  · rw [hbuf, List.nil_append] at h
    match hreads : f.reads with
    | some (b :: rest) :: later =>
      simp only [hreads, delivered, List.cons_append, List.cons.injEq] at h
      obtain ⟨rfl, rfl⟩ := h
      refine ⟨_, rfl, ?_⟩
      have hmode : FILE.readable ⟨f.mode, [], []⟩ = true := hread
      simp only [FILE.contents, readable_reading, hmode, if_true]
    | some [] :: later => simp [hreads, delivered] at h
    | none :: later => simp [hreads, delivered] at h
    | [] => simp [hreads, delivered] at h
  · rw [hbuf, List.cons_append, List.cons.injEq] at h
    obtain ⟨rfl, rfl⟩ := h
    refine ⟨_, rfl, ?_⟩
    have hmode : FILE.readable { f with buffered := rest } = true := hread
    simp only [FILE.contents, hmode, if_true]

/-- At the end of the stream there is no next character, then and later. -/
theorem fgetc_nil {f : FILE} (h : f.contents = []) :
    ∃ f', fgetc f = (none, f') ∧ f'.contents = [] := by
  unfold fgetc
  rcases hread : f.readable with _ | _
  · exact ⟨f, by simp, h⟩
  · simp only [FILE.contents, hread, if_true, List.append_eq_nil_iff] at h
    simp only [Bool.not_true, Bool.false_eq_true, if_false, h.1]
    match hreads : f.reads with
    | some (b :: rest) :: later => simp [hreads, delivered] at h
    | some [] :: later => exact ⟨_, rfl, by simp [FILE.contents, not_readable_of_flag]⟩
    | none :: later => exact ⟨_, rfl, by simp [FILE.contents, not_readable_of_flag]⟩
    | [] => exact ⟨_, rfl, by simp [FILE.contents, not_readable_of_flag]⟩

/-! ## Stores -/

/-- Bytes stored one after the other. -/
def Memory.putAll (m : Memory) (a : Nat) : List Byte → Memory
  | [] => m
  | b :: bs => (m.put a b).putAll (a + 1) bs

@[simp]
theorem putAll_stores (m : Memory) (a : Nat) (bs : List Byte) :
    (m.putAll a bs).stores = m.stores ++ List.range' a bs.length := by
  induction bs generalizing m a with
  | nil => simp [Memory.putAll]
  | cons b bs ih => simp [Memory.putAll, ih, Memory.put, List.range'_succ]

theorem putAll_below (m : Memory) {a k : Nat} (bs : List Byte) (h : k < a) :
    (m.putAll a bs).cells k = m.cells k := by
  induction bs generalizing m a with
  | nil => rfl
  | cons b bs ih =>
    rw [Memory.putAll, ih _ (by omega)]
    simp [Memory.put, show k ≠ a by omega]

theorem putAll_cells (m : Memory) (a : Nat) (bs : List Byte) :
    (List.range' a bs.length).map (m.putAll a bs).cells = bs := by
  induction bs generalizing m a with
  | nil => rfl
  | cons b bs ih =>
    rw [List.length_cons, List.range'_succ, List.map_cons, Memory.putAll, ih,
      putAll_below _ _ (Nat.lt_succ_self a)]
    simp [Memory.put]

/-! ## The bytes of a line -/

/-- Up to the first newline, `n` bytes at most. -/
def nextLine : Nat → List Byte → List Byte
  | 0, _ => []
  | _ + 1, [] => []
  | n + 1, c :: cs => if c = newline then [c] else c :: nextLine n cs

@[simp]
theorem nextLine_nil (n : Nat) : nextLine n [] = [] := by cases n <;> rfl

theorem nextLine_length_lt_iff (n : Nat) (cs : List Byte) :
    (nextLine (n + 1) cs).length < n + 1 ↔ newline ∈ cs.take n ∨ cs.length < n + 1 := by
  induction n generalizing cs with
  | zero =>
    rcases cs with _ | ⟨c, cs⟩
    · simp
    · unfold nextLine
      split_ifs <;> simp
  | succ n ih =>
    rcases cs with _ | ⟨c, cs⟩
    · simp
    · unfold nextLine
      split_ifs with hc
      · simp [hc]
      · have hne : newline ≠ c := fun h => hc h.symm
        simp only [List.length_cons, Nat.add_lt_add_iff_right, ih, List.take_succ_cons,
          List.mem_cons, hne, false_or]

theorem nextLine_one_line (n : Nat) (cs : List Byte) : newline ∉ (nextLine n cs).dropLast := by
  induction n generalizing cs with
  | zero => simp [nextLine]
  | succ n ih =>
    rcases cs with _ | ⟨c, cs⟩
    · simp
    · unfold nextLine
      split_ifs with hc
      · simp
      · intro hmem
        rcases hline : nextLine n cs with _ | ⟨d, ds⟩
        · simp [hline] at hmem
        · rw [hline, List.dropLast_cons_cons, List.mem_cons] at hmem
          rcases hmem with h | h
          · exact hc h.symm
          · exact ih cs (hline ▸ h)

theorem nextLine_stops (n : Nat) (cs rest : List Byte) (hcs : cs = nextLine n cs ++ rest)
    (hlt : (nextLine n cs).length < n) : (nextLine n cs).getLast? = some newline ∨ rest = [] := by
  induction n generalizing cs with
  | zero => simp at hlt
  | succ n ih =>
    rcases cs with _ | ⟨c, cs⟩
    · right
      simpa using hcs.symm
    · unfold nextLine at hcs hlt ⊢
      split_ifs at hcs hlt ⊢ with hc
      · left
        simp [hc]
      · simp only [List.cons_append, List.cons.injEq, true_and] at hcs
        rcases ih cs hcs (by simpa using hlt) with h | h
        · left
          rw [List.getLast?_cons, h]
          rfl
        · exact .inr h

/-- The loop stores the next line, and gives NULL only where it stored nothing at all. -/
theorem fgetsLoop_line (ret i s : Nat) (m : Memory) (f : FILE) (hs : ret ≤ s) :
    ∃ f', fgetsLoop ret i s m f =
        (if s = ret ∧ i ≠ 0 ∧ f.contents = [] then none
          else some (s + (nextLine i f.contents).length),
         m.putAll s (nextLine i f.contents), f') ∧
      f.contents = nextLine i f.contents ++ f'.contents := by
  induction i generalizing s m f with
  | zero => exact ⟨f, by simp [fgetsLoop, nextLine, Memory.putAll], by simp [nextLine]⟩
  | succ i ih =>
    rcases hcs : f.contents with _ | ⟨c, cs⟩
    · obtain ⟨f', hget, hnil⟩ := fgetc_nil hcs
      exact ⟨f', by simp [fgetsLoop, hget, Memory.putAll], by simp [hnil]⟩
    · obtain ⟨f', hget, hrest⟩ := fgetc_cons hcs
      unfold fgetsLoop nextLine
      by_cases hc : c = newline
      · exact ⟨f', by simp [hget, hc, Memory.putAll], by simp [hc, hrest]⟩
      · obtain ⟨f'', hloop, hleft⟩ := ih (s + 1) (m.put s c) f' (by omega)
        rw [hrest] at hloop hleft
        refine ⟨f'', ?_, by rw [if_neg hc, List.cons_append, ← hleft]⟩
        have hend : s + 1 + (nextLine i cs).length = s + ((nextLine i cs).length + 1) := by omega
        simp [hget, hc, hloop, Memory.putAll, show s + 1 ≠ ret by omega, hend]

/-! ## One call -/

/-- At the end of the stream a call stores nothing. -/
theorem call_at_end {st : Reader} {c : Call} (h : st.file.contents = []) :
    (st.call c).mem = c.before st.mem ∧ (st.call c).file.contents = [] ∧ st.stored c = [] := by
  obtain ⟨f', hloop, hleft⟩ := fgetsLoop_line c.s c.count c.s (c.before st.mem) st.file (Nat.le_refl _)
  have hpos : c.count ≠ 0 := by have := c.count_pos; omega
  have hend : f'.contents = [] := by simpa [h] using hleft.symm
  have hcall : st.call c = ⟨none, c.before st.mem, f'⟩ := by
    simp [Reader.call, fgets, hloop, h, hpos, Memory.putAll]
  simp [Reader.stored, hcall, hend]

/-- Elsewhere it stores the next line and a NUL behind it. -/
theorem call_line {st : Reader} {c : Call} (h : st.file.contents ≠ []) :
    (st.call c).mem =
      ((c.before st.mem).putAll c.s (nextLine c.count st.file.contents)).put
        (c.s + (nextLine c.count st.file.contents).length) 0 ∧
    st.file.contents = nextLine c.count st.file.contents ++ (st.call c).file.contents ∧
    ((st.call c).file.contents ≠ [] → (st.call c).ret = some c.s) := by
  obtain ⟨f', hloop, hleft⟩ := fgetsLoop_line c.s c.count c.s (c.before st.mem) st.file (Nat.le_refl _)
  have hcall : st.call c = ⟨if f'.ferror then none else some c.s,
      ((c.before st.mem).putAll c.s (nextLine c.count st.file.contents)).put
        (c.s + (nextLine c.count st.file.contents).length) 0, f'⟩ := by
    simp [Reader.call, fgets, hloop, h]
  refine ⟨by rw [hcall], by rw [hcall]; exact hleft, fun hmore => ?_⟩
  rw [hcall] at hmore ⊢
  have hread : f'.readable = true := by
    by_contra hread
    exact hmore (by simp [FILE.contents, hread])
  simp [readable_not_ferror hread]

theorem call_stored {st : Reader} {c : Call} (h : st.file.contents ≠ []) :
    st.stored c = List.range' c.s (nextLine c.count st.file.contents).length ++
      [c.s + (nextLine c.count st.file.contents).length] := by
  rw [Reader.stored, (call_line h).1]
  simp [Memory.put]

/-- What a call consumes is what it stores before the NUL. -/
theorem line_eq (st : Reader) (c : Call) : st.line c = nextLine c.count st.file.contents := by
  by_cases h : st.file.contents = []
  · simp [Reader.line, call_at_end h, h]
  · have hput : ∀ a ∈ List.range' c.s (nextLine c.count st.file.contents).length,
        (st.call c).mem.cells a =
          ((c.before st.mem).putAll c.s (nextLine c.count st.file.contents)).cells a := by
      intro a ha
      rw [List.mem_range'_1] at ha
      rw [(call_line h).1, Memory.put]
      exact if_neg (by omega)
    rw [Reader.line, call_stored h, List.dropLast_concat, List.map_congr_left hput, putAll_cells]

theorem call_consumes (st : Reader) (c : Call) :
    st.file.contents = st.line c ++ (st.next c).file.contents := by
  rw [line_eq]
  by_cases h : st.file.contents = []
  · simp [h, Reader.next, call_at_end h]
  · exact (call_line h).2.1

theorem inside_iff (st : Reader) (c : Call) :
    Inside st c ↔ st.file.contents = [] ∨ (nextLine c.count st.file.contents).length < c.count := by
  by_cases h : st.file.contents = []
  · simp [Inside, call_at_end h, h]
  · simp only [Inside, call_stored h, List.length_append, List.length_range', List.mem_append,
      List.mem_range'_1, List.mem_singleton, h, false_or, List.length_singleton]
    constructor
    · rintro ⟨-, hall⟩
      have := hall _ (.inr rfl)
      omega
    · intro hlt
      exact ⟨by omega, fun a ha => by omega⟩

theorem lineFits_iff (st : Reader) (c : Call) :
    LineFits st c ↔ (nextLine c.count st.file.contents).length < c.count := by
  obtain ⟨n, hn⟩ : ∃ n, c.count = n + 1 := ⟨c.count - 1, by have := c.count_pos; omega⟩
  simp only [LineFits, hn, nextLine_length_lt_iff, Nat.add_sub_cancel]

theorem readsLine_iff (st : Reader) (c : Call) : ReadsLine st c ↔ LineFits st c := by
  have hpos := c.count_pos
  rw [lineFits_iff]
  by_cases h : st.file.contents = []
  · have hline : st.line c = [] := by simp [line_eq, h]
    refine iff_of_true ⟨?_, ?_, .inl (call_at_end h).2.2, call_consumes st c, ?_, ?_⟩ ?_
    · exact (inside_iff st c).2 (.inl h)
    · simp [call_at_end h, hline]
    · simp [hline]
    · exact .inr (.inr (call_at_end h).2.1)
    · simpa [h, Nat.lt_iff_add_one_le] using hpos
  · constructor
    · intro hread
      exact ((inside_iff st c).1 hread.inside).resolve_left h
    · intro hlt
      have hcut := call_consumes st c
      refine ⟨(inside_iff st c).2 (.inr hlt), ?_, .inr ?_, hcut, ?_, ?_⟩
      · rw [call_stored h, List.dropLast_concat, line_eq]
      · rw [(call_line h).1, line_eq]
        simp [Memory.put]
      · rw [line_eq]
        exact nextLine_one_line _ _
      · rw [line_eq] at hcut ⊢
        rcases nextLine_stops _ _ _ hcut hlt with hnl | hend
        · exact .inl hnl
        · exact .inr (.inr hend)

/-- No byte is lost between calls or read twice, whatever the lengths. -/
theorem linesRead_consumes (st : Reader) (calls : List Call) :
    st.file.contents =
      (linesRead st calls).flatten ++ (runState Reader.next st calls).file.contents := by
  induction calls generalizing st with
  | nil => rfl
  | cons c calls ih =>
    rw [linesRead, List.flatten_cons, List.append_assoc, runState_cons, ← ih]
    exact call_consumes st c

/-! ## A pass of the assembler -/

/-- The first line of a text and the lines behind it. -/
theorem textLines_cons {cs l : List Byte} {ls : List (List Byte)} (h : textLines cs = l :: ls)
    {n : Nat} (hlen : l.length ≤ n) : nextLine n cs = l ∧ textLines (cs.drop l.length) = ls := by
  induction cs generalizing l ls n with
  | nil => simp [textLines] at h
  | cons c cs ih =>
    unfold textLines at h
    split_ifs at h with hc
    · obtain ⟨rfl, rfl⟩ := List.cons.inj h
      obtain ⟨n, rfl⟩ : ∃ k, n = k + 1 := ⟨n - 1, by simp at hlen; omega⟩
      simp [nextLine, hc]
    · rcases htl : textLines cs with _ | ⟨l', ls'⟩
      · rw [htl] at h
        obtain ⟨rfl, rfl⟩ := List.cons.inj h
        have hnil : cs = [] := by
          rcases cs with _ | ⟨d, ds⟩
          · rfl
          · unfold textLines at htl
            split_ifs at htl
            rcases hds : textLines ds with _ | _ <;> simp [hds] at htl
        obtain ⟨n, rfl⟩ : ∃ k, n = k + 1 := ⟨n - 1, by simp at hlen; omega⟩
        simp [nextLine, hc, hnil, textLines]
      · rw [htl] at h
        obtain ⟨rfl, rfl⟩ := List.cons.inj h
        obtain ⟨n, rfl⟩ : ∃ k, n = k + 1 := ⟨n - 1, by simp at hlen; omega⟩
        have := ih htl (n := n) (by simpa using hlen)
        simp [nextLine, hc, this]

theorem textLines_eq_nil {cs : List Byte} (h : textLines cs = []) : cs = [] := by
  rcases cs with _ | ⟨c, cs⟩
  · rfl
  · unfold textLines at h
    split_ifs at h
    rcases hcs : textLines cs with _ | _ <;> simp [hcs] at h

/-- A line of `n` bytes or more fills a buffer of `n` bytes. -/
theorem nextLine_full {cs l : List Byte} {ls : List (List Byte)} (h : textLines cs = l :: ls)
    {n : Nat} (hlen : n ≤ l.length) : (nextLine n cs).length = n := by
  induction n generalizing cs l ls with
  | zero => simp [nextLine]
  | succ n ih =>
    rcases cs with _ | ⟨c, cs⟩
    · simp [textLines] at h
    · unfold textLines at h
      split_ifs at h with hc
      · obtain ⟨rfl, rfl⟩ := List.cons.inj h
        obtain rfl : n = 0 := by simpa using hlen
        simp [nextLine, hc]
      · rcases htl : textLines cs with _ | ⟨l', ls'⟩
        · rw [htl] at h
          obtain ⟨rfl, rfl⟩ := List.cons.inj h
          obtain rfl : n = 0 := by simpa using hlen
          simp [nextLine, hc]
        · rw [htl] at h
          obtain ⟨rfl, rfl⟩ := List.cons.inj h
          simp [nextLine, hc, ih htl (by simpa using hlen)]

/-- Every call of a pass stays inside `ib` if the lines are short. -/
theorem asPass_inside (asmline : Memory → Memory) (ib n : Nat) (st : Reader)
    (hlines : ∀ l ∈ textLines st.file.contents, l.length < NINPUT) :
    ∀ r ∈ asPass asmline ib n st, Inside r (asCall ib) := by
  induction n generalizing st with
  | zero => simp [asPass]
  | succ n ih =>
    have hcall := call_consumes st (asCall ib)
    rw [line_eq] at hcall
    rcases htl : textLines st.file.contents with _ | ⟨l, ls⟩
    · have hend := textLines_eq_nil htl
      obtain ⟨hmem, hfile, -⟩ := @call_at_end st (asCall ib) hend
      have hret : (st.call (asCall ib)).file.contents = [] := hfile
      intro r hr
      simp only [asPass, List.mem_cons] at hr
      rcases hr with rfl | hr
      · exact (inside_iff _ _).2 (.inl hend)
      · split_ifs at hr with hnull
        · simp at hr
        · exact ih _ (by simp [hret, textLines]) r hr
    · have hl : l.length < NINPUT := hlines l (by simp [htl])
      have hnext := (textLines_cons htl (Nat.le_of_lt hl)).1
      have hrest : (st.call (asCall ib)).file.contents = st.file.contents.drop l.length := by
        have hcount : (asCall ib).count = NINPUT := rfl
        rw [hcount, hnext] at hcall
        conv_rhs => rw [hcall]
        rw [List.drop_left]
        rfl
      intro r hr
      simp only [asPass, List.mem_cons] at hr
      rcases hr with rfl | hr
      · refine (inside_iff _ _).2 (.inr ?_)
        change (nextLine NINPUT r.file.contents).length < NINPUT
        rw [hnext]
        exact hl
      · split_ifs at hr with hnull
        · simp at hr
        · refine ih _ ?_ r hr
          simp only [hrest, (textLines_cons htl (Nat.le_of_lt hl)).2]
          intro l' hl'
          exact hlines l' (by simp [htl, hl'])

/-- A long line is reached, and its call leaves `ib`. -/
theorem asPass_outside (asmline : Memory → Memory) (ib : Nat) {ls : List (List Byte)} (st : Reader)
    (htl : textLines st.file.contents = ls) (hlong : ∃ l ∈ ls, NINPUT ≤ l.length) :
    ∃ n, ∃ r ∈ asPass asmline ib n st, ¬ Inside r (asCall ib) := by
  induction ls generalizing st with
  | nil => simp at hlong
  | cons l ls ih =>
    have hne : st.file.contents ≠ [] := fun h => by simp [h, textLines] at htl
    by_cases hl : NINPUT ≤ l.length
    · refine ⟨1, st, by simp [asPass], fun hin => ?_⟩
      have hlt := ((inside_iff _ _).1 hin).resolve_left hne
      have hfull : (nextLine (asCall ib).count st.file.contents).length = (asCall ib).count :=
        nextLine_full htl hl
      omega
    · have hmore : ∃ l' ∈ ls, NINPUT ≤ l'.length := by
        obtain ⟨l', hmem, hlen⟩ := hlong
        rcases List.mem_cons.1 hmem with rfl | hmem
        · exact absurd hlen hl
        · exact ⟨l', hmem, hlen⟩
      obtain ⟨hnext, hls⟩ := textLines_cons htl (n := NINPUT) (by omega)
      have hcall := call_consumes st (asCall ib)
      rw [line_eq] at hcall
      change st.file.contents = nextLine NINPUT st.file.contents ++
        (st.call (asCall ib)).file.contents at hcall
      rw [hnext] at hcall
      have hrest : (st.call (asCall ib)).file.contents = st.file.contents.drop l.length := by
        conv_rhs => rw [hcall]
        rw [List.drop_left]
      have hleft : (st.call (asCall ib)).file.contents ≠ [] := by
        intro hnil
        rw [hrest] at hnil
        rw [hnil] at hls
        obtain ⟨l', hmem, -⟩ := hmore
        simp [← hls, textLines] at hmem
      obtain ⟨n, r, hr, hout⟩ := ih
        ⟨asmline (st.call (asCall ib)).mem, (st.call (asCall ib)).file⟩ (by rw [hrest, hls]) hmore
      refine ⟨n + 1, r, ?_, hout⟩
      have hret : (st.call (asCall ib)).ret = some ib := (call_line hne).2.2 hleft
      simp only [asPass, hret, reduceCtorEq, if_false, List.mem_cons]
      exact .inr hr

/-! ## The result -/

/-- Calls read lines exactly while each line ends before its buffer is full, and the assembler
stays inside `ib` exactly if every line of its source is shorter than `ib`. -/
theorem fgets_lines (st : Reader) (calls : List Call) (asmline : Memory → Memory) (ib : Nat) :
    ((AllSteps Reader.next ReadsLine st calls ∧
        st.file.contents = (linesRead st calls).flatten ++
          (runState Reader.next st calls).file.contents) ↔
      AllSteps Reader.next LineFits st calls) ∧
    ((∀ n, ∀ r ∈ asPass asmline ib n st, Inside r (asCall ib)) ↔
      ∀ l ∈ textLines st.file.contents, l.length < NINPUT) := by
  constructor
  · let always : Reader → Prop := fun _ => True
    have hkeep : ∀ st c, always st → always (st.next c) := fun _ _ h => h
    have hsteps : AllSteps Reader.next ReadsLine st calls ↔ AllSteps Reader.next LineFits st calls :=
      allSteps_iff hkeep (fun st c _ => readsLine_iff st c) trivial calls
    exact ⟨fun h => hsteps.1 h.1, fun h => ⟨hsteps.2 h, linesRead_consumes st calls⟩⟩
  · constructor
    · intro hin l hl
      by_contra hlong
      obtain ⟨n, r, hr, hout⟩ := asPass_outside asmline ib st rfl ⟨l, hl, Nat.le_of_not_lt hlong⟩
      exact hout (hin n r hr)
    · intro hlines n
      exact asPass_inside asmline ib n st hlines

/-- Two bytes in a buffer of two: the NUL is stored behind it. -/
theorem full_buffer_overrun :
    ¬ ReadsLine ⟨⟨fun _ => 0, []⟩, ⟨modeRead, [97, 98], []⟩⟩ ⟨0, 2, by decide, id⟩ := by
  rw [readsLine_iff]
  decide

end Fuzemsys.Libs.Stdio
