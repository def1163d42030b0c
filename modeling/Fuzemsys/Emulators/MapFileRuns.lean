import Mathlib.Data.List.TakeWhile
import Fuzemsys.Emulators.MapFile

/-!
# Lookups in the map file

What a map file says, when `read_mapfile` reads it that way, and what the lookups
then answer in every run.
-/

namespace Fuzemsys.Emulators.MapFile

/-! ## What a map file says -/

/-- The lines of a file, each with whether a newline ends it. -/
def linesFrom : Text → Text → List (Text × Bool)
  | cur, [] => if cur = [] then [] else [(cur, false)]
  | cur, c :: cs => if c = newline then (cur, true) :: linesFrom [] cs else linesFrom (cur ++ [c]) cs

/-- A code symbol: its address is at the start of the line and its name behind the mark. -/
abbrev Symbol := BitVec 32 × Text

def codeSymbol (line : Text) : Option Symbol :=
  (splitAtCode line).map fun (_, name) => (strtol line, name)

def symbolsOf (file : Text) : List Symbol := (linesFrom [] file).filterMap fun line => codeSymbol line.1

/-- A line with a code symbol fits the buffer with its newline, and has one unless its name is empty. -/
def ReadableLine (line : Text × Bool) : Prop :=
  ∀ before name, splitAtCode line.1 = some (before, name) →
    line.1.length < 1022 ∧ 0 ∉ line.1 ∧ (line.2 = true ∨ name = [])

/-- Every such line is readable, and the addresses are less than 2^31 apart. -/
structure Readable (file : Text) : Prop where
  lines : ∀ line ∈ linesFrom [] file, ReadableLine line
  near : ∀ c ∈ symbolsOf file, ∀ d ∈ symbolsOf file, c.1.toNat < d.1.toNat + 2 ^ 31

def toEntry (c : Symbol) : MapEntry := ⟨c.1, some c.2⟩

/-! ## Reading lines through the buffer -/

theorem splitAtCode_eq {s before behind : Text} (h : splitAtCode s = some (before, behind)) :
    s = before ++ codeMark ++ behind := by
  induction s generalizing before with
  | nil => cases h
  | cons c cs ih =>
    unfold splitAtCode at h
    split at h
    · next hp =>
      cases h
      obtain ⟨t, ht⟩ := List.isPrefixOf_iff_prefix.mp hp
      rw [← ht]
      rfl
    · cases hs : splitAtCode cs with
      | none =>
        rw [hs] at h
        cases h
      | some p =>
        rw [hs] at h
        cases h
        rw [ih hs]
        rfl

theorem splitAtCode_none_iff {s : Text} : splitAtCode s = none ↔ ¬codeMark <:+: s := by
  induction s with
  | nil => simp [splitAtCode, codeMark]
  | cons c cs ih =>
    unfold splitAtCode
    rw [List.infix_cons_iff]
    split
    · next hp => simp [List.isPrefixOf_iff_prefix.mp hp]
    · next hp =>
      rw [List.isPrefixOf_iff_prefix] at hp
      simp [hp, ih]

theorem splitAtCode_append {s before behind : Text} (t : Text) (h : splitAtCode s = some (before, behind)) :
    splitAtCode (s ++ t) = some (before, behind ++ t) := by
  induction s generalizing before with
  | nil => cases h
  | cons c cs ih =>
    have hlen : codeMark.length ≤ (c :: cs).length := by
      have hs := congrArg List.length (splitAtCode_eq h)
      simp only [List.length_append] at hs
      omega
    have hiff : codeMark.isPrefixOf (c :: (cs ++ t)) = codeMark.isPrefixOf (c :: cs) := by
      rw [Bool.eq_iff_iff, List.isPrefixOf_iff_prefix, List.isPrefixOf_iff_prefix, ← List.cons_append]
      exact ⟨fun hp => List.prefix_of_prefix_length_le hp (List.prefix_append _ _) hlen,
        fun hp => hp.trans (List.prefix_append _ _)⟩
    unfold splitAtCode at h
    rw [List.cons_append, splitAtCode, hiff]
    split at h
    · next hp =>
      cases h
      rw [if_pos hp, ← List.cons_append, List.drop_append_of_le_length (show 3 ≤ (c :: cs).length from hlen)]
    · next hp =>
      cases hs : splitAtCode cs with
      | none =>
        rw [hs] at h
        cases h
      | some p =>
        rw [hs] at h
        cases h
        rw [if_neg hp, ih hs]
        rfl

/-- A newline adds no mark. -/
theorem splitAtCode_newline {s : Text} (h : splitAtCode s = none) : splitAtCode (s ++ [newline]) = none := by
  rw [splitAtCode_none_iff] at h ⊢
  intro hin
  obtain ⟨u, v, huv⟩ := hin
  obtain rfl | ⟨v', c, rfl⟩ := v.eq_nil_or_concat
  · have hlast := congrArg List.getLast? huv
    simp [codeMark, newline] at hlast
  · rw [List.concat_eq_append, ← List.append_assoc] at huv
    exact h ⟨u, v', (List.append_inj' huv rfl).1⟩

theorem splitAtCode_inside {s t : Text} (h : splitAtCode t = none) (hs : s <:+: t) : splitAtCode s = none := by
  rw [splitAtCode_none_iff] at h ⊢
  exact fun hin => h (hin.trans hs)

theorem cstr_inside (buf : Text) : cstr buf <:+: buf := (List.takeWhile_prefix _).isInfix

theorem cstr_eq {buf : Text} (h : 0 ∉ buf) : cstr buf = buf := by
  apply List.takeWhile_eq_self_iff.mpr
  intro c hc
  have hne : c ≠ 0 := fun h0 => h (h0 ▸ hc)
  simpa using hne

/-- A buffer without a mark stores nothing. -/
theorem lineEntry_none {buf : Text} (h : splitAtCode buf = none) : lineEntry buf = none := by
  rw [lineEntry, splitAtCode_inside h (cstr_inside buf)]
  rfl

/-- A blank at the end does not change the first word. -/
theorem firstWord_blank (s : Text) : firstWord (s ++ [0x20]) = firstWord s := by
  have htake : ∀ u : Text, (u ++ [0x20]).takeWhile (!isspace ·) = u.takeWhile (!isspace ·) := by
    intro u
    induction u with
    | nil => rfl
    | cons c cs ih => simp only [List.cons_append, List.takeWhile_cons, ih]
  unfold firstWord
  induction s with
  | nil => rfl
  | cons c cs ih =>
    rw [List.cons_append, List.dropWhile_cons, List.dropWhile_cons]
    split
    · exact ih
    · exact htake (c :: cs)

theorem strtol_blank (s : Text) : strtol (s ++ [0x20]) = strtol s := by
  rw [strtol, firstWord_blank, strtol]

/-- What is stored for a whole line is what the line says. -/
theorem lineEntry_line {line : Text} (h : ReadableLine (line, true)) :
    lineEntry (line ++ [newline]) = (codeSymbol line).map toEntry := by
  cases hs : splitAtCode line with
  | none => simp [codeSymbol, hs, lineEntry_none (splitAtCode_newline hs)]
  | some p =>
    obtain ⟨before, name⟩ := p
    obtain ⟨-, hnul, -⟩ := h before name hs
    have hstr : cstr (line ++ [newline]) = line ++ [newline] := by
      apply cstr_eq
      rw [List.mem_append]
      rintro (h0 | h0)
      · exact hnul h0
      · simp [newline] at h0
    have hline := splitAtCode_eq hs
    rw [lineEntry, hstr, splitAtCode_append _ hs, codeSymbol, hs]
    simp only [Option.map_some, toEntry, List.append_eq_nil_iff, List.cons_ne_self, and_false,
      if_false, List.dropLast_concat, hline]

theorem lineEntry_last {line : Text} (h : ReadableLine (line, false)) :
    lineEntry line = (codeSymbol line).map toEntry := by
  cases hs : splitAtCode line with
  | none => simp [codeSymbol, hs, lineEntry_none hs]
  | some p =>
    obtain ⟨before, name⟩ := p
    obtain ⟨-, hnul, hname⟩ := h before name hs
    have hempty : name = [] := by simpa using hname
    subst hempty
    have hline : line = before ++ codeMark.dropLast ++ [0x20] := by
      rw [splitAtCode_eq hs]
      simp [codeMark]
    rw [lineEntry, cstr_eq hnul, codeSymbol, hs]
    simp only [Option.map_some, if_true, toEntry, List.dropLast_nil]
    rw [hline, strtol_blank]

theorem ReadableLine.long {line : Text × Bool} (h : ReadableLine line) (hlong : 1022 ≤ line.1.length) :
    splitAtCode line.1 = none := by
  cases hs : splitAtCode line.1 with
  | none => rfl
  | some p =>
    obtain ⟨hlen, -⟩ := h p.1 p.2 hs
    omega

theorem linesFrom_head {cur : Text} (hcur : cur ≠ []) (file : Text) :
    ∃ rest term tl, linesFrom cur file = (cur ++ rest, term) :: tl := by
  induction file generalizing cur with
  | nil => exact ⟨[], false, [], by simp [linesFrom, hcur]⟩
  | cons c cs ih =>
    unfold linesFrom
    split
    · exact ⟨[], true, linesFrom [] cs, by simp⟩
    · obtain ⟨rest, term, tl, h⟩ := @ih (cur ++ [c]) (by simp)
      exact ⟨c :: rest, term, tl, by simp [h]⟩

/-- The buffer holds the end of the current line. What was flushed before it belongs to a line
that is too long to have a code symbol. -/
theorem fgetsAll_lines (file : Text) : ∀ flushed buf : Text, buf.length < 1022 →
    (flushed = [] ∨ 1022 ≤ (flushed ++ buf).length) →
    (∀ line ∈ linesFrom (flushed ++ buf) file, ReadableLine line) →
    (fgetsAll buf file).filterMap lineEntry =
      (linesFrom (flushed ++ buf) file).filterMap fun line => (codeSymbol line.1).map toEntry := by
  have hsilent : ∀ {buf line : Text}, splitAtCode line = none → buf <:+: line →
      lineEntry buf = none ∧ codeSymbol line = none := by
    intro buf line hnone hin
    exact ⟨lineEntry_none (splitAtCode_inside hnone hin), by rw [codeSymbol, hnone]; rfl⟩
  induction file with
  | nil =>
    intro flushed buf hbuf hflushed hlines
    by_cases hcur : flushed ++ buf = []
    · obtain ⟨rfl, rfl⟩ := List.append_eq_nil_iff.mp hcur
      rfl
    · have hlast : linesFrom (flushed ++ buf) [] = [(flushed ++ buf, false)] := by simp only [linesFrom, if_neg hcur]
      have hline := hlines (flushed ++ buf, false) (by simp [hlast])
      rw [hlast]
      obtain rfl | hlong := hflushed
      · have hb : buf ≠ [] := hcur
        simp only [List.nil_append] at hline ⊢
        simp only [fgetsAll, if_neg hb, List.filterMap_cons, List.filterMap_nil, lineEntry_last hline]
      · obtain ⟨hentry, hcode⟩ := hsilent (hline.long hlong) (List.suffix_append flushed buf).isInfix
        by_cases hb : buf = []
        · simp [fgetsAll, hb] at hcode ⊢
          exact hcode
        · simp [fgetsAll, hb, hentry, hcode]
  | cons c cs ih =>
    intro flushed buf hbuf hflushed hlines
    by_cases hnl : c = newline
    · -- The line ends here.
      have hfirst : linesFrom (flushed ++ buf) (c :: cs) = (flushed ++ buf, true) :: linesFrom [] cs := by
        simp only [linesFrom, if_pos hnl]
      rw [hfirst] at hlines ⊢
      have hline := hlines _ List.mem_cons_self
      have hrest := ih [] [] (by simp) (.inl rfl) fun line hl => hlines line (List.mem_cons_of_mem _ hl)
      have hhead : lineEntry (buf ++ [c]) = (codeSymbol (flushed ++ buf)).map toEntry := by
        rw [hnl]
        obtain rfl | hlong := hflushed
        · exact lineEntry_line hline
        · have hnone := hline.long hlong
          obtain ⟨-, hcode⟩ := hsilent hnone (List.suffix_append flushed buf).isInfix
          rw [hcode, lineEntry_none (splitAtCode_newline
            (splitAtCode_inside hnone (List.suffix_append flushed buf).isInfix))]
          rfl
      simp only [List.append_nil] at hrest
      simp only [fgetsAll, hnl, true_or, if_true, List.filterMap_cons]
      rw [← hnl, hhead, hrest]
    · have hfirst : linesFrom (flushed ++ buf) (c :: cs) = linesFrom (flushed ++ buf ++ [c]) cs := by
        simp only [linesFrom, if_neg hnl]
      rw [hfirst] at hlines ⊢
      by_cases hfull : buf.length + 1 = 1022
      · -- The buffer is flushed in the middle of a long line.
        have hlong : 1022 ≤ (flushed ++ buf ++ [c]).length := by
          simp only [List.length_append, List.length_singleton]
          omega
        obtain ⟨rest, term, tl, hhead⟩ := @linesFrom_head (flushed ++ buf ++ [c]) (by simp) cs
        have hline := hlines (flushed ++ buf ++ [c] ++ rest, term) (by rw [hhead]; exact List.mem_cons_self)
        have hnone := hline.long (by rw [List.length_append]; omega)
        have hin : buf ++ [c] <:+: flushed ++ buf ++ [c] ++ rest :=
          ⟨flushed, rest, by simp⟩
        have hrest := ih (flushed ++ buf ++ [c]) [] (by simp) (.inr (by simpa using hlong))
          (by simpa using hlines)
        simp only [List.append_nil] at hrest
        simp only [fgetsAll, hfull, or_true, if_true, List.filterMap_cons, (hsilent hnone hin).1]
        exact hrest
      · have hrest := ih flushed (buf ++ [c]) (by simp only [List.length_append, List.length_singleton]; omega)
          (hflushed.imp id fun h => by
            simp only [List.length_append, List.length_singleton] at h ⊢
            omega)
          (by simpa using hlines)
        rw [← List.append_assoc] at hrest
        simp only [fgetsAll, hnl, hfull, or_self, if_false]
        exact hrest

/-- Of a readable file `read_mapfile` finds the code symbols. -/
theorem found_symbols {file : Text} (h : Readable file) :
    (fgetsAll [] file).filterMap lineEntry = (symbolsOf file).map toEntry := by
  have hlines := fgetsAll_lines file [] [] (by simp) (.inl rfl) h.lines
  rw [hlines, symbolsOf, List.map_filterMap]
  rfl

/-! ## The array -/

/-- The symbols are in the array, in the order of their addresses. -/
structure Loaded (s : State) (l : List MapEntry) : Prop where
  maparray : s.maparray = .live (l.map some ++ [some finalEntry])
  mapcnt : s.mapcnt = l.length
  mapidx : s.mapidx ≤ s.mapcnt
  sorted : l.Pairwise fun c d => c.addr.toNat ≤ d.addr.toNat
  named : ∀ e ∈ l, e.sym.isSome

/-- What the state is worth, between two calls. -/
inductive Inv : State → List Symbol → Prop
  | unloaded {s : State} (hcnt : s.mapcnt = 0) (hidx : s.mapidx = 0)
      (harr : s.maparray = .null ∨ s.maparray = .freed) : Inv s []
  | loaded {s : State} {l : List MapEntry} {syms : List Symbol} (h : Loaded s l)
      (hperm : l.Perm (syms.map toEntry)) : Inv s syms

theorem inv_start : Inv start [] := .unloaded rfl rfl (.inl rfl)

section Array

variable {s : State} {l : List MapEntry}

/-- An entry, the final one included. -/
theorem Loaded.entryAt (h : Loaded s l) {i : Nat} {e : MapEntry} (hi : (l ++ [finalEntry])[i]? = some e) :
    entryAt s i = .ok e := by
  have hmap : (l.map some ++ [some finalEntry])[i]? = some (some e) := by
    rw [show l.map some ++ [some finalEntry] = (l ++ [finalEntry]).map some by simp, List.getElem?_map, hi]
    rfl
  unfold MapFile.entryAt
  rw [h.maparray]
  simp [hmap]

theorem fill_all (l : List MapEntry) : ∀ (front : List MapEntry) (rest : List (Option MapEntry)),
    fill front.length (front.map some ++ List.replicate l.length none ++ rest) l =
      .ok (front.map some ++ l.map some ++ rest) := by
  induction l with
  | nil =>
    intro front rest
    simp [fill]
  | cons e l ih =>
    intro front rest
    have hlt : front.length < (front.map some ++ List.replicate (e :: l).length none ++ rest).length := by
      simp only [List.length_append, List.length_map, List.length_replicate, List.length_cons]
      omega
    have hset : (front.map some ++ List.replicate (e :: l).length none ++ rest).set front.length (some e) =
        (front ++ [e]).map some ++ List.replicate l.length none ++ rest := by
      simp [List.replicate_succ, List.set_append_right]
    have hnext := ih (front ++ [e]) rest
    rw [fill, if_pos hlt, hset]
    simpa using hnext

theorem initialised_map (l : List MapEntry) : initialised (l.map some) = .ok l := by
  have hmap : (l.map some).mapM (m := Option) id = some l := by
    induction l with
    | nil => rfl
    | cons e l ih => simp [ih]
  rw [initialised, hmap]

end Array

/-! ## Sorting -/

/-- The difference of two addresses as an int, when they are near. -/
theorem mapcompare_eq {c d : MapEntry} (hcd : c.addr.toNat < d.addr.toNat + 2 ^ 31)
    (hdc : d.addr.toNat < c.addr.toNat + 2 ^ 31) : mapcompare c d = (c.addr.toNat : Int) - d.addr.toNat := by
  have hc := c.addr.isLt
  have hd := d.addr.isLt
  rw [mapcompare, BitVec.toInt_eq_toNat_bmod, BitVec.toNat_sub, Int.bmod_def]
  omega

theorem orders_of_near {l : List MapEntry} (h : ∀ c ∈ l, ∀ d ∈ l, c.addr.toNat < d.addr.toNat + 2 ^ 31) :
    Orders l := by
  constructor
  · intro c hc d hd
    rw [mapcompare_eq (h c hc d hd) (h d hd c hc), mapcompare_eq (h d hd c hc) (h c hc d hd)]
    omega
  · intro c hc d hd e he hcd hde
    rw [mapcompare_eq (h c hc d hd) (h d hd c hc)] at hcd
    rw [mapcompare_eq (h d hd e he) (h e he d hd)] at hde
    rw [mapcompare_eq (h c hc e he) (h e he c hc)]
    omega

theorem Qsort.pairwise (q : Qsort) {l : List MapEntry}
    (h : ∀ c ∈ l, ∀ d ∈ l, c.addr.toNat < d.addr.toNat + 2 ^ 31) :
    (q.sort l).Pairwise fun c d => c.addr.toNat ≤ d.addr.toNat := by
  refine (q.sorted l (orders_of_near h)).imp_of_mem fun hc hd hle => ?_
  have hc' := (q.perm l).mem_iff.mp hc
  have hd' := (q.perm l).mem_iff.mp hd
  rw [mapcompare_eq (h _ hc' _ hd') (h _ hd' _ hc')] at hle
  omega

/-! ## Reading -/

/-- A file may be read unless the array was freed. While symbols are loaded, it must not bring any. -/
def MayRead (s : State) (file : Option Text) : Prop :=
  s.maparray ≠ .freed ∧ ∀ text, file = some text → Readable text ∧ (s.mapcnt = 0 ∨ symbolsOf text = [])

def symbolsRead : Option Text → List Symbol
  | none => []
  | some text => symbolsOf text

theorem Inv.free {s : State} {syms : List Symbol} (h : Inv s syms) (hfreed : s.maparray ≠ .freed) :
    ∃ t, freeEntries s = .ok (s.mapcnt, t) ∧ t.mapcnt = 0 ∧ t.mapidx = 0 ∧
      (t.maparray = .null ∨ t.maparray = .freed) := by
  cases h with
  | unloaded hcnt hidx harr =>
    obtain harr | harr := harr
    · exact ⟨s, by simp [freeEntries, harr, hcnt], hcnt, hidx, .inl harr⟩
    · exact absurd harr hfreed
  | @loaded l _ h hperm =>
    refine ⟨{ s with maparray := .freed, mapidx := 0, mapcnt := 0 }, ?_, rfl, rfl, .inr rfl⟩
    have hall : ((l.map some ++ [some finalEntry]).take s.mapcnt).all Option.isSome = true := by
      rw [h.mapcnt, List.take_append_of_le_length (by simp), List.take_of_length_le (by simp)]
      simp
    simp only [freeEntries, h.maparray, hall, if_true]

theorem Inv.read {s : State} {syms : List Symbol} (q : Qsort) (h : Inv s syms) {file : Option Text}
    (hmay : MayRead s file) : ∃ t, readMapfile q file s = .ok t ∧ Inv t (symbolsRead file) := by
  obtain ⟨hfreed, hfile⟩ := hmay
  obtain ⟨u, hfree, hcnt, hidx, harr⟩ := h.free hfreed
  cases file with
  | none =>
    refine ⟨u, ?_, .unloaded hcnt hidx harr⟩
    simp [readMapfile, hfree, bind, Except.bind, pure, Except.pure]
  | some text =>
    obtain ⟨hread, hempty⟩ := hfile text rfl
    let l := (symbolsOf text).map toEntry
    have hfound : (fgetsAll [] text).filterMap lineEntry = l := found_symbols hread
    have hfill : fill s.mapcnt (List.replicate (l.length + 1) none) l = .ok (l.map some ++ [none]) := by
      obtain hzero | hnone := hempty
      · have hall := fill_all l [] [none]
        rw [hzero, List.replicate_succ']
        simpa using hall
      · have hl : l = [] := by rw [show l = (symbolsOf text).map toEntry from rfl, hnone]; rfl
        rw [hl]
        rfl
    have htake : (l.map some ++ [none]).take l.length = l.map some := by
      rw [List.take_append_of_le_length (by simp), ← List.length_map some, List.take_length]
    have hdrop : (l.map some ++ [none]).drop l.length = [none] := by
      rw [← List.length_map (f := some), List.drop_left]
    have hlen : (q.sort l).length = l.length := (q.perm l).length_eq
    have hset : ((q.sort l).map some ++ [none]).set l.length (some finalEntry) =
        (q.sort l).map some ++ [some finalEntry] := by
      simp [List.set_append_right, hlen]
    refine ⟨{ u with maparray := .live ((q.sort l).map some ++ [some finalEntry]), mapcnt := l.length,
                     mapfileLoaded := true }, ?_, ?_⟩
    · simp only [readMapfile, hfree, bind, Except.bind, pure, Except.pure, hfound, hcnt, Nat.zero_add, hfill,
        htake, initialised_map, hdrop, hset]
    · refine .loaded (l := q.sort l) ⟨rfl, hlen.symm, ?_, ?_, ?_⟩ (q.perm l)
      · simp [hidx]
      · apply q.pairwise
        rintro _ hc _ hd
        obtain ⟨c, hc', rfl⟩ := List.mem_map.mp hc
        obtain ⟨d, hd', rfl⟩ := List.mem_map.mp hd
        exact hread.near c hc' d hd'
      · intro e he
        obtain ⟨c, -, rfl⟩ := List.mem_map.mp ((q.perm l).mem_iff.mp he)
        rfl

/-! ## Searching -/

section Search

variable {s : State} {l : List MapEntry} {addr : BitVec 32}

/-- The address is at entry `i` or between it and the next one. -/
def Hits (l : List MapEntry) (addr : BitVec 32) (i : Nat) : Prop :=
  ∃ e f, (l ++ [finalEntry])[i]? = some e ∧ (l ++ [finalEntry])[i + 1]? = some f ∧
    e.addr ≤ addr ∧ addr < f.addr

theorem Loaded.entry (h : Loaded s l) {i : Nat} (hi : i ≤ l.length) :
    ∃ e, (l ++ [finalEntry])[i]? = some e ∧ MapFile.entryAt s i = .ok e := by
  have hlt : i < (l ++ [finalEntry]).length := by simp; omega
  exact ⟨_, List.getElem?_eq_getElem hlt, h.entryAt (List.getElem?_eq_getElem hlt)⟩

theorem Loaded.between (h : Loaded s l) (addr : BitVec 32) {i : Nat} (hi : i < l.length) :
    ∃ b, between s addr i = .ok b ∧ (b = true ↔ Hits l addr i) := by
  obtain ⟨e, he, hread⟩ := h.entry (Nat.le_of_lt hi)
  obtain ⟨f, hf, hread'⟩ := h.entry (show i + 1 ≤ l.length from hi)
  have hiff : Hits l addr i ↔ e.addr ≤ addr ∧ addr < f.addr := by
    unfold Hits
    simp [he, hf]
  rw [hiff]
  unfold MapFile.between
  by_cases hle : e.addr ≤ addr
  · exact ⟨f.addr > addr, by simp [hread, hread', bind, Except.bind, pure, Except.pure, hle], by simp [hle]⟩
  · exact ⟨false, by simp [hread, bind, Except.bind, pure, Except.pure, hle], by simp [hle]⟩

/-- The search returns the first hit and remembers its index, or ends behind the last entry. -/
theorem Loaded.search (h : Loaded s l) (addr : BitVec 32) (n : Nat) : ∀ i, i + n = l.length →
    (∃ j e, i ≤ j ∧ j < l.length ∧ Hits l addr j ∧ l[j]? = some e ∧
      search s addr i n = .ok (e.sym.map fun name => (name, (addr - e.addr).toInt), j)) ∨
    ((∀ j, i ≤ j → j < l.length → ¬Hits l addr j) ∧ search s addr i n = .ok (none, l.length)) := by
  induction n with
  | zero =>
    intro i hi
    right
    refine ⟨fun j hij hj => by omega, ?_⟩
    rw [← hi]
    rfl
  | succ n ih =>
    intro i hi
    obtain ⟨b, hb, hhit⟩ := h.between addr (show i < l.length by omega)
    unfold MapFile.search
    simp only [hb, bind, Except.bind]
    cases b with
    | true =>
      left
      have hlt : i < l.length := by omega
      have hl : (l ++ [finalEntry])[i]? = some l[i] := by
        rw [List.getElem?_append_left hlt, List.getElem?_eq_getElem hlt]
      refine ⟨i, l[i], Nat.le_refl i, hlt, hhit.mp rfl, List.getElem?_eq_getElem hlt, ?_⟩
      simp [symbolAt, h.entryAt hl, bind, Except.bind, pure, Except.pure]
    | false =>
      have hmiss : ¬Hits l addr i := fun hh => Bool.false_ne_true (hhit.mpr hh)
      obtain ⟨j, e, hij, hj, hhit', he, hrun⟩ | ⟨hnone, hrun⟩ := ih (i + 1) (by omega)
      · exact .inl ⟨j, e, by omega, hj, hhit', he, hrun⟩
      · right
        refine ⟨fun j hij hj => ?_, hrun⟩
        obtain rfl | hlt := Nat.eq_or_lt_of_le hij
        · exact hmiss
        · exact hnone j hlt hj

/-- No entry before the one that is hit comes closer to the address. -/
theorem Hits.greatest {i : Nat} (hsorted : l.Pairwise fun c d => c.addr.toNat ≤ d.addr.toNat)
    (h : Hits l addr i) {e : MapEntry} (he : l[i]? = some e) :
    e.addr ≤ addr ∧ ∀ d ∈ l, d.addr ≤ addr → d.addr.toNat ≤ e.addr.toNat := by
  obtain ⟨e', f, he', hf, hle, hlt⟩ := h
  have hi : i < l.length := (List.getElem?_eq_some_iff.mp he).1
  have heq : e' = e := by
    rw [List.getElem?_append_left hi, he] at he'
    exact (Option.some.inj he').symm
  subst heq
  refine ⟨hle, fun d hd hdle => ?_⟩
  obtain ⟨j, hj, rfl⟩ := List.getElem_of_mem hd
  obtain ⟨-, rfl⟩ := List.getElem?_eq_some_iff.mp he
  rw [List.pairwise_iff_getElem] at hsorted
  by_cases hji : j ≤ i
  · obtain rfl | hlt' := Nat.eq_or_lt_of_le hji
    · exact Nat.le_refl _
    · exact hsorted j i hj hi hlt'
  · -- The next entry is above the address, and so are all after it.
    have hnext : i + 1 < l.length := by omega
    rw [List.getElem?_append_left hnext, List.getElem?_eq_getElem hnext] at hf
    obtain rfl := Option.some.inj hf
    have hfj : l[i + 1].addr.toNat ≤ l[j].addr.toNat := by
      obtain rfl | hlt' := Nat.eq_or_lt_of_le (show i + 1 ≤ j by omega)
      · exact Nat.le_refl _
      · exact hsorted (i + 1) j hnext hj hlt'
    rw [BitVec.lt_def] at hlt
    rw [BitVec.le_def] at hdle
    omega

/-- Where some entry is above the address and one is not, some entry is hit. -/
theorem exists_hit {d : MapEntry} (hd : d ∈ l) (hle : d.addr ≤ addr) {f : MapEntry} (hf : f ∈ l ++ [finalEntry])
    (hsorted : l.Pairwise fun c d => c.addr.toNat ≤ d.addr.toNat)
    (hlt : addr < f.addr) : ∃ i < l.length, Hits l addr i := by
  by_contra hnone
  obtain ⟨a, ha, rfl⟩ := List.getElem_of_mem hd
  obtain ⟨m, hm, rfl⟩ := List.getElem_of_mem hf
  have hlen : (l ++ [finalEntry]).length = l.length + 1 := by simp
  -- Without a hit, the entries from the lower one on all stay below.
  have hstay : ∀ k (hk : a + k < (l ++ [finalEntry]).length), (l ++ [finalEntry])[a + k].addr ≤ addr := by
    intro k
    induction k with
    | zero =>
      intro hk
      simpa [List.getElem_append_left ha] using hle
    | succ k ih =>
      intro hk
      have hbelow := ih (by omega)
      by_contra habove
      rw [BitVec.not_le] at habove
      exact hnone ⟨a + k, by omega, _, _, List.getElem?_eq_getElem _, List.getElem?_eq_getElem hk, hbelow, habove⟩
  rw [BitVec.lt_def] at hlt
  by_cases ham : a ≤ m
  · obtain ⟨k, rfl⟩ := Nat.exists_eq_add_of_le ham
    have hbelow := hstay k hm
    rw [BitVec.le_def] at hbelow
    omega
  · have hml : m < l.length := by omega
    rw [List.pairwise_iff_getElem] at hsorted
    have hord := hsorted m a hml ha (by omega)
    rw [List.getElem_append_left hml] at hlt
    rw [BitVec.le_def] at hle
    omega

end Search

/-! ## Looking up an address -/

/-- The answer to a lookup: a symbol at the greatest address that is not above the one asked for. -/
def Nearest (syms : List Symbol) (addr : BitVec 32) : Option (Text × Int) → Prop
  | none => ∀ c ∈ syms, addr < c.1
  | some (name, offset) => ∃ c ∈ syms, c.2 = name ∧ c.1 ≤ addr ∧ (∀ d ∈ syms, d.1 ≤ addr → d.1 ≤ c.1) ∧
      offset = (addr.toNat : Int) - c.1.toNat

/-- 0xFFFF is looked up only while no symbol is loaded, or when the last lookup found a symbol and
some symbol is above 0xFFFF. -/
def MayLookup (s : State) (addr : BitVec 16) : Prop :=
  addr ≠ 0xFFFF ∨ s.mapcnt = 0 ∨
    (s.mapidx < s.mapcnt ∧ ∃ i e, i < s.mapcnt ∧ entryAt s i = .ok e ∧ 0xFFFF < e.addr)

section Lookup

variable {s : State} {l : List MapEntry} {syms : List Symbol} {addr : BitVec 32}

theorem mem_entries (hperm : l.Perm (syms.map toEntry)) {c : Symbol} (hc : c ∈ syms) : toEntry c ∈ l :=
  hperm.mem_iff.mpr (List.mem_map_of_mem hc)

theorem of_mem_entries (hperm : l.Perm (syms.map toEntry)) {e : MapEntry} (he : e ∈ l) :
    ∃ c ∈ syms, toEntry c = e :=
  List.mem_map.mp (hperm.mem_iff.mp he)

theorem Hits.nearest (hperm : l.Perm (syms.map toEntry))
    (hsorted : l.Pairwise fun c d => c.addr.toNat ≤ d.addr.toNat) (haddr : addr.toNat ≤ 0xFFFF) {i : Nat}
    {e : MapEntry} (h : Hits l addr i) (he : l[i]? = some e) :
    Nearest syms addr (e.sym.map fun name => (name, (addr - e.addr).toInt)) := by
  obtain ⟨hle, hmax⟩ := h.greatest hsorted he
  obtain ⟨c, hc, rfl⟩ := of_mem_entries hperm (List.mem_of_getElem? he)
  refine ⟨c, hc, rfl, hle, fun d hd hdle => hmax _ (mem_entries hperm hd) hdle, ?_⟩
  have hsub : (addr - c.1).toNat = addr.toNat - c.1.toNat := BitVec.toNat_sub_of_le hle
  have hle' : c.1.toNat ≤ addr.toNat := hle
  change (addr - c.1).toInt = _
  rw [BitVec.toInt_eq_toNat_cond, hsub]
  split <;> omega

/-- The whole search, where some entry is above the address. -/
theorem Loaded.search_nearest (h : Loaded s l) (hperm : l.Perm (syms.map toEntry)) (haddr : addr.toNat ≤ 0xFFFF)
    {f : MapEntry} (hf : f ∈ l ++ [finalEntry]) (hlt : addr < f.addr) :
    ∃ r idx, MapFile.search s addr 0 s.mapcnt = .ok (r, idx) ∧ idx ≤ l.length ∧ Nearest syms addr r := by
  rw [h.mapcnt]
  obtain ⟨j, e, -, hj, hhit, he, hrun⟩ | ⟨hnone, hrun⟩ := h.search addr l.length 0 (by omega)
  · exact ⟨_, j, hrun, Nat.le_of_lt hj, hhit.nearest hperm h.sorted haddr he⟩
  · refine ⟨none, l.length, hrun, Nat.le_refl _, fun c hc => ?_⟩
    by_contra hle
    rw [BitVec.not_lt] at hle
    obtain ⟨i, hi, hhit⟩ := exists_hit (mem_entries hperm hc) hle hf h.sorted hlt
    exact hnone i (Nat.zero_le i) hi hhit

theorem MayLookup.above {addr : BitVec 16} (h : Loaded s l) (hmay : MayLookup s addr) (hcnt : s.mapcnt ≠ 0) :
    (∃ f ∈ l ++ [finalEntry], addr.setWidth 32 < f.addr) ∧ (s.mapidx = l.length → addr ≠ 0xFFFF) := by
  by_cases haddr : addr = 0xFFFF
  · obtain hne | hzero | ⟨hidx, i, e, hi, he, hlt⟩ := hmay
    · exact absurd haddr hne
    · exact absurd hzero hcnt
    · rw [h.mapcnt] at hidx hi
      obtain ⟨e', he', hread⟩ := h.entry (Nat.le_of_lt hi)
      rw [hread] at he
      obtain rfl := Except.ok.inj he
      refine ⟨⟨e', List.mem_of_getElem? he', ?_⟩, by omega⟩
      rw [haddr]
      exact hlt
  · refine ⟨⟨finalEntry, by simp, ?_⟩, fun _ => haddr⟩
    rw [BitVec.lt_def, BitVec.toNat_setWidth]
    have hne : addr.toNat ≠ 0xFFFF := fun heq => haddr (BitVec.eq_of_toNat_eq heq)
    have hlt := addr.isLt
    change addr.toNat % 2 ^ 32 < 0xFFFF
    omega

theorem Inv.lookup (h : Inv s syms) {addr : BitVec 16} (hmay : MayLookup s addr) :
    ∃ r t, getSymbolAndOffset s (addr.setWidth 32) = .ok (r, t) ∧ Inv t syms ∧
      Nearest syms (addr.setWidth 32) r := by
  by_cases hcnt : s.mapcnt = 0
  · have hsyms : syms = [] := by
      cases h with
      | unloaded => rfl
      | loaded h hperm =>
        have hlen := hperm.length_eq
        rw [← h.mapcnt, hcnt, List.length_map] at hlen
        exact List.length_eq_zero_iff.mp hlen.symm
    refine ⟨none, s, by simp [getSymbolAndOffset, hcnt, pure, Except.pure], h, ?_⟩
    simp [Nearest, hsyms]
  cases h with
  | unloaded hcnt' => exact absurd hcnt' hcnt
  | @loaded l _ h hperm =>
    have haddr : (addr.setWidth 32).toNat ≤ 0xFFFF := by
      rw [BitVec.toNat_setWidth]
      omega
    obtain ⟨⟨f, hf, hflt⟩, hlast⟩ := hmay.above h hcnt
    obtain ⟨r, idx, hrun, hidx, hnearest⟩ := h.search_nearest hperm haddr hf hflt
    have hinv : Inv { s with mapidx := idx } syms :=
      .loaded ⟨h.maparray, h.mapcnt, by rw [h.mapcnt]; exact hidx, h.sorted, h.named⟩ hperm
    unfold getSymbolAndOffset
    simp only [hcnt, if_false, bind, Except.bind]
    have hle := h.mapidx
    rw [h.mapcnt] at hle
    obtain hlt | heq := Nat.lt_or_eq_of_le hle
    · obtain ⟨b, hb, hhit⟩ := h.between (addr.setWidth 32) hlt
      simp only [hb]
      cases b with
      | true =>
        have hget := List.getElem?_eq_getElem hlt
        have hread : entryAt s s.mapidx = .ok l[s.mapidx] := h.entryAt (by rw [List.getElem?_append_left hlt, hget])
        refine ⟨_, s, ?_, .loaded h hperm, (hhit.mp rfl).nearest hperm h.sorted haddr hget⟩
        simp [symbolAt, hread, bind, Except.bind, pure, Except.pure]
      | false =>
        refine ⟨r, _, ?_, hinv, hnearest⟩
        simp [hrun, pure, Except.pure]
    · -- The index was left behind the last entry: only the final one is read.
      have hread : entryAt s s.mapidx = .ok finalEntry := h.entryAt (by rw [heq]; simp)
      have hne : ¬finalEntry.addr ≤ addr.setWidth 32 := by
        have hne' : addr.toNat ≠ 0xFFFF := fun h' => hlast heq (BitVec.eq_of_toNat_eq h')
        rw [BitVec.le_def, BitVec.toNat_setWidth]
        change ¬0xFFFF ≤ addr.toNat % 2 ^ 32
        omega
      refine ⟨r, _, ?_, hinv, hnearest⟩
      simp [MapFile.between, hread, hne, hrun, bind, Except.bind, pure, Except.pure]

end Lookup

/-! ## Looking up a name -/

/-- The address of a symbol of that name, as an int. -/
def AddressOf (syms : List Symbol) (sym : Text) (v : Int) : Prop :=
  (∃ c ∈ syms, sym ≠ [] ∧ c.2 = sym ∧ v = c.1.toInt) ∨ ((sym = [] ∨ ∀ c ∈ syms, c.2 ≠ sym) ∧ v = -1)

/-- Where what starts at `a` ends: before the next higher address, where 0xFFFF counts as one. -/
inductive EndsAt (syms : List Symbol) (a : BitVec 32) : Int → Prop
  | next {d : Symbol} (hd : d ∈ syms) (hlt : a < d.1) (hleast : ∀ d' ∈ syms, a < d'.1 → d.1 ≤ d'.1) :
      EndsAt syms a (d.1 - 1).toInt
  | last (hmax : ∀ d ∈ syms, d.1 ≤ a) (hlt : a < 0xFFFF) : EndsAt syms a 0xFFFE
  | none (hmax : ∀ d ∈ syms, d.1 ≤ a) (hge : 0xFFFF ≤ a) : EndsAt syms a (-1)

def EndAddressOf (syms : List Symbol) (sym : Text) (v : Int) : Prop :=
  (∃ c ∈ syms, sym ≠ [] ∧ c.2 = sym ∧ EndsAt syms c.1 v) ∨ ((sym = [] ∨ ∀ c ∈ syms, c.2 ≠ sym) ∧ v = -1)

section Names

variable {s : State} {l : List MapEntry} {syms : List Symbol} {sym : Text}

theorem Loaded.findSym (h : Loaded s l) (sym : Text) (n : Nat) : ∀ i, i + n = l.length →
    (∃ j e, i ≤ j ∧ l[j]? = some e ∧ e.sym = some sym ∧ findSym s sym i n = .ok (some j)) ∨
    ((∀ j e, i ≤ j → l[j]? = some e → e.sym ≠ some sym) ∧ findSym s sym i n = .ok none) := by
  induction n with
  | zero =>
    intro i hi
    right
    refine ⟨fun j e hij he => ?_, rfl⟩
    have hj := (List.getElem?_eq_some_iff.mp he).1
    omega
  | succ n ih =>
    intro i hi
    have hlt : i < l.length := by omega
    have hget := List.getElem?_eq_getElem hlt
    have hread : MapFile.entryAt s i = .ok l[i] := h.entryAt (by rw [List.getElem?_append_left hlt, hget])
    obtain ⟨name, hname⟩ := Option.isSome_iff_exists.mp (h.named _ (List.getElem_mem hlt))
    unfold MapFile.findSym
    simp only [hread, bind, Except.bind, hname]
    by_cases heq : name = sym
    · left
      exact ⟨i, l[i], Nat.le_refl i, hget, by rw [hname, heq], by simp [heq, pure, Except.pure]⟩
    · simp only [if_neg heq]
      obtain ⟨j, e, hij, he, hsym, hrun⟩ | ⟨hnone, hrun⟩ := ih (i + 1) (by omega)
      · exact .inl ⟨j, e, by omega, he, hsym, hrun⟩
      · right
        refine ⟨fun j e hij he => ?_, hrun⟩
        obtain rfl | hlt' := Nat.eq_or_lt_of_le hij
        · obtain rfl := Option.some.inj (hget.symm.trans he)
          rw [hname]
          simpa using heq
        · exact hnone j e hlt' he

/-- What `findSym` finds in a state between two calls. -/
theorem Inv.findSym (h : Inv s syms) (sym : Text) :
    (∃ l i e c, Loaded s l ∧ l.Perm (syms.map toEntry) ∧ l[i]? = some e ∧ c ∈ syms ∧ toEntry c = e ∧ c.2 = sym ∧
      MapFile.findSym s sym 0 s.mapcnt = .ok (some i)) ∨
    ((∀ c ∈ syms, c.2 ≠ sym) ∧ MapFile.findSym s sym 0 s.mapcnt = .ok none) := by
  cases h with
  | unloaded hcnt => exact .inr ⟨by simp, by rw [hcnt]; rfl⟩
  | @loaded l _ h hperm =>
    rw [h.mapcnt]
    obtain ⟨j, e, -, he, hsym, hrun⟩ | ⟨hnone, hrun⟩ := h.findSym sym l.length 0 (by omega)
    · obtain ⟨c, hc, rfl⟩ := of_mem_entries hperm (List.mem_of_getElem? he)
      exact .inl ⟨l, j, _, c, h, hperm, he, hc, rfl, Option.some.inj hsym, hrun⟩
    · refine .inr ⟨fun c hc hname => ?_, hrun⟩
      obtain ⟨j, hj⟩ := List.mem_iff_getElem?.mp (mem_entries hperm hc)
      exact hnone j _ (Nat.zero_le j) hj (congrArg some hname)

theorem Inv.address (h : Inv s syms) (sym : Text) :
    ∃ v, getSymAddress s sym = .ok v ∧ AddressOf syms sym v := by
  by_cases hsym : sym = []
  · exact ⟨-1, by simp [getSymAddress, hsym, pure, Except.pure], .inr ⟨.inl hsym, rfl⟩⟩
  unfold getSymAddress
  simp only [hsym, if_false, bind, Except.bind]
  obtain ⟨l, i, e, c, hload, -, he, hc, rfl, hname, hrun⟩ | ⟨hnone, hrun⟩ := h.findSym sym
  · have hlt := (List.getElem?_eq_some_iff.mp he).1
    have hread : entryAt s i = .ok (toEntry c) := hload.entryAt (by rw [List.getElem?_append_left hlt, he])
    exact ⟨c.1.toInt, by simp [hrun, hread, pure, Except.pure, toEntry], .inl ⟨c, hc, hsym, hname, rfl⟩⟩
  · exact ⟨-1, by simp [hrun, pure, Except.pure], .inr ⟨.inr hnone, rfl⟩⟩

theorem Loaded.findHigher (h : Loaded s l) (addr : BitVec 32) (n : Nat) : ∀ j, j + n = l.length + 1 →
    (∃ k f, j ≤ k ∧ (l ++ [finalEntry])[k]? = some f ∧ addr < f.addr ∧
      (∀ m e, j ≤ m → m < k → (l ++ [finalEntry])[m]? = some e → e.addr ≤ addr) ∧
      findHigher s addr j n = .ok (f.addr - 1).toInt) ∨
    ((∀ m e, j ≤ m → (l ++ [finalEntry])[m]? = some e → e.addr ≤ addr) ∧ findHigher s addr j n = .ok (-1)) := by
  induction n with
  | zero =>
    intro j hj
    right
    refine ⟨fun m e hjm he => ?_, rfl⟩
    have hm := (List.getElem?_eq_some_iff.mp he).1
    simp only [List.length_append, List.length_singleton] at hm
    omega
  | succ n ih =>
    intro j hj
    obtain ⟨e, he, hread⟩ := h.entry (show j ≤ l.length by omega)
    unfold MapFile.findHigher
    simp only [hread, bind, Except.bind]
    by_cases hlt : addr < e.addr
    · left
      exact ⟨j, e, Nat.le_refl j, he, hlt, fun m e hjm hmj => by omega, by simp [hlt, pure, Except.pure]⟩
    · simp only [gt_iff_lt, if_neg hlt]
      have hstep : ∀ m f, j ≤ m → (l ++ [finalEntry])[m]? = some f → (j + 1 ≤ m → f.addr ≤ addr) → f.addr ≤ addr := by
        intro m f hjm hf hlater
        obtain rfl | hlt' := Nat.eq_or_lt_of_le hjm
        · obtain rfl := Option.some.inj (he.symm.trans hf)
          exact BitVec.not_lt.mp hlt
        · exact hlater hlt'
      obtain ⟨k, f, hjk, hf, hflt, hbetween, hrun⟩ | ⟨hnone, hrun⟩ := ih (j + 1) (by omega)
      · exact .inl ⟨k, f, by omega, hf, hflt, fun m e hjm hmk he' =>
          hstep m e hjm he' fun hlater => hbetween m e hlater hmk he', hrun⟩
      · exact .inr ⟨fun m e hjm he' => hstep m e hjm he' fun hlater => hnone m e hlater he', hrun⟩

/-- What is at an index before `i` of the sorted array is not above what is at `i`. -/
theorem Loaded.le_of_le (h : Loaded s l) {m i : Nat} {d e : MapEntry} (hd : l[m]? = some d) (he : l[i]? = some e)
    (hmi : m ≤ i) : d.addr ≤ e.addr := by
  obtain ⟨hm, rfl⟩ := List.getElem?_eq_some_iff.mp hd
  obtain ⟨hi, rfl⟩ := List.getElem?_eq_some_iff.mp he
  obtain rfl | hlt := Nat.eq_or_lt_of_le hmi
  · exact Nat.le_refl _
  · exact (List.pairwise_iff_getElem.mp h.sorted) m i hm hi hlt

theorem Loaded.endsAt (h : Loaded s l) (hperm : l.Perm (syms.map toEntry)) {i : Nat} {c : Symbol}
    (hi : l[i]? = some (toEntry c)) :
    ∃ v, MapFile.findHigher s c.1 (i + 1) (s.mapcnt - i) = .ok v ∧ EndsAt syms c.1 v := by
  have hlt := (List.getElem?_eq_some_iff.mp hi).1
  have hindex : ∀ d ∈ syms, ∃ m : Nat, l[m]? = some (toEntry d) ∧ (l ++ [finalEntry])[m]? = some (toEntry d) := by
    intro d hd
    obtain ⟨m, hm⟩ := List.mem_iff_getElem?.mp (mem_entries hperm hd)
    exact ⟨m, hm, by rw [List.getElem?_append_left (List.getElem?_eq_some_iff.mp hm).1, hm]⟩
  -- A symbol that is not among the entries looked at is not above `c`.
  have hbelow : ∀ k, (∀ m e, i + 1 ≤ m → m < k → (l ++ [finalEntry])[m]? = some e → e.addr ≤ c.1) →
      ∀ d ∈ syms, d.1 ≤ c.1 ∨ ∃ m : Nat, k ≤ m ∧ l[m]? = some (toEntry d) := by
    intro k hbetween d hd
    obtain ⟨m, hm, hm'⟩ := hindex d hd
    by_cases hmi : m ≤ i
    · exact .inl (h.le_of_le hm hi hmi)
    · by_cases hmk : m < k
      · exact .inl (hbetween m _ (by omega) hmk hm')
      · exact .inr ⟨m, by omega, hm⟩
  rw [h.mapcnt]
  obtain ⟨k, f, hik, hf, hflt, hbetween, hrun⟩ | ⟨hnone, hrun⟩ :=
    h.findHigher c.1 (l.length - i) (i + 1) (by omega)
  · refine ⟨_, hrun, ?_⟩
    by_cases hk : k < l.length
    · rw [List.getElem?_append_left hk] at hf
      obtain ⟨d, hd, rfl⟩ := of_mem_entries hperm (List.mem_of_getElem? hf)
      refine .next hd hflt fun d' hd' hlt' => ?_
      obtain hle | ⟨m, hkm, hm⟩ := hbelow k hbetween d' hd'
      · exact absurd hlt' (BitVec.not_lt.mpr hle)
      · exact h.le_of_le hf hm hkm
    · have hfinal : f = finalEntry := by
        have hlen := (List.getElem?_eq_some_iff.mp hf).1
        simp only [List.length_append, List.length_singleton] at hlen
        obtain rfl : k = l.length := by omega
        simpa using hf.symm
      subst hfinal
      refine .last (fun d hd => ?_) hflt
      obtain hle | ⟨m, hkm, hm⟩ := hbelow k hbetween d hd
      · exact hle
      · have hm' := (List.getElem?_eq_some_iff.mp hm).1
        omega
  · refine ⟨_, hrun, .none (fun d hd => ?_) (hnone l.length finalEntry (by omega) (by simp))⟩
    obtain hle | ⟨m, hkm, hm⟩ := hbelow l.length (fun m e him _ he => hnone m e him he) d hd
    · exact hle
    · have hm' := (List.getElem?_eq_some_iff.mp hm).1
      omega

theorem Inv.endAddress (h : Inv s syms) (sym : Text) :
    ∃ v, getSymEndAddress s sym = .ok v ∧ EndAddressOf syms sym v := by
  by_cases hsym : sym = []
  · exact ⟨-1, by simp [getSymEndAddress, hsym, pure, Except.pure], .inr ⟨.inl hsym, rfl⟩⟩
  unfold getSymEndAddress
  simp only [hsym, if_false, bind, Except.bind]
  obtain ⟨l, i, e, c, hload, hperm, he, hc, rfl, hname, hrun⟩ | ⟨hnone, hrun⟩ := h.findSym sym
  · have hlt := (List.getElem?_eq_some_iff.mp he).1
    have hread : entryAt s i = .ok (toEntry c) := hload.entryAt (by rw [List.getElem?_append_left hlt, he])
    obtain ⟨v, hend, hv⟩ := hload.endsAt hperm he
    refine ⟨v, ?_, .inl ⟨c, hc, hsym, hname, hv⟩⟩
    simp only [hrun, hread]
    exact hend
  · exact ⟨-1, by simp [hrun, pure, Except.pure], .inr ⟨.inr hnone, rfl⟩⟩

end Names

/-! ## Runs -/

/-- A call. An address is looked up for a 16-bit CPU. -/
inductive Call where
  | read (file : Option Text)
  | symbolAndOffset (addr : BitVec 16)
  | address (sym : Text)
  | endAddress (sym : Text)

inductive Answer where
  | nothing
  | symbol (found : Option (Text × Int))
  | value (v : Int)

def step (q : Qsort) (s : State) : Call → Except MapFault (Answer × State)
  | .read file => do return (.nothing, ← readMapfile q file s)
  | .symbolAndOffset addr => do
    let (found, s) ← getSymbolAndOffset s (addr.setWidth 32)
    return (.symbol found, s)
  | .address sym => do return (.value (← getSymAddress s sym), s)
  | .endAddress sym => do return (.value (← getSymEndAddress s sym), s)

/-- The symbols that a call leaves: those of the file read last. -/
def symbolsAfter (syms : List Symbol) : Call → List Symbol
  | .read file => symbolsRead file
  | _ => syms

/-- The right answer of a call, given the symbols. -/
def RightAnswer (syms : List Symbol) : Call → Answer → Prop
  | .read _, .nothing => True
  | .symbolAndOffset addr, .symbol found => Nearest syms (addr.setWidth 32) found
  | .address sym, .value v => AddressOf syms sym v
  | .endAddress sym, .value v => EndAddressOf syms sym v
  | _, _ => False

/-- Every call of a run ends without a fault and with the right answer. -/
def AllRight (q : Qsort) : State → List Symbol → List Call → Prop
  | _, _, [] => True
  | s, syms, call :: calls => ∃ answer t, step q s call = .ok (answer, t) ∧
      RightAnswer (symbolsAfter syms call) call answer ∧ AllRight q t (symbolsAfter syms call) calls

def MayCall (s : State) : Call → Prop
  | .read file => MayRead s file
  | .symbolAndOffset addr => MayLookup s addr
  | _ => True

/-- Every call of a run is one that `MayCall` allows. -/
def AllMay (q : Qsort) : State → List Call → Prop
  | _, [] => True
  | s, call :: calls => MayCall s call ∧ ∀ answer t, step q s call = .ok (answer, t) → AllMay q t calls

theorem Inv.step {s : State} {syms : List Symbol} (q : Qsort) (h : Inv s syms) {call : Call} (hmay : MayCall s call) :
    ∃ answer t, step q s call = .ok (answer, t) ∧ RightAnswer (symbolsAfter syms call) call answer ∧
      Inv t (symbolsAfter syms call) := by
  cases call with
  | read file =>
    obtain ⟨t, hrun, hinv⟩ := h.read q hmay
    exact ⟨.nothing, t, by simp [MapFile.step, hrun, bind, Except.bind, pure, Except.pure], trivial, hinv⟩
  | symbolAndOffset addr =>
    obtain ⟨found, t, hrun, hinv, hnearest⟩ := h.lookup hmay
    exact ⟨.symbol found, t, by simp [MapFile.step, hrun, bind, Except.bind, pure, Except.pure], hnearest, hinv⟩
  | address sym =>
    obtain ⟨v, hrun, hv⟩ := h.address sym
    exact ⟨.value v, s, by simp [MapFile.step, hrun, bind, Except.bind, pure, Except.pure], hv, h⟩
  | endAddress sym =>
    obtain ⟨v, hrun, hv⟩ := h.endAddress sym
    exact ⟨.value v, s, by simp [MapFile.step, hrun, bind, Except.bind, pure, Except.pure], hv, h⟩

/-- In every run of allowed calls every answer is right and no access misses the array. -/
theorem lookups_right (q : Qsort) (calls : List Call) (h : AllMay q start calls) : AllRight q start [] calls := by
  have hrun : ∀ s syms, Inv s syms → AllMay q s calls → AllRight q s syms calls := by
    clear h
    induction calls with
    | nil => exact fun _ _ _ _ => trivial
    | cons call calls ih =>
      intro s syms hinv hmay
      obtain ⟨answer, t, hstep, hright, hinv'⟩ := hinv.step q hmay.1
      exact ⟨answer, t, hstep, hright, ih t _ hinv' (hmay.2 answer t hstep)⟩
  exact hrun start [] inv_start h

/-! ## A sort to run it with -/

def insertBy (e : MapEntry) : List MapEntry → List MapEntry
  | [] => [e]
  | d :: l => if mapcompare e d ≤ 0 then e :: d :: l else d :: insertBy e l

theorem insertBy_perm (e : MapEntry) (l : List MapEntry) : (insertBy e l).Perm (e :: l) := by
  induction l with
  | nil => rfl
  | cons d l ih =>
    unfold insertBy
    split
    · rfl
    · exact (ih.cons d).trans (.swap e d l)

theorem insertBy_sorted {e : MapEntry} {l : List MapEntry} (ho : Orders (e :: l))
    (hl : l.Pairwise fun c d => mapcompare c d ≤ 0) : (insertBy e l).Pairwise fun c d => mapcompare c d ≤ 0 := by
  induction l with
  | nil => simp [insertBy]
  | cons d l ih =>
    have hd : d ∈ e :: d :: l := by simp
    have he : e ∈ e :: d :: l := by simp
    rw [List.pairwise_cons] at hl
    unfold insertBy
    split
    · next hle =>
      refine .cons (fun c hc => ?_) (.cons hl.1 hl.2)
      obtain rfl | hc := List.mem_cons.mp hc
      · exact hle
      · exact ho.trans e he d hd c (by simp [hc]) hle (hl.1 c hc)
    · next hgt =>
      have hsub : ∀ c ∈ e :: l, c ∈ e :: d :: l := by
        intro c hc
        obtain rfl | hc := List.mem_cons.mp hc
        · exact he
        · simp [hc]
      have ho' : Orders (e :: l) := ⟨fun c hc c' hc' => ho.anti c (hsub c hc) c' (hsub c' hc'),
        fun c hc c' hc' c'' hc'' => ho.trans c (hsub c hc) c' (hsub c' hc') c'' (hsub c'' hc'')⟩
      refine .cons (fun c hc => ?_) (ih ho' hl.2)
      obtain rfl | hc := List.mem_cons.mp ((insertBy_perm e l).mem_iff.mp hc)
      · exact Int.le_of_lt ((ho.anti c he d hd).mp (by omega))
      · exact hl.1 c hc

def insertionQsort : Qsort where
  sort := List.foldr insertBy []
  perm := by
    intro l
    induction l with
    | nil => rfl
    | cons e l ih => exact (insertBy_perm e _).trans (ih.cons e)
  sorted := by
    intro l
    induction l with
    | nil => exact fun _ => .nil
    | cons e l ih =>
      intro ho
      have hperm : (List.foldr insertBy [] l).Perm l := by
        clear ih ho
        induction l with
        | nil => rfl
        | cons e l ih => exact (insertBy_perm e _).trans (ih.cons e)
      have hsub : ∀ c ∈ l, c ∈ e :: l := fun c hc => List.mem_cons_of_mem e hc
      have hmem : ∀ c ∈ e :: List.foldr insertBy [] l, c ∈ e :: l := fun c hc =>
        (hperm.cons e).mem_iff.mp hc
      refine insertBy_sorted ⟨fun c hc d hd => ho.anti c (hmem c hc) d (hmem d hd),
        fun c hc d hd c' hc' => ho.trans c (hmem c hc) d (hmem d hd) c' (hmem c' hc')⟩ (ih ?_)
      exact ⟨fun c hc d hd => ho.anti c (hsub c hc) d (hsub d hd),
        fun c hc d hd c' hc' => ho.trans c (hsub c hc) d (hsub d hd) c' (hsub c' hc')⟩

/-- `"10 C a\n"` -/
def smallMap : Text := [0x31, 0x30, 0x20, 0x43, 0x20, 0x61, 0x0a]

def smallState : State := ⟨.live [some ⟨0x10, some [0x61]⟩, some finalEntry], 0, 1, true⟩

theorem read_smallMap : step insertionQsort start (.read (some smallMap)) = .ok (.nothing, smallState) := by
  rfl

theorem lookups_right_smallMap :
    AllRight insertionQsort start [] [.read (some smallMap), .symbolAndOffset 0x12] := by
  refine lookups_right insertionQsort _ ⟨⟨by simp [start], ?_⟩, fun answer t _ => ⟨.inl (by decide), ?_⟩⟩
  · rintro _ ⟨rfl⟩
    refine ⟨⟨?_, ?_⟩, .inl rfl⟩
    · intro line hline before name hs
      obtain rfl : line = ([0x31, 0x30, 0x20, 0x43, 0x20, 0x61], true) := by
        have hlines : linesFrom [] smallMap = [([0x31, 0x30, 0x20, 0x43, 0x20, 0x61], true)] := rfl
        simpa [hlines] using hline
      exact ⟨by decide, by decide, .inl rfl⟩
    · have hsyms : symbolsOf smallMap = [(0x10, [0x61])] := rfl
      simp [hsyms]
  · exact fun _ _ _ => trivial

/-- The last symbol reaches up to 0xFFFE only. -/
theorem lookup_top_fails : ¬∀ (q : Qsort) (calls : List Call), AllRight q start [] calls := by
  intro h
  obtain ⟨a, t, hread, -, a', t', hlookup, hright, -⟩ :=
    h insertionQsort [.read (some smallMap), .symbolAndOffset 0xFFFF]
  rw [read_smallMap] at hread
  cases hread
  have hnone : step insertionQsort smallState (.symbolAndOffset 0xFFFF) =
      .ok (.symbol none, { smallState with mapidx := 1 }) := rfl
  rw [hnone] at hlookup
  cases hlookup
  exact absurd (hright (0x10, [0x61]) (by decide)) (by decide)

end Fuzemsys.Emulators.MapFile
