import Fuzemsys.Libs.FileStream

/-!
# Reading from a stream

What is buffered is either still to be written, or read ahead of the position.
-/

namespace Fuzemsys.Libs.FileStream

/-! ## Two writes, one after the other -/

@[simp] theorem writeAt_nil (file : List Byte) (offset : Nat) : writeAt file offset [] = file := by
  simp [writeAt]

theorem writeAt_writeAt (file : List Byte) (offset : Nat) (xs ys : List Byte) :
    writeAt (writeAt file offset xs) (offset + xs.length) ys = writeAt file offset (xs ++ ys) := by
  by_cases hxs : xs = []
  · simp [hxs]
  by_cases hys : ys = []
  · simp [hys]
  obtain ⟨head, hhead⟩ : ∃ head, head = (file ++ List.replicate (offset - file.length) 0).take offset := ⟨_, rfl⟩
  have hlen : head.length = offset := by
    rw [hhead]
    simp only [List.length_take, List.length_append, List.length_replicate]
    omega
  have hfirst : writeAt file offset xs = head ++ xs ++ file.drop (offset + xs.length) := by
    rw [writeAt, if_neg hxs, hhead]
  have hpad : offset + xs.length - (head ++ xs ++ file.drop (offset + xs.length)).length = 0 := by
    simp only [List.length_append]
    omega
  have htake : (head ++ xs ++ file.drop (offset + xs.length)).take (offset + xs.length) = head ++ xs :=
    List.take_left' (by rw [List.length_append, hlen])
  have hdrop : (head ++ xs ++ file.drop (offset + xs.length)).drop (offset + xs.length + ys.length) =
      file.drop (offset + (xs ++ ys).length) := by
    rw [← List.drop_drop, List.drop_left' (by rw [List.length_append, hlen]), List.drop_drop, List.length_append,
      Nat.add_assoc]
  rw [hfirst, writeAt, if_neg hys, hpad, List.replicate_zero, List.append_nil, htake, hdrop, writeAt,
    if_neg (by simp [hxs]), ← hhead]
  simp only [List.append_assoc]

/-! ## What is buffered -/

/-- Nothing is read ahead. What is before the pointer is still to be written. -/
structure Pending (s : Stream) (a : ByteFile) : Prop where
  reading : s.MODE_READING = false
  bufread : s.bufread = 0
  bufpos : s.bufpos ≤ s.buffer.length
  writing : s.MODE_WRITING = false → s.bufpos = 0
  eof : s.MODE_WRITING = true → s.MODE_EOF = false
  file : a.file = writeAt s.file s.fpos (s.buffer.take s.bufpos)
  pos : a.pos = s.fpos + s.bufpos

/-- What is after the pointer was read ahead. -/
structure ReadAhead (s : Stream) (a : ByteFile) : Prop where
  reading : s.MODE_READING = true
  writing : s.MODE_WRITING = false
  bufpos : s.bufpos ≤ s.bufread
  bufread : s.bufread ≤ s.buffer.length
  file : a.file = s.file
  pos : a.pos + (s.bufread - s.bufpos) = s.fpos
  unread : (s.buffer.drop s.bufpos).take (s.bufread - s.bufpos) = (a.file.drop a.pos).take (s.bufread - s.bufpos)

/-- A stream that stands for this file. -/
structure Right (s : Stream) (a : ByteFile) (last : Last) : Prop where
  size : 0 < s.buffer.length
  fits : s.buffer.length ≤ INT_MAX
  err : s.MODE_ERR = false
  mode : Pending s a ∨ ReadAhead s a
  eof : s.MODE_EOF = true → a.file.length ≤ a.pos ∧ last = .reading none
  char : ∀ c, last = .reading (some c) → 0 < a.pos ∧ a.file[a.pos - 1]? = some c

variable {s : Stream} {a : ByteFile} {last : Last}

theorem opened_right (file : List Byte) {size : Nat} (hsize : 0 < size) (hfits : size ≤ INT_MAX) :
    Right (opened file size) ⟨file, 0⟩ .positioned where
  size := by simpa [opened] using hsize
  fits := by simpa [opened] using hfits
  err := rfl
  mode := .inl ⟨rfl, rfl, by simp [opened], by simp [opened], by simp [opened], by simp [opened], rfl⟩
  eof := by simp [opened]
  char := by simp

/-! ## Flushing -/

/-- Nothing is buffered. -/
def Stream.flushed (s : Stream) (a : ByteFile) : Stream := { s.cleared with file := a.file, fpos := a.pos }

theorem pending_fflush (h : Pending s a) : s.fflush = s.flushed a := by
  by_cases hw : s.MODE_WRITING = true
  · have hlen : (s.buffer.take s.bufpos).length = s.bufpos := by
      rw [List.length_take]
      exact Nat.min_eq_left h.bufpos
    simp only [Stream.fflush, if_pos hw, Stream.flushed, Stream.cleared, Stream.write, h.file, h.pos, hlen]
  · rw [Bool.not_eq_true] at hw
    have hpos := h.writing hw
    have hfile := h.file
    have hat := h.pos
    rw [hpos] at hfile hat
    simp only [List.take_zero, writeAt_nil, Nat.add_zero] at hfile hat
    simp [Stream.fflush, hw, h.reading, Stream.flushed, Stream.cleared, hfile, hat]

theorem readAhead_fflush (h : ReadAhead s a) : s.fflush = s.flushed a := by
  have hpos := h.pos
  have hle := h.bufpos
  have htarget : (s.fpos : Int) + -s.unread = a.pos := by
    simp only [Stream.unread]
    omega
  by_cases hu : 0 < s.unread
  · have hseek : s.lseek (-s.unread) .SEEK_CUR = some { s with fpos := a.pos } := by
      simp only [Stream.lseek, target, htarget]
      rw [if_neg (by omega), Int.toNat_natCast]
    simp only [Stream.fflush, h.writing, h.reading, hu, hseek]
    simp [Stream.flushed, Stream.cleared, h.file]
  · have hat : s.fpos = a.pos := by
      simp only [Stream.unread] at hu
      omega
    simp [Stream.fflush, h.writing, hu, Stream.flushed, Stream.cleared, h.file, hat]

theorem right_fflush (h : Right s a last) : s.fflush = s.flushed a :=
  h.mode.elim pending_fflush readAhead_fflush

theorem flushed_pending (s : Stream) (a : ByteFile) : Pending (s.flushed a) a where
  reading := rfl
  bufread := rfl
  bufpos := Nat.zero_le _
  writing := fun _ => rfl
  eof := fun _ => rfl
  file := by simp [Stream.flushed, Stream.cleared]
  pos := rfl

theorem flushed_right (h : Right s a last) : Right (s.flushed a) a last where
  size := h.size
  fits := h.fits
  err := h.err
  mode := .inl (flushed_pending s a)
  eof := by simp [Stream.flushed, Stream.cleared]
  char := h.char

theorem synced_right (h : Right s a last) : Right s.synced a last ∧ s.synced.MODE_WRITING = false := by
  by_cases hw : s.MODE_WRITING = true
  · rw [Stream.synced, if_pos hw, right_fflush h]
    exact ⟨flushed_right h, rfl⟩
  · rw [Stream.synced, if_neg hw]
    exact ⟨h, by simpa using hw⟩

/-- When the end was met, there is nothing to write. -/
theorem eof_synced (h : Right s a last) (heof : s.MODE_EOF = true) : s.synced = s := by
  have hw : s.MODE_WRITING = false := by
    rcases h.mode with hp | hr
    · by_contra hw
      have := hp.eof (by simpa using hw)
      simp [heof] at this
    · exact hr.writing
  simp [Stream.synced, hw]

/-! ## Reading -/

theorem read_end (heof : a.file.length ≤ a.pos) (n : Nat) : a.read n = ([], a) := by
  simp [ByteFile.read, List.drop_eq_nil_of_le heof]

/-- Some of what was read ahead is taken. -/
theorem taken_readAhead (h : ReadAhead s a) {n : Nat} (hn : s.bufpos + n ≤ s.bufread) :
    (s.buffer.drop s.bufpos).take n = (a.read n).1 ∧ (a.read n).1.length = n ∧
      ReadAhead { s with bufpos := s.bufpos + n } (a.read n).2 := by
  have hbufread := h.bufread
  have hunread := h.unread
  have hbytes : (s.buffer.drop s.bufpos).take n = (a.file.drop a.pos).take n := by
    have := congrArg (List.take n) hunread
    rwa [List.take_take, List.take_take, Nat.min_eq_left (by omega)] at this
  have hlen : ((a.file.drop a.pos).take n).length = n := by
    rw [← hbytes]
    simp only [List.length_take, List.length_drop]
    omega
  refine ⟨hbytes, hlen, h.reading, h.writing, hn, h.bufread, h.file, ?_, ?_⟩
  · have := h.pos
    simp only [ByteFile.read, hlen]
    omega
  · have hrest := congrArg (List.drop n) hunread
    rw [List.drop_take, List.drop_take, List.drop_drop, List.drop_drop] at hrest
    simp only [ByteFile.read, hlen]
    rwa [Nat.sub_add_eq]

/-- When nothing is read ahead, the descriptor is at the position. -/
theorem nothing_ahead (h : Right s a last) (hw : s.MODE_WRITING = false) (hu : ¬0 < s.unread) :
    s.file = a.file ∧ s.fpos = a.pos ∧ s.bufpos = s.bufread := by
  rcases h.mode with hp | hr
  · have hpos := hp.writing hw
    have hfile := hp.file
    have hat := hp.pos
    rw [hpos] at hfile hat
    exact ⟨by simpa using hfile.symm, hat.symm, by rw [hpos, hp.bufread]⟩
  · have hat := hr.pos
    have hle := hr.bufpos
    simp only [Stream.unread] at hu
    exact ⟨hr.file.symm, by omega, by omega⟩

theorem last_char (a : ByteFile) (n : Nat) :
    ∀ c, (a.read n).1.getLast? = some c →
      0 < (a.read n).2.pos ∧ (a.read n).2.file[(a.read n).2.pos - 1]? = some c := by
  intro c hc
  have hne : (a.read n).1 ≠ [] := by
    rintro heq
    rw [heq] at hc
    simp at hc
  have hlen : 0 < (a.read n).1.length := List.length_pos_iff.2 hne
  have hpos : (a.read n).2.pos = a.pos + (a.read n).1.length := rfl
  have hfile : (a.read n).2.file = a.file := rfl
  have hle : (a.read n).1.length ≤ n := by simp [ByteFile.read]
  refine ⟨by omega, ?_⟩
  rw [List.getLast?_eq_getElem?] at hc
  have hat : (a.read n).1[(a.read n).1.length - 1]? = a.file[a.pos + ((a.read n).1.length - 1)]? := by
    simp only [ByteFile.read] at hlen hle ⊢
    rw [List.getElem?_take_of_lt (by omega), List.getElem?_drop]
  rw [hpos, hfile, ← hc, hat]
  congr 1
  omega

/-- After a read, what is left to show is what is buffered. -/
theorem read_right (h : Right s a last) {t : Stream} {n : Nat} (hbuffer : t.buffer.length = s.buffer.length)
    (herr : t.MODE_ERR = false) (hmode : Pending t (a.read n).2 ∨ ReadAhead t (a.read n).2)
    (heof : t.MODE_EOF = true → a.file.length ≤ a.pos) :
    Right t (a.read n).2 (.reading (a.read n).1.getLast?) where
  size := hbuffer ▸ h.size
  fits := hbuffer ▸ h.fits
  err := herr
  mode := hmode
  eof := fun he => by simp [read_end (heof he), heof he]
  char := fun c hc => last_char a n c (by simpa using hc)

/-- The descriptor and the position move on together. -/
theorem moved_on (h : Right s a last) (hw : s.MODE_WRITING = false) (hu : ¬0 < s.unread) (n : Nat) (e : Bool) :
    Pending { s with fpos := s.fpos + (a.read n).1.length, MODE_EOF := e } (a.read n).2 ∨
      ReadAhead { s with fpos := s.fpos + (a.read n).1.length, MODE_EOF := e } (a.read n).2 := by
  obtain ⟨hfile, hat, hsame⟩ := nothing_ahead h hw hu
  rcases h.mode with hp | hr
  · have hzero := hp.writing hw
    refine .inl ⟨hp.reading, hp.bufread, hp.bufpos, hp.writing, by simp [hw], ?_, ?_⟩
    · simp [ByteFile.read, hzero, hfile]
    · simp [ByteFile.read, hzero, hat]
  · refine .inr ⟨hr.reading, hw, hr.bufpos, hr.bufread, hr.file, ?_, ?_⟩
    · simp [ByteFile.read, hsame, hat]
    · simp [hsame]

theorem freadMore_right (h : Right s a last) (hw : s.MODE_WRITING = false) (hu : ¬0 < s.unread)
    (heof : s.MODE_EOF = false) (size : Nat) {n : Nat} (hn : 0 < n) (hmax : n ≤ INT_MAX) :
    s.freadMore size [] n = (((a.read n).1.length / size, (a.read n).1),
        { s with fpos := s.fpos + (a.read n).1.length, MODE_EOF := decide ((a.read n).1 = []) }) ∧
      Right (s.freadMore size [] n).2 (a.read n).2 (.reading (a.read n).1.getLast?) := by
  obtain ⟨hfile, hat, -⟩ := nothing_ahead h hw hu
  have hread : s.read n = ((a.read n).1, { s with fpos := s.fpos + (a.read n).1.length }) := by
    simp [Stream.read, ByteFile.read, hfile, hat]
  have hlen : (a.read n).1.length ≤ n := by simp [ByteFile.read]
  have hmore : s.freadMore size [] n = (((a.read n).1.length / size, (a.read n).1),
      { s with fpos := s.fpos + (a.read n).1.length, MODE_EOF := decide ((a.read n).1 = []) }) := by
    simp only [Stream.freadMore, hread]
    rw [if_neg (by omega), List.nil_append]
    by_cases hnil : (a.read n).1 = []
    · simp [hnil]
    · simp [hnil, heof]
  refine ⟨hmore, ?_⟩
  rw [hmore]
  refine read_right h rfl h.err (moved_on h hw hu n _) fun he => ?_
  have hnil : (a.read n).1 = [] := by simpa using he
  simp only [ByteFile.read, List.take_eq_nil_iff, List.drop_eq_nil_iff] at hnil
  omega

theorem fread_right (h : Right s a last) {size nelm : Nat} (hready : s.Ready (.fread size nelm)) :
    (s.fread size nelm).1 = ((a.read (size * nelm)).1.length / size, (a.read (size * nelm)).1) ∧
      Right (s.fread size nelm).2 (a.read (size * nelm)).2 (.reading (a.read (size * nelm)).1.getLast?) := by
  obtain ⟨hmax, hahead⟩ := hready
  obtain ⟨hsynced, hw⟩ := synced_right h
  by_cases hzero : size = 0 ∨ nelm = 0
  · have hnone : a.read (size * nelm) = ([], a) := by
      rw [Nat.mul_eq_zero.2 hzero]
      simp [ByteFile.read]
    rw [Stream.fread, if_pos hzero, hnone]
    exact ⟨by simp, h.size, h.fits, h.err, h.mode, fun he => ⟨(h.eof he).1, rfl⟩, by simp⟩
  have hsize : 0 < size := by omega
  have hpos : 0 < size * nelm := Nat.mul_pos hsize (by omega)
  rw [Stream.fread, if_neg hzero]
  by_cases heof : s.MODE_EOF = true
  · obtain ⟨hend, -⟩ := h.eof heof
    rw [if_pos (.inl heof), read_end hend, eof_synced h heof]
    exact ⟨by simp, h.size, h.fits, h.err, h.mode, fun he => ⟨(h.eof he).1, rfl⟩, by simp⟩
  have heof' : s.synced.MODE_EOF = false := by
    by_cases hs : s.MODE_WRITING = true
    · simp [Stream.synced, hs, right_fflush h, Stream.flushed, Stream.cleared]
    · simpa [Stream.synced, hs] using heof
  rw [if_neg (by simp [heof, h.err])]
  have hbytes : size * nelm % 2 ^ 16 = size * nelm := Nat.mod_eq_of_lt (by simp only [INT_MAX] at hmax; omega)
  simp only [hbytes]
  by_cases hu : 0 < s.synced.unread
  · have hr : ReadAhead s.synced a := by
      refine hsynced.mode.resolve_left fun hp => ?_
      simp only [Stream.unread, hp.bufread, hp.writing hw] at hu
      omega
    have hs : s.synced = s := by
      by_cases hs : s.MODE_WRITING = true
      · simp [Stream.synced, hs, right_fflush h, Stream.flushed, Stream.cleared] at hr
        exact absurd hr.reading (by simp)
      · simp [Stream.synced, hs]
    rw [hs] at hr hu ⊢
    have hall := hahead hr.reading hu
    have hfits := h.fits
    have hbufread := hr.bufread
    have hle := hr.bufpos
    simp only [INT_MAX] at hfits
    have hmod : (s.unread % 2 ^ 16).toNat = s.bufread - s.bufpos := by
      simp only [Stream.unread]
      omega
    have hn : s.bufpos + size * nelm ≤ s.bufread := by
      simp only [Stream.unread] at hall
      omega
    obtain ⟨hgot, hlen, hnext⟩ := taken_readAhead hr hn
    rw [if_pos (by omega), hgot, hlen, Nat.mul_div_cancel_left nelm hsize]
    exact ⟨rfl, read_right h rfl h.err (.inr hnext) fun he => absurd he heof⟩
  · obtain ⟨hmore, hright⟩ := freadMore_right hsynced hw hu heof' size hpos hmax
    have hsame := (nothing_ahead hsynced hw hu).2.2
    have hmod : (s.synced.unread % 2 ^ 16).toNat = 0 := by
      simp only [Stream.unread, hsame]
      omega
    rw [if_neg (by omega), if_neg hu]
    exact ⟨by rw [hmore], hright⟩

theorem read_one (a : ByteFile) : (a.read 1).1.head? = (a.read 1).1.getLast? := by
  have hlen : (a.read 1).1.length ≤ 1 := by simp [ByteFile.read]
  match hread : (a.read 1).1 with
  | [] => rfl
  | [_] => rfl
  | _ :: _ :: _ => simp [hread] at hlen

theorem getChar_right (h : ReadAhead s a) (hlt : s.bufpos < s.bufread) :
    s.getChar.1 = (a.read 1).1.getLast? ∧ ReadAhead s.getChar.2 (a.read 1).2 := by
  obtain ⟨hbytes, -, hnext⟩ := taken_readAhead h (n := 1) (by omega)
  refine ⟨?_, hnext⟩
  rw [← read_one, ← hbytes, List.head?_take, if_neg (by omega), List.head?_drop]
  rfl

/-- The buffer is empty, and the pointers go back to its start. -/
theorem emptied_right (h : Right s a last) (hw : s.MODE_WRITING = false) (hu : ¬0 < s.unread) :
    Right { s with bufpos := 0, bufread := 0 } a last where
  size := h.size
  fits := h.fits
  err := h.err
  mode := by
    obtain ⟨hfile, hat, hsame⟩ := nothing_ahead h hw hu
    rcases h.mode with hp | hr
    · exact .inl ⟨hp.reading, rfl, Nat.zero_le _, fun _ => rfl, by simp [hw], by simp [hfile], by simp [hat]⟩
    · exact .inr ⟨hr.reading, hw, le_refl 0, Nat.zero_le _, hr.file, by simp [hat], by simp⟩
  eof := h.eof
  char := h.char

/-- The buffer was filled from its start. -/
theorem filled_readAhead (h : Right s a last) (hw : s.MODE_WRITING = false) (hempty : s.bufpos = 0 ∧ s.bufread = 0)
    (n : Nat) (e : Bool) :
    ReadAhead ({ s with fpos := s.fpos + (a.read n).1.length, MODE_EOF := e }.filled (a.read n).1) a := by
  obtain ⟨hfile, hat, -⟩ := nothing_ahead h hw (by simp [Stream.unread, hempty])
  refine ⟨rfl, hw, ?_, ?_, hfile.symm, ?_, ?_⟩
  · simp [Stream.filled, hempty]
  · simp only [Stream.filled, hempty, List.length_append, List.length_drop]
    omega
  · simp only [Stream.filled, hempty, hat]
    omega
  · simp [Stream.filled, hempty, ByteFile.read]

theorem fgetc_right (h : Right s a last) :
    s.fgetc.1 = (a.read 1).1.getLast? ∧ Right s.fgetc.2 (a.read 1).2 (.reading (a.read 1).1.getLast?) := by
  obtain ⟨hsynced, hw⟩ := synced_right h
  rw [Stream.fgetc]
  by_cases heof : s.synced.MODE_EOF = true
  · obtain ⟨hend, -⟩ := hsynced.eof heof
    simp only [heof, true_or, if_true, read_end hend]
    exact ⟨rfl, hsynced.size, hsynced.fits, hsynced.err, hsynced.mode, fun he => ⟨(hsynced.eof he).1, rfl⟩,
      by simp⟩
  have hready : ¬(s.synced.MODE_EOF = true ∨ s.synced.MODE_ERR = true) := by simp [heof, hsynced.err]
  simp only [hready, if_false]
  by_cases hlt : s.synced.bufread ≤ s.synced.bufpos
  · have hu : ¬0 < s.synced.unread := by
      simp only [Stream.unread]
      omega
    obtain ⟨t, ht⟩ : ∃ t, t = { s.synced with bufpos := 0, bufread := 0 } := ⟨_, rfl⟩
    have htright : Right t a last := ht ▸ emptied_right hsynced hw hu
    have htw : t.MODE_WRITING = false := by rw [ht]; exact hw
    have hteof : t.MODE_EOF = false := by rw [ht]; simpa using heof
    have htu : ¬0 < t.unread := by simp [ht, Stream.unread]
    have hbuffer : s.synced.buffer.length = t.buffer.length := by rw [ht]
    rw [if_pos hlt, ← ht, hbuffer]
    have hsize := htright.size
    have hfits := htright.fits
    have hread : t.fread 1 t.buffer.length = t.freadMore 1 [] t.buffer.length := by
      have hbytes : 1 * t.buffer.length % 2 ^ 16 = t.buffer.length := by
        simp only [INT_MAX] at hfits
        omega
      have hzero : t.unread = 0 := by simp [ht, Stream.unread]
      rw [Stream.fread, if_neg (by omega), if_neg (by simp [hteof, htright.err])]
      simp only [Stream.synced, htw, Bool.false_eq_true, if_false, hbytes, hzero]
      rw [if_neg (by simpa using List.length_pos_iff.1 htright.size), if_neg (by omega)]
    obtain ⟨hmore, hright⟩ := freadMore_right htright htw htu hteof 1 hsize hfits
    rw [hread]
    by_cases hnil : (a.read t.buffer.length).1 = []
    · have hend : a.file.length ≤ a.pos := by
        simp only [ByteFile.read, List.take_eq_nil_iff, List.drop_eq_nil_iff] at hnil
        omega
      rw [read_end hend] at hright hmore
      rw [hmore] at hright ⊢
      simp only [List.length_nil, Nat.zero_div, if_true, read_end hend]
      exact ⟨rfl, hright⟩
    · have hcount : (a.read t.buffer.length).1.length ≠ 0 := by simpa using hnil
      rw [hmore]
      simp only [Nat.div_one, hcount, if_false]
      have hfilled := filled_readAhead htright htw (by simp [ht]) t.buffer.length
        (decide ((a.read t.buffer.length).1 = []))
      have hmost : (a.read t.buffer.length).1.length ≤ t.buffer.length := by simp [ByteFile.read]
      have hlt : 0 < 0 + (a.read t.buffer.length).1.length := by omega
      obtain ⟨hchar, hnext⟩ := getChar_right hfilled (by simpa [Stream.filled, ht] using hlt)
      refine ⟨hchar, read_right htright ?_ htright.err (.inr hnext) ?_⟩
      · simp only [Stream.getChar, Stream.filled, List.length_append, List.length_drop]
        omega
      · simp [Stream.getChar, Stream.filled, hnil]
  · have hr : ReadAhead s.synced a := by
      refine hsynced.mode.resolve_left fun hp => ?_
      rw [hp.bufread, hp.writing hw] at hlt
      omega
    rw [if_neg hlt]
    obtain ⟨hchar, hnext⟩ := getChar_right hr (by omega)
    exact ⟨hchar, read_right hsynced rfl hsynced.err (.inr hnext) fun he => absurd he heof⟩

theorem ungetc_right (h : Right s a last) {c : Byte} (hpermits : last = .reading (some c))
    (hready : s.Ready (.ungetc c)) :
    (s.ungetc c).1 = some c ∧ Right (s.ungetc c).2 { a with pos := a.pos - 1 } (.reading none) := by
  obtain ⟨hreading, hpos⟩ := hready
  have hr : ReadAhead s a := h.mode.resolve_left fun hp => by simp [hp.reading] at hreading
  have heof : s.MODE_EOF = false := by
    by_contra he
    have := (h.eof (by simpa using he)).2
    simp [hpermits] at this
  obtain ⟨hback, hchar⟩ := h.char c hpermits
  have hle := hr.bufpos
  have hbufread := hr.bufread
  have hat := hr.pos
  have hs : s.synced = s := by simp [Stream.synced, hr.writing]
  have hungetc : s.ungetc c = (some c,
      { s with MODE_UNGOT := true, buffer := s.buffer.set (s.bufpos - 1) c, bufpos := s.bufpos - 1 }) := by
    simp only [Stream.ungetc, hs, h.err, Bool.false_eq_true, if_false, if_pos hpos]
  rw [hungetc]
  refine ⟨rfl, ?_, ?_, h.err, .inr ⟨hr.reading, hr.writing, ?_, ?_, hr.file, ?_, ?_⟩, by simp [heof], by simp⟩
  · simpa using h.size
  · simpa using h.fits
  · exact Nat.le_trans (Nat.sub_le _ _) hle
  · simpa using hbufread
  · simp only
    omega
  · have hcount : s.bufread - (s.bufpos - 1) = s.bufread - s.bufpos + 1 := by omega
    have hbuffer : (s.buffer.set (s.bufpos - 1) c).drop (s.bufpos - 1) = c :: s.buffer.drop s.bufpos := by
      rw [List.drop_eq_getElem_cons (by simp only [List.length_set]; omega), List.getElem_set_self,
        List.drop_set_of_lt (by omega), Nat.sub_add_cancel hpos]
    have hfile : a.file.drop (a.pos - 1) = c :: a.file.drop a.pos := by
      obtain ⟨hlt, hget⟩ := List.getElem?_eq_some_iff.1 hchar
      rw [List.drop_eq_getElem_cons hlt, hget, Nat.sub_add_cancel hback]
    simp only [hcount, hbuffer, hfile, List.take_succ_cons, hr.unread]

end Fuzemsys.Libs.FileStream
