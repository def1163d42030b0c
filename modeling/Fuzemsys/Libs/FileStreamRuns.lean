import Fuzemsys.Libs.FileStreamReads

/-!
# A stream does what a file with one position does

Each call keeps what is buffered right, and returns what it returns on the file.
-/

namespace Fuzemsys.Libs.FileStream

variable {s : Stream} {a : ByteFile} {last : Last}

/-! ## Writing -/

theorem unread_back_right (h : Right s a last) :
    Right s.unread_back a last ∧ Pending s.unread_back a := by
  by_cases hr : s.MODE_READING = true
  · rw [Stream.unread_back, if_pos hr, right_fflush h]
    exact ⟨flushed_right h, flushed_pending s a⟩
  · rw [Stream.unread_back, if_neg hr]
    exact ⟨h, h.mode.resolve_right fun hahead => hr hahead.reading⟩

/-- Unless the last call was a read, the end was not met. -/
theorem not_eof (h : Right s a last) (hpermits : ∀ c, last ≠ .reading c) : s.MODE_EOF = false := by
  by_contra he
  exact hpermits none (h.eof (by simpa using he)).2

theorem unread_back_eof (h : Right s a last) (heof : s.MODE_EOF = false) : s.unread_back.MODE_EOF = false := by
  by_cases hr : s.MODE_READING = true
  · rw [Stream.unread_back, if_pos hr, right_fflush h]
    rfl
  · rwa [Stream.unread_back, if_neg hr]

/-- After a write, what is left to show is what is buffered. -/
theorem write_right (h : Right s a last) {t : Stream} {bytes : List Byte}
    (hbuffer : t.buffer.length = s.buffer.length) (herr : t.MODE_ERR = false) (heof : t.MODE_EOF = false)
    (hmode : Pending t (a.write bytes)) : Right t (a.write bytes) .writing where
  size := hbuffer ▸ h.size
  fits := hbuffer ▸ h.fits
  err := herr
  mode := .inl hmode
  eof := by simp [heof]
  char := by simp

theorem put_length (hp : Pending s a) {bytes : List Byte} (hroom : bytes.length ≤ s.buffer.length - s.bufpos) :
    (s.put bytes).buffer.length = s.buffer.length := by
  have := hp.bufpos
  simp only [Stream.put, List.length_append, List.length_take, List.length_drop]
  omega

theorem put_pending (hp : Pending s a) (heof : s.MODE_EOF = false) {bytes : List Byte}
    (hroom : bytes.length ≤ s.buffer.length - s.bufpos) : Pending (s.put bytes) (a.write bytes) where
  reading := hp.reading
  bufread := hp.bufread
  bufpos := by
    have := hp.bufpos
    rw [put_length hp hroom]
    simp only [Stream.put]
    omega
  writing := by simp [Stream.put]
  eof := fun _ => heof
  file := by
    have hlen : (s.buffer.take s.bufpos).length = s.bufpos := by
      rw [List.length_take]
      exact Nat.min_eq_left hp.bufpos
    have htake : (s.put bytes).buffer.take (s.put bytes).bufpos = s.buffer.take s.bufpos ++ bytes :=
      List.take_left' (by simp only [List.length_append, hlen, Stream.put])
    have hat : a.pos = s.fpos + (s.buffer.take s.bufpos).length := by rw [hlen, hp.pos]
    rw [htake, ByteFile.write, hp.file, hat, writeAt_writeAt]
    rfl
  pos := by
    simp only [ByteFile.write, hp.pos, Stream.put]
    omega

theorem fputc_right (h : Right s a last) (hpermits : ∀ c, last ≠ .reading c) (c : Byte) :
    (s.fputc c).1 = some c ∧ Right (s.fputc c).2 (a.write [c]) .writing := by
  have heof := not_eof h hpermits
  obtain ⟨hback, hp⟩ := unread_back_right h
  have hbeof := unread_back_eof h heof
  rw [Stream.fputc]
  simp only [heof, h.err, Bool.false_eq_true, or_self, if_false]
  refine ⟨trivial, ?_⟩
  by_cases hfull : s.unread_back.buffer.length ≤ s.unread_back.bufpos
  · rw [if_pos hfull, right_fflush hback]
    have hroom : [c].length ≤ (s.unread_back.flushed a).buffer.length - (s.unread_back.flushed a).bufpos := hback.size
    exact write_right hback (put_length (flushed_pending _ a) hroom) hback.err rfl
      (put_pending (flushed_pending _ a) rfl hroom)
  · rw [if_neg hfull]
    have hroom : [c].length ≤ s.unread_back.buffer.length - s.unread_back.bufpos := by
      simp only [List.length_singleton]
      omega
    exact write_right hback (put_length hp hroom) hback.err hbeof (put_pending hp hbeof hroom)

/-- What does not fit into the empty buffer is written directly. -/
theorem direct_pending (s : Stream) (a : ByteFile) (bytes : List Byte) :
    Pending ((s.flushed a).write bytes) (a.write bytes) where
  reading := rfl
  bufread := rfl
  bufpos := Nat.zero_le _
  writing := fun _ => rfl
  eof := fun _ => rfl
  file := by simp [ByteFile.write, Stream.flushed, Stream.cleared, Stream.write]
  pos := rfl

theorem fwrite_right (h : Right s a last) {size nelm : Nat} {buf : List Byte}
    (hpermits : ∀ c, last ≠ .reading c) (hbuf : size * nelm ≤ buf.length) (hmax : size * nelm ≤ INT_MAX) :
    (s.fwrite size nelm buf).1 = (if size = 0 then 0 else nelm) ∧
      Right (s.fwrite size nelm buf).2 (a.write (buf.take (size * nelm))) .writing := by
  have heof := not_eof h hpermits
  rw [Stream.fwrite]
  by_cases hzero : size = 0 ∨ nelm = 0
  · have hnone : a.write (buf.take (size * nelm)) = a := by
      rw [Nat.mul_eq_zero.2 hzero]
      simp [ByteFile.write]
    rw [if_pos hzero, hnone]
    refine ⟨?_, h.size, h.fits, h.err, h.mode, by simp [heof], by simp⟩
    by_cases hsize : size = 0
    · rw [if_pos hsize]
    · rw [if_neg hsize, hzero.resolve_left hsize]
  have hsize : size ≠ 0 := fun hs => hzero (.inl hs)
  obtain ⟨hback, hp⟩ := unread_back_right h
  have hbeof := unread_back_eof h heof
  have hbytes : size * nelm % 2 ^ 16 = size * nelm := Nat.mod_eq_of_lt (by simp only [INT_MAX] at hmax; omega)
  rw [if_neg hzero, if_neg hsize]
  simp only [heof, h.err, Bool.false_eq_true, or_self, if_false, hbytes]
  obtain ⟨bytes, hb⟩ : ∃ bytes, bytes = buf.take (size * nelm) := ⟨_, rfl⟩
  have hlen : bytes.length = size * nelm := by
    rw [hb, List.length_take]
    exact Nat.min_eq_left hbuf
  rw [← hb]
  by_cases hroom : s.unread_back.buffer.length - s.unread_back.bufpos < bytes.length
  · rw [if_pos hroom, right_fflush hback]
    by_cases hfits : bytes.length ≤ (s.unread_back.flushed a).buffer.length - (s.unread_back.flushed a).bufpos
    · rw [if_pos hfits]
      exact ⟨rfl, write_right hback (put_length (flushed_pending _ a) hfits) hback.err rfl
        (put_pending (flushed_pending _ a) rfl hfits)⟩
    · rw [if_neg hfits, if_neg (by omega), hlen, Nat.mul_div_cancel_left nelm (by omega)]
      exact ⟨rfl, write_right hback rfl hback.err rfl (direct_pending _ a bytes)⟩
  · rw [if_neg hroom, if_pos (by omega)]
    exact ⟨rfl, write_right hback (put_length hp (by omega)) hback.err hbeof (put_pending hp hbeof (by omega))⟩

/-! ## Seeking -/

/-- Where the file is after a seek, nothing is buffered. -/
theorem fseekSlow_right (h : Right s a last) {offset o : Int} {ref w : Whence}
    (htarget : target a.file a.pos o w = target a.file a.pos offset ref) :
    (s.fseekSlow o w).1 = (a.seek offset ref).1 ∧ Right (s.fseekSlow o w).2 (a.seek offset ref).2 .positioned := by
  have hflushed := flushed_right h
  have hseek : (s.flushed a).lseek o w = if target a.file a.pos offset ref < 0 then none
      else some (s.flushed ⟨a.file, (target a.file a.pos offset ref).toNat⟩) := by
    rw [← htarget]
    rfl
  rw [Stream.fseekSlow, right_fflush h, hseek, ByteFile.seek]
  by_cases hneg : target a.file a.pos offset ref < 0
  · simp only [if_pos hneg]
    exact ⟨trivial, hflushed.size, hflushed.fits, hflushed.err, hflushed.mode, fun he => by simp [Stream.flushed,
      Stream.cleared] at he, by simp⟩
  · simp only [if_neg hneg]
    exact ⟨trivial, h.size, h.fits, h.err, .inl (flushed_pending s _), fun he => by simp [Stream.flushed,
      Stream.cleared] at he, by simp⟩

/-- The bytes before the descriptor are still in the buffer, from its start. -/
theorem moved_readAhead (h : ReadAhead s a) {o : Int} (hfast : s.fast o) (hfresh : s.Fresh) :
    ReadAhead { s with bufpos := (o - s.fpos + s.bufread).toNat } ⟨a.file, o.toNat⟩ := by
  obtain ⟨hbelow, habove⟩ := hfast
  obtain ⟨-, hback, hslice⟩ := hfresh
  have hcount : s.bufread - (o - s.fpos + s.bufread).toNat = s.fpos - o.toNat := by omega
  refine ⟨h.reading, h.writing, ?_, h.bufread, h.file, ?_, ?_⟩
  · simp only
    omega
  · simp only
    omega
  · have hrest := congrArg (List.drop (o - s.fpos + s.bufread).toNat) hslice
    have hfrom : s.fpos - s.bufread + (o - s.fpos + s.bufread).toNat = o.toNat := by omega
    rw [List.drop_take, List.drop_take, List.drop_drop, hfrom] at hrest
    simp only [h.file]
    exact hrest

theorem fseek_right (h : Right s a last) {offset : Int} {ref : Whence} (hready : s.Ready (.fseek offset ref)) :
    (s.fseek offset ref).1 = (a.seek offset ref).1 ∧
      Right (s.fseek offset ref).2 (a.seek offset ref).2 .positioned := by
  rw [Stream.fseek]
  match htarget : s.seekTarget offset ref with
  | none => exact fseekSlow_right h rfl
  | some o =>
    have hreading : s.MODE_READING = true := by
      by_contra hr
      simp [Stream.seekTarget, hr] at htarget
    have hr : ReadAhead s a := h.mode.resolve_left fun hp => by simp [hp.reading] at hreading
    have hto : target a.file a.pos o .SEEK_SET = target a.file a.pos offset ref := by
      have hat := hr.pos
      have hle := hr.bufpos
      simp only [Stream.seekTarget] at htarget
      split at htarget
      · cases ref with
        | SEEK_SET => simp_all
        | SEEK_CUR =>
          simp only [Option.some.injEq, Stream.unread] at htarget
          simp only [target]
          omega
        | SEEK_END => simp at htarget
      · simp at htarget
    by_cases hfast : s.fast o
    · have hfresh := hready o htarget hfast
      have hpos : ¬target a.file a.pos offset ref < 0 := by
        rw [← hto]
        have := hfresh.2.1
        have := hfast.2
        simp only [target]
        omega
      simp only [if_pos hfast, ByteFile.seek, if_neg hpos]
      rw [← hto]
      exact ⟨trivial, h.size, h.fits, h.err, .inr (moved_readAhead hr hfast hfresh),
        fun he => by simp [hfresh.1] at he, by simp⟩
    · simp only [if_neg hfast]
      exact fseekSlow_right h hto

/-! ## Runs -/

/-- Each call returns what it returns on the file, and the stream still stands for it. -/
theorem call_right {x : Session} (h : Right x.stream x.file x.last) {call : Call} (hpermits : x.Permits call)
    (hready : x.stream.Ready call) :
    (x.stream.call call).1 = (x.file.call call).1 ∧
      Right (x.next call).stream (x.next call).file (x.next call).last := by
  cases call with
  | fgetc =>
    obtain ⟨hc, hright⟩ := fgetc_right h
    refine ⟨congrArg Result.char (hc.trans (read_one _).symm), ?_⟩
    simpa [Session.next, Stream.call, ByteFile.call, Last.after, read_one] using hright
  | ungetc c =>
    obtain ⟨hc, hright⟩ := ungetc_right h hpermits hready
    exact ⟨congrArg Result.char hc, hright⟩
  | fread size nelm =>
    obtain ⟨hitems, hright⟩ := fread_right h hready
    exact ⟨congrArg (fun p : Nat × List Byte => Result.items p.1 p.2) hitems, hright⟩
  | fputc c =>
    obtain ⟨hc, hright⟩ := fputc_right h hpermits c
    exact ⟨congrArg Result.char hc, hright⟩
  | fwrite size nelm buf =>
    obtain ⟨hn, hright⟩ := fwrite_right h hpermits.1 hpermits.2 hready
    exact ⟨congrArg Result.count hn, hright⟩
  | fseek offset ref =>
    obtain ⟨hok, hright⟩ := fseek_right h hready
    exact ⟨congrArg Result.success hok, hright⟩
  | ftell =>
    have hflush := right_fflush h
    refine ⟨?_, ?_⟩
    · simp only [Stream.call, ByteFile.call, Stream.ftell, hflush]
      rfl
    · simp only [Session.next, Stream.call, ByteFile.call, Stream.ftell, hflush, Last.after]
      exact flushed_right h
  | fflush =>
    refine ⟨rfl, ?_⟩
    simp only [Session.next, Stream.call, ByteFile.call, right_fflush h, Last.after]
    have := flushed_right h
    exact ⟨this.size, this.fits, this.err, this.mode, fun he => by simp [Stream.flushed, Stream.cleared] at he,
      by simp⟩

theorem run_right {file : List Byte} {size : Nat} (hsize : 0 < size) (hfits : size ≤ INT_MAX) {x : Session}
    (hrun : Run Stream.Ready file size x) : Right x.stream x.file x.last := by
  induction hrun with
  | opened => exact opened_right file hsize hfits
  | step _ hpermits hready ih => exact (call_right ih hpermits hready).2

/-- In a run of calls that the stream is ready for, it does what a file with one position does. -/
theorem stream_refines {file : List Byte} {size : Nat} (hsize : 0 < size) (hfits : size ≤ INT_MAX) {x : Session}
    (hrun : Run Stream.Ready file size x) :
    (∀ call, x.Permits call → x.stream.Ready call → (x.stream.call call).1 = (x.file.call call).1) ∧
      x.stream.fflush.file = x.file.file ∧
      (x.stream.MODE_READING → x.stream.bufpos ≤ x.stream.bufread ∧ x.stream.bufread ≤ x.stream.buffer.length) := by
  have h := run_right hsize hfits hrun
  refine ⟨fun call hpermits hready => (call_right h hpermits hready).1, ?_, fun hreading => ?_⟩
  · rw [right_fflush h]
    rfl
  · have hr := h.mode.resolve_left fun hp => by simp [hp.reading] at hreading
    exact ⟨hr.bufpos, hr.bufread⟩

/-- A character read, pushed back and then sought past. -/
theorem pushed_back_refines :
    ((((Session.opened [1, 2, 3] 4).next .fgetc).next (.ungetc 1)).next (.fseek 2 .SEEK_SET)).stream.fflush.file =
      [1, 2, 3] := by
  have hfgetc : Run Stream.Ready [1, 2, 3] 4 ((Session.opened [1, 2, 3] 4).next .fgetc) :=
    .step .opened (by simp [Session.Permits, Session.opened]) trivial
  have hungetc := @Run.step _ _ _ _ (.ungetc 1) hfgetc rfl ⟨rfl, by decide⟩
  have hseek := @Run.step _ _ _ _ (.fseek 2 .SEEK_SET) hungetc trivial (fun o ho => by cases ho)
  exact (stream_refines (by decide) (by decide) hseek).2.1

/-- A read of more than is buffered moves the pointer past the end of what was read. -/
theorem short_fread_moves :
    ¬∀ (file : List Byte) (size : Nat) (x : Session), 0 < size → size ≤ INT_MAX →
      Run (fun _ _ => True) file size x → ∀ call, x.Permits call → (x.stream.call call).1 = (x.file.call call).1 := by
  intro h
  have hfgetc : Run (fun _ _ => True) [1, 2, 3] 256 ((Session.opened [1, 2, 3] 256).next .fgetc) :=
    .step .opened (by simp [Session.Permits, Session.opened]) trivial
  have hfread := @Run.step _ _ _ _ (.fread 1 5) hfgetc (by simp [Session.Permits, Session.next, Last.after,
    ByteFile.call]) trivial
  have hfseek := @Run.step _ _ _ _ (.fseek 0 .SEEK_CUR) hfread trivial trivial
  have htell := h _ _ _ (by decide) (by decide) hfseek .ftell trivial
  exact absurd htell (by decide +kernel)

end Fuzemsys.Libs.FileStream
