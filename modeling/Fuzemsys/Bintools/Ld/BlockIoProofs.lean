import Fuzemsys.Bintools.Ld.BlockIo

/-!
# Blocks hold the file

What the buffer holds after each block that is read, after a read that crosses blocks, and by induction
after any calls.
-/

namespace Fuzemsys.Bintools.Ld

variable {s : Io} {a : Direct} {file : List Byte} {len left fuel block : Nat}

namespace Io

/-! ## A block -/

/-- The buffer holds the current block, and the kernel reads the next one. -/
structure Loaded (s : Io) : Prop where
  iobuf : s.iobuf = (s.file.drop (s.ioblock * 512)).take 512
  offset : s.offset = min ((s.ioblock + 1) * 512) s.file.length
  ioptr : s.ioptr = s.iopos
  inside : s.iopos ≤ s.iobuf.length

theorem iobuf_length (h : s.iobuf = (s.file.drop (s.ioblock * 512)).take 512) :
    s.iobuf.length = min 512 (s.file.length - s.ioblock * 512) := by
  rw [h, List.length_take, List.length_drop]

theorem drop_min (l : List Byte) (n : Nat) : l.drop (min n l.length) = l.drop n := by
  by_cases h : n ≤ l.length
  · rw [min_eq_left h]
  · rw [List.drop_eq_nil_of_le (by omega), List.drop_eq_nil_of_le (by omega)]

/-- A block that follows the last one, or that starts in the file. -/
theorem io_get_loaded (h : block = s.ioblock + 1 ∧ s.offset = min (block * 512) s.file.length ∨
    block ≠ s.ioblock + 1 ∧ block * 512 ≤ s.file.length) :
    (io_get block s).2.Loaded ∧ (io_get block s).1 = (io_get block s).2.iobuf.length ∧
      (io_get block s).2.file = s.file ∧ (io_get block s).2.ioblock = block ∧ (io_get block s).2.iopos = 0 := by
  have hoffset : (if block ≠ s.ioblock + 1 then block * 512 else s.offset) = min (block * 512) s.file.length := by
    rcases h with ⟨heq, hoff⟩ | ⟨hne, hin⟩
    · rw [if_neg (by simp [heq]), hoff]
    · rw [if_pos hne]
      omega
  unfold io_get
  dsimp only
  rw [hoffset, drop_min]
  refine ⟨⟨rfl, ?_, rfl, Nat.zero_le _⟩, rfl, rfl, rfl, rfl⟩
  simp only [List.length_take, List.length_drop]
  omega

/-! ## Reading -/

/-- The direct file is at the same place. -/
structure Refines (s : Io) (a : Direct) : Prop where
  loaded : s.Loaded
  file : a.file = s.file
  pos : a.pos = min (s.ioblock * 512 + s.iopos) s.file.length

theorem read_eq (h : s.Refines a) (n : Nat) : (a.read n).1 = (s.file.drop (s.ioblock * 512 + s.iopos)).take n := by
  rw [Direct.read, h.file, h.pos, drop_min]

theorem read_add (a : Direct) (m n : Nat) :
    a.read (m + n) = ((a.read m).1 ++ ((a.read m).2.read n).1, ((a.read m).2.read n).2) := by
  have hdrop : a.file.drop (a.pos + ((a.file.drop a.pos).take m).length) = (a.file.drop a.pos).drop m := by
    rw [List.drop_drop, List.length_take, List.length_drop]
    by_cases hm : m ≤ a.file.length - a.pos
    · rw [min_eq_left hm]
    · rw [List.drop_eq_nil_of_le (by omega), List.drop_eq_nil_of_le (by omega)]
  simp only [Direct.read, hdrop, List.take_add, List.length_append, Nat.add_assoc]

theorem take_iobuf (h : s.Loaded) {n : Nat} (hn : n ≤ s.iobuf.length - s.iopos) :
    (s.iobuf.drop s.ioptr).take n = (s.file.drop (s.ioblock * 512 + s.iopos)).take n := by
  have hlength := iobuf_length h.iobuf
  have hinside := h.inside
  rw [h.ioptr, h.iobuf, List.drop_take, List.drop_drop, List.take_take, min_eq_left (by omega)]

/-- Inside the buffer the pointer and the index go on together. -/
theorem advance_refines (h : s.Refines a) {n : Nat} (hn : n ≤ s.iobuf.length - s.iopos) :
    Refines { s with ioptr := s.ioptr + n, iopos := s.iopos + n } (a.read n).2 := by
  have hlength := iobuf_length h.loaded.iobuf
  have hinside := h.loaded.inside
  refine ⟨⟨h.loaded.iobuf, h.loaded.offset, congrArg (· + n) h.loaded.ioptr, ?_⟩, h.file, ?_⟩
  · dsimp only
    omega
  · have hpos : (a.read n).2.pos = a.pos + (a.read n).1.length := rfl
    rw [hpos, read_eq h, h.pos, List.length_take, List.length_drop]
    dsimp only
    omega

theorem readLoop_refines (h : s.Refines a) (hleft : left = s.iobuf.length - s.iopos) (hfuel : len ≤ fuel)
    (hfirst : left = 0 → len ≠ 0 → len < fuel) :
    (readLoop fuel len left s).1 = (a.read len).1 ∧ (readLoop fuel len left s).2.Refines (a.read len).2 := by
  induction fuel generalizing s a len left with
  | zero =>
    obtain rfl : len = 0 := by omega
    exact ⟨by simp [readLoop, Direct.read], by simpa [readLoop, Direct.read] using h⟩
  | succ fuel ih =>
    have hlength := iobuf_length h.loaded.iobuf
    have hinside := h.loaded.inside
    unfold readLoop
    by_cases hnone : len = 0
    · rw [if_pos hnone, hnone]
      exact ⟨by simp [Direct.read], by simpa [Direct.read] using h⟩
    · rw [if_neg hnone]
      dsimp only
      by_cases henough : len ≤ left
      · rw [min_eq_left henough, if_pos hnone, if_pos (Nat.sub_self len)]
        rw [hleft] at henough
        exact ⟨(take_iobuf h.loaded henough).trans (read_eq h len).symm, advance_refines h henough⟩
      · rw [min_eq_right (by omega), if_neg (by omega)]
        -- the index is not the pointer any more, but the next block resets both
        generalize hs' : (if left ≠ 0 then { s with ioptr := s.ioptr + left, iopos := s.iopos + len } else s) = s'
        have hsame : s'.file = s.file ∧ s'.offset = s.offset ∧ s'.ioblock = s.ioblock := by
          rw [← hs']
          split_ifs <;> exact ⟨rfl, rfl, rfl⟩
        obtain ⟨hfile, hoffset, hblock⟩ := hsame
        have hkernel : s'.offset = min ((s'.ioblock + 1) * 512) s'.file.length := by
          rw [hoffset, hblock, hfile]
          exact h.loaded.offset
        obtain ⟨hloaded, hcount, hfile', hblock', hpos'⟩ := io_get_loaded (Or.inl ⟨rfl, hkernel⟩)
        generalize io_get (s'.ioblock + 1) s' = next at hloaded hcount hfile' hblock' hpos' ⊢
        have hnext := iobuf_length hloaded.iobuf
        rw [hfile', hblock', hblock, hfile] at hnext
        have hgot : (s.iobuf.drop s.ioptr).take left = (a.read left).1 :=
          (take_iobuf h.loaded (by omega)).trans (read_eq h left).symm
        have hread : a.read len = ((a.read left).1 ++ ((a.read left).2.read (len - left)).1, ((a.read left).2.read (len - left)).2) := by
          rw [← read_add]
          congr 1
          omega
        have hat : next.2.Refines (a.read left).2 := by
          refine ⟨hloaded, ?_, ?_⟩
          · rw [hfile', hfile]
            exact h.file
          · have hpos : (a.read left).2.pos = a.pos + (a.read left).1.length := rfl
            rw [hpos, read_eq h, h.pos, List.length_take, List.length_drop, hfile', hblock', hpos', hfile, hblock]
            omega
        rw [hread, hgot]
        by_cases hend : next.1 = 0
        · rw [if_pos hend]
          have hnil : ((a.read left).2.read (len - left)).1 = [] := by
            have hbehind : next.2.file.length ≤ next.2.ioblock * 512 + next.2.iopos := by
              rw [hfile', hblock', hpos', hfile, hblock]
              omega
            rw [read_eq hat, List.drop_eq_nil_of_le hbehind, List.take_nil]
          have hstay : ((a.read left).2.read (len - left)).2 = (a.read left).2 := by
            have hpos : ((a.read left).2.read (len - left)).2 =
                { (a.read left).2 with pos := (a.read left).2.pos + ((a.read left).2.read (len - left)).1.length } := rfl
            rw [hpos, hnil]
            rfl
          rw [hnil, hstay, List.append_nil]
          exact ⟨rfl, hat⟩
        · rw [if_neg hend]
          have hrest : next.1 = next.2.iobuf.length - next.2.iopos := by omega
          have hless : len - left ≤ fuel := by omega
          obtain ⟨hmore, hstate⟩ := ih hat hrest hless (by omega)
          exact ⟨congrArg ((a.read left).1 ++ ·) hmore, hstate⟩

theorem io_read_refines (h : s.Refines a) (len : Nat) :
    (io_read len s).1 = (a.read len).1 ∧ (io_read len s).2.Refines (a.read len).2 :=
  readLoop_refines h rfl (Nat.le_succ _) fun _ _ => Nat.lt_succ_self _

theorem io_readb_refines (h : s.Refines a) :
    (io_readb s).1 = (a.read 1).1 ∧ (io_readb s).2.Refines (a.read 1).2 := by
  unfold io_readb
  split
  · next hmore =>
    have hone : 1 ≤ s.iobuf.length - s.iopos := by
      unfold iolen at hmore
      omega
    exact ⟨(take_iobuf h.loaded hone).trans (read_eq h 1).symm, advance_refines h hone⟩
  · exact io_read_refines h 1

/-! ## Seeking -/

theorem io_lseek_refines {pos : Nat} (hloaded : s.Loaded ∨ s.ioblock ≠ pos / 512 ∧ pos / 512 ≠ s.ioblock + 1)
    (hpos : pos ≤ s.file.length) :
    (io_lseek pos s).1 = true ∧ (io_lseek pos s).2.Refines ⟨s.file, pos⟩ := by
  have hblock : ∃ s', s' = (if pos / 512 ≠ s.ioblock then (io_get (pos / 512) s).2 else s) ∧ s'.Loaded ∧ s'.file = s.file ∧
      s'.ioblock = pos / 512 := by
    refine ⟨_, rfl, ?_⟩
    by_cases hsame : pos / 512 = s.ioblock
    · rw [if_neg (not_not.2 hsame)]
      rcases hloaded with hloaded | ⟨hne, -⟩
      · exact ⟨hloaded, rfl, hsame.symm⟩
      · exact absurd hsame.symm hne
    · rw [if_pos hsame]
      have hwhere : pos / 512 = s.ioblock + 1 ∧ s.offset = min (pos / 512 * 512) s.file.length ∨
          pos / 512 ≠ s.ioblock + 1 ∧ pos / 512 * 512 ≤ s.file.length := by
        by_cases hnext : pos / 512 = s.ioblock + 1
        · rcases hloaded with hloaded | ⟨-, hne⟩
          · exact Or.inl ⟨hnext, by rw [hloaded.offset, hnext]⟩
          · exact absurd hnext hne
        · exact Or.inr ⟨hnext, by omega⟩
      have hget := io_get_loaded hwhere
      exact ⟨hget.1, hget.2.2.1, hget.2.2.2.1⟩
  obtain ⟨s', hs', hloaded', hfile, hblock⟩ := hblock
  have hlength := iobuf_length hloaded'.iobuf
  rw [hfile, hblock] at hlength
  unfold io_lseek
  dsimp only
  rw [← hs']
  have hle : pos % 512 ≤ s'.iobuf.length := by omega
  refine ⟨?_, ⟨hloaded'.iobuf, hloaded'.offset, rfl, hle⟩, hfile.symm, ?_⟩
  · simp [iolen, hle]
  · dsimp only
    rw [hblock, hfile]
    omega

theorem io_open_refines (file : List Byte) (s : Io) :
    (io_open file s).1 = true ∧ (io_open file s).2.Refines ⟨file, 0⟩ :=
  io_lseek_refines (Or.inr ⟨by simp, by simp⟩) (Nat.zero_le _)

/-! ## The position -/

theorem io_getpos_right (h : s.Refines a) :
    s.io_getpos = a.pos ↔ (s.iopos < 512 ∨ s.ioblock % 2 = 0) ∧ s.ioblock * 512 + s.iopos ≤ s.file.length := by
  have hlength := iobuf_length h.loaded.iobuf
  have hinside := h.loaded.inside
  have hshift : s.ioblock * 512 = 2 ^ 9 * s.ioblock := by omega
  rw [h.pos, io_getpos, hshift]
  by_cases hlow : s.iopos < 512
  · rw [← Nat.two_pow_add_eq_or_of_lt hlow]
    omega
  · have hfull : s.iopos = 2 ^ 9 := by omega
    rcases Nat.even_or_odd' s.ioblock with ⟨k, hk | hk⟩
    · have hor : 2 ^ 9 * s.ioblock ||| s.iopos = 2 ^ 9 * s.ioblock + s.iopos := by
        rw [hk, hfull, show 2 ^ 9 * (2 * k) = 2 ^ 10 * k by omega, Nat.two_pow_add_eq_or_of_lt (by decide)]
      rw [hor]
      omega
    · have hor : 2 ^ 9 * s.ioblock ||| s.iopos = 2 ^ 9 * s.ioblock := by
        have hodd : 2 ^ 9 * s.ioblock = 2 ^ 10 * k ||| 2 ^ 9 := by
          rw [← Nat.two_pow_add_eq_or_of_lt (by decide)]
          omega
        rw [hfull, hodd, Nat.or_assoc, Nat.or_self]
      rw [hor]
      omega

end Io

/-! ## Any calls -/

theorem call_refines {c : IoCall} {cs : List IoCall} (h : s.Refines a) (hc : Inside (c :: cs) s.file) :
    (s.call c).2.Refines (a.call c).2 ∧ Inside cs (s.call c).2.file ∧ (c ≠ .io_getpos → (s.call c).1 = (a.call c).1) := by
  cases c with
  | io_open file =>
    obtain ⟨hok, hstate⟩ := Io.io_open_refines file s
    exact ⟨hstate, hstate.file ▸ hc, fun _ => congrArg Reply.done hok⟩
  | io_lseek pos =>
    obtain ⟨hok, hstate⟩ := Io.io_lseek_refines (Or.inl h.loaded) hc.1
    refine ⟨?_, ?_, fun _ => congrArg Reply.done hok⟩
    · rw [Direct.call, h.file]
      exact hstate
    · rw [Io.call, ← hstate.file]
      exact hc.2
  | io_read len =>
    obtain ⟨hgot, hstate⟩ := Io.io_read_refines h len
    exact ⟨hstate, hstate.file ▸ h.file ▸ hc, fun _ => congrArg Reply.bytes hgot⟩
  | io_readb =>
    obtain ⟨hgot, hstate⟩ := Io.io_readb_refines h
    exact ⟨hstate, hstate.file ▸ h.file ▸ hc, fun _ => congrArg Reply.bytes hgot⟩
  | io_read16 p =>
    obtain ⟨hgot, hstate⟩ := Io.io_read_refines h 2
    exact ⟨hstate, hstate.file ▸ h.file ▸ hc, fun _ => congrArg (fun got => Reply.word (Io.word p got)) hgot⟩
  | io_getpos => exact ⟨h, hc, fun hne => absurd rfl hne⟩

theorem replies_refine {cs : List IoCall} (h : s.Refines a) (hc : Inside cs s.file) :
    s.replies cs = a.replies cs ↔ PositionsRight cs s := by
  induction cs generalizing s a with
  | nil => exact ⟨fun _ => trivial, fun _ => rfl⟩
  | cons c cs ih =>
    obtain ⟨hstate, hinside, hsame⟩ := call_refines h hc
    have hrest := ih hstate hinside
    unfold Io.replies Direct.replies PositionsRight
    rw [List.cons_eq_cons, hrest]
    apply and_congr_left
    intro _
    by_cases hpos : c = .io_getpos
    · subst hpos
      have hreply : (s.call .io_getpos).1 = (a.call .io_getpos).1 ↔ s.io_getpos = a.pos :=
        ⟨fun heq => Reply.pos.inj heq, fun heq => congrArg Reply.pos heq⟩
      rw [hreply, Io.io_getpos_right h]
      exact ⟨fun hright _ => hright, fun hright => hright rfl⟩
    · exact ⟨fun _ heq => absurd heq hpos, fun _ => hsame hpos⟩

/-- After a file is opened, all calls reply what the file itself would if and only if the position is asked for neither at the
end of a full block with an odd number nor behind the end of the file. -/
theorem block_io_refines (file : List Byte) (s : Io) {cs : List IoCall} (hc : Inside cs file) :
    (Io.io_open file s).2.replies cs = Direct.replies cs ⟨file, 0⟩ ↔ PositionsRight cs (Io.io_open file s).2 := by
  obtain ⟨-, hstate⟩ := Io.io_open_refines file s
  have hfile : (Io.io_open file s).2.file = file := hstate.file.symm
  apply replies_refine hstate
  rw [hfile]
  exact hc

theorem three_bytes_read : (Io.io_open [1, 2, 3] Io.start).2.replies [.io_read 2, .io_getpos, .io_lseek 1, .io_readb] =
    Direct.replies [.io_read 2, .io_getpos, .io_lseek 1, .io_readb] ⟨[1, 2, 3], 0⟩ := by
  refine (block_io_refines [1, 2, 3] Io.start ?_).2 ?_
  · exact ⟨by decide, trivial⟩
  · exact ⟨fun h => IoCall.noConfusion h, fun _ => by decide, fun h => IoCall.noConfusion h, fun h => IoCall.noConfusion h, trivial⟩

/-- After a read that meets the end, the position is the start of a block behind the file. -/
theorem position_behind_file : Inside [.io_read 5, .io_getpos] [1, 2, 3] ∧
    (Io.io_open [1, 2, 3] Io.start).2.replies [.io_read 5, .io_getpos] = [.bytes [1, 2, 3], .pos 512] ∧
    Direct.replies [.io_read 5, .io_getpos] ⟨[1, 2, 3], 0⟩ = [.bytes [1, 2, 3], .pos 3] :=
  ⟨trivial, by decide, by decide⟩

end Fuzemsys.Bintools.Ld
