import Mathlib.Tactic.NormNum
import Fuzemsys.Libs.Vfscanf

/-!
# Numbers there and back

What `ltoa` and `printf` print is read back by `strtol` and by `%ld` of `vfscanf`.
-/

namespace Fuzemsys.Libs.Scanf

open Fuzemsys.Libs.Strtol Fuzemsys.Libs.Ltostr Fuzemsys.Libs.Printf

variable {wide : Bool} {w inp r bl : List Byte} {ds : List Nat} {n width : Int} {f : Flags} {s : Scan}

/-- The lookahead is the first of the characters still to come. -/
def Scan.At (s : Scan) (inp : List Byte) : Prop := s.c = (fgetc inp).1 ∧ s.inp = (fgetc inp).2

/-- Nothing follows, or a blank does. -/
def BlankOrEnd (inp : List Byte) : Prop := ∀ b ∈ inp.head?, isspace b = true

theorem ofInt_toNat (b : Byte) : BitVec.ofInt 8 (b.toNat : Int) = b := by
  simp [BitVec.ofInt_natCast]

theorem toInt_eq (hlo : -2 ^ 15 ≤ n) (hhi : n < 2 ^ ((if wide then 32 else 16) - 1)) : toInt wide n = n := by
  rcases wide with _ | _ <;> exact Int.bmod_eq_of_le (by norm_num at *; omega) (by norm_num at *; omega)

/-! ## The field width -/

def widthOf (w : List Byte) : Nat := valueOf 10 (w.map fun d => d.toNat - 48)

/-- No width at all, or one that an `int` holds and that leaves room for `len` characters. -/
def RoomFor (wide : Bool) (w : List Byte) (len : Nat) : Prop :=
  (∀ d ∈ w, isdigit d = true) ∧
    (w = [] ∨ len ≤ widthOf w ∧ widthOf w < 2 ^ ((if wide then 32 else 16) - 1))

/-- The flags of `%ld` with these digits. -/
def longFlags (wide : Bool) (w : List Byte) : Flags :=
  { startFlags wide with
    width := if w = [] then -1 else widthOf w, wide1 := if w = [] then 1 else widthOf w, lval := true }

theorem isdigit_range : ∀ d : Byte, isdigit d = true → 48 ≤ d.toNat ∧ d.toNat ≤ 57 ∧ d ≠ 0x2a := by
  decide +kernel

theorem widthDigits_more (hw : ∀ d ∈ w, isdigit d = true) (hf : 0 ≤ f.width) (hr : ∀ d ∈ r.head?, isdigit d = false)
    (hsame : f.wide1 = f.width) (hfit : (w.map fun d => d.toNat - 48).foldl (fun n d => n * 10 + d) f.width.toNat <
      2 ^ ((if wide then 32 else 16) - 1)) :
    widthDigits wide (w ++ r) f =
      ({ f with
          width := ((w.map fun d => d.toNat - 48).foldl (fun n d => n * 10 + d) f.width.toNat : Nat),
          wide1 := ((w.map fun d => d.toNat - 48).foldl (fun n d => n * 10 + d) f.width.toNat : Nat) }, r) := by
  induction w generalizing f with
  | nil =>
    have hself : f = { f with width := (f.width.toNat : Int), wide1 := (f.width.toNat : Int) } := by
      rcases f with ⟨_, _, _, _, _⟩
      simp only [Flags.mk.injEq, true_and, and_true] at *
      omega
    rcases r with _ | ⟨d, r⟩
    · simpa [widthDigits] using hself
    · have hd := hr d rfl
      simpa [widthDigits, hd] using hself
  | cons d w ih =>
    obtain ⟨hlo, hhi, -⟩ := isdigit_range d (hw d (by simp))
    simp only [List.map_cons, List.foldl_cons] at hfit ⊢
    have hstep := le_valueOf 10 (by decide) (w.map fun d => d.toNat - 48) (f.width.toNat * 10 + (d.toNat - 48))
    have hnew : toInt wide ((if f.width = -1 then 0 else f.width) * 10 + (d.toNat - 48)) =
        ((f.width.toNat * 10 + (d.toNat - 48) : Nat) : Int) := by
      have hlt : ((f.width.toNat * 10 + (d.toNat - 48) : Nat) : Int) <
          2 ^ ((if wide then 32 else 16) - 1) := by exact_mod_cast lt_of_le_of_lt hstep hfit
      have heq : (if f.width = -1 then 0 else f.width) * 10 + ((d.toNat : Int) - 48) =
          ((f.width.toNat * 10 + (d.toNat - 48) : Nat) : Int) := by
        rw [if_neg (by omega)]
        omega
      rw [heq, toInt_eq (by omega) hlt]
    rw [List.cons_append, widthDigits, if_pos (hw d (by simp)), hnew]
    have hrest := @ih { f with
      width := ((f.width.toNat * 10 + (d.toNat - 48) : Nat) : Int),
      wide1 := ((f.width.toNat * 10 + (d.toNat - 48) : Nat) : Int) } (fun e he => hw e (by simp [he])) (Int.natCast_nonneg _) rfl
    simp only [Int.toNat_natCast] at hrest
    exact hrest hfit

theorem flags_long (h : RoomFor wide w n.toNat) (fmt : List Byte) :
    flags wide (w ++ 0x6c :: 0x64 :: fmt) = (longFlags wide w, 0x64 :: fmt) := by
  obtain ⟨hw, hroom⟩ := h
  have hnext : ∀ f : Flags, fmtnxt (0x6c :: 0x64 :: fmt) f = ({ f with lval := true }, 0x64 :: fmt) := fun _ => rfl
  rcases w with _ | ⟨d, w⟩
  · rfl
  · obtain ⟨hlo, hhi, hstar⟩ := isdigit_range d (hw d (by simp))
    have hfit : widthOf (d :: w) < 2 ^ ((if wide then 32 else 16) - 1) := (hroom.resolve_left (by simp)).2
    have hdigits := @widthDigits_more wide (d :: w) (0x6c :: 0x64 :: fmt) { startFlags wide with width := 0, wide1 := 0 }
      hw le_rfl (by simp; decide) rfl hfit
    have hfirst : widthDigits wide (d :: w ++ 0x6c :: 0x64 :: fmt) (startFlags wide) =
        widthDigits wide (d :: w ++ 0x6c :: 0x64 :: fmt) { startFlags wide with width := 0, wide1 := 0 } := by
      simp [widthDigits, hw d (by simp), startFlags]
    simp only [flags, List.cons_append, List.head?_cons, Option.some.injEq, hstar, if_false]
    rw [← List.cons_append, hfirst, hdigits]
    simp only [hnext]
    rfl

/-! ## Blanks and digits -/

theorem isspace_pos : ∀ b : Byte, isspace b = true → ¬ b.toNat < 1 := by
  decide +kernel

/-- Blanks are skipped, and the first other character stays the lookahead. -/
theorem skipFrom_blanks {c : Byte} (hbl : ∀ b ∈ bl, isspace b = true) (hc : isspace c = false)
    (hpos : ¬ c.toNat < 1) :
    skipFrom (fgetc (bl ++ c :: r)).1 (fgetc (bl ++ c :: r)).2 = ((c.toNat : Int), r, false) := by
  induction bl with
  | nil => rcases r with _ | ⟨b, r⟩ <;> simp [fgetc, skipFrom, isSpace, hc]
  | cons b bl ih =>
    have hb := hbl b (by simp)
    have hrest := ih fun d hd => hbl d (by simp [hd])
    rcases bl with _ | ⟨e, bl⟩
    · simp only [List.nil_append] at hrest
      simp only [List.cons_append, List.nil_append, fgetc, skipFrom, isSpace, ofInt_toNat, hb, if_true, if_neg hpos]
      exact hrest
    · have he : ¬ e.toNat < 1 := isspace_pos e (hbl e (by simp))
      simp only [List.cons_append, fgetc, skipFrom, isSpace, ofInt_toNat, hb, if_true, if_neg he] at hrest ⊢
      exact hrest

theorem digitAt_char : ∀ d < 10, digitAt 10 ((charOf d).toNat : Int) = some d ∧ (charOf d).toNat ≠ 0 := by
  decide

theorem digitAt_blank : ∀ b : Byte, isspace b = true → digitAt 10 (b.toNat : Int) = none := by
  decide +kernel

/-- A width that does not stop this many digits. -/
def Wide (wide : Bool) (width : Int) (k : Nat) : Prop :=
  (width < 0 ∧ -2 ^ 15 ≤ width - k) ∨ (k ≤ width ∧ width < 2 ^ ((if wide then 32 else 16) - 1))

theorem digitLoop_end (h : BlankOrEnd r) (n : BitVec 32) :
    digitLoop wide 10 (fgetc r).1 (fgetc r).2 n width = (n, (fgetc r).1, (fgetc r).2) := by
  have hnone : digitAt 10 (fgetc r).1 = none := by
    rcases r with _ | ⟨b, r⟩
    · decide
    · exact digitAt_blank b (h b rfl)
  unfold digitLoop
  rw [hnone]

theorem digitLoop_digits (hds : ∀ d ∈ ds, d < 10) (h : BlankOrEnd r) (n : Nat) (hwidth : Wide wide width ds.length) :
    digitLoop wide 10 (fgetc (ds.map charOf ++ r)).1 (fgetc (ds.map charOf ++ r)).2 (BitVec.ofNat 32 n) width =
      (BitVec.ofNat 32 (ds.foldl (fun n d => n * 10 + d) n), (fgetc r).1, (fgetc r).2) := by
  induction ds generalizing n width with
  | nil => exact digitLoop_end h _
  | cons d ds ih =>
    obtain ⟨hd, hpos⟩ := digitAt_char d (hds d (by simp))
    have hc : ((charOf d).toNat : Int) ≠ 0 := by exact_mod_cast hpos
    have hopen : width ≠ 0 := by
      rcases hwidth with ⟨hneg, -⟩ | ⟨hlen, -⟩
      · omega
      · simp only [List.length_cons] at hlen
        omega
    have hbits : (2 : Int) ^ 15 ≤ 2 ^ ((if wide then 32 else 16) - 1) := by
      rcases wide with _ | _ <;> decide
    have hless : toInt wide (width - 1) = width - 1 ∧ Wide wide (width - 1) ds.length := by
      unfold Wide at hwidth ⊢
      simp only [List.length_cons, Nat.cast_add, Nat.cast_one] at hwidth
      rcases hwidth with ⟨hneg, hlo⟩ | ⟨hlen, hhi⟩
      · exact ⟨toInt_eq (by omega) (by omega), Or.inl ⟨by omega, by omega⟩⟩
      · exact ⟨toInt_eq (by omega) (by omega), Or.inr ⟨by omega, by omega⟩⟩
    have hrest := ih (fun e he => hds e (by simp [he])) (n * 10 + d) hless.2
    rw [← ofNat_step] at hrest
    rw [List.foldl_cons, ← hrest, List.map_cons, List.cons_append]
    conv_lhs => rw [fgetc, digitLoop]
    simp only [hd, if_pos (And.intro hopen hc)]
    rcases hnext : ds.map charOf ++ r with _ | ⟨b, inp⟩
    · obtain ⟨hds', rfl⟩ := List.append_eq_nil_iff.1 hnext
      rw [digitLoop_end h]
      rfl
    · simp only [hless.1]
      rfl

/-! ## One conversion -/

/-- A number of the type `long`, without its sign. -/
def magnitude (v : BitVec 32) : Nat := if v.msb then (-v).toNat else v.toNat

/-- What a number prints as in base 10. -/
def decimal (v : BitVec 32) : List Byte := textOf v.msb 10 (magnitude v)

theorem ltoa_decimal (v : BitVec 32) : ltoa v 10 = some (decimal v) := ltoa_text v (by decide) (by decide)

theorem of_magnitude (v : BitVec 32) :
    (if v.msb then -BitVec.ofNat 32 (magnitude v) else BitVec.ofNat 32 (magnitude v)) = v := by
  unfold magnitude
  rcases v.msb with _ | _
  · simp
  · simp only [if_true]
    rw [BitVec.ofNat_toNat, BitVec.setWidth_eq, BitVec.neg_neg]

theorem digit_char : ∀ d < 10, ((charOf d).toNat : Int) ≠ 0x2d ∧ ((charOf d).toNat : Int) ≠ 0x2b ∧
    ¬ ((charOf d).toNat : Int) < 1 := by
  decide

/-- A `long` was stored, and the lookahead is the first of these characters. -/
def Scan.stored (s : Scan) (v : BitVec 32) (inp : List Byte) : Scan :=
  { c := (fgetc inp).1, inp := (fgetc inp).2, cnt := s.cnt + 1, arg := s.arg + 1,
    stores := s.stores ++ [.long s.arg v] }

theorem number_digits (neg : Bool) (hs : s.At (ds.map charOf ++ r)) (hne : ds ≠ []) (hds : ∀ d ∈ ds, d < 10)
    (hr : BlankOrEnd r) (hstore : f.store = true) (hwidth : Wide wide f.width ds.length) :
    number wide f true neg 10 s =
      (s.stored (if neg then -BitVec.ofNat 32 (valueOf 10 ds) else BitVec.ofNat 32 (valueOf 10 ds)) r, true) := by
  have hloop := digitLoop_digits hds hr 0 hwidth
  rcases ds with _ | ⟨d, ds⟩
  · exact absurd rfl hne
  · obtain ⟨hd, hpos⟩ := digitAt_char d (hds d (by simp))
    have hc : s.c = (charOf d).toNat := hs.1
    have hgo : ¬ ((s.c = 0 ∨ (digitAt 10 s.c).isNone = true) ∧ f.width ≠ 0) := by
      rintro ⟨hstop, -⟩
      rw [hc, hd] at hstop
      exact hstop.elim (by exact_mod_cast hpos) (by simp)
    unfold number
    rw [if_neg hgo, hs.1, hs.2]
    rw [show (0 : BitVec 32) = BitVec.ofNat 32 0 from rfl, hloop]
    simp only [savnum, hstore, if_true]
    rfl

theorem signed_text (neg : Bool) {val : Nat} (hs : s.At (textOf neg 10 val ++ r)) (hr : BlankOrEnd r)
    (hstore : f.store = true) (hwidth : Wide wide f.width (digitsOf 10 val).length) :
    signed wide f true s =
      (s.stored (if neg then -BitVec.ofNat 32 val else BitVec.ofNat 32 val) r, true) := by
  have hne := digitsOf_ne_nil 10 val
  have hds := digitsOf_lt (by decide : 2 ≤ 10) val
  have hval := digitsOf_value (by decide : 2 ≤ 10) val
  unfold textOf at hs
  generalize digitsOf 10 val = ds at *
  have hnumber : ∀ s : Scan, s.At (ds.map charOf ++ r) → number wide f true neg 10 s =
      (s.stored (if neg then -BitVec.ofNat 32 val else BitVec.ofNat 32 val) r, true) := by
    intro s hs
    rw [number_digits neg hs hne hds hr hstore hwidth, hval]
  obtain ⟨d, es, hd⟩ : ∃ d es, ds = d :: es := List.exists_cons_of_ne_nil hne
  obtain ⟨hminus, hplus, hlow⟩ := digit_char d (hds d (by simp [hd]))
  unfold signed
  rcases neg with _ | _
  · have hc : s.c = (charOf d).toNat := by
      rw [hs.1, hd]
      rfl
    rw [hc, if_neg hminus, if_neg hplus]
    exact hnumber s hs
  · have hc : s.c = 0x2d := hs.1
    have hinp : s.inp = ds.map charOf ++ r := hs.2
    have hat : s.next.At (ds.map charOf ++ r) := ⟨by rw [← hinp]; rfl, by rw [← hinp]; rfl⟩
    have hnext : s.next.c = (charOf d).toNat := by
      rw [hat.1, hd]
      rfl
    rw [if_pos hc, skip1, hnext, if_neg hlow, hnumber s.next hat]
    rfl

theorem Wide.mono {k m : Nat} (h : Wide wide width m) (hkm : k ≤ m) : Wide wide width k := by
  unfold Wide at *
  omega

theorem textOf_first (neg : Bool) (val : Nat) {c : Byte} {text : List Byte} (h : textOf neg 10 val = c :: text) :
    isspace c = false ∧ ¬ c.toNat < 1 := by
  unfold textOf at h
  rcases neg with _ | _
  · obtain ⟨d, ds, hds⟩ := List.exists_cons_of_ne_nil (digitsOf_ne_nil 10 val)
    have hd : d < 10 := digitsOf_lt (by decide) val d (by simp [hds])
    rw [hds] at h
    obtain ⟨rfl, -⟩ := List.cons.inj h
    have hlow := (digit_char d hd).2.2
    exact ⟨(charOf_digit d (by omega)).2.1, by omega⟩
  · obtain ⟨rfl, -⟩ := List.cons.inj h
    decide

theorem digits_le_text (v : BitVec 32) : (digitsOf 10 (magnitude v)).length ≤ (decimal v).length := by
  simp [decimal, textOf]

/-- The blanks in front of a number. -/
theorem numfmt_text {v : BitVec 32} (hs : s.At (bl ++ (decimal v ++ r))) (hbl : ∀ b ∈ bl, isspace b = true)
    (hr : BlankOrEnd r) (hstore : f.store = true) (hlval : f.lval = true) (letter : Byte)
    (hwidth : Wide wide f.width (decimal v).length) :
    numfmt wide f letter 10 true s = (s.stored v r, true) := by
  obtain ⟨c, text, hc⟩ : ∃ c text, decimal v = c :: text := List.exists_cons_of_ne_nil (textOf_ne_nil _ _ _)
  have hfirst := textOf_first v.msb (magnitude v) hc
  have hskip := skipFrom_blanks (r := text ++ r) hbl hfirst.1 hfirst.2
  rw [← List.cons_append, ← hc, ← hs.1, ← hs.2] at hskip
  have hdigits : Wide wide f.width (digitsOf 10 (magnitude v)).length := hwidth.mono (digits_le_text v)
  have hat : ({ s with c := (c.toNat : Int), inp := text ++ r } : Scan).At (decimal v ++ r) := by
    rw [hc]
    exact ⟨rfl, rfl⟩
  have hsigned := signed_text v.msb hat hr hstore hdigits
  rw [of_magnitude] at hsigned
  simp only [numfmt, Scan.skip, hskip, hlval, Bool.true_or, hsigned]
  rfl

theorem wide_of_room {len : Nat} (h : RoomFor wide w len) (hlen : len ≤ 33) :
    Wide wide (longFlags wide w).width len := by
  obtain ⟨-, rfl | ⟨hle, hlt⟩⟩ := h
  · exact Or.inl ⟨by simp [longFlags], by simp [longFlags]; omega⟩
  · unfold longFlags
    dsimp only
    split_ifs with hw
    · exact Or.inl ⟨by decide, by omega⟩
    · exact Or.inr ⟨by omega, by exact_mod_cast hlt⟩

theorem decimal_length (v : BitVec 32) : (decimal v).length ≤ 33 := by
  have hle : magnitude v ≤ 2 ^ 31 := magnitude_le v
  exact textOf_length _ (by decide) (by omega)

/-- `%ld`, with or without a width. -/
def longDirective (w : List Byte) : List Byte := 0x25 :: (w ++ [0x6c, 0x64])

theorem directive_long {v : BitVec 32} (strings : Strings) (fmt : List Byte) (hs : s.At (bl ++ (decimal v ++ r)))
    (hbl : ∀ b ∈ bl, isspace b = true) (hr : BlankOrEnd r) (hw : RoomFor wide w (decimal v).length) :
    directive wide strings 0x25 (w ++ 0x6c :: 0x64 :: fmt) s = (s.stored v r, fmt, true) := by
  have hflags := @flags_long wide w ((decimal v).length : Int) (by simpa using hw) fmt
  have hnum : numfmt wide (longFlags wide w) 0x64 10 true s = (s.stored v r, true) :=
    numfmt_text hs hbl hr rfl rfl 0x64 (wide_of_room hw (decimal_length v))
  have hletter : lower 0x64 = 0x64 := rfl
  rw [directive, if_pos rfl, hflags]
  simp only [hletter, hnum]
  rfl

/-! ## A whole format -/

/-- A number in the input, with the blanks in front of it, and the width of its conversion. -/
structure Item where
  blanks : List Byte
  value : BitVec 32
  width : List Byte

def formatOf (items : List Item) : List Byte := items.flatMap fun t => longDirective t.width

def inputOf (items : List Item) (rest : List Byte) : List Byte :=
  items.flatMap (fun t => t.blanks ++ decimal t.value) ++ rest

def storesOf (items : List Item) (arg : Nat) : List Store :=
  (items.zipIdx arg).map fun t => Store.long t.2 t.1.value

/-- Blanks separate the numbers, and each width has room for its number. -/
def Separated (wide : Bool) (items : List Item) : Prop :=
  (∀ t ∈ items, (∀ b ∈ t.blanks, isspace b = true) ∧ RoomFor wide t.width (decimal t.value).length) ∧
    ∀ t ∈ items.tail, t.blanks ≠ []

theorem blankOrEnd_inputOf {t : Item} {items : List Item} (h : Separated wide (t :: items)) (hr : BlankOrEnd r) :
    BlankOrEnd (inputOf items r) := by
  rcases items with _ | ⟨u, items⟩
  · exact hr
  · have hne := h.2 u (by simp)
    have hblank := (h.1 u (by simp)).1
    obtain ⟨b, bl, hb⟩ := List.exists_cons_of_ne_nil hne
    intro c hc
    rw [inputOf, List.flatMap_cons, hb] at hc
    rw [← Option.mem_some_iff.1 hc] at *
    exact hblank b (by simp [hb])

theorem Separated.tail {t : Item} {items : List Item} (h : Separated wide (t :: items)) : Separated wide items :=
  ⟨fun u hu => h.1 u (by simp [hu]), fun u hu => h.2 u (List.mem_of_mem_tail hu)⟩

theorem lookahead_pos {v : BitVec 32} (hs : s.At (bl ++ (decimal v ++ r))) (hbl : ∀ b ∈ bl, isspace b = true) :
    s.c > 0 := by
  rcases bl with _ | ⟨b, bl⟩
  · obtain ⟨c, text, hc⟩ := List.exists_cons_of_ne_nil (textOf_ne_nil v.msb 10 (magnitude v))
    have hfirst := (textOf_first v.msb (magnitude v) hc).2
    have hsc : s.c = c.toNat := by
      rw [hs.1, decimal, hc]
      rfl
    omega
  · have hb := isspace_pos b (hbl b (by simp))
    have hsc : s.c = b.toNat := hs.1
    omega

/-- Every conversion of the format stores its number. -/
theorem scanLoop_items (strings : Strings) (items : List Item) (h : Separated wide items) (hr : BlankOrEnd r)
    (fuel : Nat) (hfuel : items.length ≤ fuel) (s : Scan) (hs : s.At (inputOf items r)) :
    scanLoop wide strings fuel (formatOf items) s =
      { c := (fgetc r).1, inp := (fgetc r).2, cnt := s.cnt + items.length, arg := s.arg + items.length,
        stores := s.stores ++ storesOf items s.arg } := by
  induction items generalizing fuel s with
  | nil =>
    have hsame : s = { s with c := (fgetc r).1, inp := (fgetc r).2 } := by
      rcases s with ⟨c, inp, _, _, _⟩
      obtain ⟨hc, hinp⟩ := hs
      simp only [inputOf, List.flatMap_nil, List.nil_append] at hc hinp
      rw [hc, hinp]
    rcases fuel with _ | fuel <;> simpa [scanLoop, formatOf, storesOf] using hsame
  | cons t items ih =>
    obtain ⟨m, rfl⟩ : ∃ m, fuel = m + 1 := ⟨fuel - 1, by simp at hfuel; omega⟩
    obtain ⟨hbl, hw⟩ := h.1 t (by simp)
    have hin : inputOf (t :: items) r = t.blanks ++ (decimal t.value ++ inputOf items r) := by
      simp [inputOf]
    have hfmt : formatOf (t :: items) = 0x25 :: (t.width ++ 0x6c :: 0x64 :: formatOf items) := by
      simp [formatOf, longDirective]
    rw [hin] at hs
    have hdir := directive_long strings (formatOf items) hs hbl (blankOrEnd_inputOf h hr) hw
    have hrest := ih h.tail m (by simpa using hfuel) (s.stored t.value (inputOf items r)) ⟨rfl, rfl⟩
    rw [hfmt, scanLoop]
    simp only [if_pos (lookahead_pos hs hbl), hdir, if_true, hrest]
    simp only [Scan.stored, storesOf, List.zipIdx_cons, List.map_cons, List.length_cons, List.append_assoc,
      List.cons_append, List.nil_append, Nat.add_assoc, Nat.add_comm 1]

theorem items_le_format (items : List Item) : items.length ≤ (formatOf items).length := by
  induction items with
  | nil => simp
  | cons t items ih =>
    simp only [formatOf, List.flatMap_cons, List.length_append, longDirective, List.length_cons] at *
    omega

/-- The whole call: all numbers are stored, and what follows the last one is left in the stream. -/
theorem vfscanf_items (strings : Strings) (items : List Item) (h : Separated wide items) (hr : BlankOrEnd r) :
    vfscanf wide strings (inputOf items r) (formatOf items) =
      { ret := items.length, stores := storesOf items 0, rest := r } := by
  unfold vfscanf
  split_ifs with hempty
  · have hnone : items = [] := by
      rcases items with _ | ⟨t, items⟩
      · rfl
      · simp [formatOf, longDirective] at hempty
    subst hnone
    rfl
  · have hpos : items.length ≠ 0 := by
      intro hz
      rw [List.length_eq_zero_iff.1 hz] at hempty
      exact hempty rfl
    have hrun := scanLoop_items strings items h hr (formatOf items).length (items_le_format items)
      { c := (fgetc (inputOf items r)).1, inp := (fgetc (inputOf items r)).2, cnt := 0, arg := 0, stores := [] }
      ⟨rfl, rfl⟩
    simp only [hrun, Nat.zero_add, List.nil_append, Scanned.mk.injEq]
    refine ⟨by simp [hpos], trivial, ?_⟩
    rcases r with _ | ⟨b, r⟩
    · rfl
    · have hb : ((b.toNat : Int)) ≠ EOF := by
        unfold EOF
        omega
      simp [fgetc, hb, ungetc]

/-- Texts of numbers come back as the numbers, from `strtol` in every radix and from `%ld` of `vfscanf` between
blanks. -/
theorem numbers_round_trip (wide : Bool) :
    (∀ (v : BitVec 32) (radix : Int), 2 ≤ radix → radix ≤ 36 →
      ∃ text, ltoa v radix = some text ∧ text.length ≤ 33 ∧ (strtol text false radix).value = v) ∧
    (∀ v : BitVec 32, vfprintf wide longFormat [.long v] = some (decimal v, ((decimal v).length : Int))) ∧
    ∀ (strings : Strings) (items : List Item) (rest : List Byte), Separated wide items → BlankOrEnd rest →
      vfscanf wide strings (inputOf items rest) (formatOf items) =
        { ret := items.length, stores := storesOf items 0, rest } := by
  refine ⟨?_, fun v => vfprintf_long wide v (ltoa_decimal v), fun strings items rest h hr =>
    vfscanf_items strings items h hr⟩
  intro v radix hlo hhi
  obtain ⟨b, rfl⟩ : ∃ b : Nat, radix = b := ⟨radix.toNat, by omega⟩
  have hle : magnitude v ≤ 2 ^ 31 := magnitude_le v
  refine ⟨textOf v.msb b (magnitude v), ltoa_text v (by omega) (by omega),
    textOf_length _ (by omega) (by omega), ?_⟩
  rw [strtol, do_conv_text v.msb false (by omega) (by omega) (by omega)]
  exact of_magnitude v

theorem minus_seven_round_trip :
    (∃ text, ltoa (-7) 2 = some text ∧ text.length ≤ 33 ∧ (strtol text false 2).value = -7) ∧
      vfscanf false (fun _ _ fmt s => (s, fmt, false)) (inputOf [⟨[0x20], -7, [0x34, 0x30]⟩] [0x0a])
        (formatOf [⟨[0x20], -7, [0x34, 0x30]⟩]) =
          { ret := 1, stores := [.long 0 (-7)], rest := [0x0a] } := by
  refine ⟨(numbers_round_trip false).1 (-7) 2 (by decide) (by decide),
    (numbers_round_trip false).2.2 _ _ [0x0a] ⟨?_, by simp⟩ (by simp [BlankOrEnd]; decide)⟩
  intro t ht
  obtain rfl := List.mem_singleton.1 ht
  have hlen := decimal_length (-7)
  refine ⟨by decide, by decide, Or.inr ⟨?_, by decide⟩⟩
  exact hlen.trans (by decide)

end Fuzemsys.Libs.Scanf
