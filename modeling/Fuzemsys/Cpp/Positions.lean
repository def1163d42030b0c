import Fuzemsys.Cpp.Markers

/-!
# Positions survive preprocessing

The reader of the compiler on the output of the preprocessor: what it reads of newlines, markers and
text, then of one token, and by induction of all of them.
-/

namespace Fuzemsys.Cpp

open Fcc

/-! ## Reading -/

/-- The characters from `s` to `s'`. After each of them nothing is pushed back, and after a newline a line starts. -/
inductive Reads {h : Host} : Source h → List (Seen h) → Source h → Prop
  | nil {s} : Reads s [] s
  | cons {s s₁ s' c xs} : Fcc.get s = some (c, s₁) → c ≠ 0 → s₁.pushback = [] → (c = 0x0a → s₁.isnl = true) →
      Reads s₁ xs s' → Reads s (seen c s₁ :: xs) s'

variable {h : Host} {s s' s₁ s₂ : Source h} {front : Frontend h} {c last : Byte} {rest text : List Byte}
  {xs ys : List (Seen h)} {again : Nat → Nat}

theorem Reads.trans (hxs : Reads s xs s₁) (hys : Reads s₁ ys s') : Reads s (xs ++ ys) s' := by
  induction hxs with
  | nil => exact hys
  | cons hget hc hpush hnl _ ih => exact .cons hget hc hpush hnl (ih hys)

/-- `last` was read and `rest` follows, at the start of a line behind markers that lead to `front`. -/
structure Before (s : Source h) (front : Frontend h) (last : Byte) (rest : List Byte) : Prop where
  pushback : s.pushback = []
  isnl : s.isnl = decide (last = 0x0a)
  lastbslash : s.lastbslash = decide (last = 0x5c)
  markers : last = 0x0a → skipDirectives s.front s.inp = skipDirectives front rest
  inside : last ≠ 0x0a → s.front = front ∧ s.inp = rest

theorem Source.After.before (hs : s.After last rest) : Before s s.front last rest :=
  ⟨hs.pushback, hs.isnl, hs.lastbslash, fun _ => by rw [hs.inp], fun _ => ⟨rfl, hs.inp⟩⟩

/-- The reader is where the writer takes it to be. -/
structure Linked (w : Writer) (front : Frontend h) (last : Byte) : Prop where
  length : front.filename.length = 33
  line : 0 < w.last_line → front.line = BitVec.ofInt _ w.last_line
  file : 0 < w.last_line → cstring front.filename = (baseName w.last_name).take 32
  start : w.outpos = 0 ↔ last = 0x0a

variable {o : Options} {w : Writer} {t : Out} {ts : List Out}

theorem Placed.blanks {tr : List (Seen h)} (hxs : ∀ x ∈ xs, isBlank x.char = true) (htr : Placed tr ts) : Placed (xs ++ tr) ts := by
  induction xs with
  | nil => exact htr
  | cons x xs ih => exact .blank (hxs x List.mem_cons_self) (ih fun y hy => hxs y (List.mem_cons_of_mem _ hy))

end Fuzemsys.Cpp
