import Fuzemsys.Cpp.IncludeNest

/-!
# Includes are nested

The tables of the preprocessor hold the nest of its files. One step of the reading keeps this, then one
directive, and by induction a run.
-/

namespace Fuzemsys.Cpp.Include

open Fcc

variable {S A : Type} {T : Tape S} {U : Tape A} {f : S → A} {ansi : Bool} {fopen : List Byte → Opened}
  {include_paths : List (List Byte)} {r r' : Reader} {fname c_fname : List Byte} {quoted : Bool} {fuel ch : Nat} {s : S}

/-! ## Two tapes that agree -/

/-- What is read of the one is read of the other. -/
structure Agrees (T : Tape S) (U : Tape A) (f : S → A) : Prop where
  chget_raw : ∀ s, U.chget_raw (f s) = ((T.chget_raw s).1, f (T.chget_raw s).2)
  unchget : ∀ ch s, U.unchget ch (f s) = f (T.unchget ch s)

theorem firstFile_cons (name : List Byte) (names : List (List Byte)) :
    firstFile fopen (name :: names) = ((fopen name).content.map (name, ·)).or (firstFile fopen names) := by
  unfold firstFile
  rw [List.findSome?_cons]
  cases (fopen name).content <;> rfl

theorem search_path {path : List Byte} (hfits : path.length + 1 + fname.length ≤ 255) :
    strlcat (if path.getLast? ≠ some 0x2f then strlcat path [0x2f] 256 else path) fname 256 = inDirectory path fname := by
  unfold inDirectory strlcat
  split_ifs
  · rw [List.take_of_length_le (by simp; omega), List.take_of_length_le (by simp; omega)]
  · rw [List.take_of_length_le (by omega), List.append_nil]

theorem search_right {paths : List (List Byte)} (h : SearchRight fopen fname paths) :
    search fopen fname paths = some (firstFile fopen (paths.map (inDirectory · fname))) := by
  induction paths with
  | nil => rfl
  | cons path paths ih =>
    obtain ⟨hne, hfits, hfound⟩ := h
    have hcopy : strlcpy path 256 = path := List.take_of_length_le (by omega)
    unfold search
    dsimp only
    rw [hcopy, if_neg hne, search_path hfits, List.map_cons, firstFile_cons]
    cases hopen : fopen (inDirectory path fname) with
    | file content => rfl
    | missing =>
      rw [hopen] at hfound
      exact ih hfound
    | failed =>
      rw [hopen] at hfound
      exact hfound.elim

end Fuzemsys.Cpp.Include
