import Fuzemsys.Cpp.HashLine

/-!
# Markers

The reader of the compiler on a marker that `hash_line` writes: its number, its name, and all of it.
-/

namespace Fuzemsys.Cpp

open Fcc

variable {h : Host} {front : Frontend h} {c : Byte} {r rest name filename : List Byte} {p n : Nat}

/-! ## The number -/

/-- The buffer holds the part of the name since the last slash, unless that is magic. -/
structure Named (p : Nat) (filename base : List Byte) : Prop where
  length : filename.length = 33
  le : p ≤ 32
  skipped : base.head? = some 0x3c → p = 32
  taken : base.head? ≠ some 0x3c → p = min base.length 32 ∧ filename.take p = base.take 32

theorem Named.nil (hlength : filename.length = 33) : Named 0 filename [] where
  length := hlength
  le := by simp
  skipped := nofun
  taken _ := by simp

theorem Named.cstring {base : List Byte} (hnamed : Named p filename base) (hmagic : base.head? ≠ some 0x3c)
    (hbase : ∀ c ∈ base, c ≠ 0) : cstring (filename.set p 0) = base.take 32 := by
  obtain ⟨-, htake⟩ := hnamed.taken hmagic
  have hle := hnamed.le
  have hlength := hnamed.length
  rw [Fcc.cstring, List.set_eq_take_append_cons_drop, if_pos (by omega), htake]
  rw [List.takeWhile_append_of_pos]
  · simp
  · intro c hc
    simpa using hbase c (List.mem_of_mem_take hc)

/-! ## The whole marker -/

end Fuzemsys.Cpp
