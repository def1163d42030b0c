import Fuzemsys.Cpp.IfLong
import Fuzemsys.Cpp.IfReads

/-!
# Which expressions behind `#if` are evaluated right

A rule for each way through the evaluation, then the expressions by their structure.
-/

namespace Fuzemsys.Cpp

open Filter
open Fuzemsys.Libs.Strtol (Byte isDigitBelow)

section
attribute [local simp] signs definedValue get_exp_value primary get_expression expLoop Exp.items Exp.level Exp.bits Exp.Right
  Exp.Grammatical
end

variable {M : Macros} {signedChar : Bool} {s s₁ s' : Pre} {src src' : Source} {t : Tok} {v v' : BitVec 32}
  {out : BitVec 32 × Pre} {sign sign' : Bool} {p : Nat} {o : Op} {errors : List String}

/-! ## The rules -/

def Signs (M : Macros) (sign : Bool) (s : Pre) (out : Bool × Pre) : Prop :=
  ∀ᶠ fuel in atTop, signs M fuel sign s = some out

def Primary (M : Macros) (signedChar : Bool) (s : Pre) (out : BitVec 32 × Pre) : Prop :=
  ∀ᶠ fuel in atTop, primary M signedChar fuel s = some out

def Value (M : Macros) (signedChar : Bool) (s : Pre) (out : BitVec 32 × Pre) : Prop :=
  ∀ᶠ fuel in atTop, get_exp_value M signedChar fuel s = some out

def Loop (M : Macros) (signedChar : Bool) (p : Nat) (v : BitVec 32) (s : Pre) (out : BitVec 32 × Pre) : Prop :=
  ∀ᶠ fuel in atTop, expLoop M signedChar fuel p v s = some out

def Expression (M : Macros) (signedChar : Bool) (p : Nat) (s : Pre) (out : BitVec 32 × Pre) : Prop :=
  ∀ᶠ fuel in atTop, get_expression M signedChar fuel p s = some out

/-- The state with the next token. -/
def Pre.to (s : Pre) (t : Tok) (src : Source) : Pre := { s with source := src, curtok := t }

theorem get_of (h : Gets M true s.source t src) : ∀ᶠ fuel in atTop, s.get M fuel = some (s.to t src) := by
  filter_upwards [h] with fuel h
  rw [Pre.get, h]
  rfl

theorem signs_stop (h1 : s.curtok ≠ .op .PLUS) (h2 : s.curtok ≠ .op .MINUS) : Signs M sign s (sign, s) := by
  apply eventually_succ
  refine Eventually.of_forall fun fuel => ?_
  rw [signs, if_neg h1, if_neg h2]

theorem value_signs (h1 : s.curtok ≠ .BANG) (h2 : s.curtok ≠ .TILDE) (hs : Signs M false s (sign, s₁))
    (h : Primary M signedChar s₁ (v, s')) : Value M signedChar s (if sign then -v else v, s') := by
  apply eventually_succ
  filter_upwards [hs, h] with fuel hs h
  rw [get_exp_value, if_neg h1, if_neg h2, hs, Option.bind_some]
  dsimp only
  rw [h]
  rfl

theorem primary_num {text} (hcur : s.curtok = .TK_NUM text) (hg : Gets M true s.source t src) :
    Primary M signedChar s (strtoul text, s.to t src) := by
  apply eventually_succ
  filter_upwards [get_of hg] with fuel hg
  rw [primary, hcur]
  dsimp only
  rw [hg]
  rfl

theorem expression_of (hg : Gets M true s.source t src) (hv : Value M signedChar (s.to t src) (v, s₁))
    (hl : Loop M signedChar p v s₁ out) : Expression M signedChar p s out := by
  apply eventually_succ
  filter_upwards [get_of hg, hv, hl] with fuel hg hv hl
  rw [get_expression, hg, Option.bind_some, hv, Option.bind_some]
  exact hl

/-- The token is no operator that goes on. -/
def Stops (p : Nat) (t : Tok) : Prop := ∀ o, t = .op o → o.prio ≤ p

theorem loop_stop (h : Stops p s.curtok) : Loop M signedChar p v s (v, s) := by
  apply eventually_succ
  refine Eventually.of_forall fun fuel => ?_
  rw [expLoop]
  split
  · rename_i o hcur
    rw [if_pos (h o hcur)]
  · rfl

theorem prio_pos (o : Op) : 0 < o.prio := by
  rcases o <;> decide

theorem loop_more (hcur : s.curtok = .op o) (h : Expression M signedChar o.prio s (v', s₁))
    (hl : Loop M signedChar 0 (o.apply v v') s₁ out) : Loop M signedChar 0 v s out := by
  apply eventually_succ
  filter_upwards [h, hl] with fuel h hl
  rw [expLoop, hcur]
  dsimp only
  rw [if_neg (Nat.not_le.2 (prio_pos o)), h, Option.bind_some]
  exact hl

/-- How an expression is read behind signs, as a value, as the operand of an operator, and from the outermost
level. A token follows it. -/
structure Evaluates (M : Macros) (signedChar : Bool) (e : Exp) : Prop where
  signed : e.level = 11 → e.startsNot = false → ∀ (sign : Bool) (s : Pre) (t : Tok) (src' : Source),
    Yields M s.source (e.items ++ [.tok t]) src' →
      ∃ t₀ src₀ sign' s₁ v, Gets M true s.source t₀ src₀ ∧ (t₀ ≠ .BANG ∧ t₀ ≠ .TILDE) ∧
        Signs M sign (s.to t₀ src₀) (sign', s₁) ∧ Primary M signedChar s₁ (v, s.to t src') ∧
        (if sign' then -v else v) = if sign then -e.bits M signedChar else e.bits M signedChar
  value : e.level = 11 → ∀ (s : Pre) (t : Tok) (src' : Source), Yields M s.source (e.items ++ [.tok t]) src' →
    ∃ t₀ src₀, Gets M true s.source t₀ src₀ ∧
      Value M signedChar (s.to t₀ src₀) (e.bits M signedChar, s.to t src')
  operand : ∀ p, p ≠ 0 → p < e.level → e.Single → ∀ (s : Pre) (t : Tok) (src' : Source), Stops p t →
    Yields M s.source (e.items ++ [.tok t]) src' → Expression M signedChar p s (e.bits M signedChar, s.to t src')
  whole : ∀ (s : Pre) (t : Tok) (src' : Source) (out : BitVec 32 × Pre), Stops e.level t →
    Yields M s.source (e.items ++ [.tok t]) src' → Loop M signedChar 0 (e.bits M signedChar) (s.to t src') out →
      Expression M signedChar 0 s out

/-- A value is read the same as an operand and from the outermost level. -/
theorem Evaluates.of_value {e : Exp}
    (hsigned : e.startsNot = false → ∀ (sign : Bool) (s : Pre) (t : Tok) (src' : Source),
      Yields M s.source (e.items ++ [.tok t]) src' →
        ∃ t₀ src₀ sign' s₁ v, Gets M true s.source t₀ src₀ ∧ (t₀ ≠ .BANG ∧ t₀ ≠ .TILDE) ∧
          Signs M sign (s.to t₀ src₀) (sign', s₁) ∧ Primary M signedChar s₁ (v, s.to t src') ∧
          (if sign' then -v else v) = if sign then -e.bits M signedChar else e.bits M signedChar)
    (hvalue : ∀ (s : Pre) (t : Tok) (src' : Source), Yields M s.source (e.items ++ [.tok t]) src' →
      ∃ t₀ src₀, Gets M true s.source t₀ src₀ ∧
        Value M signedChar (s.to t₀ src₀) (e.bits M signedChar, s.to t src')) : Evaluates M signedChar e := by
  refine ⟨fun _ => hsigned, fun _ => hvalue, ?_, ?_⟩
  · intro p hp hlt hsingle s t src' hstop hy
    obtain ⟨t₀, src₀, hg, hv⟩ := hvalue s t src' hy
    exact expression_of hg hv (loop_stop hstop)
  · intro s t src' out hstop hy hl
    obtain ⟨t₀, src₀, hg, hv⟩ := hvalue s t src' hy
    exact expression_of hg hv hl

def decimal (d : Byte) : IntConst := ⟨.decimal, [d], []⟩

theorem number_value {d : List Byte} (h : Gets M true src t src') :
    Value M signedChar (s.to (.TK_NUM d) src) (strtoul d, s.to t src') :=
  value_signs (s := s.to (.TK_NUM d) src) nofun nofun (signs_stop nofun nofun) (primary_num rfl h)

end Fuzemsys.Cpp
