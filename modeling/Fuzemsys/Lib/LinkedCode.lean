import Mathlib.Data.BitVec
import Mathlib.Logic.Relation

/-!
# Linked code and its runs

Code is a list of instructions and labels. An image says where the linker put it. Runs of the
image follow the list, and jumps go behind the labels.
-/

namespace Fuzemsys.Lib

/-- A line of assembly. `Line` is what runs through to the next one. -/
inductive Item (Label Line Cond : Type) where
  | label (l : Label)
  | line (i : Line)
  | branch (p : Cond) (l : Label)
  | call (l : Label)
  | jump
  | ret

/-- A processor without its program counter. -/
structure Processor (Word Line Cond σ : Type) where
  exec : Line → σ → σ
  holds : Cond → σ → Bool
  /-- Leave a return address. -/
  push : Word → σ → σ
  /-- Where an indirect jump goes. -/
  target : σ → Word
  pull : σ → Word × σ

/-- Linked code: what is at an address, with the address behind it. -/
structure Image (Word Label Line Cond : Type) where
  fetch : Word → Option (Item Label Line Cond × Word)
  label : Label → Word

structure Config (Word σ : Type) where
  pc : Word
  state : σ

variable {Word Label Line Cond σ : Type}

namespace Image

/-- The code lies at the address, one item behind the other. -/
def Holds (im : Image Word Label Line Cond) : Word → List (Item Label Line Cond) → Prop
  | _, [] => True
  | a, .label l :: code => im.label l = a ∧ im.Holds a code
  | a, i :: code => ∃ a', im.fetch a = some (i, a') ∧ im.Holds a' code

/-- What is behind a label. -/
def behind [DecidableEq Label] (l : Label) : List (Item Label Line Cond) → List (Item Label Line Cond)
  | [] => []
  | .label l' :: code => if l' = l then code else behind l code
  | _ :: code => behind l code

def Defines [DecidableEq Label] (l : Label) (code : List (Item Label Line Cond)) : Bool :=
  code.any fun
    | .label l' => l' = l
    | _ => false

variable {im : Image Word Label Line Cond} {code : List (Item Label Line Cond)} {a : Word} {l : Label}

theorem holds_append {code' : List (Item Label Line Cond)} (hcode : im.Holds a (code ++ code')) :
    ∃ b, im.Holds b code' := by
  induction code generalizing a with
  | nil => exact ⟨a, hcode⟩
  | cons i code ih =>
    cases i with
    | label l => exact ih hcode.2
    | _ =>
      obtain ⟨a', -, hrest⟩ := hcode
      exact ih hrest

theorem holds_prefix {code' : List (Item Label Line Cond)} (hcode : im.Holds a (code ++ code')) : im.Holds a code := by
  induction code generalizing a with
  | nil => trivial
  | cons i code ih =>
    cases i with
    | label l => exact ⟨hcode.1, ih hcode.2⟩
    | _ =>
      obtain ⟨a', hfetch, hrest⟩ := hcode
      exact ⟨a', hfetch, ih hrest⟩

theorem holds_behind [DecidableEq Label] (hcode : im.Holds a code) (hl : Defines l code = true) :
    im.Holds (im.label l) (behind l code) := by
  induction code generalizing a with
  | nil => simp [Defines] at hl
  | cons i code ih =>
    cases i with
    | label l' =>
      obtain ⟨hlabel, hrest⟩ := hcode
      unfold behind
      split
      · next heq =>
        rw [← heq, hlabel]
        exact hrest
      · next hne => exact ih hrest (by simpa [Defines, hne] using hl)
    | _ =>
      obtain ⟨a', -, hrest⟩ := hcode
      exact ih hrest (by simpa [Defines] using hl)

end Image

/-! ## A linker

Every instruction takes one address. -/

section
variable {n : Nat}

def Item.isLabel : Item Label Line Cond → Bool
  | .label _ => true
  | _ => false

/-- How many addresses code takes. -/
def Image.size (code : List (Item Label Line Cond)) : Nat := (code.filter fun i => !i.isLabel).length

/-- What is before a label. -/
def Image.before [DecidableEq Label] (l : Label) : List (Item Label Line Cond) → List (Item Label Line Cond)
  | [] => []
  | .label l' :: code => if l' = l then [] else .label l' :: before l code
  | i :: code => i :: before l code

def Image.link (n : Nat) [DecidableEq Label] (code : List (Item Label Line Cond)) : Image (BitVec n) Label Line Cond where
  fetch a := ((code.filter fun i => !i.isLabel)[a.toNat]?).map fun i => (i, a + 1)
  label l := BitVec.ofNat n (size (before l code))

end

namespace Image

variable {n : Nat} [DecidableEq Label] {code front rest : List (Item Label Line Cond)} {l : Label}

/-- The labels that code defines. -/
def labels (code : List (Item Label Line Cond)) : List Label :=
  code.filterMap fun
    | .label l => some l
    | _ => none

theorem before_append (hl : l ∉ labels front) : before l (front ++ .label l :: rest) = front := by
  induction front with
  | nil => simp [before]
  | cons i front ih =>
    cases i with
    | label l' =>
      have hne : l' ≠ l := fun heq => hl (by simp [labels, heq])
      have hrest : l ∉ labels front := fun hmem => hl (List.mem_cons_of_mem _ hmem)
      rw [List.cons_append, before, if_neg hne, ih hrest]
    | _ => exact congrArg _ (ih hl)

omit [DecidableEq Label] in
theorem size_append (code code' : List (Item Label Line Cond)) : size (code ++ code') = size code + size code' := by
  unfold size
  rw [List.filter_append, List.length_append]

theorem fetch_link {i : Item Label Line Cond} (hsize : size (front ++ i :: rest) < 2 ^ n) (hi : i.isLabel = false) :
    (link n (front ++ i :: rest)).fetch (BitVec.ofNat n (size front)) = some (i, BitVec.ofNat n (size (front ++ [i]))) := by
  have hlt : size front < 2 ^ n := Nat.lt_of_le_of_lt (by rw [size_append]; exact Nat.le_add_right _ _) hsize
  have hone : size [i] = 1 := by simp [size, hi]
  have hat : ((front ++ i :: rest).filter fun i => !i.isLabel)[size front]? = some i := by
    rw [List.filter_append, size, List.getElem?_append_right (Nat.le_refl _), Nat.sub_self,
      List.filter_cons_of_pos (by rw [hi]; rfl)]
    rfl
  show (((front ++ i :: rest).filter fun i => !i.isLabel)[(BitVec.ofNat n (size front)).toNat]?).map
    (fun i => (i, BitVec.ofNat n (size front) + 1)) = _
  rw [BitVec.toNat_ofNat, Nat.mod_eq_of_lt hlt, hat, size_append, hone, BitVec.ofNat_add]
  rfl

theorem label_link (hl : l ∉ labels front) :
    (link n (front ++ .label l :: rest)).label l = BitVec.ofNat n (size front) := by
  show BitVec.ofNat n (size (before l (front ++ .label l :: rest))) = _
  rw [before_append hl]

theorem holds_link_append (hsize : size (front ++ rest) < 2 ^ n) (hlabels : (labels (front ++ rest)).Nodup) :
    (link n (front ++ rest)).Holds (BitVec.ofNat n (size front)) rest := by
  induction rest generalizing front with
  | nil => trivial
  | cons i rest ih =>
    have hcons : front ++ i :: rest = front ++ [i] ++ rest := by rw [List.append_assoc, List.singleton_append]
    have hnext := @ih (front ++ [i]) (by rw [← hcons]; exact hsize) (by rw [← hcons]; exact hlabels)
    rw [← hcons] at hnext
    cases i with
    | label l =>
      have hl : l ∉ labels front := by
        intro hmem
        simp only [labels, List.filterMap_append, List.filterMap_cons, List.nodup_append] at hlabels
        exact hlabels.2.2 l hmem l (by simp) rfl
      refine ⟨label_link hl, ?_⟩
      simpa [size, Item.isLabel] using hnext
    | _ => exact ⟨_, fetch_link hsize rfl, hnext⟩

/-- The linker keeps its word. -/
theorem holds_link (hsize : size code < 2 ^ n) (hlabels : (labels code).Nodup) :
    (link n code).Holds (BitVec.ofNat n 0) code :=
  @holds_link_append _ _ _ n _ [] code hsize hlabels

end Image

namespace Processor

variable (m : Processor Word Line Cond σ) (im : Image Word Label Line Cond)

/-- Nothing happens outside the image. -/
def step (c : Config Word σ) : Option (Config Word σ) :=
  match im.fetch c.pc with
  | none => none
  | some (.label _, next) => some ⟨next, c.state⟩
  | some (.line i, next) => some ⟨next, m.exec i c.state⟩
  | some (.branch p l, next) => some ⟨if m.holds p c.state then im.label l else next, c.state⟩
  | some (.call l, next) => some ⟨im.label l, m.push next c.state⟩
  | some (.jump, _) => some ⟨m.target c.state, c.state⟩
  | some (.ret, _) => some ⟨(m.pull c.state).1, (m.pull c.state).2⟩

def Reaches : Config Word σ → Config Word σ → Prop := Relation.ReflTransGen fun c c' => m.step im c = some c'

/-- The run leaves the image there. -/
def Ends (c c' : Config Word σ) : Prop := m.Reaches im c c' ∧ im.fetch c'.pc = none

variable {m im}

theorem step_outside {c : Config Word σ} (hc : im.fetch c.pc = none) : m.step im c = none := by
  unfold step
  rw [hc]

/-- A run that has left the image comes last. -/
theorem Reaches.to_end {c c₁ c₂ : Config Word σ} (h₁ : m.Reaches im c c₁) (h₂ : m.Ends im c c₂) :
    m.Reaches im c₁ c₂ := by
  induction h₁ using Relation.ReflTransGen.head_induction_on with
  | refl => exact h₂.1
  | head hstep _ ih =>
    obtain ⟨hreach, hend⟩ := h₂
    apply ih
    refine ⟨?_, hend⟩
    cases hreach using Relation.ReflTransGen.head_induction_on with
    | refl =>
      rw [step_outside hend] at hstep
      cases hstep
    | head hstep' hrest =>
      rw [hstep] at hstep'
      cases hstep'
      exact hrest

theorem Ends.unique {c c₁ c₂ : Config Word σ} (h₁ : m.Ends im c c₁) (h₂ : m.Ends im c c₂) : c₁ = c₂ := by
  have hreach := h₁.1.to_end h₂
  cases hreach using Relation.ReflTransGen.head_induction_on with
  | refl => rfl
  | head hstep _ =>
    rw [step_outside h₁.2] at hstep
    cases hstep

/-! ## Runs along the list -/

variable (m im) in
/-- Wherever the code lies, the run goes from it to what is left of it. -/
def Goes (x x' : List (Item Label Line Cond) × σ) : Prop :=
  ∀ a, im.Holds a x.1 → ∃ a', im.Holds a' x'.1 ∧ m.Reaches im ⟨a, x.2⟩ ⟨a', x'.2⟩

variable {code : List (Item Label Line Cond)} {s : σ}

theorem Goes.refl (x : List (Item Label Line Cond) × σ) : m.Goes im x x :=
  fun a ha => ⟨a, ha, Relation.ReflTransGen.refl⟩

theorem Goes.trans {x y z : List (Item Label Line Cond) × σ} (h₁ : m.Goes im x y) (h₂ : m.Goes im y z) : m.Goes im x z := by
  intro a ha
  obtain ⟨b, hb, hab⟩ := h₁ a ha
  obtain ⟨c, hc, hbc⟩ := h₂ b hb
  exact ⟨c, hc, hab.trans hbc⟩

theorem goes_label (l : Label) : m.Goes im (.label l :: code, s) (code, s) :=
  fun a ha => ⟨a, ha.2, Relation.ReflTransGen.refl⟩

theorem goes_line (i : Line) : m.Goes im (.line i :: code, s) (code, m.exec i s) := by
  rintro a ⟨a', hfetch, hrest⟩
  refine ⟨a', hrest, Relation.ReflTransGen.single ?_⟩
  unfold step
  rw [hfetch]

theorem goes_past {p : Cond} {l : Label} (hp : m.holds p s = false) : m.Goes im (.branch p l :: code, s) (code, s) := by
  rintro a ⟨a', hfetch, hrest⟩
  refine ⟨a', hrest, Relation.ReflTransGen.single ?_⟩
  unfold step
  rw [hfetch]
  simp [hp]

/-- To a label of code that lies somewhere. -/
theorem goes_branch [DecidableEq Label] {p : Cond} {l : Label} {b : Word} {file : List (Item Label Line Cond)}
    (hfile : im.Holds b file) (hl : Image.Defines l file = true) (hp : m.holds p s = true) :
    m.Goes im (.branch p l :: code, s) (Image.behind l file, s) := by
  rintro a ⟨a', hfetch, -⟩
  refine ⟨im.label l, Image.holds_behind hfile hl, Relation.ReflTransGen.single ?_⟩
  unfold step
  rw [hfetch]
  simp [hp]

theorem goes_jump {a : Word} (hcode : im.Holds a (.jump :: code)) : m.Reaches im ⟨a, s⟩ ⟨m.target s, s⟩ := by
  obtain ⟨a', hfetch, -⟩ := hcode
  apply Relation.ReflTransGen.single
  unfold step
  rw [hfetch]

theorem goes_ret {a : Word} (hcode : im.Holds a (.ret :: code)) :
    m.Reaches im ⟨a, s⟩ ⟨(m.pull s).1, (m.pull s).2⟩ := by
  obtain ⟨a', hfetch, -⟩ := hcode
  apply Relation.ReflTransGen.single
  unfold step
  rw [hfetch]

/-! ## Walks within a file -/

section
variable [DecidableEq Label] (file : List (Item Label Line Cond))

variable (m) in
/-- Lines and branches, up to a call, an indirect jump or a return. -/
def walk : Nat → List (Item Label Line Cond) × σ → List (Item Label Line Cond) × σ
  | n + 1, (.label _ :: code, s) => walk n (code, s)
  | n + 1, (.line i :: code, s) => walk n (code, m.exec i s)
  | n + 1, (.branch p l :: code, s) => if m.holds p s then walk n (Image.behind l file, s) else walk n (code, s)
  | _, x => x

/-- Branches stay in the file. -/
def Closed (code : List (Item Label Line Cond)) : Bool :=
  code.all fun
    | .branch _ l => Image.Defines l file
    | _ => true

variable {file}

theorem closed_behind {code : List (Item Label Line Cond)} (hcode : Closed file code = true) (l : Label) :
    Closed file (Image.behind l code) = true := by
  induction code with
  | nil => rfl
  | cons i code ih =>
    simp only [Closed, List.all_cons, Bool.and_eq_true] at hcode ih ⊢
    cases i with
    | label l' =>
      unfold Image.behind
      split
      · exact hcode.2
      · exact ih hcode.2
    | _ => exact ih hcode.2

theorem goes_walk {b : Word} (hfile : im.Holds b file) (hclosed : Closed file file = true) (n : Nat)
    {x : List (Item Label Line Cond) × σ} (hx : Closed file x.1 = true) : m.Goes im x (m.walk file n x) := by
  induction n generalizing x with
  | zero => exact Goes.refl x
  | succ n ih =>
    obtain ⟨code, s⟩ := x
    cases code with
    | nil => exact Goes.refl _
    | cons i code =>
      have hrest : Closed file code = true := (List.all_eq_true.mp hx · <| List.mem_cons_of_mem _ ·) |> List.all_eq_true.mpr
      cases i with
      | label l => exact (goes_label l).trans (ih hrest)
      | line i => exact (goes_line i).trans (ih hrest)
      | branch p l =>
        unfold walk
        cases hp : m.holds p s with
        | true =>
          rw [if_pos rfl]
          have hl : Image.Defines l file = true := by simpa [Closed] using (List.all_eq_true.mp hx) _ List.mem_cons_self
          exact (goes_branch hfile hl hp).trans (ih (closed_behind hclosed l))
        | false =>
          rw [if_neg Bool.false_ne_true]
          exact (goes_past hp).trans (ih hrest)
      | call l => exact Goes.refl _
      | jump => exact Goes.refl _
      | ret => exact Goes.refl _

end

/-! ## Routines

What a routine ensures is computed from its code. Calls ensure what their routines do. -/

section
variable (m im)

/-- From wherever the code lies, the run jumps off as in `Q`. -/
def Leaves (x : List (Item Label Line Cond) × σ) (Q : Word → σ → Prop) : Prop :=
  ∀ a, im.Holds a x.1 → ∃ a' s', m.Reaches im ⟨a, x.2⟩ ⟨a', s'⟩ ∧ Q a' s'

/-- A call comes back to the address that it left, and then `Q` holds. -/
def Calls (l : Label) (s : σ) (Q : σ → Prop) : Prop := ∀ a, ∃ s', m.Reaches im ⟨im.label l, m.push a s⟩ ⟨a, s'⟩ ∧ Q s'

variable [DecidableEq Label] (file : List (Item Label Line Cond)) (cut : Label → Option (σ → Prop))

/-- The same from a label of a file. -/
def LeavesAt (l : Label) (s : σ) (Q : Word → σ → Prop) : Prop := m.Leaves im (Image.behind l file, s) Q

/-- What must hold for the run to jump off as in `Q`. It is computed up to the labels that `cut` asserts something of. -/
def wp : Nat → List (Item Label Line Cond) × σ → (Word → σ → Prop) → Prop
  | 0, x, Q => m.Leaves im x Q
  | n + 1, (.label l :: code, s), Q =>
    match cut l with
    | some P => P s
    | none => wp n (code, s) Q
  | n + 1, (.line i :: code, s), Q => wp n (code, m.exec i s) Q
  | n + 1, (.branch p l :: code, s), Q =>
    if m.holds p s then
      match cut l with
      | some P => P s
      | none => wp n (Image.behind l file, s) Q
    else wp n (code, s) Q
  | n + 1, (.call l :: code, s), Q => m.Calls im l s fun s' => wp n (code, s') Q
  | _ + 1, (.jump :: _, s), Q => Q (m.target s) s
  | _ + 1, (.ret :: _, s), Q => Q (m.pull s).1 (m.pull s).2
  | _ + 1, ([], _), _ => False

/-- What is asserted of labels is enough there. -/
def Asserts (Q : Word → σ → Prop) : Prop :=
  ∀ l P, cut l = some P → Image.Defines l file = true ∧ ∀ s, P s → m.LeavesAt im file l s Q

end

section
variable [DecidableEq Label] {file : List (Item Label Line Cond)} {cut : Label → Option (σ → Prop)}
  {x x' : List (Item Label Line Cond) × σ} {Q : Word → σ → Prop} {P P' : σ → Prop} {l : Label}

omit [DecidableEq Label] in
theorem Goes.leaves (hgoes : m.Goes im x x') (h : m.Leaves im x' Q) : m.Leaves im x Q := by
  intro a ha
  obtain ⟨b, hb, hab⟩ := hgoes a ha
  obtain ⟨a', s', hrun, hQ⟩ := h b hb
  exact ⟨a', s', hab.trans hrun, hQ⟩

omit [DecidableEq Label] in
theorem Calls.mono (h : m.Calls im l s P) (hP : ∀ s', P s' → P' s') : m.Calls im l s P' := by
  intro a
  obtain ⟨s', hrun, hs'⟩ := h a
  exact ⟨s', hrun, hP s' hs'⟩

omit [DecidableEq Label] in
theorem leaves_call (h : m.Calls im l s fun s' => m.Leaves im (code, s') Q) : m.Leaves im (.call l :: code, s) Q := by
  rintro a ⟨a', hfetch, hrest⟩
  obtain ⟨s', hrun, hnext⟩ := h a'
  obtain ⟨b, s'', hrun', hQ⟩ := hnext a' hrest
  refine ⟨b, s'', Relation.ReflTransGen.head ?_ (hrun.trans hrun'), hQ⟩
  unfold step
  rw [hfetch]

theorem leaves_label {b : Word} (hfile : im.Holds b file) (hl : Image.Defines l file = true)
    (h : m.LeavesAt im file l s Q) : m.Leaves im (.label l :: code, s) Q := by
  rintro a ⟨hlabel, -⟩
  obtain ⟨a', s', hrun, hQ⟩ := h _ (Image.holds_behind hfile hl)
  rw [hlabel] at hrun
  exact ⟨a', s', hrun, hQ⟩

theorem asserts_none : m.Asserts im file (fun _ => none) Q := fun _ _ hnone => by cases hnone

theorem asserts_one {P : σ → Prop} (hl : Image.Defines l file = true) (h : ∀ s, P s → m.LeavesAt im file l s Q) :
    m.Asserts im file (fun l' => if l' = l then some P else none) Q := by
  intro l' P' hsome
  dsimp only at hsome
  split at hsome
  · next heq =>
    cases heq
    cases hsome
    exact ⟨hl, h⟩
  · cases hsome

theorem leaves_wp {b : Word} (hfile : im.Holds b file) (hclosed : Closed file file = true)
    (hcut : m.Asserts im file cut Q) (n : Nat) (hx : Closed file x.1 = true) (h : m.wp im file cut n x Q) :
    m.Leaves im x Q := by
  induction n generalizing x with
  | zero => exact h
  | succ n ih =>
    obtain ⟨code, s⟩ := x
    cases code with
    | nil => exact absurd h id
    | cons i code =>
      have hrest : Closed file code = true := (List.all_eq_true.mp hx · <| List.mem_cons_of_mem _ ·) |> List.all_eq_true.mpr
      cases i with
      | label l =>
        unfold wp at h
        split at h
        · next hl =>
          obtain ⟨hdefines, hP⟩ := hcut l _ hl
          exact leaves_label hfile hdefines (hP s h)
        · exact (goes_label l).leaves (ih hrest h)
      | line i => exact (goes_line i).leaves (ih hrest h)
      | branch p l =>
        have hl : Image.Defines l file = true := by simpa [Closed] using (List.all_eq_true.mp hx) _ List.mem_cons_self
        unfold wp at h
        split at h
        · next hp =>
          refine (goes_branch hfile hl hp).leaves ?_
          split at h
          · next hsome => exact (hcut l _ hsome).2 s h
          · exact ih (closed_behind hclosed l) h
        · next hp => exact (goes_past (Bool.not_eq_true _ ▸ hp)).leaves (ih hrest h)
      | call l => exact leaves_call (Calls.mono h fun s' hs' => ih hrest hs')
      | jump => exact fun a ha => ⟨_, _, goes_jump ha, h⟩
      | ret => exact fun a ha => ⟨_, _, goes_ret ha, h⟩

/-- A routine that jumps back to the address on its stack. -/
theorem calls_of_leaves {b : Word} (hfile : im.Holds b file) (hl : Image.Defines l file = true)
    (h : ∀ a, m.LeavesAt im file l (m.push a s) fun a' s' => a' = a ∧ P s') : m.Calls im l s P := by
  intro a
  obtain ⟨a', s', hrun, rfl, hP⟩ := h a _ (Image.holds_behind hfile hl)
  exact ⟨s', hrun, hP⟩

theorem calls_of_wp {b : Word} (hfile : im.Holds b file) (hclosed : Closed file file = true)
    (hl : Image.Defines l file = true) (n : Nat)
    (h : ∀ a, m.wp im file (fun _ => none) n (Image.behind l file, m.push a s) fun a' s' => a' = a ∧ P s') :
    m.Calls im l s P :=
  calls_of_leaves hfile hl fun a => leaves_wp hfile hclosed asserts_none n (closed_behind hclosed l) (h a)

end

end Processor

end Fuzemsys.Lib
