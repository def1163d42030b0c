import Fuzemsys.Fcc.Body

/-!
# Nested switches

Every switch should have one default entry and a table of its own cases. The flag for
a default is not reset at the start of a switch, so that holds exactly where no switch
stands behind a default.
-/

namespace Fuzemsys.Fcc.Body

open Statement (Expr logicExpression)
open Tree (CType CINT IS_INTARITH)

variable {h : Host} {s s1 s2 : Stmt h} {e n : Expr h} {t : CType} {g g' g1 g2 : Statics h} {ev ev1 ev2 : List (Event h)}
  {type : HType} {T : Nat} {d : Bool}

/-! ## The labels of a switch -/

/-- A label of the switch around it. -/
inductive Own (h : Host) where
  | case (value : Option (BitVec h.longBits))
  | default

/-- The labels outside inner switches, in source order. -/
def own : Stmt h → List (Own h)
  | .seq s1 s2 | .ifElse _ s1 s2 => own s1 ++ own s2
  | .ifThen _ s | .while _ s | .doWhile s _ | .for _ _ _ s => own s
  | .case value => [.case value]
  | .default => [.default]
  | _ => []

def Own.value? : Own h → Option (Option (BitVec h.longBits))
  | .case value => some value
  | .default => none

def Own.isDefault : Own h → Bool
  | .case _ => false
  | .default => true

/-- The values of the cases, where they are constants. -/
def cases (o : List (Own h)) : List (Option (BitVec h.longBits)) := o.filterMap Own.value?

def values (o : List (Own h)) : List (BitVec h.longBits) := (cases o).filterMap id

def defaults (o : List (Own h)) : Nat := o.countP Own.isDefault

/-- The defaults of each switch behind its first one. -/
def secondDefaults : Stmt h → Nat
  | .seq s1 s2 | .ifElse _ s1 s2 => secondDefaults s1 + secondDefaults s2
  | .ifThen _ s | .while _ s | .doWhile s _ | .for _ _ _ s => secondDefaults s
  | .switch _ _ s => (defaults (own s) - 1) + secondDefaults s
  | _ => 0

/-! ## What is written for a switch -/

/-- The data of the headers of one type and name. -/
def named (type : HType) (T : Nat) (ev : List (Event h)) : List Nat :=
  ev.filterMap fun
    | .header type' name data => if type' = type ∧ name = T then some data else none
    | _ => none

def diagnosed (ev : List (Event h)) : Nat := ev.count (.error .twoDefaults)

/-- Entry `i` for the `i`th value, counted from 1, and then the default. -/
def switchTable (tag : Nat) (type : CType) (values : List (BitVec h.longBits)) : List (Event h) :=
  .header .H_SWITCHTAB tag values.length ::
    (values.zipIdx.flatMap fun (value, i) => [.constant type value, .caseLabel tag (i + 1)]) ++
    [.caseLabel tag 0, .footer .H_SWITCHTAB tag 0]

/-- The state of the statements around a switch. -/
structure Restored (g g' : Statics h) : Prop where
  breakTag : g'.breakTag = g.breakTag
  contTag : g'.contTag = g.contTag
  switchTag : g'.switchTag = g.switchTag
  switchCount : g'.switchCount = g.switchCount
  switchType : g'.switchType = g.switchType
  switchDefault : g'.switchDefault = g.switchDefault
  table : g'.table = g.table

/-- A switch as it should be. Two defaults, or a case that is not constant, are errors of the program. -/
structure SwitchRight (g : Statics h) (n : Expr h) (t : CType) (s : Stmt h) (ev : List (Event h)) (g' : Statics h) :
    Prop where
  default : defaults (own s) ≤ 1 → named .H_DEFAULT g.nextTag ev = [0]
  table : ∃ front, named .H_SWITCHTAB g.nextTag front = [] ∧
    ev = front ++ switchTable g.nextTag (if IS_INTARITH t then t else CINT) (values (own s))
  entries : none ∉ cases (own s) → named .H_CASE g.nextTag ev = List.range' 1 (values (own s)).length
  restored : Restored g g'

/-- At every switch of a statement. -/
def EachSwitch (P : Statics h → Expr h → CType → Stmt h → List (Event h) → Statics h → Prop) :
    Stmt h → Statics h → Prop
  | .seq s1 s2, g => EachSwitch P s1 g ∧ ∀ ev g', statement s1 g = some (ev, g') → EachSwitch P s2 g'
  | .ifElse _ s1 s2, g => EachSwitch P s1 g.tag ∧ ∀ ev g', statement s1 g.tag = some (ev, g') → EachSwitch P s2 g'
  | .ifThen _ s, g => EachSwitch P s g.tag
  | .while _ s, g | .doWhile s _, g | .for _ _ _ s, g => EachSwitch P s g.enterLoop
  | .switch n t s, g =>
    (∀ ev g', statement (.switch n t s) g = some (ev, g') → P g n t s ev g') ∧ EachSwitch P s (g.enterSwitch t)
  | _, _ => True

def EachSwitchIn (P : Statics h → Expr h → CType → Stmt h → List (Event h) → Statics h → Prop) :
    List (Function h) → Statics h → Prop
  | [], _ => True
  | f :: fs, g => EachSwitch P f.2 g.enterFunction ∧ ∀ ev g', functionBody f g = some (ev, g') → EachSwitchIn P fs g'

/-! ## No switch behind a default -/

/-- The flag behind a statement. -/
def seen (d : Bool) (s : Stmt h) : Bool := d || 0 < defaults (own s)

/-- Where `d` says that there was a default before, no switch stands behind one. -/
def NoneAfterDefault : Bool → Stmt h → Prop
  | d, .seq s1 s2 | d, .ifElse _ s1 s2 => NoneAfterDefault d s1 ∧ NoneAfterDefault (seen d s1) s2
  | d, .ifThen _ s | d, .while _ s | d, .doWhile s _ | d, .for _ _ _ s => NoneAfterDefault d s
  | d, .switch _ _ s => d = false ∧ NoneAfterDefault false s
  | _, _ => True

/-- The first default is free. -/
def free (d : Bool) : Nat := if d then 0 else 1

/-- A default outside of all switches is an error, but only one is reported as that. -/
def DefaultsInOrder : Bool → List (Function h) → Prop
  | _, [] => True
  | d, f :: fs => NoneAfterDefault d f.2 ∧ defaults (own f.2) ≤ free d ∧ DefaultsInOrder (seen d f.2) fs

/-! ## Lists of labels -/

@[simp]
theorem cases_append (o o' : List (Own h)) : cases (o ++ o') = cases o ++ cases o' := List.filterMap_append

@[simp]
theorem values_append (o o' : List (Own h)) : values (o ++ o') = values o ++ values o' := by
  unfold values
  rw [cases_append, List.filterMap_append]

@[simp]
theorem defaults_append (o o' : List (Own h)) : defaults (o ++ o') = defaults o + defaults o' := List.countP_append

@[simp]
theorem named_append (ev ev' : List (Event h)) : named type T (ev ++ ev') = named type T ev ++ named type T ev' :=
  List.filterMap_append

@[simp]
theorem diagnosed_append (ev ev' : List (Event h)) : diagnosed (ev ++ ev') = diagnosed ev + diagnosed ev' :=
  List.count_append

/-! ## Events that are no part of a switch -/

def switchHeaders : List HType := [.H_CASE, .H_DEFAULT, .H_SWITCHTAB]

def Event.silent : Event h → Bool
  | .header type _ _ => type ∉ switchHeaders
  | .error m => m ≠ .twoDefaults
  | _ => true

def Silent (ev : List (Event h)) : Prop := ∀ x ∈ ev, x.silent

theorem Silent.named (hsilent : Silent ev) (htype : type ∈ switchHeaders) : named type T ev = [] := by
  refine List.filterMap_eq_nil_iff.mpr fun x hx => ?_
  cases x with
  | header type' name data =>
    have hne : type' ∉ switchHeaders := of_decide_eq_true (hsilent _ hx)
    refine if_neg ?_
    rintro ⟨rfl, -⟩
    exact hne htype
  | footer | tree | constant | caseLabel | error => rfl

theorem Silent.diagnosed (hsilent : Silent ev) : diagnosed ev = 0 := by
  refine List.count_eq_zero.mpr fun hmem => ?_
  have hne : Message.twoDefaults ≠ .twoDefaults := of_decide_eq_true (hsilent _ hmem)
  exact hne rfl

theorem silent_nil : Silent ([] : List (Event h)) := List.forall_mem_nil _

theorem silent_cons {x : Event h} : Silent (x :: ev) ↔ x.silent ∧ Silent ev := List.forall_mem_cons

theorem silent_append : Silent (ev1 ++ ev2) ↔ Silent ev1 ∧ Silent ev2 := List.forall_mem_append

theorem silent_logicTree : Silent (logicTree e) := by
  unfold logicTree
  simp only
  split_ifs
  · exact silent_cons.mpr ⟨rfl, silent_nil⟩
  · exact silent_nil

theorem silent_errorIf {c : Prop} [Decidable c] {m : Message} (hm : m ≠ .twoDefaults) :
    Silent (errorIf c m : List (Event h)) := by
  unfold errorIf
  split_ifs
  · exact silent_cons.mpr ⟨decide_eq_true hm, silent_nil⟩
  · exact silent_nil

/-! ## Taking a run apart -/

theorem statement_seq (hrun : statement (.seq s1 s2) g = some (ev, g')) :
    ∃ ev1 g1 ev2, statement s1 g = some (ev1, g1) ∧ statement s2 g1 = some (ev2, g') ∧ ev = ev1 ++ ev2 := by
  obtain ⟨⟨ev1, g1⟩, hrun1, hrest⟩ := Option.bind_eq_some_iff.mp hrun
  obtain ⟨⟨ev2, g2⟩, hrun2, hpair⟩ := Option.bind_eq_some_iff.mp hrest
  cases hpair
  exact ⟨ev1, g1, ev2, hrun1, hrun2, rfl⟩

theorem statement_ifElse (hrun : statement (.ifElse e s1 s2) g = some (ev, g')) :
    ∃ front ev1 g1 mid ev2 back, statement s1 g.tag = some (ev1, g1) ∧ statement s2 g1 = some (ev2, g') ∧
      ev = front ++ ev1 ++ mid ++ ev2 ++ back ∧ Silent front ∧ Silent mid ∧ Silent back := by
  obtain ⟨⟨ev1, g1⟩, hrun1, hrest⟩ := Option.bind_eq_some_iff.mp hrun
  obtain ⟨⟨ev2, g2⟩, hrun2, hpair⟩ := Option.bind_eq_some_iff.mp hrest
  cases hpair
  refine ⟨.header .H_IF g.nextTag (truth e) :: logicTree e, ev1, g1, [.header .H_ELSE g.nextTag (truth e)], ev2,
    [.footer .H_IF g.nextTag 1], hrun1, hrun2, ?_, ?_, ?_, ?_⟩
  · simp
  · exact silent_cons.mpr ⟨rfl, silent_logicTree⟩
  · exact silent_cons.mpr ⟨rfl, silent_nil⟩
  · exact silent_cons.mpr ⟨rfl, silent_nil⟩

theorem statement_ifThen (hrun : statement (.ifThen e s) g = some (ev, g')) :
    ∃ front ev1 back, statement s g.tag = some (ev1, g') ∧ ev = front ++ ev1 ++ back ∧ Silent front ∧ Silent back := by
  obtain ⟨⟨ev1, g1⟩, hrun1, hpair⟩ := Option.bind_eq_some_iff.mp hrun
  cases hpair
  refine ⟨_ :: logicTree e, ev1, [_], hrun1, rfl, ?_, ?_⟩
  · exact silent_cons.mpr ⟨rfl, silent_logicTree⟩
  · exact silent_cons.mpr ⟨rfl, silent_nil⟩

/-- The statement that a loop repeats. -/
def loopBody : Stmt h → Option (Stmt h)
  | .while _ s | .doWhile s _ | .for _ _ _ s => some s
  | _ => none

theorem statement_loop {l : Stmt h} (hloop : loopBody l = some s) (hrun : statement l g = some (ev, g')) :
    ∃ front ev1 g1 back, statement s g.enterLoop = some (ev1, g1) ∧ g' = g1.leaveLoop g ∧ ev = front ++ ev1 ++ back ∧
      Silent front ∧ Silent back := by
  cases l with
  | «while» e s =>
    cases hloop
    obtain ⟨⟨ev1, g1⟩, hrun1, hpair⟩ := Option.bind_eq_some_iff.mp hrun
    cases hpair
    refine ⟨_ :: logicTree e, ev1, g1, [_], hrun1, rfl, rfl, ?_, ?_⟩
    · exact silent_cons.mpr ⟨rfl, silent_logicTree⟩
    · exact silent_cons.mpr ⟨rfl, silent_nil⟩
  | doWhile s e =>
    cases hloop
    obtain ⟨⟨ev1, g1⟩, hrun1, hpair⟩ := Option.bind_eq_some_iff.mp hrun
    cases hpair
    refine ⟨[.header .H_DO g.nextTag 0], ev1, g1, .header .H_DOWHILE g1.contTag (truth e) :: logicTree e ++
      [.footer .H_DOWHILE g1.contTag (truth e)], hrun1, rfl, ?_, ?_, ?_⟩
    · simp
    · exact silent_cons.mpr ⟨rfl, silent_nil⟩
    · exact silent_cons.mpr ⟨rfl, silent_append.mpr ⟨silent_logicTree, silent_cons.mpr ⟨rfl, silent_nil⟩⟩⟩
  | «for» e1 e2 e3 s =>
    cases hloop
    obtain ⟨⟨ev1, g1⟩, hrun1, hpair⟩ := Option.bind_eq_some_iff.mp hrun
    cases hpair
    refine ⟨[_, _, _, _], ev1, g1, [_], hrun1, rfl, rfl, ?_, ?_⟩
    · simp only [silent_cons, silent_nil, and_true]
      exact ⟨rfl, rfl, rfl, rfl⟩
    · exact silent_cons.mpr ⟨rfl, silent_nil⟩
  | _ => cases hloop

theorem statement_switch (hrun : statement (.switch n t s) g = some (ev, g')) :
    ∃ front ev1 g1, statement s (g.enterSwitch t) = some (ev1, g1) ∧ g' = g1.leaveSwitch g g.table.length ∧
      ev = front ++ ev1 ++ endSwitch g1 g.table.length ∧ Silent front := by
  obtain ⟨⟨ev1, g1⟩, hrun1, hpair⟩ := Option.bind_eq_some_iff.mp hrun
  cases hpair
  refine ⟨_ :: _ :: errorIf _ _, ev1, g1, hrun1, rfl, rfl, ?_⟩
  simp only [silent_cons]
  exact ⟨rfl, rfl, silent_errorIf (by decide)⟩

theorem statement_case {value : Option (BitVec h.longBits)} (hrun : statement (.case value) g = some (ev, g')) :
    g' = { g with switchCount := g.switchCount + 1, table := g.table ++ value.toList } ∧
      ∃ front, ev = front ++ [.header .H_CASE g.switchTag (g.switchCount + 1)] ∧ Silent front := by
  have hsilent : Silent (errorIf (g.switchTag = 0) .caseOutside ++ errorIf (value = none) .notconst : List (Event h)) :=
    silent_append.mpr ⟨silent_errorIf (by decide), silent_errorIf (by decide)⟩
  unfold statement caseStatement at hrun
  cases value with
  | none =>
    cases hrun
    refine ⟨?_, _, rfl, hsilent⟩
    rw [Option.toList_none, List.append_nil]
  | some value =>
    obtain ⟨g1, hnode, hpair⟩ := Option.bind_eq_some_iff.mp hrun
    unfold switchAddNode at hnode
    split_ifs at hnode
    cases hnode
    cases hpair
    exact ⟨rfl, _, rfl, hsilent⟩

/-- The other statements. -/
def plain : Stmt h → Bool
  | .empty | .expr _ | .label _ | .return _ | .break | .continue | .goto _ => true
  | _ => false

theorem statement_plain (hplain : plain s = true) (hrun : statement s g = some (ev, g')) : g' = g ∧ Silent ev := by
  cases s with
  | empty | expr | label | «return» | goto =>
    cases hrun
    refine ⟨rfl, ?_⟩
    simp [Silent, Event.silent, switchHeaders]
  | «break» | «continue» =>
    cases hrun
    refine ⟨rfl, silent_append.mpr ⟨silent_errorIf (by decide), silent_cons.mpr ⟨rfl, silent_nil⟩⟩⟩
  | _ => cases hplain

/-! ## What a statement leaves behind -/

/-- With the labels `o` of the switch around it. -/
structure Leaves (o : List (Own h)) (g g' : Statics h) : Prop where
  nextTag : g.nextTag ≤ g'.nextTag
  breakTag : g'.breakTag = g.breakTag
  contTag : g'.contTag = g.contTag
  switchTag : g'.switchTag = g.switchTag
  switchType : g'.switchType = g.switchType
  switchCount : g'.switchCount = g.switchCount + (cases o).length
  switchDefault : g'.switchDefault = (g.switchDefault || 0 < defaults o)
  table : g'.table = g.table ++ values o

variable {o o1 o2 : List (Own h)}

theorem Leaves.refl (g : Statics h) : Leaves [] g g where
  nextTag := le_rfl
  breakTag := rfl
  contTag := rfl
  switchTag := rfl
  switchType := rfl
  switchCount := rfl
  switchDefault := by simp [defaults]
  table := by simp [values, cases]

theorem Leaves.append (hleaves1 : Leaves o1 g g1) (hleaves2 : Leaves o2 g1 g2) : Leaves (o1 ++ o2) g g2 where
  nextTag := hleaves1.nextTag.trans hleaves2.nextTag
  breakTag := hleaves2.breakTag.trans hleaves1.breakTag
  contTag := hleaves2.contTag.trans hleaves1.contTag
  switchTag := hleaves2.switchTag.trans hleaves1.switchTag
  switchType := hleaves2.switchType.trans hleaves1.switchType
  switchCount := by
    rw [hleaves2.switchCount, hleaves1.switchCount, cases_append, List.length_append, Nat.add_assoc]
  switchDefault := by
    rw [hleaves2.switchDefault, hleaves1.switchDefault, defaults_append, Bool.or_assoc, ← Bool.decide_or]
    simp only [Nat.add_pos_iff_pos_or_pos]
  table := by rw [hleaves2.table, hleaves1.table, values_append, List.append_assoc]

theorem Leaves.loop (hleaves : Leaves o g.enterLoop g1) : Leaves o g (g1.leaveLoop g) where
  nextTag := (Nat.le_succ _).trans hleaves.nextTag
  breakTag := rfl
  contTag := rfl
  switchTag := hleaves.switchTag
  switchType := hleaves.switchType
  switchCount := hleaves.switchCount
  switchDefault := hleaves.switchDefault
  table := hleaves.table

theorem Leaves.tag (hleaves : Leaves o g.tag g1) : Leaves o g g1 := { hleaves with
  nextTag := (Nat.le_succ _).trans hleaves.nextTag }

/-- The labels of the inner switch are its own. -/
theorem Leaves.switch (hleaves : Leaves o (g.enterSwitch t) g1) : Leaves [] g (g1.leaveSwitch g g.table.length) where
  nextTag := (Nat.le_add_right _ 2).trans hleaves.nextTag
  breakTag := rfl
  contTag := hleaves.contTag
  switchTag := rfl
  switchType := rfl
  switchCount := rfl
  switchDefault := (Leaves.refl g).switchDefault
  table := by
    have htake : (g1.table).take g.table.length = g.table := by
      rw [hleaves.table]
      exact List.take_left
    exact htake.trans (Leaves.refl g).table

theorem statement_leaves (hrun : statement s g = some (ev, g')) : Leaves (own s) g g' := by
  induction s generalizing g ev g' with
  | seq s1 s2 ih1 ih2 =>
    obtain ⟨_, _, _, hrun1, hrun2, -⟩ := statement_seq hrun
    exact (ih1 hrun1).append (ih2 hrun2)
  | ifElse e s1 s2 ih1 ih2 =>
    obtain ⟨_, _, _, _, _, _, hrun1, hrun2, -⟩ := statement_ifElse hrun
    exact ((ih1 hrun1).append (ih2 hrun2)).tag
  | ifThen e s ih =>
    obtain ⟨_, _, _, hrun1, -⟩ := statement_ifThen hrun
    exact (ih hrun1).tag
  | «while» e s ih | doWhile s e ih | «for» e1 e2 e3 s ih =>
    obtain ⟨_, _, _, _, hrun1, rfl, -⟩ := statement_loop rfl hrun
    exact (ih hrun1).loop
  | switch n t s ih =>
    obtain ⟨_, _, _, hrun1, rfl, -⟩ := statement_switch hrun
    exact (ih hrun1).switch
  | case value =>
    obtain ⟨rfl, -⟩ := statement_case hrun
    refine { Leaves.refl g with switchCount := rfl, table := ?_ }
    cases value <;> rfl
  | default =>
    cases hrun
    exact { Leaves.refl g with switchDefault := by simp [own, defaults, Own.isDefault] }
  | empty | expr | label | «return» | «break» | «continue» | goto =>
    obtain ⟨rfl, -⟩ := statement_plain rfl hrun
    exact Leaves.refl _

/-! ## The headers of a switch -/

/-- What the labels write, from number `count + 1` on. -/
def ownData (count : Nat) (o : List (Own h)) : HType → List Nat
  | .H_DEFAULT => List.replicate (defaults o) 0
  | .H_CASE => List.range' (count + 1) (cases o).length
  | _ => []

theorem ownData_append (count : Nat) : ownData count (o1 ++ o2) type =
    ownData count o1 type ++ ownData (count + (cases o1).length) o2 type := by
  cases type with
  | H_DEFAULT =>
    unfold ownData
    simp only [defaults_append, List.replicate_append_replicate]
  | H_CASE =>
    unfold ownData
    simp only [cases_append, List.length_append]
    rw [← List.range'_append_1, Nat.add_right_comm]
  | _ => rfl

/-- Of the tags given before, only the one of the switch around is used, for the labels `o`. -/
def Marks (g : Statics h) (o : List (Own h)) (ev : List (Event h)) : Prop :=
  ∀ type ∈ switchHeaders, ∀ T < g.nextTag, named type T ev = if T = g.switchTag then ownData g.switchCount o type else []

theorem ownData_case (count : Nat) (value : Option (BitVec h.longBits)) :
    ownData count [Own.case value] type = if .H_CASE = type then [count + 1] else [] := by
  cases type <;> rfl

theorem ownData_default (count : Nat) : ownData count [(Own.default : Own h)] type = if .H_DEFAULT = type then [0] else [] := by
  cases type <;> rfl

theorem ownData_nil (count : Nat) : ownData count ([] : List (Own h)) type = [] := by
  cases type <;> rfl

theorem Silent.marks (hsilent : Silent ev) : Marks g [] ev := by
  intro type htype T _
  rw [hsilent.named htype, ownData_nil, ite_self]

theorem Marks.append (hleaves : Leaves o1 g g1) (hmarks1 : Marks g o1 ev1) (hmarks2 : Marks g1 o2 ev2) :
    Marks g (o1 ++ o2) (ev1 ++ ev2) := by
  intro type htype T hT
  rw [named_append, hmarks1 type htype T hT, hmarks2 type htype T (hT.trans_le hleaves.nextTag), hleaves.switchTag,
    hleaves.switchCount, ownData_append]
  split_ifs <;> rfl

theorem Marks.around (hmarks : Marks g o ev) (hsilent1 : Silent ev1) (hsilent2 : Silent ev2) :
    Marks g o (ev1 ++ ev ++ ev2) := by
  intro type htype T hT
  rw [named_append, named_append, hsilent1.named htype, hsilent2.named htype, List.nil_append, List.append_nil]
  exact hmarks type htype T hT

theorem silent_tableEntries {tag count : Nat} {type : CType} {vs : List (BitVec h.longBits)} :
    Silent (tableEntries tag type count vs) := by
  induction vs generalizing count with
  | nil => exact silent_nil
  | cons value vs ih => exact silent_cons.mpr ⟨rfl, silent_cons.mpr ⟨rfl, ih⟩⟩

@[simp]
theorem named_cons_header {type' : HType} {name data : Nat} : named type T (.header type' name data :: ev) =
    if type' = type ∧ name = T then data :: named type T ev else named type T ev := by
  by_cases hhere : type' = type ∧ name = T <;> simp [named, hhere]

@[simp]
theorem named_errorIf {c : Prop} [Decidable c] {m : Message} : named type T (errorIf c m : List (Event h)) = [] := by
  unfold errorIf
  split_ifs <;> rfl

theorem named_silent_cons {x : Event h} (hx : x.silent) (htype : type ∈ switchHeaders) :
    named type T (x :: ev) = named type T ev := by
  have hnone : named type T [x] = [] := Silent.named (silent_cons.mpr ⟨hx, silent_nil⟩) htype
  rw [← List.singleton_append, named_append, hnone, List.nil_append]

/-- The headers behind the body of a switch. -/
theorem named_endSwitch {k : Nat} (htype : type ∈ switchHeaders) : named type T (endSwitch g k) =
    (if g.switchDefault then [] else if .H_DEFAULT = type ∧ g.switchTag = T then [0] else []) ++
      if .H_SWITCHTAB = type ∧ g.switchTag = T then [(g.table.drop k).length] else [] := by
  have hback : Silent (tableEntries g.switchTag g.switchType 0 (g.table.drop k) ++
      [.caseLabel g.switchTag 0, .footer .H_SWITCHTAB g.switchTag 0]) :=
    silent_append.mpr ⟨silent_tableEntries, silent_cons.mpr ⟨rfl, silent_cons.mpr ⟨rfl, silent_nil⟩⟩⟩
  unfold endSwitch switchDone
  rw [List.cons_append, named_silent_cons rfl htype, named_append, List.cons_append, named_cons_header,
    hback.named htype]
  cases g.switchDefault with
  | true => rfl
  | false =>
    rw [if_neg Bool.false_ne_true, if_neg Bool.false_ne_true, named_cons_header]
    rfl

/-- For the statements around it a switch is nothing. -/
theorem Marks.switch {front : List (Event h)} (hleaves : Leaves o (g.enterSwitch t) g1)
    (hmarks : Marks (g.enterSwitch t) o ev1) (hsilent : Silent front) :
    Marks g [] (front ++ ev1 ++ endSwitch g1 g.table.length) := by
  intro type htype T hT
  have htag : g1.switchTag = g.nextTag := hleaves.switchTag
  have hne : ¬ T = g.nextTag := Nat.ne_of_lt hT
  have hne' : ¬ g.nextTag = T := fun heq => hne heq.symm
  have hbody : named type T ev1 = [] := by
    rw [hmarks type htype T (Nat.lt_add_right 2 hT)]
    exact if_neg hne
  rw [named_append, named_append, hsilent.named htype, hbody, named_endSwitch htype, htag, ownData_nil, ite_self]
  simp only [hne', and_false, if_false, ite_self, List.append_nil]

theorem Marks.enter {g0 : Statics h} (hmarks : Marks g0 o ev) (hnext : g.nextTag ≤ g0.nextTag)
    (htag : g0.switchTag = g.switchTag) (hcount : g0.switchCount = g.switchCount) : Marks g o ev := by
  intro type htype T hT
  rw [hmarks type htype T (hT.trans_le hnext), htag, hcount]

/-- The header of one label. -/
theorem marks_one {type' : HType} {data : Nat} {x : Own h}
    (hdata : ownData g.switchCount [x] type = if type' = type then [data] else []) :
    named type T ([.header type' g.switchTag data] : List (Event h)) =
      if T = g.switchTag then ownData g.switchCount [x] type else [] := by
  rw [named_cons_header, hdata]
  by_cases hT : T = g.switchTag
  · rw [if_pos hT]
    simp only [hT, and_true]
    rfl
  · rw [if_neg hT, if_neg fun hhere => hT hhere.2.symm]
    rfl

theorem statement_marks (hrun : statement s g = some (ev, g')) : Marks g (own s) ev := by
  induction s generalizing g ev g' with
  | seq s1 s2 ih1 ih2 =>
    obtain ⟨_, _, _, hrun1, hrun2, rfl⟩ := statement_seq hrun
    exact (ih1 hrun1).append (statement_leaves hrun1) (ih2 hrun2)
  | ifElse e s1 s2 ih1 ih2 =>
    obtain ⟨_, _, _, _, _, _, hrun1, hrun2, rfl, hfront, hmid, hback⟩ := statement_ifElse hrun
    have hmarks1 := ((ih1 hrun1).around hfront hmid).append (statement_leaves hrun1) (ih2 hrun2)
    exact (hmarks1.around silent_nil hback).enter (Nat.le_succ _) rfl rfl
  | ifThen e s ih =>
    obtain ⟨_, _, _, hrun1, rfl, hfront, hback⟩ := statement_ifThen hrun
    exact ((ih hrun1).around hfront hback).enter (Nat.le_succ _) rfl rfl
  | «while» e s ih | doWhile s e ih | «for» e1 e2 e3 s ih =>
    obtain ⟨_, _, _, _, hrun1, -, rfl, hfront, hback⟩ := statement_loop rfl hrun
    exact ((ih hrun1).around hfront hback).enter (Nat.le_succ _) rfl rfl
  | switch n t s ih =>
    obtain ⟨_, _, _, hrun1, -, rfl, hfront⟩ := statement_switch hrun
    exact (ih hrun1).switch (statement_leaves hrun1) hfront
  | case value =>
    obtain ⟨-, front, rfl, hfront⟩ := statement_case hrun
    intro type htype T hT
    rw [named_append, hfront.named htype, List.nil_append]
    exact marks_one (ownData_case g.switchCount value)
  | default =>
    cases hrun
    intro type htype T hT
    rw [named_append, named_append, named_errorIf, named_errorIf, List.nil_append, List.nil_append]
    exact marks_one (ownData_default g.switchCount)
  | empty | expr | label | «return» | «break» | «continue» | goto =>
    obtain ⟨-, hsilent⟩ := statement_plain rfl hrun
    exact hsilent.marks

/-! ## The diagnostics -/

/-- How many the compiler gives: the flag goes into an inner switch as it is. -/
def diagnoses : Bool → Stmt h → Nat
  | d, .seq s1 s2 | d, .ifElse _ s1 s2 => diagnoses d s1 + diagnoses (seen d s1) s2
  | d, .ifThen _ s | d, .while _ s | d, .doWhile s _ | d, .for _ _ _ s => diagnoses d s
  | d, .switch _ _ s => diagnoses d s
  | d, .default => if d then 1 else 0
  | _, _ => 0

theorem diagnosed_endSwitch {k : Nat} : diagnosed (endSwitch g k) = 0 := by
  refine List.count_eq_zero.mpr fun hmem => ?_
  unfold endSwitch switchDone at hmem
  cases hflag : g.switchDefault <;> simp [hflag] at hmem <;> exact absurd (silent_tableEntries _ hmem) (by simp [Event.silent])

theorem statement_diagnosed (hrun : statement s g = some (ev, g')) : diagnosed ev = diagnoses g.switchDefault s := by
  induction s generalizing g ev g' with
  | seq s1 s2 ih1 ih2 =>
    obtain ⟨_, _, _, hrun1, hrun2, rfl⟩ := statement_seq hrun
    rw [diagnosed_append, ih1 hrun1, ih2 hrun2, (statement_leaves hrun1).switchDefault]
    rfl
  | ifElse e s1 s2 ih1 ih2 =>
    obtain ⟨_, _, _, _, _, _, hrun1, hrun2, rfl, hfront, hmid, hback⟩ := statement_ifElse hrun
    simp only [diagnosed_append, hfront.diagnosed, hmid.diagnosed, hback.diagnosed, ih1 hrun1, ih2 hrun2,
      (statement_leaves hrun1).switchDefault, Nat.zero_add, Nat.add_zero]
    rfl
  | ifThen e s ih =>
    obtain ⟨_, _, _, hrun1, rfl, hfront, hback⟩ := statement_ifThen hrun
    simp only [diagnosed_append, hfront.diagnosed, hback.diagnosed, ih hrun1, Nat.zero_add, Nat.add_zero]
    rfl
  | «while» e s ih | doWhile s e ih | «for» e1 e2 e3 s ih =>
    obtain ⟨_, _, _, _, hrun1, -, rfl, hfront, hback⟩ := statement_loop rfl hrun
    simp only [diagnosed_append, hfront.diagnosed, hback.diagnosed, ih hrun1, Nat.zero_add, Nat.add_zero]
    rfl
  | switch n t s ih =>
    obtain ⟨_, _, _, hrun1, -, rfl, hfront⟩ := statement_switch hrun
    simp only [diagnosed_append, hfront.diagnosed, diagnosed_endSwitch, ih hrun1, Nat.zero_add, Nat.add_zero]
    rfl
  | case value =>
    obtain ⟨-, front, rfl, hfront⟩ := statement_case hrun
    rw [diagnosed_append, hfront.diagnosed]
    rfl
  | default =>
    cases hrun
    have houtside : diagnosed (errorIf (g.switchTag = 0) .defaultOutside : List (Event h)) = 0 :=
      (silent_errorIf (by decide)).diagnosed
    rw [diagnosed_append, diagnosed_append, houtside]
    unfold diagnoses errorIf
    cases g.switchDefault <;> rfl
  | empty | expr | label | «return» | «break» | «continue» | goto =>
    obtain ⟨-, hsilent⟩ := statement_plain rfl hrun
    exact hsilent.diagnosed

theorem excess_append (d : Bool) (a b : Nat) :
    a + b - free d = (a - free d) + (b - free (d || 0 < a)) := by
  cases d with
  | true => rfl
  | false =>
    by_cases ha : 0 < a
    · simp only [ha, free]
      simp
      omega
    · simp [Nat.eq_zero_of_not_pos ha]

/-- Each second default gets a diagnostic, whatever the flag is. -/
theorem diagnoses_ge (d : Bool) (s : Stmt h) : (defaults (own s) - free d) + secondDefaults s ≤ diagnoses d s := by
  induction s generalizing d with
  | seq s1 s2 ih1 ih2 | ifElse e s1 s2 ih1 ih2 =>
    have hle1 := ih1 d
    have hle2 := ih2 (seen d s1)
    have hexcess := excess_append d (defaults (own s1)) (defaults (own s2))
    unfold seen at hle2
    simp only [own, secondDefaults, diagnoses, defaults_append, seen]
    omega
  | ifThen e s ih | «while» e s ih | doWhile s e ih | «for» e1 e2 e3 s ih => exact ih d
  | switch n t s ih =>
    have hle := ih d
    have hfree : free d ≤ 1 := by cases d <;> decide
    simp only [own, secondDefaults, diagnoses, defaults, List.countP_nil] at hle ⊢
    omega
  | default => cases d <;> exact le_rfl
  | empty | expr | label | «return» | «break» | «continue» | goto | case => cases d <;> exact le_rfl

/-! ## The default entry -/

/-- A switch that is entered behind a default has one of its own. -/
def Labelled : Bool → Stmt h → Prop
  | d, .seq s1 s2 | d, .ifElse _ s1 s2 => Labelled d s1 ∧ Labelled (seen d s1) s2
  | d, .ifThen _ s | d, .while _ s | d, .doWhile s _ | d, .for _ _ _ s => Labelled d s
  | d, .switch _ _ s => (d = true → 0 < defaults (own s)) ∧ Labelled d s
  | _, _ => True

/-- Then it gets a diagnostic for that, unless there is no default before it. -/
theorem labelled_iff (d : Bool) (s : Stmt h) :
    Labelled d s ∧ diagnoses d s = (defaults (own s) - free d) + secondDefaults s ↔ NoneAfterDefault d s := by
  induction s generalizing d with
  | seq s1 s2 ih1 ih2 | ifElse e s1 s2 ih1 ih2 =>
    have hle1 := diagnoses_ge d s1
    have hle2 := diagnoses_ge (seen d s1) s2
    have hexcess := excess_append d (defaults (own s1)) (defaults (own s2))
    unfold NoneAfterDefault
    rw [← ih1 d, ← ih2 (seen d s1)]
    unfold seen at hle2
    simp only [Labelled, own, secondDefaults, diagnoses, defaults_append, seen]
    constructor
    · rintro ⟨⟨hlabelled1, hlabelled2⟩, hsum⟩
      exact ⟨⟨hlabelled1, by omega⟩, hlabelled2, by omega⟩
    · rintro ⟨⟨hlabelled1, hsum1⟩, hlabelled2, hsum2⟩
      exact ⟨⟨hlabelled1, hlabelled2⟩, by omega⟩
  | ifThen e s ih | «while» e s ih | doWhile s e ih | «for» e1 e2 e3 s ih => exact ih d
  | switch n t s ih =>
    unfold NoneAfterDefault Labelled
    cases d with
    | false =>
      rw [← ih false]
      simp only [secondDefaults, diagnoses, own, defaults, free, List.countP_nil]
      simp
    | true =>
      have hle := diagnoses_ge true s
      simp only [free, if_true, Nat.sub_zero] at hle
      refine iff_of_false ?_ (fun hnone => by cases hnone.1)
      rintro ⟨⟨hlabel, -⟩, hsum⟩
      have hpos := hlabel rfl
      simp only [secondDefaults, diagnoses, own, List.countP_nil, free, defaults] at hsum hpos hle
      omega
  | default => cases d <;> exact iff_of_true ⟨trivial, rfl⟩ trivial
  | empty | expr | label | «return» | «break» | «continue» | goto | case =>
    cases d <;> exact iff_of_true ⟨trivial, rfl⟩ trivial

/-! ## One switch -/

theorem tableEntries_eq (tag : Nat) (type : CType) (count : Nat) (vs : List (BitVec h.longBits)) :
    tableEntries tag type count vs =
      (vs.zipIdx count).flatMap fun (value, i) => [.constant type value, .caseLabel tag (i + 1)] := by
  induction vs generalizing count with
  | nil => rfl
  | cons value vs ih =>
    unfold tableEntries
    rw [ih, List.zipIdx_cons, List.flatMap_cons]
    rfl

theorem values_length {o : List (Own h)} (hconstant : none ∉ cases o) : (values o).length = (cases o).length := by
  unfold values
  generalize cases o = l at hconstant
  induction l with
  | nil => rfl
  | cons value l ih =>
    obtain ⟨hvalue, hl⟩ := List.ne_and_not_mem_of_not_mem_cons hconstant
    obtain ⟨v, rfl⟩ := Option.ne_none_iff_exists'.mp hvalue.symm
    rw [List.filterMap_cons_some (f := id) rfl, List.length_cons, List.length_cons, ih hl]

/-- Only the default entry depends on the flag. -/
theorem switchRight_iff (hrun : statement (.switch n t s) g = some (ev, g')) :
    SwitchRight g n t s ev g' ↔ (g.switchDefault = true → 0 < defaults (own s)) := by
  obtain ⟨front, ev1, g1, hrun1, rfl, rfl, hfront⟩ := statement_switch hrun
  have hleaves := statement_leaves hrun1
  have hmarks := statement_marks hrun1
  have htag : g1.switchTag = g.nextTag := hleaves.switchTag
  have htype : g1.switchType = if IS_INTARITH t then t else CINT := hleaves.switchType
  have hflag : g1.switchDefault = (g.switchDefault || 0 < defaults (own s)) := hleaves.switchDefault
  have hvalues : g1.table.drop g.table.length = values (own s) := by
    rw [hleaves.table]
    exact List.drop_left
  have hbody {type : HType} (hmem : type ∈ switchHeaders) : named type g.nextTag ev1 = ownData 0 (own s) type := by
    rw [hmarks type hmem g.nextTag (Nat.lt_add_of_pos_right (by decide))]
    exact if_pos rfl
  have hheaders {type : HType} (hmem : type ∈ switchHeaders) :
      named type g.nextTag (front ++ ev1 ++ endSwitch g1 g.table.length) =
        ownData 0 (own s) type ++ named type g.nextTag (endSwitch g1 g.table.length) := by
    rw [named_append, named_append, hfront.named hmem, hbody hmem, List.nil_append]
  constructor
  · intro hright hset
    by_contra hnone
    have hzero : defaults (own s) = 0 := Nat.eq_zero_of_not_pos hnone
    have hdefault := hright.default (by rw [hzero]; decide)
    rw [hheaders (by decide), named_endSwitch (by decide), hflag, hset] at hdefault
    simp [ownData, hzero] at hdefault
  · intro hlabel
    constructor
    · intro hone
      rw [hheaders (by decide), named_endSwitch (by decide), hflag, htag]
      cases hset : g.switchDefault with
      | true =>
        have hdefaults : defaults (own s) = 1 := Nat.le_antisymm hone (hlabel hset)
        simp [ownData, hdefaults]
      | false =>
        rcases Nat.le_one_iff_eq_zero_or_eq_one.mp hone with hdefaults | hdefaults <;> simp [ownData, hdefaults]
    · refine ⟨front ++ ev1 ++ .footer .H_SWITCH g1.switchTag g1.breakTag ::
        (if g1.switchDefault then [] else [.header .H_DEFAULT g1.switchTag 0]), ?_, ?_⟩
      · rw [named_append, named_append, hfront.named (by decide), hbody (by decide), named_silent_cons rfl (by decide)]
        cases g1.switchDefault <;> simp [ownData, named]
      · unfold endSwitch switchDone switchTable
        simp only [hvalues, htag, htype, tableEntries_eq, List.append_assoc, List.cons_append]
    · intro hconstant
      rw [hheaders (by decide), named_endSwitch (by decide), values_length hconstant]
      simp [ownData]
    · exact { Leaves.switch hleaves with
        switchCount := rfl, switchDefault := rfl, table := by rw [(Leaves.switch hleaves).table]; exact List.append_nil _ }

/-! ## Every switch -/

theorem eachSwitch_iff (hrun : statement s g = some (ev, g')) :
    EachSwitch SwitchRight s g ↔ Labelled g.switchDefault s := by
  induction s generalizing g ev g' with
  | seq s1 s2 ih1 ih2 =>
    obtain ⟨_, g1, _, hrun1, hrun2, -⟩ := statement_seq hrun
    have hflag : g1.switchDefault = seen g.switchDefault s1 := (statement_leaves hrun1).switchDefault
    unfold EachSwitch Labelled
    rw [ih1 hrun1, ← hflag, ← ih2 hrun2]
    refine and_congr_right fun _ => ⟨fun hall => hall _ _ hrun1, fun heach ev g' hrun' => ?_⟩
    rw [hrun1] at hrun'
    cases hrun'
    exact heach
  | ifElse e s1 s2 ih1 ih2 =>
    obtain ⟨_, _, g1, _, _, _, hrun1, hrun2, -⟩ := statement_ifElse hrun
    have hflag : g1.switchDefault = seen g.switchDefault s1 := (statement_leaves hrun1).switchDefault
    unfold EachSwitch Labelled
    rw [ih1 hrun1, ← hflag, ← ih2 hrun2]
    refine and_congr_right fun _ => ⟨fun hall => hall _ _ hrun1, fun heach ev g' hrun' => ?_⟩
    rw [hrun1] at hrun'
    cases hrun'
    exact heach
  | ifThen e s ih =>
    obtain ⟨_, _, _, hrun1, -⟩ := statement_ifThen hrun
    exact ih hrun1
  | «while» e s ih | doWhile s e ih | «for» e1 e2 e3 s ih =>
    obtain ⟨_, _, _, _, hrun1, -⟩ := statement_loop rfl hrun
    exact ih hrun1
  | switch n t s ih =>
    obtain ⟨_, _, _, hrun1, -⟩ := statement_switch hrun
    unfold EachSwitch Labelled
    refine and_congr ?_ (ih hrun1)
    rw [← switchRight_iff hrun]
    refine ⟨fun hall => hall _ _ hrun, fun hright ev g' hrun' => ?_⟩
    rw [hrun] at hrun'
    cases hrun'
    exact hright
  | empty | expr | label | «return» | «break» | «continue» | goto | case | default => exact Iff.rfl

/-! ## All functions -/

theorem functionBody_run {f : Function h} (hrun : functionBody f g = some (ev, g')) :
    ∃ front ev1 back, statement f.2 g.enterFunction = some (ev1, g') ∧ ev = front ++ ev1 ++ back ∧ Silent front ∧
      Silent back := by
  obtain ⟨⟨ev1, g1⟩, hrun1, hpair⟩ := Option.bind_eq_some_iff.mp hrun
  cases hpair
  refine ⟨[_, _], ev1, [_], hrun1, rfl, ?_, ?_⟩
  · exact silent_cons.mpr ⟨rfl, silent_cons.mpr ⟨rfl, silent_nil⟩⟩
  · exact silent_cons.mpr ⟨rfl, silent_nil⟩

/-- The diagnostics of all functions. -/
def diagnosesIn : Bool → List (Function h) → Nat
  | _, [] => 0
  | d, f :: fs => diagnoses d f.2 + diagnosesIn (seen d f.2) fs

def secondDefaultsIn (fs : List (Function h)) : Nat := (fs.map fun f => secondDefaults f.2).sum

theorem functions_cons {f : Function h} {fs : List (Function h)} (hrun : functions (f :: fs) g = some (ev, g')) :
    ∃ ev1 g1 ev2, functionBody f g = some (ev1, g1) ∧ functions fs g1 = some (ev2, g') ∧ ev = ev1 ++ ev2 := by
  obtain ⟨⟨ev1, g1⟩, hrun1, hrest⟩ := Option.bind_eq_some_iff.mp hrun
  obtain ⟨⟨ev2, g2⟩, hrun2, hpair⟩ := Option.bind_eq_some_iff.mp hrest
  cases hpair
  exact ⟨ev1, g1, ev2, hrun1, hrun2, rfl⟩

theorem functionBody_flag {f : Function h} (hrun : functionBody f g = some (ev, g')) :
    g'.switchDefault = seen g.switchDefault f.2 := by
  obtain ⟨_, _, _, hrun1, -⟩ := functionBody_run hrun
  exact (statement_leaves hrun1).switchDefault

theorem functionBody_diagnosed {f : Function h} (hrun : functionBody f g = some (ev, g')) :
    diagnosed ev = diagnoses g.switchDefault f.2 := by
  obtain ⟨_, _, _, hrun1, rfl, hfront, hback⟩ := functionBody_run hrun
  have hbody := statement_diagnosed hrun1
  simp only [diagnosed_append, hfront.diagnosed, hback.diagnosed, hbody, Nat.zero_add, Nat.add_zero]
  rfl

theorem functions_diagnosed {fs : List (Function h)} (hrun : functions fs g = some (ev, g')) :
    diagnosed ev = diagnosesIn g.switchDefault fs := by
  induction fs generalizing g ev with
  | nil =>
    cases hrun
    rfl
  | cons f fs ih =>
    obtain ⟨_, _, _, hrun1, hrun2, rfl⟩ := functions_cons hrun
    rw [diagnosed_append, functionBody_diagnosed hrun1, ih hrun2, functionBody_flag hrun1]
    rfl

theorem diagnosesIn_ge (d : Bool) (fs : List (Function h)) : secondDefaultsIn fs ≤ diagnosesIn d fs := by
  induction fs generalizing d with
  | nil => exact le_rfl
  | cons f fs ih =>
    have hle := diagnoses_ge d f.2
    have hrest := ih (seen d f.2)
    simp only [secondDefaultsIn, diagnosesIn, List.map_cons, List.sum_cons] at hrest ⊢
    omega

theorem eachSwitchIn_iff {fs : List (Function h)} (hrun : functions fs g = some (ev, g')) :
    EachSwitchIn SwitchRight fs g ∧ diagnosesIn g.switchDefault fs = secondDefaultsIn fs ↔
      DefaultsInOrder g.switchDefault fs := by
  induction fs generalizing g ev with
  | nil => exact iff_of_true ⟨trivial, rfl⟩ trivial
  | cons f fs ih =>
    obtain ⟨_, g1, _, hrun1, hrun2, -⟩ := functions_cons hrun
    obtain ⟨_, _, _, hbody, -⟩ := functionBody_run hrun1
    have hle := diagnoses_ge g.switchDefault f.2
    have hrest := diagnosesIn_ge (seen g.switchDefault f.2) fs
    have heach : EachSwitch SwitchRight f.2 g.enterFunction ↔ Labelled g.switchDefault f.2 := eachSwitch_iff hbody
    have hnext : (∀ ev g', functionBody f g = some (ev, g') → EachSwitchIn SwitchRight fs g') ↔
        EachSwitchIn SwitchRight fs g1 := by
      refine ⟨fun hall => hall _ _ hrun1, fun heach ev g' hrun' => ?_⟩
      rw [hrun1] at hrun'
      cases hrun'
      exact heach
    unfold EachSwitchIn DefaultsInOrder
    rw [heach, hnext, ← labelled_iff, ← functionBody_flag hrun1, ← ih hrun2, functionBody_flag hrun1]
    simp only [secondDefaultsIn, diagnosesIn, List.map_cons, List.sum_cons] at hrest ⊢
    constructor
    · rintro ⟨⟨hlabelled, hall⟩, hsum⟩
      exact ⟨⟨hlabelled, by omega⟩, by omega, hall, by omega⟩
    · rintro ⟨⟨hlabelled, hsum⟩, hexcess, hall, hsums⟩
      exact ⟨⟨hlabelled, hall⟩, by omega⟩

/-- Every switch of a program is right, with a diagnostic for each second default and no other, if no switch stands
behind a default. -/
theorem switches_right_iff (fs : List (Function h)) (ev : List (Event h)) (g : Statics h)
    (hrun : functions fs .start = some (ev, g)) :
    EachSwitchIn SwitchRight fs .start ∧ diagnosed ev = secondDefaultsIn fs ↔ DefaultsInOrder false fs := by
  rw [functions_diagnosed hrun]
  exact eachSwitchIn_iff hrun

/-! ## A switch before a default, and in one -/

/-- `switch (x) { case 1: switch (y) { case 2: ; } default: ; }` -/
def innerBeforeDefault : Function Host.linux :=
  (1, .switch (.other 0) CINT (.seq (.seq (.case (some 1)) (.switch (.other 1) CINT (.case (some 2)))) .default))

theorem inner_before_default_right : ∃ ev g, functions [innerBeforeDefault] .start = some (ev, g) ∧
    EachSwitchIn SwitchRight [innerBeforeDefault] .start ∧ diagnosed ev = secondDefaultsIn [innerBeforeDefault] := by
  have hsome : (functions [innerBeforeDefault] .start).isSome := by decide
  obtain ⟨⟨ev, g⟩, hrun⟩ := Option.isSome_iff_exists.mp hsome
  have horder : DefaultsInOrder false [innerBeforeDefault] :=
    ⟨⟨rfl, ⟨trivial, rfl, trivial⟩, trivial⟩, by decide, trivial⟩
  exact ⟨ev, g, hrun, (switches_right_iff [innerBeforeDefault] ev g hrun).mpr horder⟩

/-- `switch (x) { default: switch (y) { case 1: ; } }` -/
def innerAfterDefault : Function Host.linux :=
  (1, .switch (.other 0) CINT (.seq .default (.switch (.other 1) CINT (.case (some 1)))))

/-- The inner switch gets no default entry. -/
theorem inner_after_default_wrong :
    ¬ ∀ ev g, functions [innerAfterDefault] .start = some (ev, g) →
      EachSwitchIn SwitchRight [innerAfterDefault] .start ∧ diagnosed ev = secondDefaultsIn [innerAfterDefault] := by
  intro hright
  have hsome : (functions [innerAfterDefault] .start).isSome := by decide
  obtain ⟨⟨ev, g⟩, hrun⟩ := Option.isSome_iff_exists.mp hsome
  obtain ⟨heach, hdiagnosed⟩ := hright ev g hrun
  rw [functions_diagnosed hrun] at hdiagnosed
  have horder := (eachSwitchIn_iff hrun).mp ⟨heach, hdiagnosed⟩
  exact absurd horder.1.2.2.1 (by decide)

end Fuzemsys.Fcc.Body
