import Mathlib.Data.BitVec
import Mathlib.Data.List.Nodup
import Mathlib.Logic.Function.Basic

/-!
# The members of structs and unions

A declaration fills a record that the sizes of types already look at, and the type of a member can be
declared inside it. What the parser does is a sequence of steps on the records.
-/

namespace Fuzemsys.Fcc.StructLayout

abbrev Unsigned := BitVec 32

/-- What a type code says. `ptr` is `PTR` of the code, which counts the dimensions of an array too. -/
inductive CType where
  | simple (code : BitVec 16) (ptr : Nat)
  | struct (tag : Nat) (ptr : Nat)
  /-- `PTR` is one more. -/
  | array (elem : CType) (dims : List Unsigned) (ptr : Nat)

structure Target where
  /-- `target_sizeof` of a simple type, and of any pointer. -/
  simple : BitVec 16 → Unsigned
  pointer : Unsigned
  /-- `target_alignof` is this power of two. -/
  align : CType → Nat
  align_small : ∀ t, align t < 32

def Target.target_alignof (T : Target) (t : CType) : Unsigned := BitVec.ofNat 32 (2 ^ T.align t)

structure Field where
  name : Nat
  type : CType
  offset : Unsigned

/-- What belongs to a tag. -/
structure Record where
  union : Bool
  INITIALIZED : Bool
  fields : List Field
  size : Unsigned

structure State where
  records : Nat → Record
  /-- The tags of the declarations that are open, the inner one first. -/
  open_tags : List Nat

/-! ## Sizes -/

/-- From the last dimension to the first. What is left is the number of pointers. -/
def arrayLoop (s : Unsigned) : List Unsigned → Nat → Unsigned ⊕ Nat
  | [], d => .inr d
  | x :: rest, d => if d = 1 then .inl (s * x) else arrayLoop (s * x) rest (d - 1)

section
variable (T : Target) (st : State)

/-- The size of the type with `n` more pointers. -/
def type_sizeof : CType → Nat → Unsigned
  | .simple code ptr, n => if ptr + n = 0 then T.simple code else T.pointer
  | .struct tag ptr, n =>
    if ptr + n ≠ 0 then T.pointer else if (st.records tag).INITIALIZED then (st.records tag).size else 1
  | .array elem dims ptr, n =>
    match arrayLoop (type_sizeof elem 0) dims.reverse (ptr + n + 1) with
    | .inl s => s
    | .inr d => type_sizeof elem (d + 1)

/-- No struct or union that is asked for its size is undeclared. -/
def Sized : CType → Nat → Bool
  | .simple _ _, _ => true
  | .struct tag ptr, n => ptr + n ≠ 0 || (st.records tag).INITIALIZED
  | .array elem dims ptr, n =>
    Sized elem 0 && (decide (ptr + n + 1 ≤ dims.length) || Sized elem (ptr + n + 1 - dims.length + 1))

/-! ## Steps -/

def NUM_STRUCT_FIELD : Nat := 30

inductive Step where
  | declare (tag : Nat)
  | field (name : Nat) (type : CType)
  | close

def State.set (tag : Nat) (r : Record) : State := { st with records := Function.update st.records tag r }

/-- The new size, and the offset. -/
def alloc_room (p : Unsigned) (type : CType) : Unsigned × Unsigned :=
  let s := type_sizeof T st type 0
  let a := T.target_alignof type
  let a := (p + a - 1) &&& ~~~(a - 1)
  (a + s, a)

def struct_add_field (r : Record) (name : Nat) (type : CType) : Record :=
  if r.union then
    let s := type_sizeof T st type 0
    { r with fields := r.fields ++ [⟨name, type, 0⟩], size := if r.size < s then s else r.size }
  else
    let p := alloc_room T st r.size type
    { r with fields := r.fields ++ [⟨name, type, p.2⟩], size := p.1 }

/-- `none` when there is an error. -/
def step : Step → Option State
  | .declare tag =>
    if (st.records tag).INITIALIZED then none
    else if st.open_tags.length + 1 = 4 then none
    else
      some { st.set tag { st.records tag with INITIALIZED := true, fields := [], size := 0 } with
        open_tags := tag :: st.open_tags }
  | .field name type =>
    match st.open_tags with
    | [] => none
    | tag :: _ =>
      let r := st.records tag
      if r.fields.length = NUM_STRUCT_FIELD then none
      else if (r.fields.map Field.name).contains name then none
      else if Sized st type 0 then some (st.set tag (struct_add_field T st r name type))
      else none
  | .close =>
    match st.open_tags with
    | [] => none
    | _ :: rest => some { st with open_tags := rest }

end

/-- Nothing is declared. Whether a tag is that of a union is fixed. -/
def start (union : Nat → Bool) : State := ⟨fun tag => ⟨union tag, false, [], 0⟩, []⟩

/-! ## The layout -/

/-- The tags whose size is in that of a type. -/
def CType.holds : CType → Nat → List Nat
  | .simple _ _, _ => []
  | .struct tag ptr, n => if ptr + n = 0 then [tag] else []
  | .array elem dims ptr, n =>
    if ptr + n + 1 ≤ dims.length then elem.holds 0 else elem.holds (ptr + n + 1 - dims.length + 1)

/-- The bytes of the member end here. -/
def Field.Ends (T : Target) (st : State) (f : Field) (bound : Nat) : Prop :=
  f.offset.toNat + (type_sizeof T st f.type 0).toNat ≤ bound

/-- In the order of their declaration, apart from each other, aligned, and inside. -/
structure Record.Laid (T : Target) (st : State) (r : Record) : Prop where
  names : (r.fields.map Field.name).Nodup
  inside : ∀ f ∈ r.fields, f.Ends T st r.size.toNat
  apart : r.union = false → r.fields.Pairwise fun f g => f.Ends T st g.offset.toNat
  aligned : r.union = false → ∀ f ∈ r.fields, 2 ^ T.align f.type ∣ f.offset.toNat
  first : r.union = true → ∀ f ∈ r.fields, f.offset = 0

/-- A member is complete when it is declared, and the struct stays below the largest size. -/
def Complete (T : Target) (st : State) : Step → Prop
  | .declare _ | .close => True
  | .field _ type => (∀ tag ∈ type.holds 0, tag ∉ st.open_tags) ∧
      ∀ tag, st.open_tags.head? = some tag → (st.records tag).union = false →
        (st.records tag).size.toNat + 2 ^ T.align type + (type_sizeof T st type 0).toNat ≤ 2 ^ 32

def run (T : Target) : List Step → State → Option State
  | [], st => some st
  | a :: steps, st => (step T st a).bind (run T steps)

/-- Every step of the run is with complete members. -/
def AllComplete (T : Target) : List Step → State → Prop
  | [], _ => True
  | a :: steps, st => Complete T st a ∧ ∀ st', step T st a = some st' → AllComplete T steps st'

/-- Declared, and not open any more. -/
def Closed (st : State) (tag : Nat) : Prop := (st.records tag).INITIALIZED = true ∧ tag ∉ st.open_tags

end Fuzemsys.Fcc.StructLayout
