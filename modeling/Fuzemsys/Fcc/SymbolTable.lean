import Fuzemsys.Fcc.Tokenize

/-!
# Names and their numbers

The first pass keeps each identifier once, in hash chains, and gives it a number. The array of names goes to a
file, from which the back end reads one name at a time into a short list.
-/

namespace Fuzemsys.Fcc.Names

open Tokenizer

def NAMELEN : Nat := 16
def NHASH : Nat := 64
def NCACHE_SIZE : Nat := 32

/-- `struct name`, with the text up to its end mark. -/
structure Name where
  name : List Byte
  id : Token
deriving DecidableEq

/-! ## The first pass -/

structure Table where
  /-- What is before `nextsym`. -/
  symbols : List Name
  symbase : Nat
  symhash : Nat → List Name
  symnum : Token

/-- The sum of the characters. -/
def hashSymbol (name : List Byte) : Nat := ((name.take NAMELEN).map BitVec.toNat).sum % NHASH

def newSymbol (name : List Byte) (hash : Nat) (id : Token) (t : Table) : Option (Name × Table) :=
  if t.symbols.length = MAXNAME then none
  else
    let s : Name := ⟨name.take NAMELEN, id⟩
    some (s, { t with symbols := t.symbols ++ [s], symhash := Function.update t.symhash hash (s :: t.symhash hash) })

def findSymbol (name : List Byte) (hash : Nat) (t : Table) : Option Name :=
  (t.symhash hash).find? fun s => s.name.take NAMELEN = name.take NAMELEN

/-- `keywords` adds the words from this token on. -/
def addKeywords : List String → Token → Table → Option Table
  | [], _, t => some { t with symbase := t.symbols.length }
  | k :: ks, i, t => (newSymbol (ascii k) (hashSymbol (ascii k)) i t).bind fun (_, t) => addKeywords ks (i + 1) t

def start : Table := ⟨[], 0, fun _ => [], T_SYMBOL⟩

/-- An identifier as `get` delivers it. -/
structure Identifier where
  first : Byte
  rest : List Byte
  starts : iscsymstart first = true
  goes_on : ∀ c ∈ rest, iscsymbol c = true

def Identifier.text (x : Identifier) : List Byte := x.first :: x.rest

/-- `symstr`, with what `get_symbol_tail` keeps. -/
def Identifier.symstr (x : Identifier) : List Byte := x.first :: x.rest.take 14

def tokenizeSymbol (x : Identifier) (t : Table) : Option (Token × Table) :=
  let h := hashSymbol x.symstr
  match findSymbol x.symstr h t with
  | some s => some (s.id, t)
  | none => (newSymbol x.symstr h t.symnum t).map fun (s, t) => (s.id, { t with symnum := t.symnum + 1 })

/-- All the same, and no name has their number. -/
def initNameCache : List Name := List.replicate NCACHE_SIZE ⟨[], 0⟩

/-- The first one with this number, and the others. -/
def unlink (n : Token) : List Name → Option (Name × List Name)
  | [] => none
  | np :: rest => if np.id = n then some (np, rest) else (unlink n rest).map fun p => (p.1, np :: p.2)

/-- A name that is found goes to the front. One that is not is read over the last one. -/
def namestr (file : List Name) (n : Token) (cache : List Name) : Option (List Byte × List Name) :=
  match unlink n cache with
  | some (np, rest) => some (np.name, np :: rest)
  | none => file[(n &&& 0x7FFF).toNat]?.map fun record => (record.name, cache.dropLast ++ [record])

/-- One lookup after the other. A short read is fatal. -/
def namestrs (file : List Name) : List Token → List Name → Option (List (List Byte))
  | [], _ => some []
  | n :: ns, cache => (namestr file n cache).bind fun p => (namestrs file ns p.2).map (p.1 :: ·)

/-- What the numbers are for: one for each spelling, the words their own, and the spelling comes back from
the number in any order. -/
structure Named (xs : List Identifier) (tokens : List Token) (written : Option (List Name)) : Prop where
  same : ∀ p ∈ xs.zip tokens, ∀ q ∈ xs.zip tokens, p.2 = q.2 ↔ p.1.text.take 15 = q.1.text.take 15
  keyword : ∀ p ∈ xs.zip tokens, ∀ k word, keytab[k]? = some word → p.1.text.take 15 = ascii word →
    p.2 = T_KEYWORD + BitVec.ofNat 16 k
  symbol : ∀ p ∈ xs.zip tokens, p.1.text.take 15 ∉ keytab.map ascii → T_SYMBOL ≤ p.2
  spelled : ∀ file, written = some file → ∀ ps : List (Identifier × Token),
    (∀ p ∈ ps, p ∈ xs.zip tokens ∧ T_SYMBOL ≤ p.2) →
    namestrs file (ps.map Prod.snd) initNameCache = some (ps.map fun p => p.1.text.take 15)

end Fuzemsys.Fcc.Names
