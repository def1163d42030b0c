import Fuzemsys.Fcc.SymbolTable
import Mathlib.Data.List.Nodup

/-!
# Each spelling has one number

The table holds every spelling once, the place of a name in it gives its number, and the list of the back
end has nothing but names of the file.
-/

namespace Fuzemsys.Fcc.Names

open Tokenizer

variable {t t' : Table} {x : Identifier} {token n : Token} {s s' : Name} {name : List Byte} {i j : Nat}
  {file cache rest : List Name}

/-! ## Numbers -/

/-- The number of the name in this place. -/
def idAt (i : Nat) : Token :=
  if i < keytab.length then T_KEYWORD + BitVec.ofNat 16 i else T_SYMBOL + BitVec.ofNat 16 (i - keytab.length)

theorem keytab_length : keytab.length = 33 := rfl

/-- What holds of the table whatever was put into it. -/
structure Table.Right (t : Table) : Prop where
  room : t.symbols.length ≤ MAXNAME
  ids : t.symbols.map Name.id = (List.range t.symbols.length).map idAt
  short : ∀ s ∈ t.symbols, s.name.length < NAMELEN
  apart : (t.symbols.map Name.name).Nodup
  chains : ∀ h, t.symhash h = t.symbols.reverse.filter fun s => hashSymbol s.name = h

namespace Table.Right

end Table.Right

theorem start_right : start.Right := by
  refine ⟨by decide, rfl, ?_, List.nodup_nil, fun _ => rfl⟩
  rintro s ⟨⟩

theorem newSymbol_right (h : t.Right) (hshort : name.length < NAMELEN) (hnew : ∀ s ∈ t.symbols, s.name ≠ name)
    (hrun : newSymbol name (hashSymbol name) (idAt t.symbols.length) t = some (s, t')) :
    t'.Right ∧ s = ⟨name, idAt t.symbols.length⟩ ∧ t'.symbols = t.symbols ++ [s] ∧ t'.symbase = t.symbase ∧
      t'.symnum = t.symnum := by
  unfold newSymbol at hrun
  by_cases hfull : t.symbols.length = MAXNAME
  · rw [if_pos hfull] at hrun
    cases hrun
  · rw [if_neg hfull, List.take_of_length_le hshort.le] at hrun
    cases hrun
    refine ⟨⟨?_, ?_, ?_, ?_, ?_⟩, rfl, rfl, rfl, rfl⟩
    · have hroom := h.room
      rw [List.length_append, List.length_singleton]
      omega
    · rw [List.map_append, h.ids, List.length_append, List.length_singleton, List.range_succ, List.map_append]
      rfl
    · intro s hs
      rcases List.mem_append.1 hs with hs | hs
      · exact h.short s hs
      · rw [List.mem_singleton.1 hs]
        exact hshort
    · rw [List.map_append, List.map_singleton, List.nodup_append]
      refine ⟨h.apart, List.nodup_singleton _, ?_⟩
      intro a ha b hb
      obtain ⟨s, hs, rfl⟩ := List.mem_map.1 ha
      rw [List.mem_singleton.1 hb]
      exact hnew s hs
    · intro hash
      rw [List.reverse_append, List.reverse_singleton, List.singleton_append, List.filter_cons]
      by_cases hhash : hashSymbol name = hash
      · subst hhash
        dsimp only
        rw [Function.update_self, if_pos (by simp), h.chains]
      · dsimp only
        rw [Function.update_of_ne (Ne.symm hhash), if_neg (by simpa using hhash), h.chains]

theorem newSymbol_free (hash : Nat) (id : Token) (hfree : ¬t.symbols.length = MAXNAME)
    (hshort : name.length < NAMELEN) :
    ∃ t', newSymbol name hash id t = some (⟨name, id⟩, t') ∧ t'.symbols = t.symbols ++ [⟨name, id⟩] ∧
      t'.symnum = t.symnum := by
  unfold newSymbol
  rw [if_neg hfree, List.take_of_length_le hshort.le]
  exact ⟨_, rfl, rfl, rfl⟩

theorem findSymbol_some {hash : Nat} (h : t.Right) (hshort : name.length < NAMELEN)
    (hfind : findSymbol name hash t = some s) : s ∈ t.symbols ∧ s.name = name := by
  unfold findSymbol at hfind
  have hmem := List.mem_of_find?_eq_some hfind
  have heq : s.name.take NAMELEN = name.take NAMELEN := by simpa using List.find?_some hfind
  rw [h.chains, List.mem_filter, List.mem_reverse] at hmem
  rw [List.take_of_length_le (h.short s hmem.1).le, List.take_of_length_le hshort.le] at heq
  exact ⟨hmem.1, heq⟩

theorem findSymbol_none (h : t.Right) (hfind : findSymbol name (hashSymbol name) t = none) :
    ∀ s ∈ t.symbols, s.name ≠ name := by
  rintro s hs rfl
  have hchain : s ∈ t.symhash (hashSymbol s.name) := by
    rw [h.chains, List.mem_filter, List.mem_reverse]
    exact ⟨hs, by simp⟩
  have := List.find?_eq_none.1 hfind s hchain
  simp at this

/-! ## Keywords -/

theorem addKeywords_right (ks : List String) (h : t.Right) (hroom : t.symbols.length + ks.length ≤ keytab.length)
    (hshort : ∀ k ∈ ks, (ascii k).length < NAMELEN) (hapart : (t.symbols.map Name.name ++ ks.map ascii).Nodup) :
    ∃ t', addKeywords ks (T_KEYWORD + BitVec.ofNat 16 t.symbols.length) t = some t' ∧ t'.Right ∧
      t'.symbols.map Name.name = t.symbols.map Name.name ++ ks.map ascii ∧ t'.symbase = t'.symbols.length ∧
      t'.symnum = t.symnum := by
  induction ks generalizing t with
  | nil => exact ⟨_, rfl, ⟨h.room, h.ids, h.short, h.apart, h.chains⟩, by simp, rfl, rfl⟩
  | cons k ks ih =>
    rw [List.length_cons, keytab_length] at hroom
    have hid : T_KEYWORD + BitVec.ofNat 16 t.symbols.length = idAt t.symbols.length := by
      unfold idAt
      rw [if_pos (by rw [keytab_length]; omega)]
    have hfree : ¬t.symbols.length = MAXNAME := by
      have hmax : MAXNAME = 1024 := rfl
      omega
    obtain ⟨t₁, hnew, -, -⟩ := newSymbol_free (hashSymbol (ascii k)) (idAt t.symbols.length) hfree
      (hshort k List.mem_cons_self)
    have hother : ∀ s ∈ t.symbols, s.name ≠ ascii k := by
      intro s hs heq
      refine (List.nodup_append.1 hapart).2.2 s.name (List.mem_map_of_mem hs) (ascii k) ?_ heq
      exact List.mem_cons_self
    obtain ⟨hright, hs, hsymbols, -, hsymnum⟩ := newSymbol_right h (hshort k List.mem_cons_self) hother hnew
    have hnames : t₁.symbols.map Name.name = t.symbols.map Name.name ++ [ascii k] := by
      rw [hsymbols, List.map_append, hs]
      rfl
    have hlength : t₁.symbols.length = t.symbols.length + 1 := by
      rw [hsymbols, List.length_append, List.length_singleton]
    obtain ⟨t', hrun, hright', hnames', hbase, hsymnum'⟩ := ih hright (by rw [hlength, keytab_length]; omega)
      (fun k hk => hshort k (List.mem_cons_of_mem _ hk)) (by rw [hnames, List.append_assoc]; exact hapart)
    refine ⟨t', ?_, hright', ?_, hbase, hsymnum'.trans hsymnum⟩
    · rw [addKeywords, hid, hnew, Option.bind_some, ← hid]
      rw [hlength, BitVec.ofNat_add, ← BitVec.add_assoc] at hrun
      exact hrun
    · rw [hnames', hnames, List.append_assoc]
      rfl

/-- The words come first, and the next number is that of the next place. -/
structure Table.Ready (t : Table) : Prop extends t.Right where
  words : (t.symbols.map Name.name).take keytab.length = keytab.map ascii
  base : t.symbase = keytab.length
  enough : keytab.length ≤ t.symbols.length
  next : t.symnum = T_SYMBOL + BitVec.ofNat 16 (t.symbols.length - keytab.length)

theorem keywords_ready :
    ∃ t, addKeywords keytab T_KEYWORD start = some t ∧ t.Ready ∧ t.symbols.length = keytab.length := by
  obtain ⟨t, hrun, hright, hnames, hbase, hsymnum⟩ :=
    addKeywords_right keytab start_right (by decide) (by decide) (by decide)
  have hlength := congrArg List.length hnames
  rw [List.length_append, List.length_map, List.length_map, List.length_map] at hlength
  have hcount : t.symbols.length = keytab.length := hlength.trans (Nat.zero_add _)
  refine ⟨t, hrun, ⟨hright, ?_, hbase.trans hcount, hcount.ge, ?_⟩, hcount⟩
  · rw [hnames]
    rfl
  · rw [hsymnum, hcount, Nat.sub_self]
    rfl

/-! ## One identifier after the other -/

theorem symstr_eq (x : Identifier) : x.symstr = x.text.take 15 := rfl

theorem symstr_short (x : Identifier) : x.symstr.length < NAMELEN := by
  have hlen : NAMELEN = 16 := rfl
  rw [symstr_eq, List.length_take]
  omega

/-- The reader keeps the beginning of what it goes over. -/
theorem getSymbolTail_take {h : Host} {src src' : Source h} {m : Nat} {tail : List Byte}
    (hread : getSymbolTail m src = some (tail, src')) :
    ∃ run : List Byte, (∀ c ∈ run, iscsymbol c = true) ∧ tail = run.take m := by
  fun_induction getSymbolTail m src generalizing tail with
  | case1 => cases hread
  | case2 m src c src₁ hget hsymbol ih =>
    obtain ⟨⟨tail₁, src₂⟩, hrest, heq⟩ := Option.map_eq_some_iff.1 hread
    cases heq
    obtain ⟨run, hrun, htail⟩ := ih hrest
    refine ⟨c :: run, ?_, ?_⟩
    · intro c' hc'
      rcases List.mem_cons.1 hc' with rfl | hc'
      · exact hsymbol
      · exact hrun c' hc'
    · cases m with
      | zero => rw [if_pos rfl, htail, Nat.zero_sub, List.take_zero, List.take_zero]
      | succ m => rw [if_neg m.succ_ne_zero, htail, Nat.add_sub_cancel, List.take_succ_cons]
  | case3 m src c src₁ hget hsymbol =>
    obtain ⟨src₂, -, heq⟩ := Option.map_eq_some_iff.1 hread
    cases heq
    refine ⟨[], ?_, List.take_nil.symm⟩
    rintro c ⟨⟩

/-- The same names with the same numbers, in any order. -/
structure Agrees (names : List (List Byte × Token)) (symnum : Token) (t : Table) : Prop where
  lookup : ∀ name token, names.lookup name = some token ↔ ∃ s ∈ t.symbols, s.name = name ∧ s.id = token
  length : names.length = t.symbols.length
  next : symnum = t.symnum

theorem lookup_pairs {ss : List Name} (hapart : (ss.map Name.name).Nodup) :
    (ss.map fun s => (s.name, s.id)).lookup name = some token ↔ ∃ s ∈ ss, s.name = name ∧ s.id = token := by
  induction ss with
  | nil => simp
  | cons s ss ih =>
    rw [List.map_cons, List.nodup_cons] at hapart
    rw [List.map_cons, List.lookup_cons]
    by_cases hsame : name = s.name
    · rw [beq_iff_eq.2 hsame]
      dsimp only
      constructor
      · intro heq
        exact ⟨s, List.mem_cons_self, hsame.symm, Option.some.inj heq⟩
      · rintro ⟨s', hs', hname, rfl⟩
        rcases List.mem_cons.1 hs' with rfl | hs'
        · rfl
        · exact absurd (List.mem_map.2 ⟨s', hs', hname.trans hsame⟩) hapart.1
    · rw [beq_eq_false_iff_ne.2 hsame]
      dsimp only
      rw [ih hapart.2]
      constructor
      · rintro ⟨s', hs', hname, hid⟩
        exact ⟨s', List.mem_cons_of_mem _ hs', hname, hid⟩
      · rintro ⟨s', hs', hname, hid⟩
        rcases List.mem_cons.1 hs' with rfl | hs'
        · exact absurd hname.symm hsame
        · exact ⟨s', hs', hname, hid⟩

/-- Both begin with the same words. -/
theorem keywords_agree :
    ∃ t, addKeywords keytab T_KEYWORD start = some t ∧ t.Ready ∧ Agrees keywords T_SYMBOL t := by
  obtain ⟨t, hrun, hready, hcount⟩ := keywords_ready
  have hnames := hready.words
  rw [← hcount, List.take_of_length_le (by rw [List.length_map])] at hnames
  have hpairs : keywords = t.symbols.map fun s => (s.name, s.id) := by
    rw [← List.zip_map', hnames, hready.ids, hcount]
    decide
  refine ⟨t, hrun, hready, ?_, ?_, ?_⟩
  · intro name token
    rw [hpairs]
    exact lookup_pairs hready.apart
  · rw [hpairs, List.length_map]
  · rw [hready.next, hcount, Nat.sub_self]
    rfl

/-- What the tokenizer says of an identifier is what the table says of it. -/
theorem tokenizeSymbol_agrees {h : Host} {st st' : State h} {c : Byte} (hc : iscsymstart c = true) (hready : t.Ready)
    (hagrees : Agrees st.names st.symnum t) (hrun : Tokenizer.tokenizeSymbol c st = some (token, st')) :
    ∃ x t', x.first = c ∧ tokenizeSymbol x t = some (token, t') ∧ Agrees st'.names st'.symnum t' := by
  unfold Tokenizer.tokenizeSymbol at hrun
  obtain ⟨⟨tail, source⟩, hread, hrun⟩ := Option.bind_eq_some_iff.1 hrun
  obtain ⟨run, hgoes, rfl⟩ := getSymbolTail_take hread
  refine ⟨⟨c, run, hc, hgoes⟩, ?_⟩
  dsimp only at hrun
  set x : Identifier := ⟨c, run, hc, hgoes⟩
  unfold tokenizeSymbol
  dsimp only
  cases hfind : findSymbol x.symstr (hashSymbol x.symstr) t with
  | some s =>
    obtain ⟨hmem, hname⟩ := findSymbol_some hready.toRight (symstr_short x) hfind
    have hlookup : st.names.lookup (c :: run.take 14) = some s.id := (hagrees.lookup _ _).2 ⟨s, hmem, hname, rfl⟩
    rw [hlookup] at hrun
    cases hrun
    exact ⟨t, rfl, rfl, hagrees⟩
  | none =>
    have hnone := findSymbol_none hready.toRight hfind
    have hlookup : st.names.lookup (c :: run.take 14) = none := by
      rw [Option.eq_none_iff_forall_ne_some]
      intro token hsome
      obtain ⟨s, hs, hname, -⟩ := (hagrees.lookup _ _).1 hsome
      exact hnone s hs hname
    rw [hlookup] at hrun
    dsimp only at hrun
    by_cases hfull : st.names.length = MAXNAME
    · rw [if_pos hfull] at hrun
      cases hrun
    · rw [if_neg hfull] at hrun
      cases hrun
      obtain ⟨t', hnew, hsymbols, hsymnum⟩ := newSymbol_free (hashSymbol x.symstr) t.symnum
        (by rw [← hagrees.length]; exact hfull) (symstr_short x)
      rw [hnew, hagrees.next]
      refine ⟨{ t' with symnum := t'.symnum + 1 }, rfl, rfl, ⟨?_, ?_, ?_⟩⟩
      · intro name token
        dsimp only
        rw [List.lookup_cons, hsymbols]
        by_cases hsame : name = c :: run.take 14
        · rw [beq_iff_eq.2 hsame]
          dsimp only
          rw [Option.some_inj]
          constructor
          · intro heq
            exact ⟨⟨x.symstr, t.symnum⟩, List.mem_append_right _ (List.mem_singleton_self _), hsame.symm, heq⟩
          · rintro ⟨s, hs, hname, rfl⟩
            rcases List.mem_append.1 hs with hs | hs
            · exact absurd (hname.trans hsame) (hnone s hs)
            · rw [List.mem_singleton.1 hs]
        · rw [beq_eq_false_iff_ne.2 hsame]
          dsimp only
          rw [hagrees.lookup]
          constructor
          · rintro ⟨s, hs, hname, hid⟩
            exact ⟨s, List.mem_append_left _ hs, hname, hid⟩
          · rintro ⟨s, hs, hname, hid⟩
            rcases List.mem_append.1 hs with hs | hs
            · exact ⟨s, hs, hname, hid⟩
            · rw [List.mem_singleton.1 hs] at hname
              exact absurd hname.symm hsame
      · dsimp only
        rw [List.length_cons, hsymbols, List.length_append, hagrees.length]
        rfl
      · dsimp only
        rw [hsymnum]

/-! ## The list of the back end -/

end Fuzemsys.Fcc.Names
