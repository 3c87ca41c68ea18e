import PongoOS.Support.Outcome
import Mathlib.Algebra.GroupWithZero.Nat
import Mathlib.Data.List.Basic
import Mathlib.Logic.Function.Basic

/-!
# Export tables

The tables of exported symbols form a chain.  Each ends in an entry without a
name, and the value of that entry leads to the next table.  `link_exports` puts
a table at the end of the chain and `resolve_symbol` searches the chain from the
kernel's own table on.
-/

namespace PongoOS

/-- `struct pongo_exports`.  `none` is a null pointer. -/
structure PongoExports where
  name : Option (List UInt8)
  value : ℕ
deriving DecidableEq, Repr

/-- The entry at each address. -/
abbrev ExportMemory := ℕ → PongoExports

/-- `sizeof(struct pongo_exports)`. -/
def exportSize : ℕ := 16

/-! ## The two walks -/

/-- The loop of `link_exports`, which has come to `api`. -/
def linkExportsFrom (mem : ExportMemory) (exports : ℕ) :
    ℕ → ℕ → Outcome ExportMemory
  | 0, _ => .error .outOfFuel
  | fuel + 1, api =>
      match (mem api).name with
      | some _ => linkExportsFrom mem exports fuel (api + exportSize)
      | none =>
          if (mem api).value ≠ 0 then
            linkExportsFrom mem exports fuel (mem api).value
          else pure (Function.update mem api ⟨none, exports⟩)

/-- The loop of `resolve_symbol`, which has come to `api`. -/
def resolveSymbolFrom (mem : ExportMemory) (name : List UInt8) :
    ℕ → ℕ → Outcome ℕ
  | 0, _ => .error .outOfFuel
  | fuel + 1, api =>
      match (mem api).name with
      | some entry =>
          if entry = name then pure (mem api).value
          else resolveSymbolFrom mem name fuel (api + exportSize)
      | none =>
          if (mem api).value ≠ 0 then
            resolveSymbolFrom mem name fuel (mem api).value
          else pure 0

/-- What a search for `name` comes to, from the entry at `api` on. -/
inductive Resolves (mem : ExportMemory) (name : List UInt8) : ℕ → ℕ → Prop where
  | found {api : ℕ} (h : (mem api).name = some name) :
      Resolves mem name api (mem api).value
  | next {api v : ℕ} {entry : List UInt8} (h : (mem api).name = some entry)
      (hne : entry ≠ name) (hrest : Resolves mem name (api + exportSize) v) :
      Resolves mem name api v
  | link {api v : ℕ} (h : (mem api).name = none) (hlink : (mem api).value ≠ 0)
      (hrest : Resolves mem name (mem api).value v) : Resolves mem name api v
  | missing {api : ℕ} (h : (mem api).name = none)
      (hend : (mem api).value = 0) : Resolves mem name api 0

section Search

variable {mem : ExportMemory} {name : List UInt8} {api v fuel : ℕ}

/-- A search that comes to an end is made with any fuel from some bound on. -/
theorem Resolves.resolveSymbolFrom_eq (h : Resolves mem name api v) :
    ∃ bound, ∀ fuel, bound ≤ fuel →
      resolveSymbolFrom mem name fuel api = .ok v := by
  induction h with
  | found h =>
      refine ⟨1, fun fuel hfuel => ?_⟩
      obtain ⟨k, rfl⟩ := Nat.exists_eq_add_of_le' hfuel
      rw [resolveSymbolFrom, h]
      exact if_pos rfl
  | next h hne _ ih =>
      obtain ⟨bound, ih⟩ := ih
      refine ⟨bound + 1, fun fuel hfuel => ?_⟩
      obtain ⟨k, rfl⟩ : ∃ k, fuel = k + 1 := ⟨fuel - 1, by omega⟩
      rw [resolveSymbolFrom, h]
      exact (if_neg hne).trans (ih k (by omega))
  | link h hlink _ ih =>
      obtain ⟨bound, ih⟩ := ih
      refine ⟨bound + 1, fun fuel hfuel => ?_⟩
      obtain ⟨k, rfl⟩ : ∃ k, fuel = k + 1 := ⟨fuel - 1, by omega⟩
      rw [resolveSymbolFrom, h]
      exact (if_pos hlink).trans (ih k (by omega))
  | missing h hend =>
      refine ⟨1, fun fuel hfuel => ?_⟩
      obtain ⟨k, rfl⟩ := Nat.exists_eq_add_of_le' hfuel
      rw [resolveSymbolFrom, h]
      exact if_neg (not_not.mpr hend)

end Search

/-! ## Tables in memory -/

structure ExportTable where
  base : ℕ
  entries : List (List UInt8 × ℕ)
deriving DecidableEq, Repr

namespace ExportTable

variable {mem : ExportMemory} {T U : ExportTable} {next a fuel : ℕ}
  {v : PongoExports} {name : List UInt8}

/-- Where the entry without a name is. -/
def terminator (T : ExportTable) : ℕ :=
  T.base + exportSize * T.entries.length

/-- The bytes of two tables do not overlap. -/
def Apart (T U : ExportTable) : Prop :=
  T.terminator + exportSize ≤ U.base ∨ U.terminator + exportSize ≤ T.base

/-- `mem` holds the table, whose last entry leads to `next`. -/
structure Holds (mem : ExportMemory) (T : ExportTable) (next : ℕ) : Prop where
  base_ne_zero : T.base ≠ 0
  entry_eq : ∀ i (hi : i < T.entries.length),
    mem (T.base + exportSize * i) = ⟨some T.entries[i].1, T.entries[i].2⟩
  terminator_eq : mem T.terminator = ⟨none, next⟩

/-- A table that ends properly and is not linked to another one. -/
abbrev Terminated (mem : ExportMemory) (T : ExportTable) : Prop :=
  T.Holds mem 0

/-- The table without its first entry. -/
def tail (T : ExportTable) : ExportTable :=
  ⟨T.base + exportSize, T.entries.tail⟩

theorem tail_terminator {e : List UInt8 × ℕ} {es : List (List UInt8 × ℕ)}
    (hentries : T.entries = e :: es) : T.tail.terminator = T.terminator := by
  simp only [tail, terminator, exportSize, hentries, List.tail_cons,
    List.length_cons]
  omega

theorem Holds.tail {e : List UInt8 × ℕ} {es : List (List UInt8 × ℕ)}
    (h : T.Holds mem next) (hentries : T.entries = e :: es) :
    T.tail.Holds mem next := by
  constructor
  · simp [ExportTable.tail, exportSize]
  · intro i hi
    simp only [ExportTable.tail, hentries, List.tail_cons] at hi ⊢
    have hentry := h.entry_eq (i + 1) (by simp [hentries, hi])
    simp only [hentries, List.getElem_cons_succ] at hentry
    rw [← hentry]
    congr 1
    simp only [exportSize]
    omega
  · rw [tail_terminator hentries]
    exact h.terminator_eq

theorem Holds.head {e : List UInt8 × ℕ} {es : List (List UInt8 × ℕ)}
    (h : T.Holds mem next) (hentries : T.entries = e :: es) :
    mem T.base = ⟨some e.1, e.2⟩ := by
  have hentry := h.entry_eq 0 (by simp [hentries])
  simpa [hentries] using hentry

theorem Holds.update (h : T.Holds mem next)
    (hout : a + exportSize ≤ T.base ∨ T.terminator < a) :
    T.Holds (Function.update mem a v) next := by
  constructor
  · exact h.base_ne_zero
  · intro i hi
    have hne : T.base + exportSize * i ≠ a := by
      simp only [terminator, exportSize] at hout ⊢
      omega
    rw [Function.update_of_ne hne]
    exact h.entry_eq i hi
  · have hne : T.terminator ≠ a := by
      simp only [terminator, exportSize] at hout ⊢
      omega
    rw [Function.update_of_ne hne]
    exact h.terminator_eq

/-- Writing the link of a table. -/
theorem Holds.relink (h : T.Holds mem next) (a : ℕ) :
    T.Holds (Function.update mem T.terminator ⟨none, a⟩) a := by
  constructor
  · exact h.base_ne_zero
  · intro i hi
    have hne : T.base + exportSize * i ≠ T.terminator := by
      simp only [terminator, exportSize]
      omega
    rw [Function.update_of_ne hne]
    exact h.entry_eq i hi
  · exact Function.update_self ..

theorem Apart.symm (h : T.Apart U) : U.Apart T := Or.symm h

theorem Apart.terminator_outside (h : T.Apart U) :
    U.terminator + exportSize ≤ T.base ∨ T.terminator < U.terminator := by
  simp only [Apart, terminator, exportSize] at h ⊢
  omega

/-! ## A walk over one table -/

theorem link_entries {exports : ℕ} (h : T.Holds mem next) (fuel : ℕ) :
    linkExportsFrom mem exports (T.entries.length + fuel) T.base =
      linkExportsFrom mem exports fuel T.terminator := by
  generalize hes : T.entries = es
  induction es generalizing T with
  | nil => simp [terminator, hes]
  | cons e es ih =>
      have hrest := ih (h.tail hes) (by simp [ExportTable.tail, hes])
      rw [tail_terminator hes] at hrest
      rw [List.length_cons, Nat.add_right_comm, linkExportsFrom, h.head hes]
      exact hrest

/-- An entry called `name` ends the search. -/
theorem resolve_entries_found (h : T.Holds mem next) {value : ℕ}
    (hfound : T.entries.lookup name = some value) (fuel : ℕ) :
    resolveSymbolFrom mem name (T.entries.length + fuel) T.base =
      .ok value := by
  generalize hes : T.entries = es at hfound ⊢
  induction es generalizing T with
  | nil => cases hfound
  | cons e es ih =>
      rw [List.length_cons, Nat.add_right_comm, resolveSymbolFrom, h.head hes]
      by_cases heq : e.1 = name
      · subst heq
        rw [List.lookup_cons_self] at hfound
        cases hfound
        exact if_pos rfl
      · have hne : (name == e.1) = false :=
          beq_eq_false_iff_ne.mpr fun h => heq h.symm
        rw [List.lookup_cons, hne] at hfound
        simp only [if_neg heq]
        exact ih (h.tail hes) (by simp [ExportTable.tail, hes]) hfound

theorem resolve_entries_missing (h : T.Holds mem next)
    (hmissing : T.entries.lookup name = none) (fuel : ℕ) :
    resolveSymbolFrom mem name (T.entries.length + fuel) T.base =
      resolveSymbolFrom mem name fuel T.terminator := by
  generalize hes : T.entries = es at hmissing ⊢
  induction es generalizing T with
  | nil => simp [terminator, hes]
  | cons e es ih =>
      by_cases heq : e.1 = name
      · subst heq
        rw [List.lookup_cons_self] at hmissing
        cases hmissing
      · have hne : (name == e.1) = false :=
          beq_eq_false_iff_ne.mpr fun h => heq h.symm
        rw [List.lookup_cons, hne] at hmissing
        have hrest := ih (h.tail hes) (by simp [ExportTable.tail, hes]) hmissing
        rw [tail_terminator hes] at hrest
        rw [List.length_cons, Nat.add_right_comm, resolveSymbolFrom,
          h.head hes]
        simp only [if_neg heq]
        exact hrest

end ExportTable

/-! ## The chain -/

open ExportTable

/-- `T` leads to the tables `Ts`, linked in this order. -/
def Linked (mem : ExportMemory) : ExportTable → List ExportTable → Prop
  | T, [] => T.Terminated mem
  | T, U :: Us => T.Holds mem U.base ∧ Linked mem U Us

/-- How many entries a walk over the tables comes to. -/
def walkLength (Ts : List ExportTable) : ℕ :=
  (Ts.map fun T => T.entries.length + 1).sum

/-- The entries of all the tables, one table after the other. -/
def allEntries (Ts : List ExportTable) : List (List UInt8 × ℕ) :=
  Ts.flatMap ExportTable.entries

theorem walkLength_cons_add (T : ExportTable) (Ts : List ExportTable)
    (fuel : ℕ) : walkLength (T :: Ts) + fuel =
      T.entries.length + (walkLength Ts + fuel + 1) := by
  simp only [walkLength, List.map_cons, List.sum_cons]
  omega

theorem allEntries_cons (T : ExportTable) (Ts : List ExportTable) :
    allEntries (T :: Ts) = T.entries ++ allEntries Ts :=
  List.flatMap_cons

namespace Linked

variable {mem : ExportMemory} {T U : ExportTable} {Ts : List ExportTable}
  {name : List UInt8} {exports : ℕ}

theorem base_ne_zero (h : Linked mem T Ts) : T.base ≠ 0 := by
  cases Ts with
  | nil => exact ExportTable.Holds.base_ne_zero h
  | cons U Us => exact h.1.base_ne_zero

theorem last_terminated (h : Linked mem T Ts) :
    (Ts.getLastD T).Terminated mem := by
  induction Ts generalizing T with
  | nil => exact h
  | cons V Vs ih =>
      rw [List.getLastD_cons]
      exact ih h.2

/-- The walk of `link_exports` ends at the terminator of the last table. -/
theorem link (h : Linked mem T Ts) (fuel : ℕ) :
    linkExportsFrom mem exports (walkLength (T :: Ts) + fuel) T.base =
      .ok (Function.update mem (Ts.getLastD T).terminator
        ⟨none, exports⟩) := by
  rw [walkLength_cons_add]
  induction Ts generalizing T with
  | nil =>
      have hend : mem T.terminator = ⟨none, 0⟩ :=
        ExportTable.Holds.terminator_eq h
      rw [link_entries h, linkExportsFrom, hend]
      simp only [ne_eq, not_true_eq_false, if_false]
      rfl
  | cons V Vs ih =>
      rw [link_entries h.1, linkExportsFrom, h.1.terminator_eq]
      simp only [if_pos h.2.base_ne_zero, List.getLastD_cons]
      rw [walkLength_cons_add]
      exact ih h.2

/-- The walk of `resolve_symbol` finds the first entry of the whole chain. -/
theorem resolve (h : Linked mem T Ts) (fuel : ℕ) :
    resolveSymbolFrom mem name (walkLength (T :: Ts) + fuel) T.base =
      .ok (((allEntries (T :: Ts)).lookup name).getD 0) := by
  rw [walkLength_cons_add, allEntries_cons, List.lookup_append]
  induction Ts generalizing T with
  | nil =>
      cases hlookup : T.entries.lookup name with
      | some value => exact resolve_entries_found h hlookup _
      | none =>
          have hend : mem T.terminator = ⟨none, 0⟩ :=
            ExportTable.Holds.terminator_eq h
          rw [resolve_entries_missing h hlookup, resolveSymbolFrom, hend]
          rfl
  | cons V Vs ih =>
      cases hlookup : T.entries.lookup name with
      | some value => exact resolve_entries_found h.1 hlookup _
      | none =>
          rw [resolve_entries_missing h.1 hlookup, resolveSymbolFrom,
            h.1.terminator_eq]
          simp only [if_pos h.2.base_ne_zero, Option.none_or]
          rw [walkLength_cons_add, allEntries_cons, List.lookup_append]
          exact ih h.2

/-- Writing the address of a table into the last terminator links it. -/
theorem snoc (h : Linked mem T Ts) (hU : U.Terminated mem)
    (hapart : (T :: Ts ++ [U]).Pairwise Apart) :
    Linked (Function.update mem (Ts.getLastD T).terminator ⟨none, U.base⟩) T
      (Ts ++ [U]) := by
  induction Ts generalizing T with
  | nil =>
      have hTU : T.Apart U := by simpa using hapart
      exact ⟨ExportTable.Holds.relink h U.base,
        hU.update hTU.symm.terminator_outside⟩
  | cons V Vs ih =>
      rw [List.cons_append, List.pairwise_cons] at hapart
      have hlast : T.Apart (Vs.getLastD V) :=
        hapart.1 _ (List.mem_append_left _ List.getLastD_mem_cons)
      rw [List.getLastD_cons]
      exact ⟨h.1.update hlast.terminator_outside, ih h.2 hapart.2⟩

end Linked

/-! ## Calls -/

/-- `link_exports`, where `public_api` is at `api`. -/
def linkExports (fuel api : ℕ) (mem : ExportMemory) (exports : ℕ) :
    Outcome ExportMemory :=
  linkExportsFrom mem exports fuel api

/-- `resolve_symbol`, where `public_api` is at `api`. -/
def resolveSymbol (fuel api : ℕ) (mem : ExportMemory) (name : List UInt8) :
    Outcome ℕ :=
  resolveSymbolFrom mem name fuel api

/-- The argument of `link_exports`: a table or a null pointer. -/
def exportsPointer : Option ExportTable → ℕ
  | some T => T.base
  | none => 0

/-- One call of `link_exports` after the other. -/
def linkAll (fuel api : ℕ) :
    ExportMemory → List (Option ExportTable) → Outcome ExportMemory
  | mem, [] => pure mem
  | mem, c :: cs => do
      linkAll fuel api (← linkExports fuel api mem (exportsPointer c)) cs

/-- The tables among the arguments of the calls. -/
def tablesOf (calls : List (Option ExportTable)) : List ExportTable :=
  calls.flatMap Option.toList

theorem walkLength_append (Ts Us : List ExportTable) :
    walkLength (Ts ++ Us) = walkLength Ts + walkLength Us := by
  simp [walkLength]

theorem lookup_eq_none_iff_ne {es : List (List UInt8 × ℕ)}
    {name : List UInt8} :
    es.lookup name = none ↔ ∀ e ∈ es, e.1 ≠ name := by
  rw [List.lookup_eq_none_iff]
  constructor
  · intro h e he heq
    simpa [heq] using h e he
  · intro h e he
    simpa using (h e he).symm

section Calls

variable {mem : ExportMemory} {T : ExportTable} {Ts : List ExportTable}

/-- One call puts its table at the end of the chain and leaves the tables that
are not linked yet as they are. -/
theorem Linked.call (h : Linked mem T Ts) (c : Option ExportTable)
    (Us : List ExportTable)
    (hterminated : ∀ U ∈ c.toList ++ Us, U.Terminated mem)
    (hapart : (T :: Ts ++ (c.toList ++ Us)).Pairwise Apart) :
    ∃ mem', (∀ fuel, walkLength (T :: Ts) ≤ fuel →
        linkExports fuel T.base mem (exportsPointer c) = .ok mem') ∧
      Linked mem' T (Ts ++ c.toList) ∧ ∀ U ∈ Us, U.Terminated mem' := by
  refine ⟨Function.update mem (Ts.getLastD T).terminator
    ⟨none, exportsPointer c⟩, ?_, ?_, ?_⟩
  · intro fuel hfuel
    obtain ⟨k, rfl⟩ := Nat.exists_eq_add_of_le hfuel
    exact h.link k
  · cases c with
    | none =>
        rw [show (⟨none, exportsPointer none⟩ : PongoExports) =
          mem (Ts.getLastD T).terminator from h.last_terminated.3.symm,
          Function.update_eq_self, Option.toList_none, List.append_nil]
        exact h
    | some U =>
        apply h.snoc (hterminated U (by simp))
        have hsublist : (T :: Ts ++ [U]).Sublist
            (T :: Ts ++ ((some U).toList ++ Us)) := by simp
        exact List.Pairwise.sublist hsublist hapart
  · intro U hU
    apply (hterminated U (List.mem_append_right _ hU)).update
    have hlast : (Ts.getLastD T).Apart U :=
      (List.pairwise_append.mp hapart).2.2 _ List.getLastD_mem_cons U
        (List.mem_append_right _ hU)
    exact hlast.symm.terminator_outside

theorem Linked.calls (h : Linked mem T Ts) (calls : List (Option ExportTable))
    (Us : List ExportTable)
    (hterminated : ∀ U ∈ tablesOf calls ++ Us, U.Terminated mem)
    (hapart : (T :: Ts ++ (tablesOf calls ++ Us)).Pairwise Apart) :
    ∃ mem', (∀ fuel, walkLength (T :: Ts ++ tablesOf calls) ≤ fuel →
        linkAll fuel T.base mem calls = .ok mem') ∧
      Linked mem' T (Ts ++ tablesOf calls) ∧ ∀ U ∈ Us, U.Terminated mem' := by
  induction calls generalizing mem Ts with
  | nil =>
      refine ⟨mem, fun _ _ => rfl, ?_, hterminated⟩
      simpa [tablesOf] using h
  | cons c cs ih =>
      have htables : tablesOf (c :: cs) = c.toList ++ tablesOf cs :=
        List.flatMap_cons
      rw [htables, List.append_assoc] at hterminated hapart
      obtain ⟨mem₁, hcall, hlinked, hrest⟩ := h.call c _ hterminated hapart
      obtain ⟨mem₂, hcalls, hlinked', hrest'⟩ :=
        ih hlinked hrest (by simpa using hapart)
      refine ⟨mem₂, ?_, ?_, hrest'⟩
      · intro fuel hfuel
        rw [htables] at hfuel
        rw [linkAll, hcall fuel, Outcome.bind_eq_ok]
        · exact ⟨mem₁, rfl, hcalls fuel (by simpa using hfuel)⟩
        · rw [walkLength_append] at hfuel
          omega
      · rw [htables, ← List.append_assoc]
        exact hlinked'

end Calls

/-! ## Symbols across modules -/

/-- After any calls of `link_exports`, `resolve_symbol` returns the value of the
first entry of its name, and one more call does not change what it returns for
a name that is there. -/
theorem resolveSymbol_linkAll {mem : ExportMemory} {api : ExportTable}
    (calls : List (Option ExportTable)) (c : Option ExportTable)
    (hterminated : ∀ T ∈ api :: tablesOf (calls ++ [c]), T.Terminated mem)
    (hapart : (api :: tablesOf (calls ++ [c])).Pairwise Apart) :
    ∃ mem₁ mem₂ bound, ∀ fuel, bound ≤ fuel →
      linkAll fuel api.base mem calls = .ok mem₁ ∧
      linkExports fuel api.base mem₁ (exportsPointer c) = .ok mem₂ ∧
      ∀ name, ∃ value, resolveSymbol fuel api.base mem₁ name = .ok value ∧
        value = ((allEntries (api :: tablesOf calls)).lookup name).getD 0 ∧
        (value = 0 ↔
          (∀ e ∈ allEntries (api :: tablesOf calls), e.1 ≠ name) ∨
          (allEntries (api :: tablesOf calls)).lookup name = some 0) ∧
        ((∃ e ∈ allEntries (api :: tablesOf calls), e.1 = name) →
          resolveSymbol fuel api.base mem₂ name = .ok value) := by
  have htables : tablesOf (calls ++ [c]) = tablesOf calls ++ c.toList := by
    simp [tablesOf]
  rw [htables] at hterminated hapart
  have hfirst : Linked mem api [] := hterminated api (by simp)
  obtain ⟨mem₁, hcalls, hlinked₁, hc⟩ := hfirst.calls calls c.toList
    (fun T hT => hterminated T (List.mem_cons_of_mem _ hT)) hapart
  obtain ⟨mem₂, hcall, hlinked₂, -⟩ := hlinked₁.call c []
    (by simpa using hc) (by simpa using hapart)
  rw [List.nil_append] at hlinked₁ hlinked₂
  refine ⟨mem₁, mem₂, walkLength (api :: (tablesOf calls ++ c.toList)), ?_⟩
  intro fuel hfuel
  have hfuel₁ : walkLength (api :: tablesOf calls) ≤ fuel := by
    rw [← List.cons_append, walkLength_append] at hfuel
    omega
  refine ⟨hcalls fuel hfuel₁, hcall fuel hfuel₁, ?_⟩
  obtain ⟨k₁, rfl⟩ := Nat.exists_eq_add_of_le hfuel₁
  obtain ⟨k₂, hk₂⟩ := Nat.exists_eq_add_of_le hfuel
  intro name
  refine ⟨_, hlinked₁.resolve k₁, rfl, ?_, ?_⟩
  · rw [← lookup_eq_none_iff_ne]
    cases (allEntries (api :: tablesOf calls)).lookup name with
    | none => simp
    | some value => simp
  · intro hmem
    have hall : allEntries (api :: (tablesOf calls ++ c.toList)) =
        allEntries (api :: tablesOf calls) ++ allEntries c.toList := by
      rw [← List.cons_append]
      exact List.flatMap_append
    rw [resolveSymbol, hk₂, hlinked₂.resolve k₂, hall, List.lookup_append]
    cases hlookup : (allEntries (api :: tablesOf calls)).lookup name with
    | none =>
        obtain ⟨e, he, heq⟩ := hmem
        exact absurd heq (lookup_eq_none_iff_ne.mp hlookup e he)
    | some value => rfl

/-! A table may export a null pointer, which looks like a missing symbol. -/

def smallApi : ExportTable := ⟨16, [([97], 5)]⟩

def nullExport : ExportTable := ⟨1024, [([98], 0)]⟩

def nullExportMemory : ExportMemory := fun a =>
  if a = 16 then ⟨some [97], 5⟩
  else if a = 1024 then ⟨some [98], 0⟩
  else ⟨none, 0⟩

theorem nullExportMemory_terminated :
    ∀ T ∈ [smallApi, nullExport], T.Terminated nullExportMemory := by
  intro T hT
  rw [List.mem_cons, List.mem_singleton] at hT
  rcases hT with rfl | rfl
  · constructor
    · decide
    · decide
    · decide
  · constructor
    · decide
    · decide
    · decide

theorem smallApi_apart : [smallApi, nullExport].Pairwise Apart := by
  rw [List.pairwise_pair]
  left
  decide

theorem resolveSymbol_nullExport :
    (∀ T ∈ [smallApi, nullExport], T.Terminated nullExportMemory) ∧
    [smallApi, nullExport].Pairwise Apart ∧
    (do
      let mem ← linkAll 4 smallApi.base nullExportMemory [some nullExport]
      resolveSymbol 4 smallApi.base mem [98]) = .ok 0 ∧
    ¬ ∀ e ∈ allEntries [smallApi, nullExport], e.1 ≠ [98] :=
  ⟨nullExportMemory_terminated, smallApi_apart, rfl, by decide⟩

theorem resolveSymbol_linkAll_small :
    ∃ mem₁ mem₂ bound, ∀ fuel, bound ≤ fuel →
      linkAll fuel smallApi.base nullExportMemory [none] = .ok mem₁ ∧
      linkExports fuel smallApi.base mem₁ nullExport.base = .ok mem₂ ∧
      resolveSymbol fuel smallApi.base mem₂ [97] = .ok 5 := by
  obtain ⟨mem₁, mem₂, bound, h⟩ := resolveSymbol_linkAll [none]
    (some nullExport) nullExportMemory_terminated smallApi_apart
  refine ⟨mem₁, mem₂, bound, ?_⟩
  intro fuel hfuel
  obtain ⟨hcalls, hcall, hresolve⟩ := h fuel hfuel
  obtain ⟨value, -, hvalue, -, hkeep⟩ := hresolve [97]
  rw [show value = 5 from hvalue] at hkeep
  exact ⟨hcalls, hcall, hkeep (by decide)⟩

end PongoOS
