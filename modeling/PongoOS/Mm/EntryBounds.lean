import PongoOS.Mm.AllocatorRuns
import PongoOS.Mm.ContiguousAllocation
import PongoOS.Support.Trace

/-!
# Indices into `ppage_list`

Every function that takes a physical address turns it into an index and refuses
one that is larger than `ppages`.  The index `ppages` itself passes the checks,
so a call that comes to it reads or writes the word behind the array.
-/

namespace PongoOS

namespace Mm

/-! ## Accesses -/

def physGetEntryIndices (s : Mm) (pa : ℕ) : List ℕ :=
  let off := sub64 pa s.boot.physBase
  if off % pageSize ≠ 0 then []
  else if s.ppages < off / pageSize then []
  else [off / pageSize]

/-- The indices of `phys_set_entry` are checked in the same way. -/
def physSetEntryIndices (s : Mm) (pa : ℕ) : List ℕ := s.physGetEntryIndices pa

def physUnlinkPageIndices (i : ℕ) (s : Mm) : List ℕ :=
  if s.ppages < i then []
  else
    let pa := s.pageAddr i
    s.physGetEntryIndices pa ++
      afterOk (s.physGetEntry pa) fun entry =>
        if refBits entry ≠ pageFree then []
        else
          let paNext := s.mem pa
          let paPrev := s.mem (pa + 8)
          (if paNext ≠ 0 then s.physGetEntryIndices paNext else []) ++
            afterOk (if paNext ≠ 0 then s.physGetEntry paNext else .ok pageFree)
              fun entry =>
                if refBits entry ≠ pageFree then []
                else if paPrev ≠ 0 then s.physGetEntryIndices paPrev
                else []

def markPhysWiredPageIndices (i : ℕ) (s : Mm) : List ℕ :=
  s.physGetEntryIndices (s.pageAddr i) ++
    afterOk (s.physGetEntry (s.pageAddr i)) fun entry =>
      if refBits entry ≠ pageFree then []
      else if s.ppages < i then []
      else [i]

/-- The bodies of `phys_force_free`, `phys_reference` and `phys_dereference`
check the index first. -/
def checkedIndices (i : ℕ) (s : Mm) : List ℕ := if s.ppages < i then [] else [i]

/-- A loop over the pages from offset `off` on, which has to be aligned. -/
def loopIndices (act : ℕ → Mm → List ℕ) (body : ℕ → Mm → Outcome Mm)
    (off n : ℕ) (s : Mm) : List ℕ :=
  if off % pageSize ≠ 0 then [] else forRangeTrace act body (off / pageSize) n s

end Mm

open Mm

/-- A call of a function that uses a physical address as an index. -/
inductive EntryCall where
  | physGetEntry (pa : ℕ)
  | physSetEntry (pa val : ℕ)
  | physUnlinkContiguous (pa size : ℕ)
  | markPhysWired (pa size : ℕ)
  | physForceFree (pa size : ℕ)
  | physReference (pa size : ℕ)
  | physDereference (pa size : ℕ)
deriving DecidableEq, Repr

namespace EntryCall

def run : EntryCall → Mm → Outcome Mm
  | .physGetEntry pa, s => do
      let _ ← s.physGetEntry pa
      pure s
  | .physSetEntry pa val, s => s.physSetEntry pa val
  | .physUnlinkContiguous pa size, s => Mm.physUnlinkContiguous pa size s
  | .markPhysWired pa size, s => Mm.markPhysWired pa size s
  | .physForceFree pa size, s => Mm.physForceFree pa size s
  | .physReference pa size, s => Mm.physReference pa size s
  | .physDereference pa size, s => Mm.physDereference pa size s

/-- The address is not one of RAM, and the call returns at once. -/
def Ignored (s : Mm) : EntryCall → Prop
  | .physUnlinkContiguous pa _ | .physReference pa _ | .physDereference pa _ =>
      pa = 0 ∨ pa < s.boot.physBase
  | _ => False

instance (s : Mm) (c : EntryCall) : Decidable (c.Ignored s) :=
  match c with
  | .physGetEntry _ | .physSetEntry _ _ | .markPhysWired _ _
  | .physForceFree _ _ => inferInstanceAs (Decidable False)
  | .physUnlinkContiguous _ _ | .physReference _ _ | .physDereference _ _ =>
      inferInstanceAs (Decidable (_ ∨ _))

/-- Where the address is in RAM. -/
def offset (s : Mm) : EntryCall → ℕ
  | .physGetEntry pa | .physSetEntry pa _ | .markPhysWired pa _
  | .physForceFree pa _ => sub64 pa s.boot.physBase
  | .physUnlinkContiguous pa _ | .physReference pa _ | .physDereference pa _ =>
      pa - s.boot.physBase

/-- The pages that the call is for. -/
def pages : EntryCall → ℕ
  | .physGetEntry _ | .physSetEntry _ _ => 1
  | .physUnlinkContiguous _ size => (size + 0x3fff) % 2 ^ 64 / pageSize
  | .markPhysWired _ size | .physForceFree _ size | .physReference _ size
  | .physDereference _ size => size / pageSize

/-- The indices of `ppage_list` that the call reads or writes. -/
def indices (s : Mm) (c : EntryCall) : List ℕ :=
  if c.Ignored s then []
  else
    match c with
    | .physGetEntry pa => s.physGetEntryIndices pa
    | .physSetEntry pa _ => s.physSetEntryIndices pa
    | .physUnlinkContiguous _ _ =>
        loopIndices physUnlinkPageIndices physUnlinkPage (c.offset s) c.pages s
    | .markPhysWired _ _ =>
        loopIndices markPhysWiredPageIndices markPhysWiredPage (c.offset s)
          c.pages s
    | .physForceFree _ _ =>
        loopIndices checkedIndices physForceFreePage (c.offset s) c.pages s
    | .physReference _ _ =>
        loopIndices checkedIndices physReferencePage (c.offset s) c.pages s
    | .physDereference _ _ =>
        loopIndices checkedIndices physDereferencePage (c.offset s) c.pages s

/-- Only entries of the array are touched, and a call for pages beyond it
panics. -/
structure InBounds (s : Mm) (c : EntryCall) : Prop where
  below : ∀ i ∈ c.indices s, i < s.ppages
  panics : ¬ c.Ignored s → 0 < c.pages →
    s.ppages < c.offset s / pageSize + c.pages →
    ∃ msg, c.run s = .error (.panic msg)

/-- The call goes on behind page `j`: a free page is not dereferenced, and one
that is not free is neither unlinked nor wired. -/
def Passes (s : Mm) (c : EntryCall) (j : ℕ) : Prop :=
  match c with
  | .physUnlinkContiguous _ _ | .markPhysWired _ _ => s.count j = pageFree
  | .physDereference _ _ => s.count j ≠ pageFree
  | _ => True

/-- The pages include the one behind the last page of RAM, and no page before
it stops the call. -/
def PassesEnd (s : Mm) (c : EntryCall) : Prop :=
  ¬ c.Ignored s ∧ c.offset s % pageSize = 0 ∧
    ChecksIndex.Reaches (c.Passes s) s.ppages (c.offset s / pageSize) c.pages

end EntryCall

/-! ## One page -/

namespace Mm

section Page

variable {s a b : Mm} {i j : ℕ}

theorem sub64_pageAddr_of_lt (hi : i < 2 ^ 50) :
    sub64 (s.pageAddr i) s.boot.physBase = i * pageSize := by
  simp only [sub64, pageAddr, pageSize]
  omega

theorem ppages_lt_of_sized (hsized : s.ppages * pageSize ≤ s.boot.memSize) :
    s.ppages < 2 ^ 50 := by
  have hfits := s.boot.ram_fits
  simp only [pageSize] at hsized
  omega

theorem physGetEntryIndices_pageAddr (hi : i < 2 ^ 50) :
    s.physGetEntryIndices (s.pageAddr i) = if s.ppages < i then [] else [i] := by
  simp only [physGetEntryIndices, sub64_pageAddr_of_lt hi, mul_pageSize_mod,
    mul_pageSize_div, ne_eq, not_true, if_false]

theorem physGetEntry_pageAddr_of_lt (hi : i < 2 ^ 50) :
    s.physGetEntry (s.pageAddr i) =
      if s.ppages < i then .error (.panic "OOB phys_get_entry: 0x%llx")
      else .ok (s.ppageList i) := by
  simp only [physGetEntry, sub64_pageAddr_of_lt hi, mul_pageSize_mod,
    mul_pageSize_div, panicIf, ne_eq, not_true, if_false, Outcome.ok_bind]
  split
  · rfl
  · rfl

/-- The counters from page `i` on are what they were. -/
structure CountsAhead (s : Mm) (i : ℕ) (a : Mm) : Prop where
  layout : SameLayout s a
  count : ∀ j, i ≤ j → a.count j = s.count j

theorem CountsAhead.refl (s : Mm) (i : ℕ) : CountsAhead s i s :=
  ⟨SameLayout.refl s, fun _ _ => rfl⟩

theorem CountsAhead.next (h : CountsAhead s i a) (hlayout : SameLayout a b)
    (hcount : ∀ j, j ≠ i → b.count j = a.count j) : CountsAhead s (i + 1) b := by
  refine ⟨h.layout.trans hlayout, fun j hj => ?_⟩
  exact (hcount j (by omega)).trans (h.count j (by omega))

/-- A turn that returns changes no other counter. -/
theorem physReferencePage_count_of_ne (hok : physReferencePage i a = .ok b)
    (hj : j ≠ i) : b.count j = a.count j := by
  obtain ⟨-, ⟨-, rfl⟩ | ⟨-, -, rfl⟩ | ⟨-, rfl⟩⟩ := physReferencePage_ok hok
  · rfl
  · exact setEntry_count_of_ne _ _ _ hj
  · rw [setFreePages_count]
    exact setEntry_count_of_ne _ _ _ hj

theorem physDereferencePage_count_of_ne (hok : physDereferencePage i a = .ok b)
    (hj : j ≠ i) : b.count j = a.count j := by
  obtain ⟨-, -, entry, -, rfl⟩ := physDereferencePage_ok hok
  split
  · rw [setEntry_count_of_ne _ _ _ hj, physPageWasFreed_count]
  · exact setEntry_count_of_ne _ _ _ hj

theorem physForceFreePage_count_of_ne (hok : physForceFreePage i a = .ok b)
    (hj : j ≠ i) : b.count j = a.count j := by
  obtain ⟨-, ⟨-, rfl⟩ | ⟨-, w, -, rfl⟩⟩ := physForceFreePage_ok hok
  · exact setEntry_count_of_ne _ _ _ hj
  · rw [setWiredPages_count, setEntry_count_of_ne _ _ _ hj,
      physPageWasFreed_count]

theorem markPhysWiredPage_count_of_ne (hok : markPhysWiredPage i a = .ok b)
    (hj : j ≠ i) : b.count j = a.count j := by
  obtain ⟨-, -, rfl⟩ := markPhysWiredPage_ok hok
  rw [setWiredPages_count, setFreePages_count, setEntry_count_of_ne _ _ _ hj]

end Page

/-! ## Loops -/

section Loops

variable {s : Mm} {l : List ℕ}

/-- A body that checks its index first. -/
theorem checksIndex_of_checked {body : ℕ → Mm → Outcome Mm} {passes : ℕ → Prop}
    (hreturns : ∀ i a, CountsAhead s i a → i < s.ppages → passes i →
      ∃ b, body i a = .ok b)
    (hlayout : ∀ i a b, body i a = .ok b → SameLayout a b)
    (hcount : ∀ i a b, body i a = .ok b → ∀ j, j ≠ i → b.count j = a.count j)
    (hstops : ∀ i a, CountsAhead s i a → i < s.ppages → ¬ passes i →
      ∃ msg, body i a = .error (.panic msg))
    (hrefuses : ∀ i a, a.ppages < i → ∃ msg, body i a = .error (.panic msg)) :
    ChecksIndex checkedIndices body (CountsAhead s) passes s.ppages where
  touched i a ha hi k hk := by
    rw [checkedIndices, if_neg (by rw [ha.layout.ppages]; omega)] at hk
    rwa [List.mem_singleton.mp hk]
  goes_on i a ha hi hpasses := by
    obtain ⟨b, hb⟩ := hreturns i a ha hi hpasses
    exact ⟨b, hb, ha.next (hlayout i a b hb) (hcount i a b hb)⟩
  stops := hstops
  touches_top a ha := by
    rw [checkedIndices, ha.layout.ppages, if_neg (lt_irrefl _)]
    exact List.mem_singleton_self _
  refuses i a ha hi := by
    rw [← ha.layout.ppages] at hi
    exact ⟨if_pos hi, hrefuses i a hi⟩

theorem panicIf_bind_of_pos {α : Type} {c : Prop} [Decidable c] {msg : String}
    {f : Unit → Outcome α} (h : c) :
    (panicIf c msg >>= f) = .error (.panic msg) := by
  rw [panicIf, if_pos h]
  rfl

theorem physReference_checksIndex :
    ChecksIndex checkedIndices physReferencePage (CountsAhead s) (fun _ => True)
      s.ppages :=
  checksIndex_of_checked
    (fun _ _ ha hi _ => physReferencePage_returns (by
      rw [ha.layout.ppages]
      exact Nat.le_of_lt hi))
    (fun _ _ _ => SameLayout.physReferencePage)
    (fun _ _ _ hok _ => physReferencePage_count_of_ne hok)
    (fun _ _ _ _ hpasses => absurd trivial hpasses)
    (fun _ _ hi => ⟨_, panicIf_bind_of_pos hi⟩)

theorem physForceFree_checksIndex :
    ChecksIndex checkedIndices physForceFreePage (CountsAhead s) (fun _ => True)
      s.ppages :=
  checksIndex_of_checked
    (fun i a ha hi _ => by
      rw [← ha.layout.ppages] at hi
      unfold physForceFreePage panicIf
      rw [if_neg (Nat.not_lt_of_lt hi)]
      exact ⟨_, rfl⟩)
    (fun _ _ _ => SameLayout.physForceFreePage)
    (fun _ _ _ hok _ => physForceFreePage_count_of_ne hok)
    (fun _ _ _ _ hpasses => absurd trivial hpasses)
    (fun _ _ hi => ⟨_, panicIf_bind_of_pos hi⟩)

theorem physDereference_checksIndex :
    ChecksIndex checkedIndices physDereferencePage (CountsAhead s)
      (fun j => s.count j ≠ pageFree) s.ppages :=
  checksIndex_of_checked
    (fun i a ha hi hbusy => by
      rw [← ha.layout.ppages] at hi
      rw [← ha.count i le_rfl] at hbusy
      unfold physDereferencePage panicIf
      rw [if_neg (Nat.not_lt_of_lt hi), if_neg hbusy]
      exact ⟨_, rfl⟩)
    (fun _ _ _ => SameLayout.physDereferencePage)
    (fun _ _ _ hok _ => physDereferencePage_count_of_ne hok)
    (fun i a ha hi hfree => by
      rw [← ha.layout.ppages] at hi
      rw [not_not, ← ha.count i le_rfl] at hfree
      unfold physDereferencePage
      rw [panicIf, if_neg (Nat.not_lt_of_lt hi), Outcome.ok_bind]
      exact ⟨_, panicIf_bind_of_pos hfree⟩)
    (fun _ _ hi => ⟨_, panicIf_bind_of_pos hi⟩)

/-- `mark_phys_wired` reads the entry before it checks the index itself. -/
theorem markPhysWired_checksIndex
    (hsized : s.ppages * pageSize ≤ s.boot.memSize) :
    ChecksIndex markPhysWiredPageIndices markPhysWiredPage
      (fun i a => i < 2 ^ 50 ∧ CountsAhead s i a)
      (fun j => s.count j = pageFree) s.ppages := by
  have hlt := ppages_lt_of_sized hsized
  constructor
  · rintro i a ⟨hi, ha⟩ hbelow k hk
    rw [← ha.layout.ppages] at hbelow ⊢
    rw [markPhysWiredPageIndices, physGetEntryIndices_pageAddr hi,
      if_neg (Nat.not_lt_of_lt hbelow)] at hk
    rcases List.mem_append.mp hk with hk | hk
    · rwa [List.mem_singleton.mp hk]
    · obtain ⟨entry, -, hk⟩ := mem_afterOk.mp hk
      split at hk
      · cases hk
      · rwa [List.mem_singleton.mp hk]
  · rintro i a ⟨hi, ha⟩ hbelow hfree
    rw [← ha.count i le_rfl] at hfree
    have hpage := markPhysWiredPage_free (s := a) (i := i)
      (by rwa [ha.layout.ppages]) (by rwa [ha.layout.ppages, ha.layout.boot]) hfree
    exact ⟨_, hpage, by omega, ha.next (SameLayout.markPhysWiredPage hpage)
      fun j => markPhysWiredPage_count_of_ne hpage⟩
  · rintro i a ⟨hi, ha⟩ hbelow hbusy
    rw [← ha.layout.ppages] at hbelow
    rw [← ha.count i le_rfl] at hbusy
    rw [markPhysWiredPage, physGetEntry_pageAddr_of_lt hi,
      if_neg (Nat.not_lt_of_lt hbelow), Outcome.ok_bind]
    exact ⟨_, panicIf_bind_of_pos hbusy⟩
  · rintro a ⟨hi, ha⟩
    rw [markPhysWiredPageIndices, physGetEntryIndices_pageAddr hi,
      ha.layout.ppages, if_neg (lt_irrefl _)]
    exact List.mem_append_left _ (List.mem_singleton_self _)
  · rintro i a ⟨hi, ha⟩ hbeyond
    rw [← ha.layout.ppages] at hbeyond
    rw [markPhysWiredPageIndices, markPhysWiredPage,
      physGetEntryIndices_pageAddr hi, physGetEntry_pageAddr_of_lt hi,
      if_pos hbeyond, if_pos hbeyond]
    exact ⟨rfl, _, rfl⟩

/-- The links of a free page lead to free pages. -/
theorem physUnlinkPage_touched {a : Mm} {X : Finset ℕ} {i : ℕ}
    (hl : FreeListSans a l X) (hi : i < a.ppages) (hiX : i ∉ X) :
    ∀ k ∈ physUnlinkPageIndices i a, k < a.ppages := by
  have hlt := ppages_lt_of_sized hl.sized
  have hlink : ∀ pa, pa = 0 ∨ (∃ j, j < a.ppages ∧ a.count j = pageFree ∧
      pa = a.pageAddr j) → pa ≠ 0 → ∀ k ∈ a.physGetEntryIndices pa,
        k < a.ppages := by
    intro pa hpa hne k hk
    obtain ⟨j, hj, -, rfl⟩ := hpa.resolve_left hne
    rw [physGetEntryIndices_pageAddr (by omega), if_neg (by omega)] at hk
    rwa [List.mem_singleton.mp hk]
  intro k hk
  rw [physUnlinkPageIndices, if_neg (by omega)] at hk
  simp only [physGetEntryIndices_pageAddr (s := a) (i := i) (by omega),
    physGetEntry_pageAddr hi hl.sized, if_neg (Nat.not_lt_of_lt hi)] at hk
  rcases List.mem_append.mp hk with hk | hk
  · rwa [List.mem_singleton.mp hk]
  · obtain ⟨entry, hentry, hk⟩ := mem_afterOk.mp hk
    cases hentry
    split at hk
    · cases hk
    · rename_i hfree
      obtain ⟨hnext, hprev⟩ := hl.links_free hi hiX (not_not.mp hfree)
      rcases List.mem_append.mp hk with hk | hk
      · split at hk
        · rename_i hne
          exact hlink _ hnext hne k hk
        · cases hk
      · obtain ⟨entry, -, hk⟩ := mem_afterOk.mp hk
        split at hk
        · cases hk
        · split at hk
          · rename_i hne
            exact hlink _ hprev hne k hk
          · cases hk

theorem physUnlinkContiguous_checksIndex (hl : FreeListSans s l ∅) (start : ℕ) :
    ChecksIndex physUnlinkPageIndices physUnlinkPage
      (fun i a => start ≤ i ∧ Unlinked s a start i)
      (fun j => s.count j = pageFree) s.ppages := by
  have hlt := ppages_lt_of_sized hl.sized
  have hsized : ∀ a i, Unlinked s a start i →
      a.ppages * pageSize ≤ a.boot.memSize := by
    intro a i ha
    rw [ha.layout.ppages, ha.layout.boot]
    exact hl.sized
  constructor
  · rintro i a ⟨-, ha⟩ hbelow
    obtain ⟨l', hl'⟩ := ha.list
    rw [← ha.layout.ppages] at hbelow ⊢
    exact physUnlinkPage_touched hl' hbelow (by simp)
  · rintro i a ⟨hi, ha⟩ hbelow hfree
    obtain ⟨l', hl'⟩ := ha.list
    obtain ⟨b, hb⟩ := hl'.physUnlinkPage_returns (i := i)
      (by rwa [ha.layout.ppages]) (by simp) ((ha.count i).trans hfree)
    refine ⟨b, hb, Nat.le_succ_of_le hi, ?_⟩
    rw [physUnlinkPage_ok hb]
    exact FreeListSans.unlinkNode_unlinked ha hi hbelow hfree
  · rintro i a ⟨-, ha⟩ hbelow hbusy
    rw [← ha.count i] at hbusy
    have hlt' : i < a.ppages := by rwa [ha.layout.ppages]
    simp only [physUnlinkPage, physGetEntry_pageAddr hlt' (hsized a i ha)]
    rw [panicIf, if_neg (Nat.not_lt_of_lt hlt'), Outcome.ok_bind,
      Outcome.ok_bind]
    exact ⟨_, panicIf_bind_of_pos hbusy⟩
  · rintro a ⟨-, ha⟩
    rw [physUnlinkPageIndices, ha.layout.ppages, if_neg (lt_irrefl _)]
    refine List.mem_append_left _ ?_
    rw [physGetEntryIndices_pageAddr hlt, ha.layout.ppages,
      if_neg (lt_irrefl _)]
    exact List.mem_singleton_self _
  · rintro i a ⟨-, ha⟩ hbeyond
    rw [← ha.layout.ppages] at hbeyond
    exact ⟨if_pos hbeyond, _, panicIf_bind_of_pos hbeyond⟩

/-- A call is its loop. -/
theorem loop_inBounds_iff {act : ℕ → Mm → List ℕ} {body : ℕ → Mm → Outcome Mm}
    {Inv : ℕ → Mm → Prop} {passes : ℕ → Prop} {off n : ℕ} {msg : String}
    (h : ChecksIndex act body Inv passes s.ppages) (hs : Inv (off / pageSize) s) :
    ((∀ k ∈ loopIndices act body off n s, k < s.ppages) ∧
      (0 < n → s.ppages < off / pageSize + n → ∃ msg',
        (panicIf (off % pageSize ≠ 0) msg >>= fun _ =>
          Outcome.forRange body (off / pageSize) n s) = .error (.panic msg'))) ↔
      ¬ (off % pageSize = 0 ∧
        ChecksIndex.Reaches passes s.ppages (off / pageSize) n) := by
  unfold loopIndices
  by_cases haligned : off % pageSize = 0
  · simp only [haligned, ne_eq, not_true, if_false, true_and, panicIf,
      Outcome.ok_bind]
    constructor
    · rintro ⟨hbelow, -⟩ hreaches
      exact lt_irrefl _ (hbelow _ (h.touches hs hreaches))
    · intro hreaches
      exact ⟨h.below hs hreaches, h.panics hs hreaches⟩
  · rw [if_pos haligned]
    refine iff_of_true ⟨fun k hk => absurd hk List.not_mem_nil, ?_⟩
      fun h => haligned h.1
    exact fun _ _ => ⟨msg, panicIf_bind_of_pos haligned⟩

end Loops

end Mm

/-! ## Calls -/

namespace EntryCall

section Calls

variable {s : Mm} {c : EntryCall}

theorem inBounds_of_ignored (h : c.Ignored s) : c.InBounds s := by
  refine ⟨fun i hi => ?_, fun hnot => absurd h hnot⟩
  unfold indices at hi
  rw [if_pos h] at hi
  cases hi

/-- A single entry. -/
theorem single_inBounds_iff {off : ℕ} {s' : Mm} {msg msg' : String} :
    ((∀ k ∈ (if off % pageSize ≠ 0 then []
        else if s.ppages < off / pageSize then [] else [off / pageSize]),
        k < s.ppages) ∧
      (0 < 1 → s.ppages < off / pageSize + 1 → ∃ m, (do
        panicIf (off % pageSize ≠ 0) msg
        panicIf (s.ppages < off / pageSize) msg'
        pure s' : Outcome Mm) = .error (.panic m))) ↔
      ¬ (off % pageSize = 0 ∧
        ChecksIndex.Reaches (fun _ => True) s.ppages (off / pageSize) 1) := by
  by_cases haligned : off % pageSize = 0
  · simp only [haligned, ne_eq, not_true, if_false, true_and, panicIf,
      Outcome.ok_bind]
    rcases Nat.lt_trichotomy (off / pageSize) s.ppages with hlt | heq | hgt
    · rw [if_neg (Nat.not_lt_of_lt hlt)]
      refine iff_of_true ⟨fun k hk => ?_, fun _ h => by omega⟩ fun h => ?_
      · rwa [List.mem_singleton.mp hk]
      · have hend := h.2.1
        omega
    · rw [heq, if_neg (lt_irrefl _)]
      refine iff_of_false (fun h => ?_) fun h => h ⟨le_rfl, by omega, ?_⟩
      · exact lt_irrefl _ (h.1 _ (List.mem_singleton_self _))
      · exact fun _ _ _ => trivial
    · rw [if_pos hgt, if_pos hgt]
      refine iff_of_true ⟨fun k hk => absurd hk List.not_mem_nil, ?_⟩
        fun h => Nat.not_le_of_lt hgt h.1
      exact fun _ _ => ⟨msg', rfl⟩
  · rw [if_pos haligned]
    refine iff_of_true ⟨fun k hk => absurd hk List.not_mem_nil, ?_⟩
      fun h => haligned h.1
    exact fun _ _ => ⟨msg, panicIf_bind_of_pos haligned⟩

/-- A call touches the array alone, and panics for pages beyond it, exactly if
it does not come to the page behind the last one. -/
theorem inBounds_iff (h : s.FreeListWf) (c : EntryCall) :
    c.InBounds s ↔ ¬ c.PassesEnd s := by
  obtain ⟨l, hl⟩ := h
  by_cases hignored : c.Ignored s
  · exact iff_of_true (inBounds_of_ignored hignored) fun hend => hend.1 hignored
  have hInBounds : c.InBounds s ↔ (∀ i ∈ c.indices s, i < s.ppages) ∧
      (0 < c.pages → s.ppages < c.offset s / pageSize + c.pages →
        ∃ msg, c.run s = .error (.panic msg)) :=
    ⟨fun h => ⟨h.below, h.panics hignored⟩, fun h => ⟨h.1, fun _ => h.2⟩⟩
  have hend : c.PassesEnd s ↔ c.offset s % pageSize = 0 ∧
      ChecksIndex.Reaches (c.Passes s) s.ppages (c.offset s / pageSize) c.pages :=
    and_iff_right hignored
  unfold indices at hInBounds
  rw [hInBounds, hend, if_neg hignored]
  cases c with
  | physGetEntry pa =>
      simp only [run, Mm.physGetEntry, bind_assoc, pure_bind]
      exact single_inBounds_iff
  | physSetEntry pa val => exact single_inBounds_iff
  | physUnlinkContiguous pa size =>
      obtain ⟨hpa, hram⟩ := not_or.mp hignored
      have hstart := physUnlinkContiguous_checksIndex hl
        ((pa - s.boot.physBase) / pageSize)
      simp only [run, Mm.physUnlinkContiguous, if_neg hpa, if_neg hram]
      exact loop_inBounds_iff hstart ⟨le_rfl, hl.unlinked_refl _⟩
  | markPhysWired pa size =>
      refine loop_inBounds_iff (markPhysWired_checksIndex hl.sized)
        ⟨?_, CountsAhead.refl _ _⟩
      simp only [offset, sub64, pageSize]
      omega
  | physForceFree pa size =>
      exact loop_inBounds_iff physForceFree_checksIndex (CountsAhead.refl _ _)
  | physReference pa size =>
      obtain ⟨hpa, hram⟩ := not_or.mp hignored
      simp only [run, Mm.physReference, if_neg hpa, if_neg hram]
      exact loop_inBounds_iff physReference_checksIndex (CountsAhead.refl _ _)
  | physDereference pa size =>
      obtain ⟨hpa, hram⟩ := not_or.mp hignored
      simp only [run, Mm.physDereference, if_neg hpa, if_neg hram]
      exact loop_inBounds_iff physDereference_checksIndex (CountsAhead.refl _ _)

end Calls

theorem bootExample_layout {s : Mm} (hinit : bootExample.allocInit = .ok s) :
    s.ppages = 0x20000 ∧ s.boot.physBase = 0x800000000 := by
  have hlayout := allocInit_layout (s := bootExample) rfl hinit
  constructor
  · rw [hlayout.ppages, afterWiring_ppages]
    decide
  · rw [hlayout.boot, afterWiring_boot]
    rfl

theorem inBounds_first_page :
    ∃ s, bootExample.allocInit = .ok s ∧
      (EntryCall.physReference 0x800000000 0x4000).InBounds s := by
  obtain ⟨s, hinit, -, -⟩ := bootExample_allocInit
  have hwf := (bootExample_reachable hinit).inv.freeList
  obtain ⟨hppages, hbase⟩ := bootExample_layout hinit
  refine ⟨s, hinit, (inBounds_iff hwf _).mpr fun hend => ?_⟩
  have hlt := hend.2.2.2.1
  simp only [offset, pages, hbase, hppages, pageSize] at hlt
  omega

/-- On a machine with 2 GiB at `0x800000000`, `0x880000000` is behind RAM. -/
theorem reference_behind_ram :
    ∃ s, bootExample.allocInit = .ok s ∧ s.FreeListWf ∧
      ¬ (EntryCall.physReference 0x880000000 0x4000).InBounds s := by
  obtain ⟨s, hinit, -, -⟩ := bootExample_allocInit
  have hwf := (bootExample_reachable hinit).inv.freeList
  obtain ⟨hppages, hbase⟩ := bootExample_layout hinit
  refine ⟨s, hinit, hwf, fun h => lt_irrefl s.ppages (h.below _ ?_)⟩
  have hram : ¬ (EntryCall.physReference 0x880000000 0x4000).Ignored s := by
    simp only [Ignored, hbase]
    decide
  unfold indices
  rw [if_neg hram]
  simp only [offset, pages, hbase, loopIndices, pageSize]
  refine physReference_checksIndex.touches (CountsAhead.refl _ _) ⟨?_, ?_, ?_⟩
  · rw [hppages]
  · rw [hppages]
    decide
  · exact fun _ _ _ => trivial

end EntryCall

end PongoOS
