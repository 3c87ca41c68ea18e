import PongoOS.Mm.ContiguousRelease
import PongoOS.Mm.SpaceRefs
import PongoOS.Support.Pool
import PongoOS.Support.Run

/-!
# Identifiers of address spaces

The TLB tags a translation with the identifier of the space that it is for.  Over
any run the spaces that exist have different identifiers, `asid_table` marks
exactly these, and no translation of a space outlives it.
-/

namespace PongoOS

open Pool RefForest

namespace Vm

/-- The index of an identifier in `asid_table`. -/
def asidIndex (asid : ℕ) : ℕ := asid / 2 ^ 48 % 0x100

/-- `vm_init`.  The identifier of the kernel is reserved, and the bitmap of its
managed range is allocated. -/
def vmInit (s : Vm) : Outcome Vm := do
  let s₁ := s.setAsid 0 true
  let (_, mm) ← s₁.mm.allocContig (vmSpaceSize / pageSize / 8)
  let s₂ := s₁.setMm mm
  pure (s₂.setSpace kernel { s₂.space kernel with vmSpaceTable := fun _ => false })

/-! ## The invariant -/

/-- Every space has an identifier of its own, and `asid_table` marks these. -/
structure Ids (s : Vm) : Prop where
  owned : Owned s.asidTable s.live fun a => asidIndex (s.space a).asid
  tagged : ∀ a ∈ s.live, (s.space a).asid = asidIndex (s.space a).asid * 2 ^ 48

/-- Mappings and reservations change, but no space comes or goes. -/
structure SameIds (s s' : Vm) : Prop where
  asidTable : s'.asidTable = s.asidTable
  live : s'.live = s.live
  asid : ∀ a, (s'.space a).asid = (s.space a).asid
  refcount : ∀ a, (s'.space a).refcount = (s.space a).refcount
  parent : ∀ a, (s'.space a).parent = (s.space a).parent

section Ids

variable {s s' : Vm} {ext : ℕ → ℕ} {L : Finset ℕ} {a b i p n : ℕ}

theorem asidIndex_lt (asid : ℕ) : asidIndex asid < 256 :=
  Nat.mod_lt _ (by decide)

theorem asidIndex_shifted (hi : i < 256) : asidIndex (i * 2 ^ 48) = i := by
  unfold asidIndex
  rw [Nat.mul_div_cancel _ (Nat.two_pow_pos 48)]
  exact Nat.mod_eq_of_lt hi

theorem SameIds.refl (s : Vm) : SameIds s s :=
  ⟨rfl, rfl, fun _ => rfl, fun _ => rfl, fun _ => rfl⟩

theorem SameIds.trans {s₁ : Vm} (h : SameIds s s₁) (h' : SameIds s₁ s') :
    SameIds s s' where
  asidTable := h'.asidTable.trans h.asidTable
  live := h'.live.trans h.live
  asid a := (h'.asid a).trans (h.asid a)
  refcount a := (h'.refcount a).trans (h.refcount a)
  parent a := (h'.parent a).trans (h.parent a)

theorem SameIds.setMm (s : Vm) (mm : Mm) : SameIds s (s.setMm mm) :=
  ⟨rfl, rfl, fun _ => rfl, fun _ => rfl, fun _ => rfl⟩

theorem SameIds.setTableBit (s : Vm) (a i : ℕ) (b : Bool) :
    SameIds s (s.setTableBit a i b) := by
  have hspace : ∀ c, (s.setTableBit a i b).space c =
      { s.space c with
        vmSpaceTable := ((s.setTableBit a i b).space c).vmSpaceTable } := by
    intro c
    by_cases hc : c = a
    · subst hc
      simp [Vm.setTableBit]
    · simp [Vm.setTableBit, hc]
  refine ⟨rfl, rfl, ?_, ?_, ?_⟩ <;>
    · intro c
      rw [hspace c]

theorem vmReference_asid (s : Vm) (a : ℕ) :
    (s.vmReference a).asidTable = s.asidTable ∧ (s.vmReference a).live = s.live ∧
      ∀ b, ((s.vmReference a).space b).asid = (s.space b).asid := by
  refine ⟨?_, vmReference_live a, ?_⟩
  · unfold Vm.vmReference
    split_ifs <;> rfl
  · intro b
    unfold Vm.vmReference Vm.setRefcount
    split_ifs
    · rfl
    · rfl
    · by_cases hb : b = a <;> simp [hb]

theorem Ids.congr (h : s.Ids) (htable : s'.asidTable = s.asidTable)
    (hlive : s'.live = s.live) (hasid : ∀ a, (s'.space a).asid = (s.space a).asid) :
    s'.Ids where
  owned := by
    rw [htable, hlive]
    exact h.owned.congr fun a _ => by rw [hasid]
  tagged a ha := by
    rw [hasid]
    exact h.tagged a (hlive ▸ ha)

theorem Ids.of_same (h : s.Ids) (hsame : SameIds s s') : s'.Ids :=
  h.congr hsame.asidTable hsame.live hsame.asid

theorem Refs.of_same (h : s.Refs ext L) (hsame : SameIds s s') : s'.Refs ext L := by
  have hforest : s'.forest L = s.forest L := by
    unfold forest
    simp only [hsame.refcount, hsame.parent]
  exact ⟨hforest ▸ h.counts, (hsame.refcount kernel).trans h.static⟩

theorem Ids.injective (h : s.Ids) (ha : a ∈ s.live) (hb : b ∈ s.live)
    (hab : (s.space a).asid = (s.space b).asid) : a = b :=
  h.owned.injOn ha hb (congrArg asidIndex hab)

theorem Ids.used_iff (h : s.Ids) : s.asidTable i = true ↔
    ∃ a ∈ s.live, (s.space a).asid = i * 2 ^ 48 := by
  rw [h.owned.used_iff]
  constructor
  · rintro ⟨a, ha, rfl⟩
    exact ⟨a, ha, h.tagged a ha⟩
  · rintro ⟨a, ha, hasid⟩
    refine ⟨a, ha, ?_⟩
    have htag := h.tagged a ha
    exact Nat.eq_of_mul_eq_mul_right (Nat.two_pow_pos 48) (htag.symm.trans hasid)

/-! ## Taking an identifier -/

theorem asidAlloc_ok {asid : ℕ} (hok : s.asidAlloc = .ok (asid, s')) :
    ∃ i < 256, s.asidTable i = false ∧ asid = i * 2 ^ 48 ∧ s' = s.setAsid i true := by
  unfold asidAlloc at hok
  split at hok
  · rename_i i hfind
    cases hok
    refine ⟨i, List.mem_range.mp (List.mem_of_find?_eq_some hfind), ?_, rfl, rfl⟩
    simpa using List.find?_some hfind
  · cases hok

/-- `asid_alloc` panics exactly if there are 256 spaces. -/
theorem asidAlloc_stops_iff (h : s.Ids) :
    (∃ e, s.asidAlloc = .error e) ↔ s.live.card = 256 := by
  rw [← h.owned.all_used_iff fun a _ => asidIndex_lt (s.space a).asid]
  have hnone : (List.range 256).find? (fun i => ¬ s.asidTable i) = none ↔
      ∀ i < 256, s.asidTable i = true := by
    simp
  rw [← hnone, asidAlloc]
  cases (List.range 256).find? fun i => ¬ s.asidTable i <;> simp

/-- A new space has an identifier that was free. -/
theorem Ids.insert (h : s.Ids) (ha : a ∉ s.live) (hi : i < 256)
    (hfree : s.asidTable i = false)
    (htable : s'.asidTable = Function.update s.asidTable i true)
    (hlive : s'.live = Insert.insert a s.live)
    (hothers : ∀ b ∈ s.live, (s'.space b).asid = (s.space b).asid)
    (hself : (s'.space a).asid = i * 2 ^ 48) : s'.Ids where
  owned := by
    rw [htable, hlive]
    refine h.owned.take ha hfree (fun b hb => by rw [hothers b hb]) ?_
    rw [hself, asidIndex_shifted hi]
  tagged b hb := by
    rw [hlive, Finset.mem_insert] at hb
    rcases hb with rfl | hb
    · rw [hself, asidIndex_shifted hi]
    · rw [hothers b hb]
      exact h.tagged b hb

theorem vmCreate_ids (h : s.Ids) (ha : a ∉ s.live) (hok : s.vmCreate p a = .ok s') :
    s'.Ids := by
  simp only [vmCreate, Outcome.bind_eq_ok, Prod.exists, Outcome.pure_eq_ok] at hok
  obtain ⟨ttbr1, mm, -, asid, s₁, hasid, rfl⟩ := hok
  obtain ⟨i, hi, hfree, rfl, rfl⟩ := asidAlloc_ok hasid
  obtain ⟨htable, hlive, hsame⟩ :=
    vmReference_asid ((s.setMm mm).setAsid i true) p
  refine h.insert ha hi hfree htable (congrArg (Insert.insert a) hlive) ?_ ?_
  · intro b hb
    have hba : b ≠ a := by
      rintro rfl
      exact ha hb
    rw [setSpace_space, Function.update_of_ne hba]
    exact hsame b
  · rw [setSpace_space, Function.update_self]

theorem vmCreate_asid (hok : s.vmCreate p a = .ok s') (hb : b ≠ a) :
    (s'.space b).asid = (s.space b).asid := by
  simp only [vmCreate, Outcome.bind_eq_ok, Prod.exists, Outcome.pure_eq_ok] at hok
  obtain ⟨ttbr1, mm, -, asid, s₁, hasid, rfl⟩ := hok
  obtain ⟨i, -, -, -, rfl⟩ := asidAlloc_ok hasid
  rw [setSpace_space, Function.update_of_ne hb]
  exact (vmReference_asid ((s.setMm mm).setAsid i true) p).2.2 b

/-! ## Giving one back -/


theorem asidFree_ok (h : s.Ids) (ha : a ∈ s.live) :
    s.asidFree (s.space a).asid =
      .ok (s.setAsid (asidIndex (s.space a).asid) false) := by
  have hused := h.owned.used_of_mem ha
  unfold asidFree
  change s.asidTable ((s.space a).asid / 2 ^ 48 % 0x100) = true at hused
  simp only [panicIf, hused, not_true_eq_false, if_false]
  rfl

theorem Ids.erase (h : s.Ids) (ha : a ∈ s.live) :
    ((s.setAsid (asidIndex (s.space a).asid) false).setLive (s.live.erase a)).Ids where
  owned := h.owned.giveBack ha
  tagged b hb := h.tagged b (Finset.mem_of_mem_erase hb)

theorem setRefcount_asid (b : ℕ) :
    ((s.setRefcount a n).space b).asid = (s.space b).asid := by
  by_cases hb : b = a <;> simp [setRefcount, hb]

theorem setRefcount_ids (h : s.Ids) : (s.setRefcount a n).Ids :=
  h.congr rfl rfl setRefcount_asid

/-- The ways in which `phys_dereference` stops. -/
def dereferencePanics : List Stop :=
  [.panic "phys_dereference only works with aligned PAs (was passed %llx)",
    .panic "OOB phys_dereference: 0x%llx",
    .panic "phys_dereference called on PAGE_FREE page @ 0x%llx"]

theorem physDereference_stops {pa size : ℕ} {mm : Mm} {e : Stop}
    (h : Mm.physDereference pa size mm = .error e) : e ∈ dereferencePanics := by
  unfold Mm.physDereference at h
  split_ifs at h
  simp only [Outcome.bind_eq_error, panicIf_eq_error, panicIf_eq_ok] at h
  rcases h with ⟨-, rfl⟩ | ⟨_, -, hloop⟩
  · exact List.mem_cons_self
  obtain ⟨i, k, hpage⟩ := Outcome.forRange_stops hloop
  simp only [Mm.physDereferencePage, Outcome.bind_eq_error, panicIf_eq_error,
    panicIf_eq_ok] at hpage
  rcases hpage with ⟨-, rfl⟩ | ⟨_, -, ⟨-, rfl⟩ | ⟨_, -, hpure⟩⟩
  · simp [dereferencePanics]
  · simp [dereferencePanics]
  · cases hpure

/-- The induction is on the levels below the table. -/
theorem ttbpageFreeWalkRecursive_stops {g : Granule} {k base : ℕ} {mm : Mm} {e : Stop}
    (h : Mm.ttbpageFreeWalkRecursive g k base mm = .error e) :
    e ∈ dereferencePanics := by
  have hentry {walk : ℕ → Mm → Outcome Mm} {k base i : ℕ} {mm : Mm}
      (hwalk : ∀ base mm, walk base mm = .error e → e ∈ dereferencePanics)
      (hstop : Mm.ttbpageFreeEntry g walk k base i mm = .error e) :
      e ∈ dereferencePanics := by
    unfold Mm.ttbpageFreeEntry at hstop
    dsimp only at hstop
    split_ifs at hstop
    · rw [Outcome.bind_eq_error] at hstop
      rcases hstop with hstop | ⟨_, -, hpure⟩
      · exact hwalk _ _ hstop
      · cases hpure
    · exact physDereference_stops hstop
    · cases hstop
    · cases hstop
  induction k generalizing base mm with
  | zero =>
      obtain ⟨i, mm', hstop⟩ := Outcome.forRange_stops h
      exact hentry (fun _ _ hok => by cases hok) hstop
  | succ k ih =>
      obtain ⟨i, mm', hstop⟩ := Outcome.forRange_stops h
      exact hentry (fun _ _ => ih) hstop

theorem ttbpageFreeWalk_stops {base : ℕ} {mm : Mm} {e : Stop}
    (h : Mm.ttbpageFreeWalk base mm = .error e) : e ∈ dereferencePanics := by
  simp only [Mm.ttbpageFreeWalk, Outcome.bind_eq_error] at h
  rcases h with hstop | ⟨_, -, hpure⟩
  · exact ttbpageFreeWalkRecursive_stops hstop
  · cases hpure

/-- A reference is returned, and the spaces without another one go with their
identifiers.  Only `phys_dereference` can stop the call, for a page that a space
maps.  `L` are the spaces whose references count; the induction takes one out of
it in every round. -/
theorem vmRelease_ids {fuel : ℕ} (hrefs : s.Refs (bump ext a) L) (h : s.Ids)
    (hL : L ⊆ s.live) (hfuel : L.card < fuel) :
    Outcome.Sat (· ∈ dereferencePanics) (fun s' => ∃ F ⊆ L, s'.live = s.live \ F ∧
        s'.Refs ext (L \ F) ∧ s'.Ids ∧ ∀ b, (s'.space b).asid = (s.space b).asid)
      (s.vmRelease fuel a) := by
  induction fuel generalizing s a L with
  | zero => exact absurd hfuel (Nat.not_lt_zero _)
  | succ fuel ih =>
      rw [vmRelease]
      by_cases h0 : a = 0
      · rw [if_pos h0]
        refine ⟨∅, Finset.empty_subset L, Finset.sdiff_empty.symm, ?_, h, fun _ => rfl⟩
        rw [Finset.sdiff_empty]
        exact hrefs.of_bump_static (.inl h0)
      rw [if_neg h0]
      by_cases hkernel : a = kernel
      · rw [hkernel, if_pos hrefs.static]
        refine ⟨∅, Finset.empty_subset L, Finset.sdiff_empty.symm, ?_, h, fun _ => rfl⟩
        rw [Finset.sdiff_empty]
        exact hrefs.of_bump_static (.inr hkernel)
      have ha : a ∈ L := hrefs.counts.mem h0
      obtain ⟨hpos, hlt⟩ := hrefs.heap ha hkernel
      rw [if_neg hlt.ne]
      have hpred : ((s.space a).refcount + 0xffffffff) % 2 ^ 32 =
          (s.space a).refcount - 1 := by
        unfold refcountGlobal at hlt
        omega
      dsimp only
      rw [hpred]
      by_cases hone : (s.space a).refcount = 1
      · have hself : (s.space a).parent ≠ a :=
          (hrefs.counts.last h0 hkernel hone).2 a ha
        have hparent : ((s.setRefcount a ((s.space a).refcount - 1)).space a).parent =
            (s.space a).parent := by
          simp [setRefcount]
        have herase := hrefs.counts.erase h0 hkernel hone ((s.space a).refcount - 1)
        rw [← setRefcount_forest] at herase
        have hrefs₁ : (s.setRefcount a ((s.space a).refcount - 1)).Refs
            (bump ext (s.space a).parent) (L.erase a) :=
          ⟨herase, setRefcount_static hrefs hkernel⟩
        have hcard : (L.erase a).card < fuel := by
          rw [Finset.card_erase_of_mem ha]
          have hcardpos := Finset.card_pos.mpr ⟨a, ha⟩
          omega
        have hrest := ih hrefs₁ (setRefcount_ids h)
          ((Finset.erase_subset a L).trans hL) hcard
        rw [if_pos hone, hparent, panicIf, if_neg hself, Outcome.ok_bind]
        refine hrest.bind ?_
        rintro s₂ ⟨F, hF, hlive₂, hrefs₂, hids₂, hasid₂⟩
        have ha₂ : a ∈ s₂.live := by
          rw [hlive₂]
          exact Finset.mem_sdiff.mpr ⟨hL ha, fun hmem =>
            Finset.notMem_erase a L (hF hmem)⟩
        cases hwalk : s₂.mm.ttbpageFreeWalk
            ((s₂.space a).ttbr1 &&& 0xfffffffff000) with
        | error e => exact ttbpageFreeWalk_stops hwalk
        | ok mm =>
            have hids₃ : (s₂.setMm mm).Ids := hids₂.of_same (.setMm s₂ mm)
            have hfree := asidFree_ok hids₃ ha₂
            rw [setMm_space] at hfree
            rw [Outcome.ok_bind, hfree, Outcome.ok_bind]
            refine ⟨insert a F, ?_, ?_, ?_, hids₃.erase ha₂,
              fun b => (hasid₂ b).trans (setRefcount_asid b)⟩
            · exact Finset.insert_subset ha (hF.trans (Finset.erase_subset a L))
            · rw [setLive_live, setAsid_live, setMm_live, hlive₂, Finset.sdiff_insert]
              rfl
            · rw [Finset.sdiff_insert, ← Finset.erase_sdiff_comm]
              exact hrefs₂.of_space rfl
      · rw [if_neg hone]
        refine ⟨∅, Finset.empty_subset L, Finset.sdiff_empty.symm, ?_,
          setRefcount_ids h, setRefcount_asid⟩
        rw [Finset.sdiff_empty]
        refine ⟨?_, setRefcount_static hrefs hkernel⟩
        rw [setRefcount_forest]
        exact hrefs.counts.drop hone

/-! ## Mappings and reservations -/

theorem vmSpaceMapPagePhysicalProt_same {vaddr physical : ℕ} {prot : Prot}
    (hok : s.vmSpaceMapPagePhysicalProt a vaddr physical prot = .ok s') :
    SameIds s s' := by
  by_cases htt1 : vaddr / 2 ^ 60 % 8 ≠ 0
  · simp only [vmSpaceMapPagePhysicalProt, if_pos htt1, Outcome.bind_eq_ok,
      Outcome.pure_eq_ok] at hok
    obtain ⟨-, -, _, -, mm, -, rfl⟩ := hok
    exact .setMm s mm
  · simp only [vmSpaceMapPagePhysicalProt, if_neg htt1, Outcome.bind_eq_ok,
      Outcome.pure_eq_ok] at hok
    obtain ⟨mm, -, rfl⟩ := hok
    exact .setMm s mm

theorem forRange_same {body : ℕ → Vm → Outcome Vm} {base count : ℕ}
    (hbody : ∀ i k k', body i k = .ok k' → SameIds k k')
    (hok : Outcome.forRange body base count s = .ok s') : SameIds s s' :=
  Outcome.forRange_preserves (P := SameIds s)
    (fun i k k' _ _ hk hround => hk.trans (hbody i k k' hround)) (.refl s) hok

theorem vmAllocate_same {addr addr' size : ℕ} {flags : VmFlags} {r : KernResult}
    (hok : s.vmAllocate a addr size flags = .ok (r, addr', s')) : SameIds s s' := by
  unfold vmAllocate at hok
  dsimp only at hok
  generalize (if flags.fixed then
      if vmSpaceEnd < sub64 addr vmSpaceBase then 0 else sizePages size
    else vmSpaceSize / pageSize) = scanSize at hok
  split at hok
  · cases hok
    exact .refl s
  split at hok
  · simp only [Outcome.bind_eq_ok, Outcome.pure_eq_ok, Prod.mk.injEq] at hok
    obtain ⟨s₁, hrange, -, -, rfl⟩ := hok
    refine forRange_same (fun i k k' hpage => ?_) hrange
    simp only [vmAllocatePage, Outcome.bind_eq_ok, Outcome.pure_eq_ok] at hpage
    obtain ⟨k₁, hmap, rfl⟩ := hpage
    refine SameIds.trans ?_ (.setTableBit k₁ a i true)
    split at hmap
    · cases hmap
      exact .refl k
    · exact vmSpaceMapPagePhysicalProt_same hmap
  · split at hok
    · cases hok
      exact .refl s
    · cases hok

theorem vmDeallocate_same {addr size : ℕ} {r : KernResult}
    (hok : s.vmDeallocate a addr size = .ok (r, s')) : SameIds s s' := by
  unfold vmDeallocate at hok
  dsimp only at hok
  split_ifs at hok
  · cases hok
    exact .refl s
  · simp only [Outcome.bind_eq_ok, Outcome.pure_eq_ok, Prod.mk.injEq] at hok
    obtain ⟨s₁, hrange, -, rfl⟩ := hok
    refine forRange_same (fun i k k' hpage => ?_) hrange
    simp only [vmDeallocatePage, Outcome.bind_eq_ok, Outcome.pure_eq_ok] at hpage
    obtain ⟨k₁, hmap, rfl⟩ := hpage
    exact (vmSpaceMapPagePhysicalProt_same hmap).trans (.setTableBit k₁ a i false)
  · cases hok
    exact .refl s

end Ids

/-! ## Runs -/

/-- The address spaces, the references that callers hold to them, and the TLB.  An
entry of the TLB is an identifier, with the space whose tables were walked. -/
structure Tagged where
  vm : Vm
  ext : ℕ → ℕ
  tlb : Set (ℕ × ℕ)

inductive TaggedCall where
  | create (parent a : ℕ)
  | reference (a : ℕ)
  | release (a : ℕ)
  | map (a vaddr physical : ℕ) (prot : Prot)
  | allocate (a addr size : ℕ) (flags : VmFlags)
  | deallocate (a addr size : ℕ)
  | translate (a : ℕ)

namespace TaggedCall

/-- `malloc` returns a new address, callers pass spaces that exist and release what
they hold, and no count overflows. -/
def Allowed (t : Tagged) : TaggedCall → Prop
  | create parent a => a ≠ 0 ∧ a ∉ t.vm.live ∧ (parent = 0 ∨ parent ∈ t.vm.live) ∧
      t.vm.Referable parent
  | reference a => (a = 0 ∨ a ∈ t.vm.live) ∧ t.vm.Referable a
  | release a => a = 0 ∨ a = kernel ∨ 0 < t.ext a
  | map a _ _ _ => a ∈ t.vm.live
  | allocate a _ _ _ => a ∈ t.vm.live
  | deallocate a _ _ => a ∈ t.vm.live
  | translate a => a ∈ t.vm.live

def Runs (s : Vm) : TaggedCall → Vm → Prop
  | create parent a, s' => s.vmCreate parent a = .ok s'
  | reference a, s' => s' = s.vmReference a
  | release a, s' => ∃ fuel, s.live.card < fuel ∧ s.vmRelease fuel a = .ok s'
  | map a vaddr physical prot, s' =>
      s.vmSpaceMapPagePhysicalProt a vaddr physical prot = .ok s'
  | allocate a addr size flags, s' =>
      ∃ r addr', s.vmAllocate a addr size flags = .ok (r, addr', s')
  | deallocate a addr size, s' => ∃ r, s.vmDeallocate a addr size = .ok (r, s')
  | translate _, s' => s' = s

/-- The references that callers hold after the call. -/
def ext (e : ℕ → ℕ) : TaggedCall → ℕ → ℕ
  | create _ a => bump e a
  | reference a => bump e a
  | release a => Function.update e a (e a - 1)
  | _ => e

theorem bump_update {e : ℕ → ℕ} {a : ℕ} (ha : 0 < e a) :
    bump (Function.update e a (e a - 1)) a = e := by
  funext b
  by_cases hab : a = b
  · subst hab
    rw [bump_self, Function.update_self]
    omega
  · rw [bump_of_ne _ hab, Function.update_of_ne (Ne.symm hab)]

/-- What the TLB may hold after the call.  `asid_free` invalidates what is tagged with
the identifier, and the walk for an access of a task adds the tag in its TTBR1. -/
def Tlb (t : Tagged) (s' : Vm) : TaggedCall → Set (ℕ × ℕ)
  | translate a => insert ((s'.space a).asid, a) t.tlb
  | _ => {e ∈ t.tlb | ¬ (t.vm.asidTable (asidIndex e.1) = true ∧
      s'.asidTable (asidIndex e.1) = false)}

def Event (t : Tagged) (c : TaggedCall) (t' : Tagged) : Prop :=
  c.Allowed t ∧ c.Runs t.vm t'.vm ∧ t'.ext = c.ext t.ext ∧ t'.tlb ⊆ c.Tlb t t'.vm

end TaggedCall

namespace Tagged

/-- The state that `vm_init` leaves. -/
structure Started (t : Tagged) : Prop where
  init : ∃ s : Vm, s.vmInit = .ok t.vm ∧ (∀ i, s.asidTable i = false) ∧
    s.live = {kernel} ∧ (s.space kernel).asid = 0 ∧
    (s.space kernel).refcount = refcountGlobal ∧ (s.space kernel).parent = 0
  ext : ∀ a, t.ext a = 0
  tlb : ∀ e ∈ t.tlb, e = (0, kernel)

structure Inv (t : Tagged) : Prop where
  refs : t.vm.Refs t.ext t.vm.live
  ids : t.vm.Ids
  tlb : ∀ e ∈ t.tlb, e.2 ∈ t.vm.live ∧ (t.vm.space e.2).asid = e.1

section Runs

variable {t t' : Tagged} {c : TaggedCall} {cs : List TaggedCall}

theorem Started.inv (h : Started t) : Inv t := by
  obtain ⟨⟨s, hinit, htable, hlive, hasid, hcount, hparent⟩, hext, htlb⟩ := h
  simp only [vmInit, Outcome.bind_eq_ok, Prod.exists, Outcome.pure_eq_ok] at hinit
  obtain ⟨va, mm, -, hvm⟩ := hinit
  have hlive' : t.vm.live = {kernel} := by
    rw [← hvm]
    exact hlive
  have htable' : t.vm.asidTable = Function.update s.asidTable 0 true := by
    rw [← hvm]
    rfl
  have hkernel : (t.vm.space kernel).asid = 0 ∧
      (t.vm.space kernel).refcount = refcountGlobal ∧
      (t.vm.space kernel).parent = 0 := by
    rw [← hvm, setSpace_space, Function.update_self]
    exact ⟨hasid, hcount, hparent⟩
  constructor
  · refine ⟨⟨?_, ?_, ?_, ?_, ?_⟩, hkernel.2.1⟩
    · intro a ha hne
      rw [hlive'] at ha
      exact absurd (Finset.mem_singleton.mp ha) hne
    · intro a _ hpos
      exact absurd (hext a) hpos.ne'
    · intro a ha hne
      change a ∈ t.vm.live at ha
      rw [hlive', Finset.mem_singleton] at ha
      subst ha
      exact absurd hkernel.2.2 hne
    · rw [hlive']
      exact Finset.mem_singleton_self kernel
    · change 0 ∉ t.vm.live
      rw [hlive']
      decide
  · constructor
    · rw [htable', hlive']
      constructor
      · intro i
        simp only [Finset.mem_singleton, exists_eq_left, hkernel.1]
        by_cases hi : i = 0
        · subst hi
          rw [Function.update_self]
          exact iff_of_true rfl rfl
        · rw [Function.update_of_ne hi, htable]
          exact iff_of_false Bool.false_ne_true (Ne.symm hi)
      · rw [Finset.coe_singleton]
        exact Set.injOn_singleton _ _
    · intro a ha
      rw [hlive', Finset.mem_singleton] at ha
      subst ha
      rw [hkernel.1]
      rfl
  · intro e he
    rw [htlb e he, hlive']
    exact ⟨Finset.mem_singleton_self kernel, hkernel.1⟩

/-- An entry whose identifier is still in use belongs to the space that has it. -/
theorem Inv.entry (h : Inv t) {e : ℕ × ℕ} {s' : Vm} (hids : s'.Ids)
    (hlive : s'.live ⊆ t.vm.live)
    (hasid : ∀ a, (s'.space a).asid = (t.vm.space a).asid) (he : e ∈ t.tlb)
    (hkept : ¬ (t.vm.asidTable (asidIndex e.1) = true ∧
      s'.asidTable (asidIndex e.1) = false)) :
    e.2 ∈ s'.live ∧ (s'.space e.2).asid = e.1 := by
  obtain ⟨hmem, htag⟩ := h.tlb e he
  have hused := h.ids.owned.used_of_mem hmem
  rw [htag] at hused
  have hused' : s'.asidTable (asidIndex e.1) = true := by
    by_contra hfree
    exact hkept ⟨hused, Bool.not_eq_true _ ▸ hfree⟩
  obtain ⟨b, hb, hindex⟩ := (hids.owned.used_iff _).mp hused'
  have hbe : b = e.2 := by
    apply h.ids.owned.injOn (hlive hb) hmem
    dsimp only at hindex ⊢
    rw [← hasid, hindex, htag]
  exact ⟨hbe ▸ hb, (hasid e.2).trans htag⟩

theorem Inv.of_same (h : Inv t) (hsame : SameIds t.vm t'.vm) (hext : t'.ext = t.ext)
    (htlb : ∀ e ∈ t'.tlb, e ∈ t.tlb) : Inv t' where
  refs := by
    rw [hext, hsame.live]
    exact h.refs.of_same hsame
  ids := h.ids.of_same hsame
  tlb e he := by
    rw [hsame.live, hsame.asid]
    exact h.tlb e (htlb e he)

/-- A call keeps the counts, the identifiers and the tags. -/
theorem Inv.step (h : Inv t) (hstep : TaggedCall.Event t c t') : Inv t' := by
  obtain ⟨hallowed, hruns, hext, htlb⟩ := hstep
  cases c with
  | create p a =>
      obtain ⟨h0, ha, hp, href⟩ := hallowed
      obtain ⟨hlive, hrefs⟩ := vmCreate_refs h.refs h0 ha hp href hruns
      have hids := vmCreate_ids h.ids ha hruns
      refine ⟨hext ▸ hrefs, hids, ?_⟩
      intro e he
      obtain ⟨hmem, htag⟩ := h.tlb e (htlb he).1
      refine ⟨hlive ▸ Finset.mem_insert_of_mem hmem, ?_⟩
      rw [vmCreate_asid hruns (ne_of_mem_of_not_mem hmem ha), htag]
  | reference a =>
      obtain ⟨ha, href⟩ := hallowed
      obtain ⟨htable, hlive, hasid⟩ := vmReference_asid t.vm a
      rw [← show t'.vm = t.vm.vmReference a from hruns] at htable hlive hasid
      have hrefs := vmReference_refs h.refs ha href
      rw [← show t'.vm = t.vm.vmReference a from hruns, ← hlive] at hrefs
      refine ⟨hext ▸ hrefs, h.ids.congr htable hlive hasid, ?_⟩
      intro e he
      rw [hlive, hasid]
      exact h.tlb e (htlb he).1
  | release a =>
      obtain ⟨fuel, hfuel, hok⟩ := hruns
      have hrefs : t.vm.Refs (bump t'.ext a) t.vm.live := by
        apply h.refs.congr
        intro b h0 hkernel
        rw [hext]
        by_cases hba : a = b
        · subst hba
          have hheld : 0 < t.ext a := (hallowed.resolve_left h0).resolve_left hkernel
          exact congrFun (TaggedCall.bump_update hheld) a
        · rw [bump_of_ne _ hba]
          exact Function.update_of_ne (Ne.symm hba) _ _
      have hsat := vmRelease_ids hrefs h.ids (Finset.Subset.refl _) hfuel
      rw [hok] at hsat
      obtain ⟨F, -, hlive, hrefs', hids, hasid⟩ := hsat
      refine ⟨hlive ▸ hrefs', hids, ?_⟩
      intro e he
      obtain ⟨hold, hkept⟩ := htlb he
      exact h.entry hids (hlive ▸ Finset.sdiff_subset) hasid hold hkept
  | map a vaddr physical prot =>
      exact h.of_same (vmSpaceMapPagePhysicalProt_same hruns) hext
        fun e he => (htlb he).1
  | allocate a addr size flags =>
      obtain ⟨r, addr', hok⟩ := hruns
      exact h.of_same (vmAllocate_same hok) hext fun e he => (htlb he).1
  | deallocate a addr size =>
      obtain ⟨r, hok⟩ := hruns
      exact h.of_same (vmDeallocate_same hok) hext fun e he => (htlb he).1
  | translate a =>
      have hvm : t'.vm = t.vm := hruns
      refine ⟨?_, hvm ▸ h.ids, ?_⟩
      · rw [hvm, hext]
        exact h.refs
      · intro e he
        rcases htlb he with rfl | hold
        · exact ⟨hvm ▸ hallowed, rfl⟩
        · rw [hvm]
          exact h.tlb e hold

theorem Inv.run (h : Inv t) (hrun : Run TaggedCall.Event t cs t') : Inv t' :=
  hrun.invariant (fun _ _ _ hi hstep => hi.step hstep) h

/-- Spaces have different identifiers, `asid_table` marks those, and an access of a
space meets no translation of another one. -/
structure Identified (t : Tagged) : Prop where
  distinct : ∀ a ∈ t.vm.live, ∀ b ∈ t.vm.live,
    (t.vm.space a).asid = (t.vm.space b).asid → a = b
  used : ∀ i, t.vm.asidTable i = true ↔ ∃ a ∈ t.vm.live, (t.vm.space a).asid = i * 2 ^ 48
  own : ∀ e ∈ t.tlb, ∀ a ∈ t.vm.live, (t.vm.space a).asid = e.1 → e.2 = a
  live : ∀ e ∈ t.tlb, e.2 ∈ t.vm.live

/-- In every run of creations, references, releases, mappings and reservations that
starts after `vm_init`, the identifiers tell the spaces apart. -/
theorem identified_of_run (h : Started t) (hrun : Run TaggedCall.Event t cs t') :
    Identified t' where
  distinct _ ha _ hb hab := (h.inv.run hrun).ids.injective ha hb hab
  used _ := (h.inv.run hrun).ids.used_iff
  own e he a ha htag := by
    obtain ⟨hmem, hself⟩ := (h.inv.run hrun).tlb e he
    exact (h.inv.run hrun).ids.injective hmem ha (hself.trans htag.symm)
  live e he := ((h.inv.run hrun).tlb e he).1

/-- In such a run no identifier is lost: `asid_alloc` panics with 256 spaces only.  A
release of a reference that is held returns, unless `phys_dereference` panics for a
page that a space maps. -/
theorem stops_of_run (h : Started t) (hrun : Run TaggedCall.Event t cs t') :
    ((∃ e, t'.vm.asidAlloc = .error e) ↔ t'.vm.live.card = 256) ∧
      ∀ a fuel e, 0 < t'.ext a → t'.vm.live.card < fuel →
        t'.vm.vmRelease fuel a = .error e → e ∈ dereferencePanics := by
  have hinv := h.inv.run hrun
  refine ⟨asidAlloc_stops_iff hinv.ids, ?_⟩
  intro a fuel e hheld hfuel hstop
  have hrefs := hinv.refs
  rw [← TaggedCall.bump_update hheld] at hrefs
  have hsat := vmRelease_ids hrefs hinv.ids (Finset.Subset.refl _) hfuel
  rwa [hstop] at hsat

/-! ### A machine with eight pages -/

/-- The free pages form a list in the order of their addresses. -/
def eightPages : Mm where
  boot :=
    { physBase := 0x800000000
      memSize := 0x20000
      topOfKernelData := 0x800004000
      physBase_pos := Mm.dramBase_pos
      ram_fits := by decide }
  earlyHeapBase := 0x400004000
  is16k := true
  mem := fun a => if a % 0x4000 = 0 ∧ a < 0x80001c000 then a + 0x4000 else 0
  ppageList := fun i => if i < 8 then pageFree else pageWired
  ppages := 8
  paHead := 0x800000000
  freePages := 8
  wiredPages := 0
  allocStaticBase := 0x400004000
  allocStaticCurrent := 0x400004000
  allocStaticEnd := 0x400004000
  ttbFreelist := 0
  ttbAllocBase := 0

/-- Before `vm_init` there is only `kernel_vm_space`. -/
def kernelOnly : Vm where
  mm := eightPages
  asidTable := fun _ => false
  space := fun _ =>
    { ttbr0 := 0x817ff8000
      ttbr1 := 0x817ff4000
      vmSpaceTable := fun _ => false
      refcount := refcountGlobal
      parent := 0
      asid := 0 }
  live := {kernel}

/-- A space is created with a child, an access of the child is translated, and one of
two references to the parent is released. -/
def sampleCalls : List TaggedCall :=
  [.create 0 0x3000, .reference 0x3000, .create 0x3000 0x4000, .translate 0x4000,
    .release 0x3000]

theorem sampleCalls_run : ∃ t t', Started t ∧ Run TaggedCall.Event t sampleCalls t' := by
  have hcalls : (do
      let s ← kernelOnly.vmInit
      let s₁ ← s.vmCreate 0 0x3000
      let s₂ ← (s₁.vmReference 0x3000).vmCreate 0x3000 0x4000
      let s₃ ← s₂.vmRelease 4 0x3000
      pure (s, s₁, s₂, s₃) : Outcome (Vm × Vm × Vm × Vm)).toOption.map
        (fun (s, s₁, s₂, _) =>
          (0x3000 ∉ s.live ∧ (0x3000 ∈ s₁.live ∧ s₁.Referable 0x3000) ∧
            (0x4000 ∉ (s₁.vmReference 0x3000).live ∧
              0x3000 ∈ (s₁.vmReference 0x3000).live ∧
              (s₁.vmReference 0x3000).Referable 0x3000) ∧
            0x4000 ∈ s₂.live ∧ s₂.live.card < 4 : Bool)) = some true := by
    decide +kernel
  obtain ⟨⟨s, s₁, s₂, s₃⟩, hok, hfacts⟩ := Outcome.ok_of_map hcalls
  simp only [Outcome.bind_eq_ok, Outcome.pure_eq_ok, Prod.mk.injEq] at hok
  obtain ⟨s, hinit, s₁, hcreate, s₂, hchild, s₃, hrelease, rfl, rfl, rfl, rfl⟩ := hok
  simp only [decide_eq_true_eq] at hfacts
  obtain ⟨hnew, ⟨hlive, href⟩, ⟨hnew', hlive', href'⟩, hchildLive, hcard⟩ := hfacts
  let t : Tagged := ⟨s, fun _ => 0, ∅⟩
  let t₁ : Tagged := ⟨s₁, (TaggedCall.create 0 0x3000).ext t.ext, ∅⟩
  let t₂ : Tagged := ⟨s₁.vmReference 0x3000, (TaggedCall.reference 0x3000).ext t₁.ext, ∅⟩
  let t₃ : Tagged := ⟨s₂, (TaggedCall.create 0x3000 0x4000).ext t₂.ext, ∅⟩
  let t₄ : Tagged := ⟨s₂, t₃.ext, {((s₂.space 0x4000).asid, 0x4000)}⟩
  let t₅ : Tagged := ⟨s₃, (TaggedCall.release 0x3000).ext t₄.ext,
    (TaggedCall.release 0x3000).Tlb t₄ s₃⟩
  have hstarted : Started t :=
    ⟨⟨kernelOnly, hinit, fun _ => rfl, rfl, rfl, rfl, rfl⟩, fun _ => rfl,
      fun e he => absurd he (Set.notMem_empty e)⟩
  have hcreated : TaggedCall.Event t (.create 0 0x3000) t₁ :=
    ⟨⟨by decide, hnew, .inl rfl, fun hne => absurd rfl hne⟩, hcreate, rfl,
      Set.empty_subset _⟩
  have hreferenced : TaggedCall.Event t₁ (.reference 0x3000) t₂ :=
    ⟨⟨.inr hlive, href⟩, rfl, rfl, Set.empty_subset _⟩
  have hchildCreated : TaggedCall.Event t₂ (.create 0x3000 0x4000) t₃ :=
    ⟨⟨by decide, hnew', .inr hlive', href'⟩, hchild, rfl, Set.empty_subset _⟩
  have htranslated : TaggedCall.Event t₃ (.translate 0x4000) t₄ :=
    ⟨hchildLive, rfl, rfl, fun e he => .inl he⟩
  have hheld : 0 < t₄.ext 0x3000 := by
    change 0 < bump (bump (bump (fun _ => 0) 0x3000) 0x3000) 0x4000 0x3000
    decide
  have hreleased : TaggedCall.Event t₄ (.release 0x3000) t₅ :=
    ⟨.inr (.inr hheld), ⟨4, hcard, hrelease⟩, rfl, Set.Subset.refl _⟩
  exact ⟨t, t₅, hstarted, .cons hcreated (.cons hreferenced (.cons hchildCreated
    (.cons htranslated (.single hreleased))))⟩

theorem identified_of_sampleCalls :
    ∃ t t', Started t ∧ Run TaggedCall.Event t sampleCalls t' ∧ Identified t' := by
  obtain ⟨t, t', hstarted, hrun⟩ := sampleCalls_run
  exact ⟨t, t', hstarted, hrun, identified_of_run hstarted hrun⟩

theorem stops_of_sampleCalls :
    ∃ t t', Started t ∧ Run TaggedCall.Event t sampleCalls t' ∧
      ((∃ e, t'.vm.asidAlloc = .error e) ↔ t'.vm.live.card = 256) ∧
      ∀ a fuel e, 0 < t'.ext a → t'.vm.live.card < fuel →
        t'.vm.vmRelease fuel a = .error e → e ∈ dereferencePanics := by
  obtain ⟨t, t', hstarted, hrun⟩ := sampleCalls_run
  exact ⟨t, t', hstarted, hrun, stops_of_run hstarted hrun⟩

end Runs

end Tagged

end Vm

end PongoOS
