import PongoOS.Mm.AllocatorRuns

/-!
# `mark_phys_wired` and the free list

`mark_phys_wired` writes the marker `PAGE_WIRED` into the counters of free
pages but leaves these pages on the free list, from which `ppage_alloc` takes
its pages without looking at the counter.  So wiring keeps a page out of later
allocations only when it wires no page at all.
-/

namespace PongoOS

open DoublyLinked

namespace Mm

/-! ## What the call does -/

/-- The links and the head stay, the totals move by `n`. -/
structure MarksWired (s s' : Mm) (n : ℕ) : Prop where
  mem : s'.mem = s.mem
  paHead : s'.paHead = s.paHead
  freePages : s'.freePages = sub64 s.freePages n
  layout : SameLayout s s'

theorem markPhysWired_ok {s s' : Mm} {pa size : ℕ}
    (hsize : s.ppages + 1 < 2 ^ 64) (hfree : s.freePages < 2 ^ 64)
    (hok : markPhysWired pa size s = .ok s') :
    size / pageSize ≤ s.ppages + 1 ∧
      MarksWired s s' (size / pageSize) := by
  simp only [markPhysWired, Outcome.bind_eq_ok] at hok
  obtain ⟨-, -, hloop⟩ := hok
  generalize sub64 pa s.boot.physBase / pageSize = i at hloop
  have hbound := forRange_index_le
    (fun j a b hab => (markPhysWiredPage_ok hab).1)
    (fun _ _ _ => SameLayout.markPhysWiredPage) hloop
  have hle : size / pageSize ≤ s.ppages + 1 := by omega
  refine ⟨hle, ?_⟩
  have hlast := Outcome.forRange_invariant
    (P := fun j a => MarksWired s a (j - i))
    (fun j a b hij hjn ha hab => by
      obtain ⟨-, -, rfl⟩ := markPhysWiredPage_ok hab
      refine ⟨ha.mem, ha.paHead, ?_,
        ha.layout.trans (SameLayout.markPhysWiredPage hab)⟩
      rw [setWiredPages_freePages, setFreePages_freePages, ha.freePages,
        dec64_sub64 hfree (by omega), Nat.sub_add_comm hij])
    ⟨rfl, rfl, by rw [Nat.sub_self, sub64_zero hfree], SameLayout.refl s⟩
    hloop
  rwa [Nat.add_sub_cancel_left] at hlast

/-- A well-formed list cannot survive the wiring of a page. -/
theorem MarksWired.eq_zero {s s' : Mm} {n : ℕ} (h : MarksWired s s' n)
    (hn : n < 2 ^ 64) (hwf : s.FreeListWf) (hwf' : s'.FreeListWf) :
    n = 0 := by
  obtain ⟨l, hl⟩ := hwf
  obtain ⟨l', hl'⟩ := hwf'
  have hlinks : s'.nextLink = s.nextLink := by
    funext pa
    unfold nextLink
    rw [h.mem]
  have hchain := hl'.chain
  rw [hlinks, h.paHead] at hchain
  have hlist : l = l' := hl.chain.unique hchain
  have hle := hl.freePages_le
  have hlt := hl.ppages_lt
  refine sub64_eq_self (a := s.freePages) (by omega) hn ?_
  rw [← h.freePages, hl'.total, ← hlist, hl.total]

/-! ## Later runs -/

/-- The page number `i` is part of what an allocation in state `s` returns. -/
def HandsOut (s : Mm) (i : ℕ) : Prop :=
  (∃ s', s.ppageAlloc = .ok (s.pageAddr i, s')) ∨
    ∃ size rv s' k, allocPhys size s = .ok (rv, s') ∧
      k < allocPhysPages size ∧ rv + k * pageSize = s.pageAddr i

/-- A dereference is made by holders of counted references to pages of RAM. -/
def PageOp.Legitimate (s : Mm) : PageOp → Prop
  | .physDereference pa size => s.InRam pa size ∧
      ∀ i, s.Touches pa size i → s.count i ≠ pageWired
  | _ => True

def LegitimateStep (s : Mm) (op : PageOp) (s' : Mm) : Prop :=
  PageStep s op s' ∧ op.Legitimate s

/-- `op` is a `phys_force_free` of page `i`. -/
def PageOp.ForceFrees (s : Mm) (i : ℕ) : PageOp → Prop
  | .physForceFree pa size => s.Touches pa size i
  | _ => False

/-- From `s` on, the free list is well formed in every run, and no page of
`[pa, pa + size)` is handed out before it is force-freed. -/
def WiringExclusive (s : Mm) (pa size : ℕ) : Prop :=
  ∀ ops s', Run LegitimateStep s ops s' →
    s'.FreeListWf ∧ ∀ i, s.Touches pa size i →
      (∀ op ∈ ops, ¬ op.ForceFrees s i) → ¬ s'.HandsOut i

theorem LegitimateStep.belowEnd {s s' : Mm} {op : PageOp}
    (h : LegitimateStep s op s') : PageStepBelowEnd s op s' := by
  refine ⟨h.1, ?_⟩
  cases op with
  | physDereference pa size =>
      rintro ⟨-, hle, hgt⟩
      rcases h.2.1 with hzero | ⟨-, -, hram⟩
      · omega
      · omega
  | ppageAlloc => trivial
  | allocPhys size => trivial
  | physReference pa size => trivial
  | physForceFree pa size => trivial
  | write addr val => trivial

/-- Wiring is exclusive exactly when the range holds no whole page. -/
theorem wiringExclusive_iff {s s' : Mm} {pa size : ℕ}
    (h : s.ReachableBelowEnd) (hok : markPhysWired pa size s = .ok s') :
    s'.WiringExclusive pa size ↔ size < pageSize := by
  obtain ⟨hinit, l, hl⟩ := h.inv
  have hppages := hl.ppages_lt
  have hfreePages := hl.freePages_le
  obtain ⟨hle, hmarks⟩ :=
    markPhysWired_ok (by omega) (by omega) hok
  constructor
  · intro hexclusive
    have hwf' := (hexclusive [] s' (Run.nil s')).1
    have hzero := hmarks.eq_zero (by omega) ⟨l, hl⟩ hwf'
    exact (Nat.div_eq_zero_iff.mp hzero).resolve_left (by decide)
  · intro hsmall ops s'' hrun
    have hzero : size / pageSize = 0 := Nat.div_eq_of_lt hsmall
    have hsame : s' = s := by
      simp only [markPhysWired, Outcome.bind_eq_ok, hzero] at hok
      obtain ⟨-, -, hloop⟩ := hok
      exact (Except.ok.inj hloop).symm
    rw [hsame] at hrun
    have hinv : s''.AllocatorInv := hrun.invariant
      (fun _ _ _ ha hab => ha.step hab.belowEnd) ⟨hinit, l, hl⟩
    refine ⟨hinv.freeList, fun i htouch => ?_⟩
    obtain ⟨-, hge, hlt⟩ := htouch
    omega

/-! ## A wired page is handed out -/

/-- Reading the counter of a page of RAM. -/
theorem physGetEntry_pageAddr {s : Mm} {i : ℕ} (hi : i < s.ppages)
    (hsized : s.ppages * pageSize ≤ s.boot.memSize) :
    s.physGetEntry (s.pageAddr i) = .ok (s.ppageList i) := by
  simp only [physGetEntry, sub64_pageAddr hi hsized, mul_pageSize_mod,
    mul_pageSize_div, panicIf, if_neg (Nat.not_lt.mpr hi.le)]
  rfl

/-- `phys_reference` leaves a wired page alone. -/
theorem physReferencePage_wired {s : Mm} {i : ℕ} (hi : i ≤ s.ppages)
    (hwired : s.count i = pageWired) : physReferencePage i s = .ok s := by
  unfold physReferencePage panicIf
  rw [if_neg (Nat.not_lt.mpr hi), hwired]
  rfl

theorem physReference_pageAddr {s s' : Mm} {i : ℕ}
    (hpage : physReferencePage i s = .ok s') :
    physReference (s.pageAddr i) pageSize s = .ok s' := by
  refine (physReference_iff (s.pageAddr_ne_zero i)
    (Nat.le_add_right _ _)).mpr ?_
  rw [pageAddr_sub_physBase, mul_pageSize_div, mul_pageSize_mod,
    Nat.div_self (by decide)]
  exact ⟨rfl, Outcome.forRange_succ_ok.mpr ⟨s', hpage, rfl⟩⟩

/-- `ppage_alloc` returns the head whatever its counter says. -/
theorem ppageAlloc_wired {s : Mm} {i : ℕ} (hinit : s.allocStaticBase ≠ 0)
    (hhead : s.paHead = s.pageAddr i) (hi : i ≤ s.ppages)
    (hwired : s.count i = pageWired) :
    ∃ s', s.ppageAlloc = .ok (s.pageAddr i, s') := by
  obtain ⟨hboot, hppages, hlist⟩ := s.popHead_shape
  have hcount : (s.popHead.bzero (s.pageAddr i) pageSize).count i =
      pageWired := by
    rw [bzero_count, count, hlist, ← count, hwired]
  have hpage := physReferencePage_wired
    (by rw [bzero_ppages, hppages]; exact hi) hcount
  have hreference := physReference_pageAddr hpage
  rw [bzero_pageAddr, pageAddr, hboot, ← pageAddr] at hreference
  refine ⟨s.popHead.bzero (s.pageAddr i) pageSize, ?_⟩
  unfold ppageAlloc
  rw [if_neg hinit]
  refine Outcome.bind_eq_ok.mpr ⟨s, rfl, ?_⟩
  rw [if_pos (hhead ▸ s.pageAddr_ne_zero i), hhead]
  exact Outcome.bind_eq_ok.mpr ⟨_, hreference, rfl⟩

/-- Wiring one free page. -/
theorem markPhysWiredPage_free {s : Mm} {i : ℕ} (hi : i < s.ppages)
    (hsized : s.ppages * pageSize ≤ s.boot.memSize)
    (hfree : s.count i = pageFree) :
    markPhysWiredPage i s = .ok (((s.setEntry i (withRefBits (s.ppageList i)
      pageWired)).setFreePages (dec64 s.freePages)).setWiredPages
        (inc64 s.wiredPages)) := by
  unfold markPhysWiredPage panicIf
  rw [physGetEntry_pageAddr hi hsized]
  refine Outcome.bind_eq_ok.mpr ⟨_, rfl, ?_⟩
  rw [← count, if_neg (not_not_intro hfree), if_neg (Nat.not_lt.mpr hi.le)]
  refine Outcome.bind_eq_ok.mpr ⟨(), rfl, ?_⟩
  refine Outcome.bind_eq_ok.mpr ⟨(), rfl, ?_⟩
  exact Outcome.pure_eq_ok.mpr rfl

/-- A call for a single page is one turn of the loop. -/
theorem markPhysWired_pageAddr {s s' : Mm} {i : ℕ} (hi : i < s.ppages)
    (hsized : s.ppages * pageSize ≤ s.boot.memSize)
    (hpage : markPhysWiredPage i s = .ok s') :
    markPhysWired (s.pageAddr i) pageSize s = .ok s' := by
  unfold markPhysWired
  refine Outcome.bind_eq_ok.mpr ⟨(), ?_, ?_⟩
  · rw [panicIf_eq_ok, sub64_pageAddr hi hsized, mul_pageSize_mod]
    exact not_not_intro rfl
  · rw [sub64_pageAddr hi hsized, mul_pageSize_div,
      Nat.div_self (by decide)]
    exact Outcome.forRange_succ_ok.mpr ⟨s', hpage, rfl⟩

/-- Wiring the page at the head of the list. -/
theorem markPhysWired_head {s : Mm} {l : List ℕ} {i : ℕ}
    (hl : FreeListSans s l ∅) (hhead : s.paHead = s.pageAddr i) :
    i < s.ppages ∧ ∃ s', markPhysWired (s.pageAddr i) pageSize s = .ok s' ∧
      s'.count i = pageWired ∧ s'.paHead = s.pageAddr i := by
  obtain ⟨j, hj, -, hfree, haddr, -⟩ :=
    hl.head_page (hhead ▸ s.pageAddr_ne_zero i)
  obtain rfl : i = j := pageAddr_inj.mp (hhead.symm.trans haddr)
  have hpage := markPhysWiredPage_free hj hl.sized hfree
  refine ⟨hj, _, markPhysWired_pageAddr hj hl.sized hpage, ?_, ?_⟩
  · rw [setWiredPages_count, setFreePages_count, setEntry_count_self,
      refBits_withRefBits, refBits_pageWired]
  · rw [setWiredPages_paHead, setFreePages_paHead, setEntry_paHead, hhead]

theorem markPhysWired_no_page {s : Mm} {pa size : ℕ}
    (haligned : sub64 pa s.boot.physBase % pageSize = 0)
    (hsmall : size < pageSize) : markPhysWired pa size s = .ok s := by
  simp only [markPhysWired, panicIf, haligned, Nat.div_eq_of_lt hsmall]
  rfl

theorem wiringExclusive_iff_bootExample :
    ∃ s s' : Mm, s.ReachableBelowEnd ∧
      markPhysWired 0x87fffc000 0x3fff s = .ok s' ∧
      (s'.WiringExclusive 0x87fffc000 0x3fff ↔ 0x3fff < pageSize) := by
  obtain ⟨s, hinit, -, -⟩ := bootExample_allocInit
  have hreach := bootExample_reachable hinit
  have hboot : s.boot = bootExample.boot := by
    rw [(allocInit_layout rfl hinit).boot, afterWiring_boot]
  have hmark : markPhysWired 0x87fffc000 0x3fff s = .ok s := by
    refine markPhysWired_no_page ?_ (by decide)
    rw [hboot, sub64_of_le (by decide) (by decide)]
    decide
  exact ⟨s, s, hreach, hmark, wiringExclusive_iff hreach hmark⟩

/-- On a machine with 2 GiB at `0x800000000`, the last page of RAM is wired
and then allocated. -/
theorem wired_page_handed_out :
    ∃ s s₁ s₂ : Mm, bootExample.allocInit = .ok s ∧ s.ReachableBelowEnd ∧
      markPhysWired 0x87fffc000 0x4000 s = .ok s₁ ∧
      s₁.count 0x1ffff = pageWired ∧
      s₁.ppageAlloc = .ok (0x87fffc000, s₂) ∧
      ¬ s₁.WiringExclusive 0x87fffc000 0x4000 := by
  obtain ⟨s, hinit, hhead, -⟩ := bootExample_allocInit
  have hreach := bootExample_reachable hinit
  obtain ⟨hbase, l, hl⟩ := hreach.inv
  have hboot : s.boot = bootExample.boot := by
    rw [(allocInit_layout rfl hinit).boot, afterWiring_boot]
  have haddr : s.pageAddr 0x1ffff = 0x87fffc000 := by
    rw [pageAddr, hboot]
    decide
  rw [← haddr] at hhead
  obtain ⟨hi, s₁, hmark, hwired, hhead₁⟩ := markPhysWired_head hl hhead
  have hlayout := SameLayout.markPhysWired hmark
  obtain ⟨s₂, halloc⟩ := ppageAlloc_wired (s := s₁) (i := 0x1ffff)
    (hlayout.allocStaticBase ▸ hbase) (by rw [hhead₁, hlayout.pageAddr])
    (by rw [hlayout.ppages]; exact hi.le) hwired
  have halloc' := halloc
  rw [hlayout.pageAddr, haddr] at halloc'
  rw [haddr] at hmark
  refine ⟨s, s₁, s₂, hinit, hreach, hmark, hwired, halloc', ?_⟩
  intro hexclusive
  have htouch : s₁.Touches 0x87fffc000 0x4000 0x1ffff := by
    unfold Touches
    rw [hlayout.boot, hboot]
    decide
  exact (hexclusive [] s₁ (Run.nil s₁)).2 0x1ffff htouch
    (fun op hop => absurd hop List.not_mem_nil) (Or.inl ⟨s₂, halloc⟩)

end Mm

end PongoOS
