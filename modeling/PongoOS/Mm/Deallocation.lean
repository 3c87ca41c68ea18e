import PongoOS.Mm.ManagedRange
import PongoOS.Mm.PageMapping

/-!
# `vm_deallocate`

The limit that the end of the request is compared with is the end of the
managed range as an address, not its length, so that a request far outside the
range can pass, and the bits it looks at are then not those of
`vm_space_table`.  The pages released are counted from the start of the first
page, whatever the address in it.
-/

namespace PongoOS

namespace Vm

/-- The first page of a request. -/
def deallocBase (addr : ℕ) : ℕ := sub64 addr vmSpaceBase / pageSize % 2 ^ 32

/-- How many pages the loops of a request visit. -/
def deallocCount (addr size : ℕ) : ℕ :=
  loopLength (deallocBase addr) (sizePages size % 2 ^ 32)

/-- The request is refused without a look at the table. -/
def Refused (addr size : ℕ) : Prop :=
  vmSpaceEnd < (sub64 addr vmSpaceBase + size) % 2 ^ 64

instance (addr size : ℕ) : Decidable (Refused addr size) :=
  inferInstanceAs (Decidable (_ < _))

/-- The bits that the first loop reads: it stops at a page that is not
allocated. -/
def scannedBits (table : ℕ → Bool) (i : ℕ) : ℕ → List ℕ
  | 0 => []
  | n + 1 => i :: if table i then scannedBits table (i + 1) n else []

/-- All bits of the table that a call reads or writes. -/
def vmDeallocateBits (v : VmSpace) (addr size : ℕ) : List ℕ :=
  let base := deallocBase addr
  let n := deallocCount addr size
  if Refused addr size then []
  else
    scannedBits v.vmSpaceTable base n ++
      if (List.range' base n).all v.vmSpaceTable then List.range' base n
      else []

section Scan

variable {table : ℕ → Bool} {i j n : ℕ}

theorem mem_scannedBits : j ∈ scannedBits table i n ↔
    i ≤ j ∧ j < i + n ∧ ∀ k, i ≤ k → k < j → table k = true := by
  induction n generalizing i with
  | zero =>
      refine ⟨nofun, fun h => ?_⟩
      omega
  | succ n ih =>
      rw [scannedBits, List.mem_cons]
      constructor
      · rintro (rfl | hj)
        · exact ⟨le_rfl, by omega, fun k _ _ => by omega⟩
        split at hj
        · rename_i hi
          obtain ⟨hij, hjn, hall⟩ := ih.mp hj
          refine ⟨by omega, by omega, fun k hk hkj => ?_⟩
          rcases Nat.eq_or_lt_of_le hk with rfl | hlt
          · exact hi
          · exact hall k hlt hkj
        · cases hj
      · rintro ⟨hij, hjn, hall⟩
        rcases Nat.eq_or_lt_of_le hij with rfl | hlt
        · exact .inl rfl
        · rw [if_pos (hall i le_rfl hlt)]
          exact .inr (ih.mpr ⟨hlt, by omega, fun k hk => hall k (by omega)⟩)

theorem all_range' : (List.range' i n).all table = true ↔
    ∀ j, i ≤ j → j < i + n → table j = true := by
  simp only [List.all_eq_true, List.mem_range'_1, and_imp]

/-- Where a page of the run is free, the scan stays below `bound` exactly if
there is a free one below `bound`. -/
theorem scannedBits_lt_iff {bound : ℕ}
    (hfree : ¬ ∀ j, i ≤ j → j < i + n → table j = true) :
    (∀ j ∈ scannedBits table i n, j < bound) ↔
      ∃ j, i ≤ j ∧ j < i + n ∧ j < bound ∧ table j = false := by
  constructor
  · intro hbound
    by_contra hnone
    push Not at hnone
    refine hfree fun j => ?_
    induction j using Nat.strong_induction_on with
    | _ j ih =>
        intro hij hjn
        have hscan := mem_scannedBits.mpr ⟨hij, hjn,
          fun k hik hkj => ih k hkj hik (by omega)⟩
        simpa using hnone j hij hjn (hbound j hscan)
  · rintro ⟨f, hif, hfn, hlt, hf⟩ j hj
    obtain ⟨-, -, hall⟩ := mem_scannedBits.mp hj
    by_contra hge
    have hused := hall f hif (by omega)
    rw [hf] at hused
    cases hused

end Scan

/-! ## Requests -/

/-- What a call is for. -/
structure DeallocateSpec (a addr size : ℕ) (s : Vm) (r : KernResult)
    (s' : Vm) : Prop where
  inTable : ∀ i ∈ vmDeallocateBits (s.space a) addr size,
    i < vmSpaceSize / pageSize
  managed : r = .success → 0 < size → InManaged addr size
  allocated : r = .success → ∀ i, PageOf addr size i →
    (s.space a).vmSpaceTable i = true
  freed : r = .success → ∀ i, (s'.space a).vmSpaceTable i = true ↔
    (s.space a).vmSpaceTable i = true ∧ ¬ PageOf addr size i
  unmapped : r = .success → ∀ roots J,
    Mm.PageTables s.mm.granule (s.pageArgs a 0 noProt) roots J s.mm →
    Unmapped s.mm.granule (s.space a).ttbr1 roots (PageOf addr size) s.mm
      s'.mm
  unchanged : r ≠ .success → s' = s

/-- The request begins so early in its first page that it meets no more pages
than it has. -/
def FillsPages (addr size : ℕ) : Prop :=
  (addr - vmSpaceBase) % pageSize + (size - 1) % pageSize < pageSize

/-- A request that is refused, empty, stopped by a free page of the managed
range, or for allocated pages of that range alone. -/
def DeallocateServed (v : VmSpace) (addr size : ℕ) : Prop :=
  Refused addr size ∨ size = 0 ∨
    (∃ i, deallocBase addr ≤ i ∧ i < deallocBase addr + deallocCount addr size ∧
      i < vmSpaceSize / pageSize ∧ v.vmSpaceTable i = false) ∨
    (InManaged addr size ∧ FillsPages addr size ∧
      ∀ i, PageOf addr size i → v.vmSpaceTable i = true)

section Requests

variable {a addr size i : ℕ} {s s' : Vm} {r : KernResult}

theorem pageOf_zero : ¬ PageOf addr 0 i := by
  rintro ⟨x, hlow, hhigh, -⟩
  omega

/-- The pages of a range in the managed range. -/
theorem pageOf_managed (hin : InManaged addr size) (hsize : 0 < size) :
    PageOf addr size i ↔ (addr - vmSpaceBase) / pageSize ≤ i ∧
      i ≤ (addr + size - 1 - vmSpaceBase) / pageSize := by
  obtain ⟨hlo, hhi⟩ := hin
  unfold vmSpaceEnd vmSpaceSize at hhi
  unfold PageOf
  unfold vmSpaceBase pageSize at *
  constructor
  · rintro ⟨x, h₁, h₂, h₃, h₄⟩
    omega
  · rintro ⟨h₁, h₂⟩
    by_cases hfirst : addr ≤ 0xfffffffe00000000 + i * 0x4000
    · exact ⟨0xfffffffe00000000 + i * 0x4000, by omega, by omega, by omega,
        by omega⟩
    · exact ⟨addr, by omega, by omega, by omega, by omega⟩

theorem InManaged.not_refused (hin : InManaged addr size) :
    ¬ Refused addr size := by
  obtain ⟨hlo, hhi⟩ := hin
  unfold Refused sub64
  unfold vmSpaceEnd vmSpaceSize at *
  unfold vmSpaceBase at *
  omega

/-- What the code computes for a range in the managed range. -/
theorem InManaged.visited (hin : InManaged addr size) (hsize : 0 < size) :
    deallocBase addr = (addr - vmSpaceBase) / pageSize ∧
      deallocCount addr size = (size - 1) / pageSize + 1 := by
  obtain ⟨hlo, hhi⟩ := hin
  unfold vmSpaceEnd vmSpaceSize at hhi
  unfold deallocCount deallocBase loopLength sizePages sub64
  unfold vmSpaceBase pageSize at *
  omega

/-- The pages that the loops visit are those of the range, if the range fills
its pages. -/
theorem InManaged.visits_iff (hin : InManaged addr size) (hsize : 0 < size) :
    (∀ i, PageOf addr size i ↔ deallocBase addr ≤ i ∧
      i < deallocBase addr + deallocCount addr size) ↔
      FillsPages addr size := by
  obtain ⟨hbase, hcount⟩ := hin.visited hsize
  have hlast : (addr + size - 1 - vmSpaceBase) / pageSize <
      (addr - vmSpaceBase) / pageSize + ((size - 1) / pageSize + 1) ↔
      FillsPages addr size := by
    have hlo := hin.1
    unfold FillsPages
    unfold vmSpaceBase pageSize at *
    omega
  have hfirst : (addr - vmSpaceBase) / pageSize + (size - 1) / pageSize ≤
      (addr + size - 1 - vmSpaceBase) / pageSize := by
    have hlo := hin.1
    unfold vmSpaceBase pageSize at *
    omega
  simp only [pageOf_managed hin hsize, hbase, hcount]
  rw [← hlast]
  constructor
  · intro h
    exact ((h _).mp ⟨(Nat.le_add_right _ _).trans hfirst, le_rfl⟩).2
  · intro h i
    omega

/-- How a call ends. -/
theorem vmDeallocate_cases (hrun : vmDeallocate a addr size s = .ok (r, s')) :
    (Refused addr size ∧ r = .vmOom ∧ s' = s) ∨
    (¬ Refused addr size ∧
      (¬ ∀ j, deallocBase addr ≤ j →
        j < deallocBase addr + deallocCount addr size →
        (s.space a).vmSpaceTable j = true) ∧ r = .failure ∧ s' = s) ∨
    (¬ Refused addr size ∧
      (∀ j, deallocBase addr ≤ j →
        j < deallocBase addr + deallocCount addr size →
        (s.space a).vmSpaceTable j = true) ∧ r = .success ∧
      Outcome.forRange (fun i => vmDeallocatePage a i) (deallocBase addr)
        (deallocCount addr size) s = .ok s') := by
  unfold vmDeallocate at hrun
  simp only at hrun
  split at hrun
  · rename_i hrefused
    cases hrun
    exact .inl ⟨hrefused, rfl, rfl⟩
  rename_i haccepted
  split at hrun
  · rename_i hall
    simp only [Outcome.bind_eq_ok, Outcome.pure_eq_ok, Prod.mk.injEq] at hrun
    obtain ⟨s₁, hpages, rfl, rfl⟩ := hrun
    exact .inr (.inr ⟨haccepted, all_range'.mp hall, rfl, hpages⟩)
  · rename_i hnot
    cases hrun
    exact .inr (.inl ⟨haccepted, fun h => hnot (all_range'.mpr h), rfl, rfl⟩)

/-- A refused request touches no bit. -/
theorem vmDeallocateBits_refused {v : VmSpace} (h : Refused addr size) :
    vmDeallocateBits v addr size = [] :=
  if_pos h

theorem vmDeallocateBits_failure {v : VmSpace} (h : ¬ Refused addr size)
    (hfree : ¬ ∀ j, deallocBase addr ≤ j →
      j < deallocBase addr + deallocCount addr size →
      v.vmSpaceTable j = true) :
    vmDeallocateBits v addr size =
      scannedBits v.vmSpaceTable (deallocBase addr)
        (deallocCount addr size) := by
  unfold vmDeallocateBits
  simp only [if_neg h]
  rw [if_neg fun hall => hfree (all_range'.mp hall), List.append_nil]

/-- The bits of a request that succeeds. -/
theorem mem_vmDeallocateBits {v : VmSpace} (h : ¬ Refused addr size)
    (hall : ∀ j, deallocBase addr ≤ j →
      j < deallocBase addr + deallocCount addr size →
      v.vmSpaceTable j = true) :
    i ∈ vmDeallocateBits v addr size ↔ deallocBase addr ≤ i ∧
      i < deallocBase addr + deallocCount addr size := by
  unfold vmDeallocateBits
  simp only [if_neg h]
  rw [if_pos (all_range'.mpr hall), List.mem_append, List.mem_range'_1,
    mem_scannedBits]
  exact ⟨fun h => h.elim (fun h => ⟨h.1, h.2.1⟩) id, .inr⟩

/-- What the loop does to the bitmap. -/
theorem vmDeallocate_table {n : ℕ}
    (hrun : Outcome.forRange (fun i => vmDeallocatePage a i) i n s = .ok s')
    (j : ℕ) : (s'.space a).vmSpaceTable j = true ↔
      (s.space a).vmSpaceTable j = true ∧ ¬ (i ≤ j ∧ j < i + n) := by
  rw [forRange_tableBits (fun _ _ _ => vmDeallocatePage_table) hrun]
  split
  · rename_i hin
    exact ⟨nofun, fun h => absurd hin h.2⟩
  · rename_i hout
    exact ⟨fun h => ⟨h, hout⟩, And.left⟩

theorem deallocCount_zero : deallocCount addr 0 = 0 := by
  have hbase : deallocBase addr < 2 ^ 32 := Nat.mod_lt _ (by decide)
  have hpages : sizePages 0 = 0 := by decide
  unfold deallocCount loopLength
  rw [hpages]
  omega

theorem PageOf.lt (h : PageOf addr size i) (hin : InManaged addr size) :
    i < vmSpaceSize / pageSize := by
  obtain ⟨x, -, hx, hi, -⟩ := h
  have hhi := hin.2
  unfold vmSpaceEnd vmSpaceSize at *
  unfold vmSpaceBase pageSize at *
  omega

/-- A request that succeeds has done what it is for exactly if it is empty or
for allocated pages of the managed range that it fills. -/
theorem DeallocateSpec.of_success_iff (haccepted : ¬ Refused addr size)
    (hsize : 0 < size)
    (hall : ∀ j, deallocBase addr ≤ j →
      j < deallocBase addr + deallocCount addr size →
      (s.space a).vmSpaceTable j = true)
    (hpages : Outcome.forRange (fun i => vmDeallocatePage a i)
      (deallocBase addr) (deallocCount addr size) s = .ok s') :
    DeallocateSpec a addr size s .success s' ↔
      InManaged addr size ∧ FillsPages addr size ∧
        ∀ i, PageOf addr size i → (s.space a).vmSpaceTable i = true := by
  constructor
  · intro h
    have hin := h.managed rfl hsize
    refine ⟨hin, (hin.visits_iff hsize).mp fun i => ?_, h.allocated rfl⟩
    have hfreed := (h.freed rfl i).symm.trans (vmDeallocate_table hpages i)
    constructor
    · intro hpage
      by_contra hout
      exact (hfreed.mpr ⟨h.allocated rfl i hpage, hout⟩).2 hpage
    · intro hvisit
      by_contra hout
      exact (hfreed.mp ⟨hall i hvisit.1 hvisit.2, hout⟩).2 hvisit
  · rintro ⟨hin, hfills, hused⟩
    have hvisit := (hin.visits_iff hsize).mpr hfills
    have hpos : 0 < deallocCount addr size := by
      rw [(hin.visited hsize).2]
      exact Nat.succ_pos _
    have hlast : deallocBase addr + deallocCount addr size ≤ 2 ^ 18 := by
      have hpage := (hvisit (deallocBase addr + deallocCount addr size - 1)).mpr
        (by omega)
      have hlt : _ < 2 ^ 18 := hpage.lt hin
      omega
    refine ⟨fun i hi => ?_, fun _ _ => hin, fun _ => hused, fun _ i => ?_,
      fun _ roots J htables => ?_, fun h => absurd rfl h⟩
    · exact ((hvisit i).mpr
        ((mem_vmDeallocateBits haccepted hall).mp hi)).lt hin
    · rw [vmDeallocate_table hpages, hvisit]
    · exact (forRange_unmaps htables hlast hpages).congr fun i =>
        (hvisit i).symm

/-- A call that returns does what it is for exactly where `DeallocateServed`
holds. -/
theorem vmDeallocate_iff (hrun : vmDeallocate a addr size s = .ok (r, s')) :
    DeallocateSpec a addr size s r s' ↔
      DeallocateServed (s.space a) addr size := by
  rcases vmDeallocate_cases hrun with ⟨hrefused, rfl, rfl⟩ |
    ⟨haccepted, hfree, rfl, rfl⟩ | ⟨haccepted, hall, rfl, hpages⟩
  · refine ⟨fun _ => .inl hrefused, fun _ => ⟨?_, nofun, nofun, nofun, nofun,
      fun _ => rfl⟩⟩
    rw [vmDeallocateBits_refused hrefused]
    nofun
  · -- the scan stops at a free page
    have hbits := vmDeallocateBits_failure haccepted hfree
    have hsize : 0 < size := by
      rw [Nat.pos_iff_ne_zero]
      rintro rfl
      rw [deallocCount_zero] at hfree
      exact hfree fun j _ _ => by omega
    constructor
    · intro h
      have hin := h.inTable
      rw [hbits] at hin
      exact .inr (.inr (.inl ((scannedBits_lt_iff hfree).mp hin)))
    · intro hserved
      refine ⟨?_, nofun, nofun, nofun, nofun, fun _ => rfl⟩
      rw [hbits]
      refine (scannedBits_lt_iff hfree).mpr ?_
      rcases hserved with hrefused | hzero | hbit | ⟨hin, hfills, hused⟩
      · exact absurd hrefused haccepted
      · omega
      · exact hbit
      · refine absurd (fun j hj hjn => hused j ?_) hfree
        exact ((hin.visits_iff hsize).mpr hfills j).mpr ⟨hj, hjn⟩
  · rcases Nat.eq_zero_or_pos size with rfl | hsize
    · rw [deallocCount_zero] at hpages
      cases hpages
      refine ⟨fun _ => .inr (.inl rfl), fun _ => ⟨fun i hi => ?_, nofun,
        fun _ i hi => absurd hi pageOf_zero, fun _ i => ?_,
        fun _ _ _ _ => Unmapped.refl fun i => pageOf_zero,
        fun h => absurd rfl h⟩⟩
      · rw [mem_vmDeallocateBits haccepted hall, deallocCount_zero] at hi
        omega
      · exact ⟨fun h => ⟨h, pageOf_zero⟩, And.left⟩
    rw [DeallocateSpec.of_success_iff haccepted hsize hall hpages]
    constructor
    · exact fun h => .inr (.inr (.inr h))
    · rintro (hrefused | hzero | ⟨i, hi, hin, -, hfree⟩ | h)
      · exact absurd hrefused haccepted
      · omega
      · rw [hall i hi hin] at hfree
        cases hfree
      · exact h

end Requests

theorem vmDeallocate_unusedVm {addr size : ℕ} (h : ¬ Refused addr size)
    (hpos : 0 < deallocCount addr size) :
    vmDeallocate kernel addr size unusedVm = .ok (.failure, unusedVm) := by
  have hall : (List.range' (deallocBase addr) (deallocCount addr size)).all
      (unusedVm.space kernel).vmSpaceTable = false := by
    obtain ⟨n, hn⟩ := Nat.exists_eq_succ_of_ne_zero hpos.ne'
    rw [hn]
    rfl
  have hrefused : ¬ vmSpaceEnd < (sub64 addr vmSpaceBase + size) % 2 ^ 64 := h
  unfold vmDeallocate
  simp only [if_neg hrefused]
  rw [if_neg]
  rw [Bool.not_eq_true]
  exact hall

/-- A reserved page is given back.  Unmapping it takes the recycled table. -/
theorem vmDeallocate_iff_recycledVm :
    ∃ s', vmDeallocate kernel vmSpaceBase 0x4000
        (recycledVm.setTableBit kernel 0 true) = .ok (.success, s') ∧
      DeallocateSpec kernel vmSpaceBase 0x4000
        (recycledVm.setTableBit kernel 0 true) .success s' := by
  have hrun : (vmDeallocate kernel vmSpaceBase 0x4000
      (recycledVm.setTableBit kernel 0 true)).toOption.map Prod.fst =
        some .success := by
    decide +kernel
  obtain ⟨⟨r, s'⟩, hok, hr⟩ := Outcome.ok_of_map hrun
  obtain rfl : r = .success := hr
  refine ⟨s', hok, (vmDeallocate_iff hok).mpr (.inr (.inr (.inr ⟨?_, ?_, ?_⟩)))⟩
  · decide
  · unfold FillsPages
    decide
  · rintro i ⟨x, -, hhigh, hlow, -⟩
    obtain rfl : i = 0 := by
      unfold pageSize at hlow
      omega
    rfl

/-- `task_release` gives back a stack of 256 KiB at address zero if the task
has none. -/
theorem vmDeallocate_no_stack :
    vmDeallocate kernel 0 0x40000 unusedVm = .ok (.failure, unusedVm) ∧
      ¬ DeallocateSpec kernel 0 0x40000 unusedVm .failure unusedVm := by
  refine ⟨vmDeallocate_unusedVm (by decide +kernel) (by decide +kernel),
    fun h => ?_⟩
  have hbit := h.inTable 0x80000 (by decide +kernel)
  exact absurd hbit (by decide)

end Vm

end PongoOS
