import PongoOS.Mm.Boot
import PongoOS.Mm.SpaceRefs

/-!
# Requests for the managed range

`vm_allocate` scans for free pages from page 0 on, also where an address is
asked for: the index that belongs to the address is computed but not used.
`vm_deallocate` compares the end of an offset with an address.
-/

namespace PongoOS

namespace Vm

/-- Page `i` of the managed range holds a byte of `[addr, addr + size)`. -/
def PageOf (addr size i : ℕ) : Prop :=
  ∃ x, addr ≤ x ∧ x < addr + size ∧ vmSpaceBase + i * pageSize ≤ x ∧
    x < vmSpaceBase + (i + 1) * pageSize

/-- `[addr, addr + size)` lies in the managed range. -/
def InManaged (addr size : ℕ) : Prop :=
  vmSpaceBase ≤ addr ∧ addr + size ≤ vmSpaceEnd

instance (addr size : ℕ) : Decidable (InManaged addr size) :=
  inferInstanceAs (Decidable (_ ∧ _))

/-- The pages of the aligned range `[addr, addr + size)`. -/
theorem pageOf_iff {addr size i : ℕ} (hin : InManaged addr size)
    (haddr : addr % pageSize = 0) :
    PageOf addr size i ↔ (addr - vmSpaceBase) / pageSize ≤ i ∧
      i < (addr - vmSpaceBase) / pageSize + sizePages size := by
  obtain ⟨hlo, hhi⟩ := hin
  unfold vmSpaceEnd vmSpaceSize at hhi
  unfold sizePages PageOf
  unfold vmSpaceBase pageSize at *
  constructor
  · rintro ⟨x, h₁, h₂, h₃, h₄⟩
    omega
  · rintro ⟨h₁, h₂⟩
    by_cases hfirst : addr ≤ 0xfffffffe00000000 + i * 0x4000
    · exact ⟨0xfffffffe00000000 + i * 0x4000, by omega, by omega, by omega, by omega⟩
    · omega

section Scan

variable {table : ℕ → Bool} {pagecount n i found base j : ℕ}

/-- A scan that can no longer count enough pages finds none. -/
theorem vmScan_eq_none (hshort : found + n < pagecount) :
    vmScan table pagecount n i found base = none := by
  induction n generalizing i found base with
  | zero => rfl
  | succ n ih =>
      have hle : (if table i then 0 else (found + 1) % 2 ^ 32) ≤ found + 1 := by
        split
        · exact Nat.zero_le _
        · exact Nat.mod_le _ _
      rw [vmScan, if_neg (by omega)]
      exact ih (by omega)

/-- The scan of as many pages as are asked for, with `i` of them behind it. -/
theorem vmScan_free (hfree : ∀ j < pagecount, table j = false)
    (hlt : pagecount < 2 ^ 32) (hi : i + n = pagecount) (hn : n ≠ 0) :
    vmScan table pagecount n i i 0 = some 0 := by
  induction n generalizing i with
  | zero => exact absurd rfl hn
  | succ n ih =>
      have hnext : (i + 1) % 2 ^ 32 = i + 1 := Nat.mod_eq_of_lt (by omega)
      rw [vmScan, hfree i (by omega)]
      simp only [Bool.false_eq_true, not_false_eq_true, true_and, if_false, hnext]
      rw [show (if i = 0 then i else 0) = 0 by split <;> omega]
      split
      · rfl
      · exact ih (by omega) (by omega)

theorem vmScan_used (hused : table j = true) (hj : i ≤ j)
    (hlt : pagecount < 2 ^ 32) (hjn : j < i + n) (hi : i + n = pagecount) :
    vmScan table pagecount n i i base = none := by
  induction n generalizing i base with
  | zero => omega
  | succ n ih =>
      have hnext : (i + 1) % 2 ^ 32 = i + 1 := Nat.mod_eq_of_lt (by omega)
      rw [vmScan]
      simp only [hnext]
      split
      · rename_i hi'
        exact if_neg (by omega) |>.trans (vmScan_eq_none (by omega))
      · rename_i hi'
        have hne : i ≠ j := fun h => hi' (h ▸ hused)
        exact if_neg (by omega) |>.trans (ih (by omega) (by omega) (by omega))

/-- The first `pagecount` pages are the only ones a scan of that length
finds. -/
theorem vmScan_first (hlt : pagecount < 2 ^ 32) (hpos : pagecount ≠ 0) :
    vmScan table pagecount pagecount 0 0 0 =
      if ∀ j < pagecount, table j = false then some 0 else none := by
  split
  · rename_i hfree
    exact vmScan_free hfree hlt (Nat.zero_add _) hpos
  · rename_i hused
    push Not at hused
    obtain ⟨j, hj, hused⟩ := hused
    exact vmScan_used (by simpa using hused) (Nat.zero_le j) hlt
      (by omega) (Nat.zero_add _)

end Scan

/-! ## The bitmap -/

section Bitmap

variable {a addr addr' size : ℕ} {flags : VmFlags} {s s' : Vm} {r : KernResult}

/-- What a loop does to the bitmap each of whose rounds sets one bit. -/
theorem forRange_tableBits {f : ℕ → Vm → Outcome Vm} {b : Bool} {i n : ℕ}
    (hf : ∀ j s₁ s₂, f j s₁ = .ok s₂ → (s₂.space a).vmSpaceTable =
      Function.update (s₁.space a).vmSpaceTable j b)
    (hrun : Outcome.forRange f i n s = .ok s') (j : ℕ) :
    (s'.space a).vmSpaceTable j =
      if i ≤ j ∧ j < i + n then b else (s.space a).vmSpaceTable j := by
  refine Outcome.forRange_invariant
    (P := fun k s₁ => ∀ j, (s₁.space a).vmSpaceTable j =
      if i ≤ j ∧ j < k then b else (s.space a).vmSpaceTable j)
    ?_ (fun j => ?_) hrun j
  · intro k s₁ s₂ hk _ hs₁ hround j
    rw [hf k s₁ s₂ hround]
    by_cases hjk : j = k
    · subst hjk
      rw [Function.update_self, if_pos ⟨hk, Nat.lt_succ_self j⟩]
    · rw [Function.update_of_ne hjk, hs₁ j]
      exact if_congr (by omega) rfl rfl
  · rw [if_neg (by omega)]

theorem setTableBit_table {i : ℕ} {b : Bool} :
    ((s.setTableBit a i b).space a).vmSpaceTable =
      Function.update (s.space a).vmSpaceTable i b := by
  rw [setTableBit, setSpace_space, Function.update_self]

theorem vmAllocatePage_table {i : ℕ}
    (hok : vmAllocatePage a flags i s = .ok s') :
    (s'.space a).vmSpaceTable =
      Function.update (s.space a).vmSpaceTable i true := by
  obtain ⟨s₁, hmap, hset⟩ := Outcome.bind_eq_ok.mp hok
  rw [Outcome.pure_eq_ok] at hset
  obtain rfl := hset
  rw [setTableBit_table]
  split at hmap
  · rw [Outcome.pure_eq_ok.mp hmap]
  · rw [(vmSpaceMapPagePhysicalProt_frame hmap).1]

theorem vmDeallocatePage_table {i : ℕ}
    (hok : vmDeallocatePage a i s = .ok s') :
    (s'.space a).vmSpaceTable =
      Function.update (s.space a).vmSpaceTable i false := by
  obtain ⟨s₁, hmap, hset⟩ := Outcome.bind_eq_ok.mp hok
  rw [Outcome.pure_eq_ok] at hset
  obtain rfl := hset
  rw [setTableBit_table, (vmSpaceMapPagePhysicalProt_frame hmap).1]

/-! ## Requests at an address -/

/-- The range is managed and its pages are free. -/
def Requestable (v : VmSpace) (addr size : ℕ) : Prop :=
  InManaged addr size ∧ ∀ i, PageOf addr size i → v.vmSpaceTable i = false

/-- What a request at `addr` asks for. -/
structure FixedSpec (a addr size : ℕ) (s : Vm) (r : KernResult) (addr' : ℕ)
    (s' : Vm) : Prop where
  success_iff : r = .success ↔ Requestable (s.space a) addr size
  addr_eq : r = .success → addr' = addr
  marked : r = .success → ∀ i, (s'.space a).vmSpaceTable i = true ↔
    (s.space a).vmSpaceTable i = true ∨ PageOf addr size i
  unchanged : r ≠ .success →
    (s'.space a).vmSpaceTable = (s.space a).vmSpaceTable

/-- A request at the start of the range that can be met, or one that cannot be
met and is refused: its address is below the range, or one of the first pages
of the range, as many as it has, is in use. -/
def FixedServed (v : VmSpace) (addr size : ℕ) : Prop :=
  (Requestable v addr size ∧ addr = vmSpaceBase) ∨
    (¬ Requestable v addr size ∧ sizePages size % 2 ^ 32 ≠ 0 ∧
      (vmSpaceEnd < sub64 addr vmSpaceBase ∨
        (sizePages size < 2 ^ 32 ∧
          ∃ i < sizePages size, v.vmSpaceTable i = true)))

theorem sizePages_pos (hin : InManaged addr size) (hsize : 0 < size) :
    0 < sizePages size ∧ sizePages size < 2 ^ 32 := by
  obtain ⟨hlo, hhi⟩ := hin
  unfold vmSpaceEnd vmSpaceSize at hhi
  unfold sizePages
  unfold vmSpaceBase pageSize at *
  omega

/-- An address in the range is accepted. -/
theorem InManaged.accepted (hin : InManaged addr size) :
    ¬ vmSpaceEnd < sub64 addr vmSpaceBase := by
  obtain ⟨hlo, hhi⟩ := hin
  unfold vmSpaceEnd vmSpaceSize at *
  unfold sub64
  unfold vmSpaceBase at *
  omega

/-- How a request at an address ends. -/
theorem vmAllocate_fixed_cases (hflags : flags.fixed = true)
    (hrun : vmAllocate a addr size flags s = .ok (r, addr', s')) :
    (sizePages size % 2 ^ 32 = 0 ∧ r = .success) ∨
    (sizePages size % 2 ^ 32 ≠ 0 ∧ vmSpaceEnd < sub64 addr vmSpaceBase ∧
      r = .vmOom ∧ s' = s) ∨
    (sizePages size < 2 ^ 32 ∧ ¬ vmSpaceEnd < sub64 addr vmSpaceBase ∧
      (∀ i < sizePages size, (s.space a).vmSpaceTable i = false) ∧
      r = .success ∧ addr' = vmSpaceBase ∧
      ∀ i, (s'.space a).vmSpaceTable i =
        if i < sizePages size then true else (s.space a).vmSpaceTable i) ∨
    (sizePages size < 2 ^ 32 ∧
      (∃ i < sizePages size, (s.space a).vmSpaceTable i = true) ∧
      r = .vmOom ∧ s' = s) ∨
    (2 ^ 32 ≤ sizePages size ∧ ¬ vmSpaceEnd < sub64 addr vmSpaceBase ∧
      r = .success) := by
  unfold vmAllocate at hrun
  simp only [hflags, if_true] at hrun
  split at hrun
  · rename_i hzero
    cases hrun
    exact .inl ⟨hzero, rfl⟩
  rename_i hpos
  by_cases hreject : vmSpaceEnd < sub64 addr vmSpaceBase
  · simp only [if_pos hreject, if_pos (Nat.two_pow_pos 32), vmScan] at hrun
    cases hrun
    exact .inr (.inl ⟨hpos, hreject, rfl, rfl⟩)
  simp only [if_neg hreject] at hrun
  by_cases hlarge : sizePages size < 2 ^ 32
  · rw [Nat.mod_eq_of_lt hlarge] at hrun hpos
    simp only [if_pos hlarge, vmScan_first hlarge hpos] at hrun
    by_cases hfree : ∀ i < sizePages size, (s.space a).vmSpaceTable i = false
    · rw [if_pos hfree] at hrun
      simp only [Outcome.bind_eq_ok, Outcome.pure_eq_ok, Prod.mk.injEq] at hrun
      obtain ⟨s₁, hpages, rfl, rfl, rfl⟩ := hrun
      refine .inr (.inr (.inl ⟨hlarge, hreject, hfree, rfl, rfl, fun i => ?_⟩))
      rw [forRange_tableBits (fun _ _ _ => vmAllocatePage_table) hpages,
        loopLength]
      exact if_congr (by omega) rfl rfl
    · rw [if_neg hfree] at hrun
      cases hrun
      push Not at hfree
      obtain ⟨i, hi, hused⟩ := hfree
      exact .inr (.inr (.inr (.inl
        ⟨hlarge, ⟨i, hi, by simpa using hused⟩, rfl, rfl⟩)))
  · simp only [if_neg hlarge] at hrun
    split at hrun
    · simp only [Outcome.bind_eq_ok, Outcome.pure_eq_ok, Prod.mk.injEq] at hrun
      exact .inr (.inr (.inr (.inr
        ⟨Nat.not_lt.mp hlarge, hreject, hrun.choose_spec.2.1.symm⟩)))
    · cases hrun

/-- A call that returns meets the request exactly where `FixedServed` holds. -/
theorem vmAllocate_fixed_iff (hflags : flags.fixed = true)
    (haddr : addr % pageSize = 0) (hsize : 0 < size)
    (hrun : vmAllocate a addr size flags s = .ok (r, addr', s')) :
    FixedSpec a addr size s r addr' s' ↔
      FixedServed (s.space a) addr size := by
  have hpages : Requestable (s.space a) addr size →
      0 < sizePages size ∧ sizePages size < 2 ^ 32 :=
    fun h => sizePages_pos h.1 hsize
  rcases vmAllocate_fixed_cases hflags hrun with
    ⟨hzero, rfl⟩ | ⟨hpos, hreject, rfl, rfl⟩ |
    ⟨hlarge, haccept, hfree, rfl, rfl, htable⟩ |
    ⟨hlarge, ⟨i, hi, hused⟩, rfl, rfl⟩ | ⟨hlarge, haccept, rfl⟩
  · -- nothing is reserved
    have hnot : ¬ Requestable (s.space a) addr size := fun h => by
      have := hpages h
      omega
    constructor
    · exact fun h => absurd (h.success_iff.mp rfl) hnot
    · rintro (h | h)
      · exact absurd h.1 hnot
      · exact absurd hzero h.2.1
  · have hnot : ¬ Requestable (s'.space a) addr size :=
      fun h => h.1.accepted hreject
    exact ⟨fun _ => .inr ⟨hnot, hpos, .inl hreject⟩,
      fun _ => ⟨⟨nofun, fun h => absurd h hnot⟩, nofun, nofun, fun _ => rfl⟩⟩
  · -- the first pages of the range are reserved
    constructor
    · exact fun h => .inl ⟨h.success_iff.mp rfl, (h.addr_eq rfl).symm⟩
    · rintro (⟨hrequest, rfl⟩ | ⟨-, -, hreject | ⟨-, i, hi, hused⟩⟩)
      · refine ⟨⟨fun _ => hrequest, fun _ => rfl⟩, fun _ => rfl,
          fun _ i => ?_, fun h => absurd rfl h⟩
        rw [htable, pageOf_iff hrequest.1 haddr, Nat.sub_self, Nat.zero_div,
          Nat.zero_add]
        split
        · rename_i hi
          exact ⟨fun _ => .inr ⟨Nat.zero_le i, hi⟩, fun _ => rfl⟩
        · rename_i hi
          exact ⟨.inl, fun h => h.resolve_right fun h => hi h.2⟩
      · exact absurd hreject haccept
      · rw [hfree i hi] at hused
        cases hused
  · constructor
    · intro h
      have hnot : ¬ Requestable (s'.space a) addr size :=
        fun hrequest => nomatch h.success_iff.mpr hrequest
      refine .inr ⟨hnot, ?_, .inr ⟨hlarge, i, hi, hused⟩⟩
      rw [Nat.mod_eq_of_lt hlarge]
      omega
    · rintro (⟨hrequest, rfl⟩ | ⟨hnot, -⟩)
      · have hfree := hrequest.2 i ((pageOf_iff hrequest.1 haddr).mpr (by
          rw [Nat.sub_self, Nat.zero_div, Nat.zero_add]
          exact ⟨Nat.zero_le i, hi⟩))
        rw [hused] at hfree
        cases hfree
      · exact ⟨⟨nofun, fun h => absurd h hnot⟩, nofun, nofun, fun _ => rfl⟩
  · have hnot : ¬ Requestable (s.space a) addr size := fun h => by
      have := hpages h
      omega
    constructor
    · exact fun h => absurd (h.success_iff.mp rfl) hnot
    · rintro (h | ⟨-, -, h | h⟩)
      · exact absurd h.1 hnot
      · exact absurd h haccept
      · have := h.1
        omega

end Bitmap

/-- A machine all of whose managed pages are free. -/
def unusedVm : Vm where
  mm := Mm.bootExample
  asidTable := fun _ => false
  space := fun _ => ⟨0x817ff8000, 0x817ff0000, fun _ => false, 1, 0, 0⟩
  live := ∅

/-- The same machine when the allocator is up and out of pages, but holds a recycled
table. -/
def recycledMm : Mm :=
  { Mm.bootExample with
    allocStaticBase := 0x408000000
    ttbFreelist := 0x417fec000 }

def recycledVm : Vm := unusedVm.setMm recycledMm

theorem unusedVm_run {addr : ℕ} (haddr : ¬ vmSpaceEnd < sub64 addr vmSpaceBase) :
    vmAllocate kernel addr 0x4000 ⟨true, true⟩ unusedVm =
      .ok (.success, vmSpaceBase, unusedVm.setTableBit kernel 0 true) := by
  have hpages : sizePages 0x4000 = 1 := by decide
  unfold vmAllocate
  simp only [hpages, if_true, if_neg haddr]
  rw [if_neg (by decide), if_pos (by decide)]
  rfl

theorem vmAllocate_unusedVm :
    FixedSpec kernel vmSpaceBase 0x4000 unusedVm .success vmSpaceBase
      (unusedVm.setTableBit kernel 0 true) :=
  (vmAllocate_fixed_iff (rfl : (⟨true, true⟩ : VmFlags).fixed = true)
    (by decide) (by decide) (unusedVm_run (by decide +kernel))).mpr
    (.inl ⟨⟨⟨by decide, by decide⟩, fun _ _ => rfl⟩, rfl⟩)

/-- A request for the second page is given the first. -/
theorem vmAllocate_not_fixedSpec :
    vmAllocate kernel (vmSpaceBase + 0x4000) 0x4000 ⟨true, true⟩ unusedVm =
        .ok (.success, vmSpaceBase, unusedVm.setTableBit kernel 0 true) ∧
      ¬ FixedSpec kernel (vmSpaceBase + 0x4000) 0x4000 unusedVm .success
        vmSpaceBase (unusedVm.setTableBit kernel 0 true) :=
  ⟨unusedVm_run (by decide +kernel), fun h => absurd (h.addr_eq rfl) (by decide)⟩

end Vm

end PongoOS
