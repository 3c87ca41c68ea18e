import PongoOS.Mm.Deallocation
import PongoOS.Support.Run

/-!
# Requests for any address

Without `VM_FLAGS_FIXED`, `vm_allocate` reserves the first run of free pages
that is long enough.  The number of pages is kept in 32 bits: a request of
`2 ^ 32` pages or more is taken for a smaller one.
-/

namespace PongoOS

namespace Vm

/-- The pages `[b, b + n)` of the managed range are free. -/
def FreeRun (table : ℕ → Bool) (n b : ℕ) : Prop :=
  b + n ≤ vmSpaceSize / pageSize ∧ ∀ j, b ≤ j → j < b + n → table j = false

/-- The first run of `n` free pages. -/
def FirstRun (table : ℕ → Bool) (n b : ℕ) : Prop :=
  FreeRun table n b ∧ ∀ b' < b, ¬ FreeRun table n b'

section Scan

variable {table : ℕ → Bool} {n m i found base b : ℕ}

theorem FirstRun.unique {b' : ℕ} (h : FirstRun table n b)
    (h' : FirstRun table n b') : b = b' := by
  rcases Nat.lt_trichotomy b b' with hlt | heq | hlt
  · exact absurd h.1 (h'.2 b hlt)
  · exact heq
  · exact absurd h'.1 (h.2 b' hlt)

/-- What holds before page `i` is looked at: `found` is the number of free
pages just before it, too few for a run, and there is no run further down. -/
structure Scanned (table : ℕ → Bool) (n i found base : ℕ) : Prop where
  found_le : found ≤ i
  found_lt : found < n
  free : ∀ j, i - found ≤ j → j < i → table j = false
  used : found < i → table (i - found - 1) = true
  base_eq : 0 < found → base = i - found
  none : ∀ b, b + n ≤ i → ¬ FreeRun table n b

theorem Scanned.start (table : ℕ → Bool) (hn : 0 < n) :
    Scanned table n 0 0 0 :=
  ⟨le_rfl, hn, fun j _ _ => by omega, fun h => absurd h (lt_irrefl 0),
    fun h => absurd h (lt_irrefl 0), fun b hb => by omega⟩

theorem Scanned.step_used (h : Scanned table n i found base)
    (hi : table i = true) : Scanned table n (i + 1) 0 base := by
  have hn := h.found_lt
  refine ⟨Nat.zero_le _, by omega, fun j _ _ => by omega, fun _ => ?_,
    fun h => absurd h (lt_irrefl 0), fun b hb hrun => ?_⟩
  · rwa [Nat.sub_zero, Nat.add_sub_cancel]
  · rcases Nat.eq_or_lt_of_le hb with heq | hlt
    · have hfree := hrun.2 i (by omega) (by omega)
      rw [hi] at hfree
      cases hfree
    · exact h.none b (by omega) hrun

theorem Scanned.step_free (h : Scanned table n i found base)
    (hi : table i = false) (hmore : found + 1 < n) :
    Scanned table n (i + 1) (found + 1) (if found = 0 then i else base) := by
  have hle := h.found_le
  refine ⟨by omega, hmore, fun j hj hji => ?_, fun hlt => ?_, fun _ => ?_,
    fun b hb hrun => ?_⟩
  · rcases Nat.eq_or_lt_of_le (Nat.le_of_lt_succ hji) with rfl | hlt
    · exact hi
    · exact h.free j (by omega) hlt
  · rw [show i + 1 - (found + 1) - 1 = i - found - 1 by omega]
    exact h.used (by omega)
  · split
    · omega
    · rename_i hfound
      rw [h.base_eq (by omega)]
      omega
  · rcases Nat.eq_or_lt_of_le hb with heq | hlt
    · -- a run up to page `i` would contain the used page before the free ones
      have hused := h.used (by omega)
      rw [hrun.2 (i - found - 1) (by omega) (by omega)] at hused
      cases hused
    · exact h.none b (by omega) hrun

/-- The scan finds the first run, if there is one. -/
theorem Scanned.vmScan (h : Scanned table n i found base)
    (hend : i + m = vmSpaceSize / pageSize) :
    (∃ b, FirstRun table n b ∧ Vm.vmScan table n m i found base = some b) ∨
      (∀ b, ¬ FreeRun table n b) ∧
        Vm.vmScan table n m i found base = Option.none := by
  have hsize : vmSpaceSize / pageSize = 2 ^ 18 := by decide
  induction m generalizing i found base with
  | zero => exact .inr ⟨fun b hrun => h.none b (by have := hrun.1; omega) hrun, rfl⟩
  | succ m ih =>
      have hle := h.found_le
      have hlt := h.found_lt
      have hnext : (i + 1) % 2 ^ 32 = i + 1 := Nat.mod_eq_of_lt (by omega)
      rw [Vm.vmScan]
      cases hi : table i with
      | true =>
          simp only [not_true_eq_false, false_and, if_false, if_true, hnext]
          rw [if_neg (by omega)]
          exact ih (h.step_used hi) (by omega)
      | false =>
          have hcount : (found + 1) % 2 ^ 32 = found + 1 :=
            Nat.mod_eq_of_lt (by omega)
          simp only [Bool.false_eq_true, not_false_eq_true, true_and, if_false,
            hcount, hnext]
          by_cases hdone : found + 1 = n
          · rw [if_pos hdone]
            have hbase : (if found = 0 then i else base) = i - found := by
              split
              · omega
              · rename_i hfound
                exact h.base_eq (by omega)
            refine .inl ⟨i - found, ⟨⟨by omega, fun j hj hjn => ?_⟩,
              fun b hb => h.none b (by omega)⟩, congrArg some hbase⟩
            by_cases hji : j = i
            · rwa [hji]
            · exact h.free j hj (by omega)
          · rw [if_neg hdone]
            exact ih (h.step_free hi (by omega)) (by omega)

end Scan

/-! ## One request -/

/-- The number of pages of `size` bytes. -/
def pagesOf (size : ℕ) : ℕ := (size + 0x3fff) / pageSize

/-- The count that the code works with. -/
theorem sizePages_mod (size : ℕ) :
    sizePages size % 2 ^ 32 = pagesOf size % 2 ^ 32 := by
  unfold sizePages pagesOf pageSize
  omega

/-- What a request for any address asks for. -/
structure AllocateSpec (a size : ℕ) (live : List (ℕ × ℕ)) (s : Vm)
    (r : KernResult) (addr' : ℕ) (s' : Vm) : Prop where
  success_iff : r = .success ↔
    ∃ b, FreeRun (s.space a).vmSpaceTable (pagesOf size) b
  aligned : r = .success → addr' % pageSize = 0
  managed : r = .success → InManaged addr' size
  free : r = .success → ∀ i, PageOf addr' size i →
    (s.space a).vmSpaceTable i = false
  marked : r = .success → ∀ i, (s'.space a).vmSpaceTable i = true ↔
    (s.space a).vmSpaceTable i = true ∨ PageOf addr' size i
  disjoint : r = .success → ∀ q ∈ live, ∀ i, PageOf q.1 q.2 i →
    ¬ PageOf addr' size i
  unchanged : r ≠ .success →
    (s'.space a).vmSpaceTable = (s.space a).vmSpaceTable

/-- The page count fits in 32 bits, or what is left of it is not zero and more
than there is a free run for. -/
def CountKept (v : VmSpace) (size : ℕ) : Prop :=
  pagesOf size < 2 ^ 32 ∨
    pagesOf size % 2 ^ 32 ≠ 0 ∧
      ∀ b, ¬ FreeRun v.vmSpaceTable (pagesOf size % 2 ^ 32) b

section Requests

variable {a addr addr' size b : ℕ} {flags : VmFlags} {s s' : Vm}
  {r : KernResult} {live : List (ℕ × ℕ)}

theorem FreeRun.small {table : ℕ → Bool} {n : ℕ} (h : FreeRun table n b) :
    b + n ≤ 2 ^ 18 := h.1

/-- A round of the marking loop without a mapping. -/
theorem vmAllocatePage_nomap {i : ℕ} (hnomap : flags.nomap = true)
    (hok : vmAllocatePage a flags i s = .ok s') :
    s' = s.setTableBit a i true := by
  simp only [vmAllocatePage, hnomap, if_true, Outcome.bind_eq_ok,
    Outcome.pure_eq_ok] at hok
  obtain ⟨s₁, rfl, rfl⟩ := hok
  rfl

/-- How a request for any address ends. -/
theorem vmAllocate_any_cases (hflags : flags.fixed = false)
    (hrun : vmAllocate a addr size flags s = .ok (r, addr', s')) :
    (pagesOf size % 2 ^ 32 = 0 ∧ r = .success ∧ s' = s) ∨
    (pagesOf size % 2 ^ 32 ≠ 0 ∧
      (∀ b, ¬ FreeRun (s.space a).vmSpaceTable (pagesOf size % 2 ^ 32) b) ∧
      r = .vmOom ∧ s' = s) ∨
    (pagesOf size % 2 ^ 32 ≠ 0 ∧
      ∃ b, FirstRun (s.space a).vmSpaceTable (pagesOf size % 2 ^ 32) b ∧
        r = .success ∧ addr' = vmSpaceBase + b * pageSize ∧
        (∀ i, (s'.space a).vmSpaceTable i =
          if b ≤ i ∧ i < b + pagesOf size % 2 ^ 32 then true
          else (s.space a).vmSpaceTable i) ∧
        (flags.nomap = true → s'.mm = s.mm ∧
          (s'.space a).ttbr1 = (s.space a).ttbr1)) := by
  unfold vmAllocate at hrun
  simp only [hflags, Bool.false_eq_true, if_false, sizePages_mod] at hrun
  by_cases hzero : pagesOf size % 2 ^ 32 = 0
  · rw [if_pos hzero] at hrun
    cases hrun
    exact .inl ⟨hzero, rfl, rfl⟩
  rw [if_neg hzero, if_pos (by decide)] at hrun
  rcases (Scanned.start (s.space a).vmSpaceTable
    (Nat.pos_of_ne_zero hzero)).vmScan (Nat.zero_add _) with
    ⟨b, hfirst, hscan⟩ | ⟨hnone, hscan⟩
  · simp only [hscan, Outcome.bind_eq_ok, Outcome.pure_eq_ok,
      Prod.mk.injEq] at hrun
    obtain ⟨s₁, hpages, rfl, rfl, rfl⟩ := hrun
    have hsmall := hfirst.1.small
    have hlength : loopLength b (pagesOf size % 2 ^ 32) =
        pagesOf size % 2 ^ 32 := by
      unfold loopLength
      omega
    rw [hlength] at hpages
    have hbase : b * pageSize % 2 ^ 32 = b * pageSize :=
      managed_mod (by omega)
    refine .inr (.inr ⟨hzero, b, hfirst, rfl, by rw [hbase], fun i => ?_,
      fun hnomap => ?_⟩)
    · exact forRange_tableBits (fun _ _ _ => vmAllocatePage_table) hpages i
    · refine Outcome.forRange_preserves
        (P := fun s₂ => s₂.mm = s.mm ∧
          (s₂.space a).ttbr1 = (s.space a).ttbr1) ?_ ⟨rfl, rfl⟩ hpages
      intro i s₂ s₃ _ _ h hround
      obtain rfl := vmAllocatePage_nomap hnomap hround
      exact ⟨h.1, setTableBit_ttbr1.trans h.2⟩
  · simp only [hscan, if_pos (show vmSpaceSize / pageSize < 2 ^ 32 by decide)]
      at hrun
    cases hrun
    exact .inr (.inl ⟨hzero, hnone, rfl, rfl⟩)

/-- The pages of a reserved range. -/
theorem FreeRun.pages {table : ℕ → Bool}
    (h : FreeRun table (pagesOf size) b) :
    InManaged (vmSpaceBase + b * pageSize) size ∧
      (vmSpaceBase + b * pageSize) % pageSize = 0 ∧
      ∀ i, PageOf (vmSpaceBase + b * pageSize) size i ↔
        b ≤ i ∧ i < b + pagesOf size := by
  have hsmall := h.small
  have haligned : (vmSpaceBase + b * pageSize) % pageSize = 0 := by
    rw [Nat.add_mul_mod_self_right]
    decide
  have hin : InManaged (vmSpaceBase + b * pageSize) size := by
    unfold InManaged vmSpaceEnd vmSpaceSize
    unfold pagesOf pageSize at *
    omega
  refine ⟨hin, haligned, fun i => ?_⟩
  rw [pageOf_iff hin haligned, Nat.add_sub_cancel_left, Mm.mul_pageSize_div]
  have hcount : sizePages size = pagesOf size := by
    unfold sizePages pagesOf pageSize at *
    omega
  rw [hcount]

/-- A request does what it is for exactly where its page count is kept. -/
theorem vmAllocate_any_iff (hflags : flags.fixed = false) (hsize : 0 < size)
    (hused : ∀ q ∈ live, ∀ i, PageOf q.1 q.2 i →
      (s.space a).vmSpaceTable i = true)
    (hrun : vmAllocate a addr size flags s = .ok (r, addr', s')) :
    AllocateSpec a size live s r addr' s' ↔ CountKept (s.space a) size := by
  have hpos : 0 < pagesOf size := by
    unfold pagesOf pageSize
    omega
  rcases vmAllocate_any_cases hflags hrun with ⟨hzero, rfl, rfl⟩ |
    ⟨hcount, hnone, rfl, rfl⟩ | ⟨hcount, b, hfirst, rfl, rfl, htable, -⟩
  · -- nothing is reserved, although the request is for at least `2 ^ 32` pages
    constructor
    · intro h
      obtain ⟨b, hfree⟩ := h.success_iff.mp rfl
      have hsmall := hfree.small
      omega
    · rintro (hlt | ⟨hne, -⟩)
      · omega
      · exact absurd hzero hne
  · have hkept : CountKept (s'.space a) size := .inr ⟨hcount, hnone⟩
    refine ⟨fun _ => hkept, fun _ => ⟨⟨nofun, ?_⟩, nofun, nofun, nofun, nofun,
      nofun, fun _ => rfl⟩⟩
    rintro ⟨b, hfree⟩
    have hsmall := hfree.small
    rw [Nat.mod_eq_of_lt (by omega)] at hnone
    exact absurd hfree (hnone b)
  · by_cases hlt : pagesOf size < 2 ^ 32
    · rw [Nat.mod_eq_of_lt hlt] at hfirst htable
      obtain ⟨hin, haligned, hpages⟩ := hfirst.1.pages
      have hfree : ∀ i, PageOf (vmSpaceBase + b * pageSize) size i →
          (s.space a).vmSpaceTable i = false := by
        intro i hi
        obtain ⟨hlow, hhigh⟩ := (hpages i).mp hi
        exact hfirst.1.2 i hlow hhigh
      refine ⟨fun _ => .inl hlt, fun _ => ⟨⟨fun _ => ⟨b, hfirst.1⟩,
        fun _ => rfl⟩, fun _ => haligned, fun _ => hin, fun _ => hfree,
        fun _ i => ?_, fun _ q hq i hi hnew => ?_, fun h => absurd rfl h⟩⟩
      · rw [htable, hpages]
        split
        · rename_i hi
          exact ⟨fun _ => .inr hi, fun _ => rfl⟩
        · rename_i hi
          exact ⟨.inl, fun h => h.resolve_right hi⟩
      · have := hused q hq i hi
        rw [hfree i hnew] at this
        cases this
    · constructor
      · intro h
        obtain ⟨b', hfree⟩ := h.success_iff.mp rfl
        have hsmall := hfree.small
        omega
      · rintro (hlt' | ⟨-, hnone⟩)
        · exact absurd hlt' hlt
        · exact absurd hfirst.1 (hnone b)

/-- A reserved range is given back. -/
theorem vmDeallocate_reserved (hin : InManaged addr size)
    (haligned : addr % pageSize = 0) (hsize : 0 < size)
    (hused : ∀ i, PageOf addr size i → (s.space a).vmSpaceTable i = true)
    (hrun : vmDeallocate a addr size s = .ok (r, s')) :
    ∀ i, (s'.space a).vmSpaceTable i = true ↔
      (s.space a).vmSpaceTable i = true ∧ ¬ PageOf addr size i := by
  have hfills : FillsPages addr size := by
    have hlo := hin.1
    have hoffset : (addr - vmSpaceBase) % pageSize = 0 := by
      unfold vmSpaceBase pageSize at *
      omega
    have hlt : (size - 1) % pageSize < pageSize := Nat.mod_lt _ (by decide)
    unfold FillsPages
    rwa [hoffset, Nat.zero_add]
  have hvisit := (hin.visits_iff hsize).mpr hfills
  rcases vmDeallocate_cases hrun with ⟨hrefused, -⟩ | ⟨-, hfree, -⟩ |
    ⟨haccepted, hall, -, hpages⟩
  · exact absurd hrefused hin.not_refused
  · exact absurd (fun j hj hjn => hused j ((hvisit j).mpr ⟨hj, hjn⟩)) hfree
  · have hspec := (DeallocateSpec.of_success_iff haccepted hsize hall hpages).mpr
      ⟨hin, hfills, hused⟩
    exact hspec.freed rfl

end Requests

/-! ## Runs -/

/-- The calls that reserve pages and give them back. -/
inductive SpaceCall where
  | allocate (addr size : ℕ) (nomap : Bool)
  | deallocate (addr size : ℕ)

/-- A call for the space at `a`, with the list of ranges that have been
returned and not given back. -/
inductive SpaceStep (a : ℕ) :
    Vm × List (ℕ × ℕ) → SpaceCall → Vm × List (ℕ × ℕ) → Prop where
  | allocated {s s' : Vm} {live : List (ℕ × ℕ)} {addr addr' size : ℕ}
      {nomap : Bool} :
      0 < size →
      vmAllocate a addr size ⟨false, nomap⟩ s = .ok (.success, addr', s') →
      SpaceStep a (s, live) (.allocate addr size nomap)
        (s', (addr', size) :: live)
  | refused {s s' : Vm} {live : List (ℕ × ℕ)} {addr addr' size : ℕ}
      {nomap : Bool} {r : KernResult} :
      0 < size → r ≠ .success →
      vmAllocate a addr size ⟨false, nomap⟩ s = .ok (r, addr', s') →
      SpaceStep a (s, live) (.allocate addr size nomap) (s', live)
  | deallocated {s s' : Vm} {live : List (ℕ × ℕ)} {addr size : ℕ}
      {r : KernResult} :
      (addr, size) ∈ live → vmDeallocate a addr size s = .ok (r, s') →
      SpaceStep a (s, live) (.deallocate addr size)
        (s', live.erase (addr, size))

/-- The call is not a request that loses its page count. -/
def SpaceCall.Kept (v : VmSpace) : SpaceCall → Prop
  | .allocate _ size _ => CountKept v size
  | .deallocate _ _ => True

def KeptStep (a : ℕ) (p : Vm × List (ℕ × ℕ)) (e : SpaceCall)
    (p' : Vm × List (ℕ × ℕ)) : Prop :=
  SpaceStep a p e p' ∧ e.Kept (p.1.space a)

/-- The ranges that have been returned are reserved and do not overlap. -/
structure LiveRanges (table : ℕ → Bool) (live : List (ℕ × ℕ)) : Prop where
  managed : ∀ q ∈ live, InManaged q.1 q.2 ∧ q.1 % pageSize = 0 ∧ 0 < q.2
  used : ∀ q ∈ live, ∀ i, PageOf q.1 q.2 i → table i = true
  disjoint : live.Pairwise fun q q' => ∀ i, PageOf q.1 q.2 i →
    ¬ PageOf q'.1 q'.2 i

section Runs

variable {a addr addr' size : ℕ} {s s' : Vm} {live : List (ℕ × ℕ)}
  {r : KernResult} {nomap : Bool}

theorem LiveRanges.allocated (h : LiveRanges (s.space a).vmSpaceTable live)
    (hsize : 0 < size)
    (hspec : AllocateSpec a size live s .success addr' s') :
    LiveRanges (s'.space a).vmSpaceTable ((addr', size) :: live) := by
  have hmarked := hspec.marked rfl
  refine ⟨fun q hq => ?_, fun q hq i hi => ?_, ?_⟩
  · rcases List.mem_cons.mp hq with rfl | hq
    · exact ⟨hspec.managed rfl, hspec.aligned rfl, hsize⟩
    · exact h.managed q hq
  · rcases List.mem_cons.mp hq with rfl | hq
    · exact (hmarked i).mpr (.inr hi)
    · exact (hmarked i).mpr (.inl (h.used q hq i hi))
  · refine List.pairwise_cons.mpr ⟨fun q hq i hi hq' => ?_, h.disjoint⟩
    exact hspec.disjoint rfl q hq i hq' hi

theorem LiveRanges.deallocated (h : LiveRanges (s.space a).vmSpaceTable live)
    (hmem : (addr, size) ∈ live)
    (hrun : vmDeallocate a addr size s = .ok (r, s')) :
    LiveRanges (s'.space a).vmSpaceTable (live.erase (addr, size)) := by
  obtain ⟨hin, haligned, hsize⟩ := h.managed _ hmem
  have hfreed := vmDeallocate_reserved hin haligned hsize (h.used _ hmem) hrun
  -- the range given back shares no page with the others
  have hsplit : ((addr, size) :: live.erase (addr, size)).Pairwise
      fun q q' => ∀ i, PageOf q.1 q.2 i → ¬ PageOf q'.1 q'.2 i := by
    refine ((List.perm_cons_erase hmem).pairwise_iff ?_).mp h.disjoint
    exact fun hdisjoint i hi hi' => hdisjoint i hi' hi
  obtain ⟨hothers, hrest⟩ := List.pairwise_cons.mp hsplit
  refine ⟨fun q hq => h.managed q (List.mem_of_mem_erase hq),
    fun q hq i hi => ?_, hrest⟩
  exact (hfreed i).mpr ⟨h.used q (List.mem_of_mem_erase hq) i hi,
    fun hback => hothers q hq i hback hi⟩

theorem LiveRanges.step {p p' : Vm × List (ℕ × ℕ)} {e : SpaceCall}
    (h : LiveRanges (p.1.space a).vmSpaceTable p.2) (hstep : KeptStep a p e p') :
    LiveRanges (p'.1.space a).vmSpaceTable p'.2 := by
  obtain ⟨hstep, hkept⟩ := hstep
  cases hstep with
  | allocated hsize hcall =>
      exact h.allocated hsize
        ((vmAllocate_any_iff rfl hsize h.used hcall).mpr hkept)
  | refused hsize hr hcall =>
      have hspec := (vmAllocate_any_iff rfl hsize h.used hcall).mpr hkept
      exact ⟨h.managed, by rw [hspec.unchanged hr]; exact h.used, h.disjoint⟩
  | deallocated hmem hcall => exact h.deallocated hmem hcall

/-- After any run of calls none of which loses its page count, a request does
what it is for exactly if it keeps its own. -/
theorem vmAllocate_after_run {s₀ : Vm} {es : List SpaceCall}
    (hrun : Run (KeptStep a) (s₀, []) es (s, live)) (hsize : 0 < size)
    (hcall : vmAllocate a addr size ⟨false, nomap⟩ s = .ok (r, addr', s')) :
    AllocateSpec a size live s r addr' s' ↔ CountKept (s.space a) size := by
  have hlive := hrun.invariant
    (I := fun p => LiveRanges (p.1.space a).vmSpaceTable p.2)
    (fun _ _ _ h hstep => h.step hstep) ⟨fun _ h => absurd h List.not_mem_nil,
      fun _ h => absurd h List.not_mem_nil, List.Pairwise.nil⟩
  exact vmAllocate_any_iff rfl hsize hlive.used hcall

end Runs

/-- Two pages and one more are reserved, the two are given back, and a request
for one is served again. -/
def reserveAndGiveBack : List SpaceCall :=
  [.allocate 0 0x8000 false, .allocate 0 0x4000 true, .deallocate vmSpaceBase 0x8000]

theorem vmAllocate_after_run_recycledVm :
    ∃ s live s', Run (KeptStep kernel) (recycledVm, []) reserveAndGiveBack (s, live) ∧
      vmAllocate kernel 0 0x4000 ⟨false, false⟩ s = .ok (.success, vmSpaceBase, s') ∧
      AllocateSpec kernel 0x4000 live s .success vmSpaceBase s' := by
  have hcalls : (do
      let x ← vmAllocate kernel 0 0x8000 ⟨false, false⟩ recycledVm
      let y ← vmAllocate kernel 0 0x4000 ⟨false, true⟩ x.2.2
      let z ← vmDeallocate kernel vmSpaceBase 0x8000 y.2.2
      let w ← vmAllocate kernel 0 0x4000 ⟨false, false⟩ z.2
      pure (x, y, z, w) :
        Outcome ((KernResult × ℕ × Vm) × (KernResult × ℕ × Vm) × (KernResult × Vm) ×
          (KernResult × ℕ × Vm))).toOption.map
        (fun (x, y, _, w) => ((x.1, x.2.1), y.1, w.1, w.2.1)) =
      some ((.success, vmSpaceBase), .success, .success, vmSpaceBase) := by
    decide +kernel
  obtain ⟨⟨⟨r₁, a₁, s₁⟩, ⟨r₂, a₂, s₂⟩, ⟨r₃, s₃⟩, ⟨r, addr, s'⟩⟩, hok, hresult⟩ :=
    Outcome.ok_of_map hcalls
  simp only [Prod.mk.injEq] at hresult
  obtain ⟨⟨rfl, rfl⟩, rfl, rfl, rfl⟩ := hresult
  simp only [Outcome.bind_eq_ok, Outcome.pure_eq_ok, Prod.mk.injEq] at hok
  obtain ⟨_, hfirst, _, hsecond, _, hback, _, hlast, rfl, rfl, rfl, rfl⟩ := hok
  have hmem : (vmSpaceBase, 0x8000) ∈ [(a₂, 0x4000), (vmSpaceBase, 0x8000)] :=
    List.mem_cons_of_mem _ (List.mem_singleton_self _)
  have hrun : Run (KeptStep kernel) (recycledVm, []) reserveAndGiveBack
      (s₃, [(a₂, 0x4000), (vmSpaceBase, 0x8000)].erase (vmSpaceBase, 0x8000)) :=
    .cons ⟨.allocated (by decide) hfirst, .inl (by decide)⟩
      (.cons ⟨.allocated (by decide) hsecond, .inl (by decide)⟩
        (.single ⟨.deallocated hmem hback, trivial⟩))
  exact ⟨s₃, _, s', hrun, hlast,
    (vmAllocate_after_run hrun (by decide) hlast).mpr (.inl (by decide))⟩

/-- A request for `2 ^ 32` pages succeeds and reserves nothing. -/
theorem vmAllocate_not_allocateSpec :
    vmAllocate kernel 0 (2 ^ 46) ⟨false, true⟩ unusedVm =
        .ok (.success, 0, unusedVm) ∧
      ¬ AllocateSpec kernel (2 ^ 46) [] unusedVm .success 0 unusedVm := by
  have hpages : sizePages (2 ^ 46) % 2 ^ 32 = 0 := by decide
  refine ⟨?_, fun h => absurd (h.managed rfl).1 (by decide)⟩
  unfold vmAllocate
  simp only [hpages, if_true]

end Vm

end PongoOS
