import PongoOS.Mm.BumpAllocation
import PongoOS.Mm.ManagedRange
import PongoOS.Mm.MapTranslation

/-!
# JIT memory

`jit_alloc` maps pages at a fresh address of the linear range and leaves a
header word in front of the memory it returns; `jit_free` takes the number of
pages from that header.  Both loops count the size down to zero, and the
header is written after the loop.

An access that the translation tables do not allow ends the task: the handler
of `sync_exc` only serves addresses of the managed range.
-/

namespace PongoOS

open RadixTable

/-! ## Walks -/

section Walks

variable {g : Granule} {mem : ℕ → ℕ} {root x : ℕ} {t : Translation}

theorem child_valid {w u : ℕ} (h : g.layout.child w = some u) :
    Tte.valid w := by
  by_contra hnot
  rw [Mm.child_eq_none fun hboth => hnot hboth.1] at h
  cases h

/-- A walk that finds something reads valid entries only. -/
theorem translate_valid (h : translate g mem root x = some t) {j u : ℕ}
    (hu : TableOn g.layout mem root x j u) :
    Tte.valid (mem (g.layout.slot j u x)) := by
  obtain ⟨k, e, hlook⟩ : ∃ k e, look g.layout mem root x = (k, e) :=
    ⟨_, _, rfl⟩
  obtain ⟨w, hw, hentry, hend⟩ := stops_iff.mpr hlook
  have hleaf : IsLeaf k e := by
    by_contra hnot
    rw [Mm.translate_eq_none hlook hnot] at h
    cases h
  rcases lt_trichotomy j k with hlt | rfl | hlt
  · -- the walk has stopped before it comes to level `j`
    obtain ⟨v, hv, hnext⟩ := hu.above hlt.le hw.le_top
    obtain ⟨c, hc⟩ := hnext hlt
    rw [hv.unique hw, hentry] at hc
    rcases hend with hzero | hnone
    · omega
    · rw [hnone] at hc
      cases hc
  · rw [hu.unique hw, hentry]
    exact hleaf.1
  · obtain ⟨v, hv, hnext⟩ := hw.above hlt.le hu.le_top
    obtain ⟨c, hc⟩ := hnext hlt
    rw [hv.unique hu] at hc
    exact child_valid hc

/-- A walk that finds something after an invalid word has been stored has not
read that word. -/
theorem translate_of_update {a v : ℕ} (hv : ¬ Tte.valid v)
    (h : translate g (Function.update mem a v) root x = some t) :
    translate g mem root x = some t := by
  have hsame : ∀ j u, TableOn g.layout (Function.update mem a v) root x j u →
      mem (g.layout.slot j u x) =
        Function.update mem a v (g.layout.slot j u x) := by
    intro j u hu
    have hvalid := translate_valid h hu
    rw [Function.update_of_ne]
    intro heq
    rw [heq, Function.update_self] at hvalid
    exact hv hvalid
  obtain ⟨hlook, hlinks⟩ := TableOn.root.walk_congr hsame
  rw [← h]
  unfold translate look links
  rw [hlook, hlinks]

end Walks

/-! ## Accesses of the kernel -/

namespace Vm

/-- The walk for an address of the lower half. -/
def kernelWalk (s : Vm) (va : ℕ) : Option Translation :=
  translate s.mm.granule s.mm.mem (s.space kernel).ttbr0
    (Mm.spaceOffset s.mm.granule false va)

/-- The physical address that the kernel reaches at `va`. -/
def kernelAddress (write : Bool) (va : ℕ) (s : Vm) : Outcome ℕ :=
  match s.kernelWalk va with
  | some t =>
      if t.af ∧ ¬ (write ∧ t.ap2) then .ok t.pa
      else .error (.panic "caught sync exception!")
  | none => .error (.panic "caught sync exception!")

def load32 (va : ℕ) (s : Vm) : Outcome ℕ := do
  let pa ← s.kernelAddress false va
  pure (s.mm.mem pa % 2 ^ 32)

def store32 (va val : ℕ) (s : Vm) : Outcome Vm := do
  let pa ← s.kernelAddress true va
  pure (s.setMm
    (s.mm.store pa (s.mm.mem pa / 2 ^ 32 * 2 ^ 32 + val % 2 ^ 32)))

section Accesses

variable {s s' : Vm} {write : Bool} {va pa w : ℕ}

theorem kernelAddress_ok : s.kernelAddress write va = .ok pa ↔
    ∃ t, s.kernelWalk va = some t ∧ (t.af ∧ ¬ (write ∧ t.ap2)) ∧
      t.pa = pa := by
  unfold kernelAddress
  cases s.kernelWalk va with
  | none => exact ⟨nofun, fun ⟨_, h, _⟩ => nomatch h⟩
  | some t =>
      by_cases hallowed : t.af ∧ ¬ (write ∧ t.ap2)
      · simp only [if_pos hallowed, Except.ok.injEq, Option.some.injEq,
          exists_eq_left', and_iff_right hallowed]
      · simp only [if_neg hallowed, Option.some.injEq, exists_eq_left']
        exact ⟨nofun, fun h => absurd h.1 hallowed⟩

theorem load32_ok : s.load32 va = .ok w ↔
    ∃ pa, s.kernelAddress false va = .ok pa ∧ s.mm.mem pa % 2 ^ 32 = w := by
  unfold load32
  rw [Outcome.bind_eq_ok]
  simp only [Outcome.pure_eq_ok]

theorem store32_ok {val : ℕ} : s.store32 va val = .ok s' ↔
    ∃ pa, s.kernelAddress true va = .ok pa ∧ s.setMm (s.mm.store pa
      (s.mm.mem pa / 2 ^ 32 * 2 ^ 32 + val % 2 ^ 32)) = s' := by
  unfold store32
  rw [Outcome.bind_eq_ok]
  simp only [Outcome.pure_eq_ok]

/-- A zero that can be read back is read back.  Where the store destroys the
mapping it went through, the read ends the task. -/
theorem load32_of_store32 (hstore : s.store32 va 0 = .ok s')
    (hload : s'.load32 va = .ok w) : w = 0 := by
  obtain ⟨pa, haddress, rfl⟩ := store32_ok.mp hstore
  obtain ⟨pa', haddress', rfl⟩ := load32_ok.mp hload
  obtain ⟨t, hwalk, -, rfl⟩ := kernelAddress_ok.mp haddress
  obtain ⟨t', hwalk', -, rfl⟩ := kernelAddress_ok.mp haddress'
  have hinvalid : ¬ Tte.valid
      (s.mm.mem t.pa / 2 ^ 32 * 2 ^ 32 + 0 % 2 ^ 32) := by
    unfold Tte.valid field
    omega
  have hold : s.kernelWalk va = some t' :=
    translate_of_update hinvalid hwalk'
  obtain rfl : t = t' := Option.some.inj (hwalk.symm.trans hold)
  rw [setMm_mm, Mm.store_mem_self]
  omega

/-- An address that the kernel can read is mapped. -/
theorem kernelWalk_of_load32 (h : s.load32 va = .ok w) :
    s.kernelWalk va ≠ none := by
  obtain ⟨pa, haddress, -⟩ := load32_ok.mp h
  obtain ⟨t, hwalk, -⟩ := kernelAddress_ok.mp haddress
  rw [hwalk]
  exact Option.some_ne_none t

end Accesses

end Vm

/-! ## `jit_alloc` and `jit_free` -/

/-- The address spaces and `linear_kvm_cursor`. -/
structure Kvm where
  vm : Vm
  cursor : ℕ

/-- `PROT_READ|PROT_WRITE|PROT_EXEC|PROT_KERN_ONLY`. -/
def jitProt : Prot := ⟨true, true, true, false, true, false⟩

/-- `while (size)`: `body` is given `mapped_so_far`.  The value that `size` has
after the loop is in the result. -/
def jitLoop (body : ℕ → Vm → Outcome Vm) :
    ℕ → ℕ → ℕ → Vm → Outcome (ℕ × Vm)
  | 0, _, _, _ => .error .outOfFuel
  | fuel + 1, size, mappedSoFar, s =>
      if size = 0 then .ok (size, s)
      else do
        let s₁ ← body mappedSoFar s
        jitLoop body fuel (sub32 size 0x4000) (mappedSoFar + 0x4000) s₁

/-- The size that `jit_alloc` computes first, in 32 bits. -/
def jitAllocSize (size : ℕ) : ℕ :=
  ((size + 8) % 2 ^ 32 + 0x3fff) % 2 ^ 32 / 0x4000 * 0x4000

def jitAllocPage (va mappedSoFar : ℕ) (s : Vm) : Outcome Vm := do
  let (page, mm) ← s.mm.ppageAlloc
  (s.setMm mm).vmSpaceMapPagePhysicalProt Vm.kernel (va + mappedSoFar) page
    jitProt

/-- `jit_alloc`.  A 32-bit size has fewer than `2 ^ 18` pages. -/
def jitAlloc (size : ℕ) (s : Kvm) : Outcome (ℕ × Kvm) := do
  let (va, cursor) ← linearKvmAlloc s.cursor (jitAllocSize size)
  let (size, vm) ← jitLoop (jitAllocPage va) (2 ^ 18) (jitAllocSize size) 0 s.vm
  let vm ← vm.store32 va size
  pure (va + 4, ⟨vm, cursor⟩)

def jitFreePage (va mappedSoFar : ℕ) (s : Vm) : Outcome Vm :=
  s.vmSpaceMapPagePhysicalProt Vm.kernel (va + mappedSoFar) 0 Vm.noProt

/-- `jit_free`. -/
def jitFree (alloc : ℕ) (s : Kvm) : Outcome Kvm := do
  panicIf (alloc % 0x4000 ≠ 4) "jit_free: invalid pointer passed"
  let size ← s.vm.load32 (sub64 alloc 4)
  panicIf (size % 0x4000 ≠ 0)
    "jit_free: invalid pointer passed: misaligned size in header"
  let (_, vm) ← jitLoop (jitFreePage (sub64 alloc 4)) (2 ^ 18) size 0 s.vm
  pure { s with vm := vm }

/-! ## The loops -/

section Loop

variable {body : ℕ → Vm → Outcome Vm} {fuel size size' mappedSoFar : ℕ}
  {s s' : Vm}

/-- The loop ends when nothing is left of the size. -/
theorem jitLoop_size
    (h : jitLoop body fuel size mappedSoFar s = .ok (size', s')) :
    size' = 0 := by
  induction fuel generalizing size mappedSoFar s with
  | zero => cases h
  | succ fuel ih =>
      unfold jitLoop at h
      by_cases hsize : size = 0
      · rw [if_pos hsize] at h
        obtain ⟨rfl, -⟩ := Prod.mk.inj (Except.ok.inj h)
        exact hsize
      · rw [if_neg hsize] at h
        obtain ⟨s₁, -, hrest⟩ := Outcome.bind_eq_ok.mp h
        exact ih hrest

theorem jitLoop_zero (hfuel : 0 < fuel) :
    jitLoop body fuel 0 mappedSoFar s = .ok (0, s) := by
  obtain ⟨fuel, rfl⟩ := Nat.exists_eq_succ_of_ne_zero hfuel.ne'
  exact if_pos rfl

theorem jitLoop_step (hsize : size ≠ 0) :
    jitLoop body (fuel + 1) size mappedSoFar s = body mappedSoFar s >>=
      jitLoop body fuel (sub32 size 0x4000) (mappedSoFar + 0x4000) :=
  if_neg hsize

/-- The bound on the number of rounds is never reached: a greater one makes no
difference. -/
theorem jitLoop_bound {pages : ℕ} (hpages : pages < fuel)
    (hsize : pages * 0x4000 < 2 ^ 32) (more : ℕ) :
    jitLoop body (fuel + more) (pages * 0x4000) mappedSoFar s =
      jitLoop body fuel (pages * 0x4000) mappedSoFar s := by
  induction pages generalizing fuel mappedSoFar s with
  | zero => rw [Nat.zero_mul, jitLoop_zero (by omega), jitLoop_zero hpages]
  | succ pages ih =>
      obtain ⟨fuel, rfl⟩ := Nat.exists_eq_succ_of_ne_zero (by omega : fuel ≠ 0)
      have hless : pages * 0x4000 < 2 ^ 32 :=
        (Nat.mul_le_mul_right _ (Nat.le_succ pages)).trans_lt hsize
      have hnext : sub32 ((pages + 1) * 0x4000) 0x4000 = pages * 0x4000 := by
        rw [sub32_of_le (by omega) hsize]
        omega
      have hne : (pages + 1) * 0x4000 ≠ 0 := by omega
      rw [Nat.succ_add, jitLoop_step hne, jitLoop_step hne, hnext]
      refine congrArg _ (funext fun s₁ => ?_)
      exact ih (Nat.lt_of_succ_lt_succ hpages) hless

end Loop

/-! ## The pair of calls -/

/-- Page `i` holds a table of the kernel's lower half. -/
def Vm.IsTablePage (s : Vm) (i : ℕ) : Prop :=
  ∃ t, IsTable s.mm.granule.layout s.mm.mem {(s.space Vm.kernel).ttbr0} t ∧
    s.mm.pageAddr i ≤ t ∧ t < s.mm.pageAddr i + pageSize

/-- `jit_alloc(n)` has returned `p` and led from `s` to `s'`.  After
`jit_free(p)` none of its pages is mapped, and the free pages are those of `s`,
apart from pages that hold tables. -/
def JitRoundTrip (n p : ℕ) (s s' : Kvm) : Prop :=
  ∃ s'', jitFree p s' = .ok s'' ∧
    (∀ k < jitAllocSize n, s''.vm.kernelWalk (p - 4 + k) = none) ∧
    ∀ i < s.vm.mm.ppages, ¬ s''.vm.IsTablePage i →
      (s''.vm.mm.count i = pageFree ↔ s.vm.mm.count i = pageFree)

/-- A header at the cursor is stored and read back through a mapping that
exists already. -/
def CursorMapped (s : Kvm) : Prop :=
  s.cursor % 0x4000 = 0 ∧
    ∃ vm w, s.vm.store32 s.cursor 0 = .ok vm ∧ vm.load32 s.cursor = .ok w

section Pair

variable {n p : ℕ} {s s' s'' : Kvm}

/-- The sizes that 32 bits cannot hold with the header and the rounding. -/
theorem jitAllocSize_eq_zero_iff (hn : n < 2 ^ 32) :
    jitAllocSize n = 0 ↔ 2 ^ 32 - 0x4007 ≤ n ∧ n ≤ 2 ^ 32 - 8 := by
  unfold jitAllocSize
  omega

/-- What a call that returned has done.  The header is zero. -/
theorem jitAlloc_ok (h : jitAlloc n s = .ok (p, s')) :
    ∃ vm, jitLoop (jitAllocPage s.cursor) (2 ^ 18) (jitAllocSize n) 0 s.vm =
        .ok (0, vm) ∧
      vm.store32 s.cursor 0 = .ok s'.vm ∧ p = s.cursor + 4 ∧
      s.cursor ≤ linearKvmEnd := by
  unfold jitAlloc at h
  simp only [Outcome.bind_eq_ok, Outcome.pure_eq_ok] at h
  obtain ⟨⟨va, cursor⟩, hkvm, ⟨size, vm⟩, hloop, vm', hstore, hend⟩ := h
  obtain ⟨rfl, hcursor, hroom⟩ := linearKvmAlloc_step hkvm
  obtain rfl := jitLoop_size hloop
  obtain ⟨rfl, rfl⟩ := Prod.mk.inj hend
  exact ⟨vm, hloop, hstore, rfl, by omega⟩

theorem sub64_header (hcursor : s.cursor ≤ linearKvmEnd) :
    sub64 (s.cursor + 4) 4 = s.cursor := by
  unfold linearKvmEnd at hcursor
  unfold sub64
  omega

/-- What `jit_free` does with such a header. -/
theorem jitFree_ok (halloc : jitAlloc n s = .ok (p, s')) :
    jitFree p s' = .ok s'' ↔ s'' = s' ∧ s.cursor % 0x4000 = 0 ∧
      ∃ w, s'.vm.load32 s.cursor = .ok w := by
  obtain ⟨vm, -, hstore, rfl, hcursor⟩ := jitAlloc_ok halloc
  unfold jitFree
  simp only [Outcome.bind_eq_ok, Outcome.pure_eq_ok, panicIf_eq_ok,
    sub64_header hcursor]
  constructor
  · rintro ⟨-, hpointer, w, hload, -, -, ⟨size, vm'⟩, hloop, rfl⟩
    obtain rfl := Vm.load32_of_store32 hstore hload
    rw [jitLoop_zero (by decide)] at hloop
    obtain ⟨-, rfl⟩ := Prod.mk.inj (Except.ok.inj hloop)
    exact ⟨rfl, by omega, 0, hload⟩
  · rintro ⟨rfl, haligned, w, hload⟩
    obtain rfl := Vm.load32_of_store32 hstore hload
    refine ⟨(), by omega, 0, hload, (), by decide, (0, s''.vm), ?_, rfl⟩
    exact jitLoop_zero (by decide)

/-- As long as nothing is mapped beyond the cursor, `jit_alloc` returns only if
it has taken a page. -/
theorem jitAllocSize_pos (hfresh : s.vm.kernelWalk s.cursor = none)
    (h : jitAlloc n s = .ok (p, s')) : jitAllocSize n ≠ 0 := by
  intro hzero
  obtain ⟨vm, hloop, hstore, -, -⟩ := jitAlloc_ok h
  rw [hzero, jitLoop_zero (by decide)] at hloop
  obtain ⟨-, rfl⟩ := Prod.mk.inj (Except.ok.inj hloop)
  obtain ⟨pa, haddress, -⟩ := Vm.store32_ok.mp hstore
  obtain ⟨t, hwalk, -⟩ := Vm.kernelAddress_ok.mp haddress
  rw [hfresh] at hwalk
  cases hwalk

/-- Pages that were mapped are still mapped: `jit_free` leaves everything as it
is. -/
theorem not_jitRoundTrip (hsize : jitAllocSize n ≠ 0)
    (h : jitAlloc n s = .ok (p, s')) : ¬ JitRoundTrip n p s s' := by
  rintro ⟨s'', hfree, hunmapped, -⟩
  obtain ⟨rfl, -, w, hload⟩ := (jitFree_ok h).mp hfree
  obtain ⟨-, -, -, rfl, -⟩ := jitAlloc_ok h
  exact Vm.kernelWalk_of_load32 hload (hunmapped 0 (Nat.pos_of_ne_zero hsize))

/-- `jit_free` undoes `jit_alloc` exactly if there is nothing to undo. -/
theorem jitRoundTrip_iff (h : jitAlloc n s = .ok (p, s')) :
    JitRoundTrip n p s s' ↔ jitAllocSize n = 0 ∧ CursorMapped s := by
  obtain ⟨vm, hloop, hstore, hp, -⟩ := jitAlloc_ok h
  constructor
  · intro htrip
    have hzero : jitAllocSize n = 0 := by
      by_contra hsize
      exact not_jitRoundTrip hsize h htrip
    obtain ⟨s'', hfree, -⟩ := htrip
    obtain ⟨-, haligned, w, hload⟩ := (jitFree_ok h).mp hfree
    rw [hzero, jitLoop_zero (by decide)] at hloop
    obtain ⟨-, rfl⟩ := Prod.mk.inj (Except.ok.inj hloop)
    exact ⟨hzero, haligned, s'.vm, w, hstore, hload⟩
  · rintro ⟨hzero, haligned, vm', w, hstore', hload⟩
    rw [hzero, jitLoop_zero (by decide)] at hloop
    obtain ⟨-, rfl⟩ := Prod.mk.inj (Except.ok.inj hloop)
    obtain rfl : vm' = s'.vm := Except.ok.inj (hstore'.symm.trans hstore)
    refine ⟨s', (jitFree_ok h).mpr ⟨rfl, haligned, w, hload⟩, ?_, ?_⟩
    · rw [hzero]
      exact fun k hk => absurd hk (Nat.not_lt_zero k)
    · intro i _ _
      -- the header is all that has changed
      obtain ⟨pa, -, hmm⟩ := Vm.store32_ok.mp hstore
      rw [← hmm, Vm.setMm_mm, Mm.store_count]

end Pair

/-! ### A machine with two free pages -/

/-- The pages at `0x818000000` and `0x818004000` are free, all others are
wired, and nothing is mapped. -/
def jitMm : Mm :=
  { Mm.bootExample with
    mem := Function.update (Function.update (fun _ => 0)
      0x818000000 0x818004000) 0x818004008 0x818000000
    ppageList := fun i =>
      if i = 0x6000 ∨ i = 0x6001 then pageFree else pageWired
    ppages := 0x20000
    paHead := 0x818000000
    freePages := 2
    wiredPages := 0x1fffe
    allocStaticBase := 0x408000000 }

def jitKvm : Kvm := ⟨Vm.unusedVm.setMm jitMm, linearKvmBase⟩

theorem jitKvm_run : ∃ s', jitAlloc 0x100 jitKvm = .ok (0x120000004, s') := by
  have hrun : (jitAlloc 0x100 jitKvm).toOption.map Prod.fst =
      some 0x120000004 := by
    decide +kernel
  obtain ⟨⟨p, s'⟩, hcall, hp⟩ := Outcome.ok_of_map hrun
  obtain rfl : p = 0x120000004 := hp
  exact ⟨s', hcall⟩

theorem jitRoundTrip_iff_jitKvm : ∃ s',
    jitAlloc 0x100 jitKvm = .ok (0x120000004, s') ∧
      (JitRoundTrip 0x100 0x120000004 jitKvm s' ↔
        jitAllocSize 0x100 = 0 ∧ CursorMapped jitKvm) := by
  obtain ⟨s', hrun⟩ := jitKvm_run
  exact ⟨s', hrun, jitRoundTrip_iff hrun⟩

/-- The page taken for a small request stays mapped. -/
theorem jitFree_keeps_page : ∃ s',
    jitAlloc 0x100 jitKvm = .ok (0x120000004, s') ∧
      ¬ JitRoundTrip 0x100 0x120000004 jitKvm s' := by
  obtain ⟨s', hrun⟩ := jitKvm_run
  exact ⟨s', hrun, not_jitRoundTrip (by decide) hrun⟩

end PongoOS
