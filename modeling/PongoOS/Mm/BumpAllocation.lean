import PongoOS.Mm.Boot
import PongoOS.Mm.KernelPages
import PongoOS.Support.Bump

/-!
# `alloc_static` and `linear_kvm_alloc`

Both move a 64-bit cursor by a size that is rounded up in 32 bits.  A size of
which less than a page is left up to `2 ^ 32` becomes 0, and nothing is reserved
for it.
-/

namespace PongoOS

namespace Mm

/-- `(size + 0x3fff) & ~0x3fff`, for a `uint32_t`. -/
def staticReserve (size : ℕ) : ℕ := (size + 0x3fff) % 2 ^ 32 / pageSize * pageSize

@[simps]
def setAllocStaticCurrent (s : Mm) (current : ℕ) : Mm :=
  { s with allocStaticCurrent := current }

@[simps]
def growKernelData (s : Mm) (n : ℕ) : Mm :=
  { s with boot :=
    { s.boot with topOfKernelData := (s.boot.topOfKernelData + n) % 2 ^ 64 } }

/-- `alloc_static`, with the address it returns. -/
def allocStatic (size : ℕ) (s : Mm) : Outcome (ℕ × Mm) := do
  let s₀ ← (if s.allocStaticBase = 0 then s.allocInit else pure s : Outcome Mm)
  let rv := s₀.allocStaticCurrent
  let s₁ := s₀.setAllocStaticCurrent ((rv + staticReserve size) % 2 ^ 64)
  panicIf (s₁.allocStaticEnd < s₁.allocStaticCurrent) "ran out of static region"
  pure (rv, s₁.growKernelData (staticReserve size))

/-- Where the next call of `alloc_static` starts. -/
def staticCurrent (s : Mm) : ℕ :=
  if s.allocStaticBase = 0 then s.initialStaticBase else s.allocStaticCurrent

/-- What `alloc_init` leaves of the static window. -/
structure StaticWindow (s : Mm) : Prop where
  base_ne : s.allocStaticBase ≠ 0
  base_le : s.allocStaticBase ≤ s.allocStaticCurrent
  current_lt : s.allocStaticCurrent < 2 ^ 64
  end_le : s.allocStaticEnd ≤ s.allocStaticBase + 1024 * 1024 * 64
  end_le_windowEnd : s.allocStaticEnd ≤ staticWindowEnd

/-- The next call starts in the window. -/
def StartsInWindow (s : Mm) : Prop :=
  if s.allocStaticBase = 0 then s.initialStaticBase ≤ staticWindowEnd
  else s.allocStaticCurrent ≤ s.allocStaticEnd

/-- The regions are sound, and the kernel's data grew by what was reserved. -/
structure StaticSpec (s s' : Mm) (regions : List (ℕ × ℕ)) : Prop where
  sound : Bump.Sound s'.allocStaticBase s'.allocStaticEnd regions
  grown : sub64 s'.boot.topOfKernelData s.boot.topOfKernelData =
    sub64 s'.staticCurrent s.staticCurrent

/-! ## The window after `alloc_init` -/

section Window

variable {s s' : Mm} {pa size : ℕ}

/-- Freeing pages leaves the static window alone. -/
structure SameWindow (s s' : Mm) : Prop where
  current : s'.allocStaticCurrent = s.allocStaticCurrent
  windowEnd : s'.allocStaticEnd = s.allocStaticEnd

theorem SameWindow.physForceFreePage {i : ℕ}
    (hok : physForceFreePage i s = .ok s') : SameWindow s s' := by
  obtain ⟨-, ⟨-, rfl⟩ | ⟨-, w, -, rfl⟩⟩ := physForceFreePage_ok hok
  · exact ⟨rfl, rfl⟩
  · unfold physPageWasFreed
    dsimp only
    split
    · exact ⟨rfl, rfl⟩
    · exact ⟨rfl, rfl⟩

theorem SameWindow.physForceFree (hok : physForceFree pa size s = .ok s') :
    SameWindow s s' := by
  simp only [Mm.physForceFree, Outcome.bind_eq_ok] at hok
  obtain ⟨-, -, hloop⟩ := hok
  refine Outcome.forRange_preserves (P := fun a => SameWindow s a)
    (fun _ a b _ _ ha hab => ?_) ⟨rfl, rfl⟩ hloop
  have hpage := SameWindow.physForceFreePage hab
  exact ⟨hpage.current.trans ha.current, hpage.windowEnd.trans ha.windowEnd⟩

/-- The window starts at the end of the kernel's data. -/
theorem allocInit_window (hfresh : s.allocStaticBase = 0)
    (hok : s.allocInit = .ok s') :
    s'.allocStaticCurrent = s.initialStaticBase ∧
      s'.allocStaticBase = s.initialStaticBase ∧
      s'.allocStaticEnd =
        min (s.initialStaticBase + 1024 * 1024 * 64) staticWindowEnd ∧
      s'.boot = s.boot := by
  have hlayout := allocInit_layout hfresh hok
  have hbase : s'.allocStaticBase = s.initialStaticBase :=
    hlayout.allocStaticBase.trans s.afterWiring_allocStaticBase
  have hlt : s.initialStaticBase < 2 ^ 64 := by
    unfold initialStaticBase sub64 pageSize
    omega
  obtain ⟨s₁, hcap, hheap⟩ := allocInit_ok hfresh hok
  have hsame := SameWindow.physForceFree hheap
  refine ⟨?_, hbase, ?_, hlayout.boot.trans s.afterWiring_boot⟩
  · rw [hsame.current]
    rcases hcap with ⟨-, -, s₀, hfree, rfl⟩ | ⟨-, rfl⟩
    · rw [setAllocStaticEnd_allocStaticCurrent,
        (SameWindow.physForceFree hfree).current, afterWiring,
        setStaticWindow_allocStaticCurrent]
    · rw [afterWiring, setStaticWindow_allocStaticCurrent]
  · have hview : kCacheableView = 0x400000000 := rfl
    have hend : staticWindowEnd = 0x417fe0000 := rfl
    have hcapEq : s.allocStaticHardcap =
        (s.initialStaticBase + 1024 * 1024 * 64) % 2 ^ 64 := rfl
    rw [hsame.windowEnd]
    rcases hcap with ⟨hcap, hge, s₀, -, rfl⟩ | ⟨hcap, rfl⟩
    · rw [setAllocStaticEnd_allocStaticEnd]
      omega
    · rw [afterWiring, setStaticWindow_allocStaticEnd]
      omega

theorem allocInit_staticWindow (hfresh : s.allocStaticBase = 0)
    (hok : s.allocInit = .ok s') : s'.StaticWindow := by
  obtain ⟨hcurrent, hbase, hend, -⟩ := allocInit_window hfresh hok
  have hlt : s.initialStaticBase < 2 ^ 64 := by
    unfold initialStaticBase sub64 pageSize
    omega
  refine ⟨?_, ?_, ?_, ?_, ?_⟩
  · rw [hbase]
    exact initialStaticBase_ne_zero hfresh hok
  · rw [hbase, hcurrent]
  · rwa [hcurrent]
  · rw [hend, hbase]
    exact Nat.min_le_left _ _
  · rw [hend]
    exact Nat.min_le_right _ _

end Window

/-! ## Calls -/

section Calls

variable {s s' : Mm} {n base : ℕ} {sizes : List ℕ} {regions : List (ℕ × ℕ)}

/-- What is reserved is enough exactly if the rounded size fits in 32 bits. -/
theorem le_staticReserve_iff : n ≤ staticReserve n ↔ n ≤ 0xffffc000 := by
  unfold staticReserve pageSize
  omega

/-- What a call returns and leaves in an initialised state. -/
theorem allocStatic_ok (hbase : s.allocStaticBase ≠ 0)
    (h : allocStatic n s = .ok (base, s')) :
    base = s.allocStaticCurrent ∧
      s'.allocStaticCurrent =
        (s.allocStaticCurrent + staticReserve n) % 2 ^ 64 ∧
      s'.allocStaticCurrent ≤ s.allocStaticEnd ∧
      s'.allocStaticBase = s.allocStaticBase ∧
      s'.allocStaticEnd = s.allocStaticEnd ∧
      s'.boot.topOfKernelData =
        (s.boot.topOfKernelData + staticReserve n) % 2 ^ 64 := by
  simp only [allocStatic, if_neg hbase, Outcome.bind_eq_ok, Outcome.pure_eq_ok,
    panicIf_eq_ok, Prod.mk.injEq, setAllocStaticCurrent_allocStaticEnd,
    setAllocStaticCurrent_allocStaticCurrent, Nat.not_lt] at h
  obtain ⟨s₀, rfl, -, hend, rfl, rfl⟩ := h
  simp only [growKernelData_allocStaticCurrent, growKernelData_allocStaticBase,
    growKernelData_allocStaticEnd, growKernelData_boot_topOfKernelData,
    setAllocStaticCurrent_allocStaticCurrent,
    setAllocStaticCurrent_allocStaticBase, setAllocStaticCurrent_allocStaticEnd,
    setAllocStaticCurrent_boot, true_and, and_true]
  exact hend

/-- The first call initialises the allocator. -/
theorem allocAll_allocStatic_first (hfresh : s.allocStaticBase = 0)
    (h : Bump.allocAll allocStatic (n :: sizes) s = .ok (regions, s')) :
    ∃ s₁, s.allocInit = .ok s₁ ∧
      Bump.allocAll allocStatic (n :: sizes) s₁ = .ok (regions, s') := by
  obtain ⟨base, s₂, rest, hfirst, hrest, rfl⟩ := Bump.allocAll_cons_ok.mp h
  simp only [allocStatic, if_pos hfresh, Outcome.bind_eq_ok] at hfirst
  obtain ⟨s₁, hinit, hcall⟩ := hfirst
  have hbase := (allocInit_staticWindow hfresh hinit).base_ne
  refine ⟨s₁, hinit, Bump.allocAll_cons_ok.mpr ⟨base, s₂, rest, ?_, hrest, rfl⟩⟩
  simp only [allocStatic, if_neg hbase, Outcome.bind_eq_ok]
  exact ⟨s₁, rfl, hcall⟩

/-- What every call keeps after the first one, in the window of `s`. -/
structure StaticRun (s a : Mm) : Prop where
  window : a.StaticWindow
  current_le : a.allocStaticCurrent ≤ a.allocStaticEnd
  base_eq : a.allocStaticBase = s.allocStaticBase
  end_eq : a.allocStaticEnd = s.allocStaticEnd
  grown : sub64 a.boot.topOfKernelData s.boot.topOfKernelData =
    sub64 a.allocStaticCurrent s.allocStaticCurrent

theorem StaticRun.step {a b : Mm} (htop : s.boot.topOfKernelData < 2 ^ 64)
    (hcurrent : s.allocStaticCurrent < 2 ^ 64) (ha : StaticRun s a)
    (h : allocStatic n a = .ok (base, b)) :
    StaticRun s b ∧ base = a.allocStaticCurrent ∧
      b.allocStaticCurrent = a.allocStaticCurrent + staticReserve n ∧
      b.allocStaticCurrent ≤ s.allocStaticEnd := by
  obtain ⟨rfl, hcurrent', hend, hbase', hend', htop'⟩ :=
    allocStatic_ok ha.window.base_ne h
  have hle := ha.current_le
  have hgrown := ha.grown
  have hwindow := ha.window.end_le_windowEnd
  have hbase := ha.window.base_le
  have hreserve : staticReserve n < 2 ^ 32 := by
    unfold staticReserve pageSize
    omega
  have hwindowEnd : staticWindowEnd = 0x417fe0000 := rfl
  rw [Nat.mod_eq_of_lt (by omega)] at hcurrent'
  refine ⟨⟨⟨?_, ?_, ?_, ?_, ?_⟩, ?_, hbase'.trans ha.base_eq,
    hend'.trans ha.end_eq, ?_⟩, rfl, hcurrent', ?_⟩
  · rw [hbase']
    exact ha.window.base_ne
  · rw [hbase', hcurrent']
    exact Nat.le_trans hbase (Nat.le_add_right _ _)
  · omega
  · rw [hend', hbase']
    exact ha.window.end_le
  · rw [hend']
    exact hwindow
  · rwa [hend']
  · rw [htop', hcurrent']
    unfold sub64 at hgrown ⊢
    omega
  · rwa [← ha.end_eq]

theorem allocAll_allocStatic_bounds (hbase : s.allocStaticBase ≠ 0)
    (h : Bump.allocAll allocStatic sizes s = .ok (regions, s')) :
    s'.allocStaticBase = s.allocStaticBase ∧
      s'.allocStaticEnd = s.allocStaticEnd := by
  refine Bump.allocAll_preserves (I := fun a : Mm =>
    a.allocStaticBase = s.allocStaticBase ∧ a.allocStaticEnd = s.allocStaticEnd)
    (fun a n base b ha hab => ?_) ⟨rfl, rfl⟩ h
  obtain ⟨-, -, -, hbase', hend', -⟩ := allocStatic_ok (ha.1 ▸ hbase) hab
  exact ⟨hbase'.trans ha.1, hend'.trans ha.2⟩

/-- A sequence of calls in an initialised state. -/
theorem allocStatic_window_iff (htop : s.boot.topOfKernelData < 2 ^ 64)
    (hwindow : s.StaticWindow)
    (h : Bump.allocAll allocStatic sizes s = .ok (regions, s')) :
    StaticSpec s s' regions ↔
      sizes = [] ∨ s.allocStaticCurrent ≤ s.allocStaticEnd ∧
        ∀ n ∈ sizes, n ≤ 0xffffc000 := by
  obtain ⟨hbase, hend⟩ := allocAll_allocStatic_bounds hwindow.base_ne h
  rcases sizes with - | ⟨n, sizes⟩
  · cases h
    exact iff_of_true ⟨Bump.Sound.nil _ _, by rw [sub64_self, sub64_self]⟩
      (.inl rfl)
  by_cases hstart : s.allocStaticCurrent ≤ s.allocStaticEnd
  · have hstep : ∀ a n base b, StaticRun s a →
        allocStatic n a = .ok (base, b) → StaticRun s b ∧
          base = a.allocStaticCurrent ∧
          b.allocStaticCurrent = a.allocStaticCurrent + staticReserve n ∧
          b.allocStaticCurrent ≤ s.allocStaticEnd :=
      fun _ _ _ _ ha hab => ha.step htop hwindow.current_lt hab
    have hs : StaticRun s s :=
      ⟨hwindow, hstart, rfl, rfl, by rw [sub64_self, sub64_self]⟩
    have hs' := Bump.allocAll_preserves
      (fun a n base b ha hab => (hstep a n base b ha hab).1) hs h
    have hgrown : sub64 s'.boot.topOfKernelData s.boot.topOfKernelData =
        sub64 s'.staticCurrent s.staticCurrent := by
      rw [staticCurrent, staticCurrent, if_neg hwindow.base_ne,
        if_neg hs'.window.base_ne]
      exact hs'.grown
    have hsound := Bump.sound_allocAll_iff
      (Bump.run_of_allocAll hstep hs h) h hwindow.base_le fun n hn => by
        have hlarge := mt le_staticReserve_iff.mpr (Nat.not_le_of_lt hn)
        have hle := hwindow.end_le
        omega
    simp only [le_staticReserve_iff] at hsound
    constructor
    · intro hspec
      have hsound' := hspec.sound
      rw [hbase, hend] at hsound'
      exact .inr ⟨hstart, hsound.mp hsound'⟩
    · intro hsizes
      refine ⟨?_, hgrown⟩
      rw [hbase, hend]
      exact hsound.mpr (hsizes.resolve_left (List.cons_ne_nil _ _)).2
  · -- only a cursor that wraps around gets back below the end
    refine iff_of_false (fun hspec => ?_) fun hsizes => ?_
    · obtain ⟨base, s₁, rest, hfirst, -, rfl⟩ := Bump.allocAll_cons_ok.mp h
      obtain ⟨rfl, hcurrent, hle, -⟩ := allocStatic_ok hwindow.base_ne hfirst
      rw [hcurrent] at hle
      have hpos : 0 < n := by
        rw [Nat.pos_iff_ne_zero]
        rintro rfl
        rw [show staticReserve 0 = 0 from rfl, Nat.add_zero,
          Nat.mod_eq_of_lt hwindow.current_lt] at hle
        exact hstart hle
      have hin := hspec.sound.inside _ List.mem_cons_self
        (⟨le_rfl, Nat.lt_add_of_pos_right hpos⟩ :
          s.allocStaticCurrent ∈ Bump.region (s.allocStaticCurrent, n))
      rw [hend] at hin
      exact hstart (Nat.le_of_lt hin.2)
    · rcases hsizes with hnil | ⟨hle, -⟩
      · cases hnil
      · exact hstart hle

/-- A sequence of calls that may begin before `alloc_init` has run. -/
theorem allocStatic_iff (htop : s.boot.topOfKernelData < 2 ^ 64)
    (hs : s.allocStaticBase = 0 ∨ s.StaticWindow)
    (h : Bump.allocAll allocStatic sizes s = .ok (regions, s')) :
    StaticSpec s s' regions ↔
      sizes = [] ∨ s.StartsInWindow ∧ ∀ n ∈ sizes, n ≤ 0xffffc000 := by
  by_cases hfresh : s.allocStaticBase = 0
  · rcases sizes with - | ⟨n, sizes⟩
    · cases h
      exact iff_of_true ⟨Bump.Sound.nil _ _, by rw [sub64_self, sub64_self]⟩
        (.inl rfl)
    obtain ⟨s₁, hinit, h₁⟩ := allocAll_allocStatic_first hfresh h
    have hwindow := allocInit_staticWindow hfresh hinit
    obtain ⟨hcurrent, -, hend, hboot⟩ := allocInit_window hfresh hinit
    have hiff := allocStatic_window_iff (hboot ▸ htop) hwindow h₁
    have hstart : s.StartsInWindow ↔ s₁.allocStaticCurrent ≤ s₁.allocStaticEnd := by
      rw [StartsInWindow, if_pos hfresh, hcurrent, hend]
      omega
    have hspec : StaticSpec s s' regions ↔ StaticSpec s₁ s' regions := by
      have hsame : s₁.staticCurrent = s.staticCurrent := by
        rw [staticCurrent, staticCurrent, if_neg hwindow.base_ne, if_pos hfresh,
          hcurrent]
      constructor
      · rintro ⟨hsound, hgrown⟩
        exact ⟨hsound, by rwa [hboot, hsame]⟩
      · rintro ⟨hsound, hgrown⟩
        exact ⟨hsound, by rwa [hboot, hsame] at hgrown⟩
    rw [hspec, hiff, hstart]
  · have hstart : s.StartsInWindow ↔ s.allocStaticCurrent ≤ s.allocStaticEnd := by
      rw [StartsInWindow, if_neg hfresh]
    rw [hstart]
    exact allocStatic_window_iff htop (hs.resolve_left hfresh) h

end Calls

end Mm

/-! ## `linear_kvm_alloc` -/

section LinearKvm

variable {cursor cursor' n base : ℕ} {sizes : List ℕ}
  {regions : List (ℕ × ℕ)}

theorem linearKvmAlloc_step (h : linearKvmAlloc cursor n = .ok (base, cursor')) :
    base = cursor ∧ cursor' = cursor + Mm.staticReserve n ∧
      cursor' ≤ linearKvmEnd := by
  have hsize : linearKvmSize n = Mm.staticReserve n := by
    unfold linearKvmSize Mm.staticReserve pageSize
    omega
  obtain ⟨hroom, heq⟩ := linearKvmAlloc_eq_ok.mp h
  cases heq
  exact ⟨rfl, congrArg (cursor + ·) hsize, hroom⟩

theorem linearKvm_sound_iff (hcursor : linearKvmBase ≤ cursor)
    (h : Bump.allocAll (fun n cursor => linearKvmAlloc cursor n) sizes cursor =
      .ok (regions, cursor')) :
    Bump.Sound linearKvmBase linearKvmEnd regions ↔
      ∀ n ∈ sizes, n ≤ 0xffffc000 := by
  have hrun := Bump.run_of_allocAll (I := fun _ : ℕ => True) (c := id)
    (fun _ _ _ _ _ hab => ⟨trivial, linearKvmAlloc_step hab⟩) trivial h
  have hsound := Bump.sound_allocAll_iff hrun h hcursor fun n hn => by
    have hlarge := mt Mm.le_staticReserve_iff.mpr (Nat.not_le_of_lt hn)
    unfold linearKvmBase linearKvmEnd
    omega
  simpa only [Mm.le_staticReserve_iff] using hsound

end LinearKvm

/-- Both bump allocators return regions of their windows that do not overlap,
and `alloc_static` lets the kernel's data grow with its cursor, exactly if no
size is rounded to 0. -/
theorem bumpAllocators_iff (sizes : List ℕ) :
    (∀ (s s' : Mm) regions, s.boot.topOfKernelData < 2 ^ 64 →
      (s.allocStaticBase = 0 ∨ s.StaticWindow) →
      Bump.allocAll Mm.allocStatic sizes s = .ok (regions, s') →
      (Mm.StaticSpec s s' regions ↔
        sizes = [] ∨ s.StartsInWindow ∧ ∀ n ∈ sizes, n ≤ 0xffffc000)) ∧
    ∀ cursor cursor' regions, linearKvmBase ≤ cursor →
      Bump.allocAll (fun n cursor => linearKvmAlloc cursor n) sizes cursor =
        .ok (regions, cursor') →
      (Bump.Sound linearKvmBase linearKvmEnd regions ↔
        ∀ n ∈ sizes, n ≤ 0xffffc000) :=
  ⟨fun _ _ _ htop hs h => Mm.allocStatic_iff htop hs h,
    fun _ _ _ hcursor h => linearKvm_sound_iff hcursor h⟩

/-- A machine after `alloc_init`, as far as the static window is concerned. -/
def staticExample : Mm :=
  { Mm.bootExample with
    allocStaticBase := 0x404000000
    allocStaticCurrent := 0x404000000
    allocStaticEnd := 0x408000000 }

theorem staticExample_window : staticExample.StaticWindow := by
  constructor <;> decide

theorem bumpAllocators_sound :
    (∃ regions s', Bump.allocAll Mm.allocStatic [0x8000, 1] staticExample =
        .ok (regions, s') ∧ Mm.StaticSpec staticExample s' regions) ∧
      ∃ regions cursor', Bump.allocAll (fun n cursor => linearKvmAlloc cursor n)
          [0x8000, 1] linearKvmBase = .ok (regions, cursor') ∧
        Bump.Sound linearKvmBase linearKvmEnd regions := by
  have hsizes : ∀ n ∈ [0x8000, 1], n ≤ 0xffffc000 := by decide
  constructor
  · refine ⟨_, _, rfl, ?_⟩
    refine ((bumpAllocators_iff _).1 _ _ _ (by decide)
      (.inr staticExample_window) rfl).mpr (.inr ⟨?_, hsizes⟩)
    rw [Mm.StartsInWindow, if_neg staticExample_window.base_ne]
    decide
  · refine ⟨_, _, rfl, ?_⟩
    exact ((bumpAllocators_iff _).2 _ _ _ le_rfl rfl).mpr hsizes

/-- Nothing is reserved for a size that is rounded to 0. -/
theorem size_rounds_to_zero :
    (∃ s', Mm.allocStatic 0xffffc001 staticExample = .ok (0x404000000, s') ∧
      ¬ Bump.Sound 0x404000000 0x408000000 [(0x404000000, 0xffffc001)]) ∧
    linearKvmAlloc linearKvmBase 0xffffc001 =
        .ok (linearKvmBase, linearKvmBase) ∧
      ¬ Bump.Sound linearKvmBase linearKvmEnd
        [(linearKvmBase, 0xffffc001)] := by
  have hunsound : ∀ lo hi, hi ≤ lo + 0xffffc000 →
      ¬ Bump.Sound lo hi [(lo, 0xffffc001)] := by
    intro lo hi hle h
    have hin : lo + 0xffffc000 ∈ Set.Ico lo hi :=
      h.inside _ List.mem_cons_self ⟨Nat.le_add_right _ _, by
        dsimp only
        omega⟩
    exact Nat.not_lt_of_le hle hin.2
  exact ⟨⟨_, rfl, hunsound _ _ (by decide)⟩, rfl, hunsound _ _ (by decide)⟩

end PongoOS
