import PongoOS.Mm.MapRuns
import PongoOS.Mm.VmSpace

/-!
# The kernel map

`lowlevel_setup` maps the peripherals, RAM at two addresses and the image of the
kernel, and `map_full_ram` maps RAM again, without the right to execute from
it.  The results say what every address below the two roots translates to when
these functions return.  The MMU itself and the maintenance of the TLB leave no
trace in the model.
-/

namespace PongoOS

open RadixTable Mm

/-- The kernel in RAM, by the linker's symbols: `start`, the start of `__DATA`
and the end of `__BSS`. -/
structure KernelImage where
  start : ℕ
  dataStart : ℕ
  bssEnd : ℕ
  in_ram : 0x800000000 ≤ start
  text_le : start ≤ dataStart
  data_le : dataStart ≤ bssEnd
  small : bssEnd - start + 0x4000 ≤ 0x100000000
  below : bssEnd + 0x4000 ≤ 2 ^ 48

namespace KernelImage

def pongoTextSize (img : KernelImage) : ℕ := img.dataStart - img.start

/-- Where the early heap starts, behind the image. -/
def earlyHeapBase (img : KernelImage) : ℕ :=
  (img.start - 0x800000000 + kCacheableView + (img.bssEnd - img.start) + 0x7fff)
    / 0x4000 * 0x4000

/-- The length of the data in whole pages of 16 KiB. -/
def dataSize (img : KernelImage) : ℕ :=
  (img.bssEnd - img.start - img.pongoTextSize + 0x3fff) / 0x4000 * 0x4000

end KernelImage

@[simps]
def Mm.setEarlyHeapBase (s : Mm) (n : ℕ) : Mm := { s with earlyHeapBase := n }

/-- The globals of the kernel map. -/
structure KernelMap where
  mm : Mm
  granule : Granule
  ttbr0 : ℕ
  ttbr1 : ℕ
  ramPhysOff : ℕ
  ramPhysSize : ℕ
  gPhysOff : ℕ
  gPongoSlide : ℕ

/-- `PROT_READ|PROT_WRITE|PROT_KERN_ONLY`. -/
def protRw : Prot := ⟨true, true, false, false, true, false⟩

/-- `PROT_READ|PROT_WRITE|PROT_EXEC|PROT_KERN_ONLY`. -/
def protRwx : Prot := ⟨true, true, true, false, true, false⟩

/-- `PROT_READ|PROT_EXEC|PROT_KERN_ONLY`. -/
def protRx : Prot := ⟨true, false, true, false, true, false⟩

/-- Rounding up to whole pages. -/
def Granule.roundUp (g : Granule) (n : ℕ) : ℕ := (n + (g.pgsz - 1)) / g.pgsz * g.pgsz

namespace KernelMap

@[simps]
def setMm (m : KernelMap) (mm : Mm) : KernelMap := { m with mm := mm }

/-- The call that the functions of the `map_range` family make. -/
def rangeCall (prot : Prot) (m : KernelMap) (va pa size sh attridx : ℕ)
    (overwrite : Bool) : RangeCall :=
  ⟨⟨m.ttbr0, sh, attridx, overwrite, 0, prot, false⟩, va, pa, size⟩

def mapRangeWith (prot : Prot) (va pa size sh attridx : ℕ) (overwrite : Bool)
    (m : KernelMap) : Outcome KernelMap := do
  let mm ← (rangeCall prot m va pa size sh attridx overwrite).run m.granule m.mm
  pure (m.setMm mm)

def mapRangeNoflush := mapRangeWith protRw
def mapRangeNoflushRw := mapRangeWith protRw
def mapRangeNoflushRwx := mapRangeWith protRwx
def mapRangeNoflushRx := mapRangeWith protRx
def mapRange := mapRangeNoflush

/-- `lowlevel_setup` sets `early_heap_base` unless it has a value. -/
def setEarlyHeap (img : KernelImage) (m : KernelMap) : KernelMap :=
  if m.mm.earlyHeapBase = 0 then
    m.setMm (m.mm.setEarlyHeapBase img.earlyHeapBase)
  else m

/-- The roots that `lowlevel_setup` allocates. -/
def setRoots (img : KernelImage) (m : KernelMap) : Outcome KernelMap := do
  let g := m.mm.granule
  let (ttbr0, s₁) ← ttbAllocEarly g (m.mm.setTtbAllocBase (img.start - 0x4000))
  let (ttbr1, s₂) ← ttbAllocEarly g s₁
  pure { m with mm := s₂, granule := g, ttbr0 := ttbr0, ttbr1 := ttbr1 }

def lowlevelSetup (img : KernelImage) (el physOff physSize : ℕ)
    (m : KernelMap) : Outcome KernelMap := do
  let m ← m.setRoots img
  let physOff' := m.granule.roundUp physOff
  let m ← m.mapRangeNoflushRw 0x200000000 0x200000000 0x100000000 2 0 false
  let m ← m.mapRangeNoflushRw (kCacheableView + physOff')
    (0x800000000 + physOff') physSize 3 1 false
  let m ← m.mapRangeNoflushRwx (0x800000000 + physOff')
    (0x800000000 + physOff') physSize 2 0 false
  let m := m.setEarlyHeap img
  let m ← m.mapRangeNoflushRx 0x100000000 img.start img.pongoTextSize 3 1 false
  let m ← m.mapRangeNoflushRw (0x100000000 + img.pongoTextSize)
    (img.start + img.pongoTextSize) img.dataSize 3 1 false
  panicIf (el ≠ 1) "pongoOS runs in EL1 only! did you skip pongoMon?"
  pure { m with
    gPongoSlide := sub64 0x100000000 img.start
    ramPhysOff := kCacheableView + physOff'
    ramPhysSize := physSize }

def mapFullRam (physOff physSize : ℕ) (m : KernelMap) : Outcome KernelMap := do
  let physSize' := m.granule.roundUp physSize
  let m ← m.mapRangeNoflushRw (kCacheableView + physOff)
    (0x800000000 + physOff) physSize' 3 1 true
  let m ← m.mapRangeNoflushRw (0x800000000 + physOff)
    (0x800000000 + physOff) physSize' 2 0 true
  pure { m with
    ramPhysOff := kCacheableView + physOff
    ramPhysSize := physSize'
    gPhysOff := physOff }

/-- What `pongo_entry` and `pongo_entry_cached` map up to the peripherals, which is
before `task_alloc_fast_stacks` maps the stacks of the scheduler and `vm_init`. -/
def entryMapping (img : KernelImage) (el physOff physSize : ℕ)
    (m : KernelMap) : Outcome KernelMap := do
  let m ← m.lowlevelSetup img el physOff physSize
  let m ← m.mapFullRam physOff physSize
  m.mapRange 0x08000000 0x08000000 0x38000000 3 1 true

/-! ## Windows -/

/-- What a call of the `map_range` family asks for. -/
def window (prot : Prot) (va pa size sh attridx : ℕ) :
    Piece (Option Translation) :=
  RangeCall.piece ⟨⟨0, sh, attridx, false, 0, prot, false⟩, va, pa, size⟩

@[simp] theorem window_start (prot : Prot) (va pa size sh attridx : ℕ) :
    (window prot va pa size sh attridx).start = va := rfl

@[simp] theorem window_stop (prot : Prot) (va pa size sh attridx : ℕ) :
    (window prot va pa size sh attridx).stop = va + size := rfl

/-- The peripherals, RAM in the cacheable view and at its own address, and the
kernel at `0x100000000`. -/
def kernelWindows (img : KernelImage) (physOff physSize : ℕ) (identity : Prot) :
    List (Piece (Option Translation)) :=
  [window protRw 0x200000000 0x200000000 0x100000000 2 0,
    window protRw (kCacheableView + physOff) (0x800000000 + physOff) physSize 3 1,
    window identity (0x800000000 + physOff) (0x800000000 + physOff) physSize 2 0,
    window protRx 0x100000000 img.start img.pongoTextSize 3 1,
    window protRw (0x100000000 + img.pongoTextSize)
      (img.start + img.pongoTextSize) img.dataSize 3 1]

/-- Below `ttbr0` the translation is that of the pieces, and below `ttbr1` there
is none.  There is room for the tables of `n` more calls. -/
structure Views (n : ℕ) (ps : List (Piece (Option Translation))) (m : KernelMap) :
    Prop where
  mapped : Mapped m.granule {m.ttbr0, m.ttbr1} m.ttbr0 ps m.mm
  ne : m.ttbr1 ≠ m.ttbr0
  room : 0x80000000 * n ≤ m.mm.ttbAllocBase

section Views

variable {ps : List (Piece (Option Translation))} {img : KernelImage}
  {m m' : KernelMap} {prot : Prot} {n va pa size sh attridx el physOff physSize : ℕ}
  {overwrite : Bool}

theorem space_ge (g : Granule) : 2 ^ 36 ≤ g.space := by
  cases g <;> decide

theorem mapRangeWith_ok :
    mapRangeWith prot va pa size sh attridx overwrite m = .ok m' ↔
      ∃ mm, (rangeCall prot m va pa size sh attridx overwrite).run m.granule
        m.mm = .ok mm ∧ m' = m.setMm mm := by
  unfold mapRangeWith
  simp only [Outcome.bind_eq_ok, Outcome.pure_eq_ok, @eq_comm _ m']

/-- A call that returns was given whole pages. -/
theorem mapRangeWith_aligned (hfits : va + size ≤ 2 ^ 36)
    (hok : mapRangeWith prot va pa size sh attridx overwrite m = .ok m') :
    m.granule.pgsz ∣ va ∧ m.granule.pgsz ∣ pa ∧ m.granule.pgsz ∣ size := by
  obtain ⟨mm, hrun, rfl⟩ := mapRangeWith_ok.mp hok
  have hspace := hfits.trans (space_ge m.granule)
  have hadm := admissible_of_ok (c := (rangeCall prot m va pa size sh attridx
    overwrite).args) hspace hrun
  have hpos := hadm.size_pos
  have hva := hadm.va_aligned
  rw [spaceOffset_of_lt _ (by omega)] at hva
  exact ⟨hva, hadm.pa_aligned, hadm.size_aligned⟩

/-- The tables of a call take up little room. -/
theorem mapRangeWith_descends (hsize : size ≤ 2 ^ 34)
    (hok : mapRangeWith prot va pa size sh attridx overwrite m = .ok m') :
    Descends 0x80000000 m.mm m'.mm := by
  obtain ⟨mm, hrun, rfl⟩ := mapRangeWith_ok.mp hok
  have hroom : 2 ^ 19 + size / 16 ≤ 0x80000000 := by omega
  exact (mapRangeMap_spends rfl mm hrun).1.mono hroom

theorem Views.mapRangeWith (h : Views (n + 1) ps m)
    (hok : mapRangeWith prot va pa size sh attridx overwrite m = .ok m')
    (hread : prot.read = true) (hpi : prot.pagingInfo = false)
    (hfits : va + size ≤ 2 ^ 36) (hsize : size ≤ 2 ^ 34) (hpa : pa ≠ 0)
    (hlt : pa + size ≤ 2 ^ 48)
    (hspares : overwrite = true → ∀ p ∈ ps, p.stop ≤ va ∨ va + size ≤ p.start ∨
      va ≤ p.start ∧ p.stop ≤ va + size) :
    Views n (ps ++ [window prot va pa size sh attridx]) m' := by
  have hroom := h.room
  have hbelow := h.mapped.good.inv.below
  obtain ⟨hle, hge⟩ := (mapRangeWith_descends hsize hok).below hbelow (by omega)
  have hleft : 0x80000000 * n ≤ m'.mm.ttbAllocBase := by omega
  obtain ⟨mm, hrun, rfl⟩ := mapRangeWith_ok.mp hok
  have hcall := h.mapped.call
    (r := rangeCall prot m va pa size sh attridx overwrite)
    ⟨rfl, rfl, hread, hpi, hfits.trans (space_ge m.granule), hpa, hlt⟩ hspares
    hrun (hle.trans hbelow)
  exact ⟨hcall, h.ne, hleft⟩

/-- A call that may not overwrite. -/
theorem Views.mapOnce (h : Views (n + 1) ps m)
    (hok : KernelMap.mapRangeWith prot va pa size sh attridx false m = .ok m')
    (hread : prot.read = true) (hpi : prot.pagingInfo = false)
    (hfits : va + size ≤ 2 ^ 36) (hsize : size ≤ 2 ^ 34) (hpa : pa ≠ 0)
    (hlt : pa + size ≤ 2 ^ 48) :
    Views n (ps ++ [window prot va pa size sh attridx]) m' :=
  h.mapRangeWith hok hread hpi hfits hsize hpa hlt
    fun hover => absurd hover (by decide)

theorem Views.congr (h : Views n ps m) {mm : Mm} (hmem : mm.mem = m.mm.mem)
    (hbase : mm.ttbAllocBase = m.mm.ttbAllocBase) : Views n ps (m.setMm mm) := by
  obtain ⟨⟨hroot, ⟨hforest, hplain, halign, hbelow, habove⟩, hview, htiled,
    hothers⟩, hne, hroom⟩ := h
  rw [← hmem] at hforest hplain hview htiled hothers habove
  rw [← hbase] at halign hbelow habove hroom
  exact ⟨⟨hroot, ⟨hforest, hplain, halign, hbelow, habove⟩, hview, htiled,
    hothers⟩, hne, hroom⟩

theorem Views.setEarlyHeap (h : Views n ps m) : Views n ps (m.setEarlyHeap img) := by
  unfold KernelMap.setEarlyHeap
  split
  · apply h.congr
    · exact funext (setEarlyHeapBase_mem _ _)
    · exact setEarlyHeapBase_ttbAllocBase _ _
  · exact h

@[simp] theorem setEarlyHeap_granule :
    (m.setEarlyHeap img).granule = m.granule := by
  unfold KernelMap.setEarlyHeap
  split
  · exact setMm_granule _ _
  · rfl

/-- Two tables taken one after the other, with room for both, are empty. -/
theorem mapped_earlyTables {g : Granule} {s s₁ s₂ : Mm} {t u : ℕ}
    (halign : g.pgsz ∣ s.ttbAllocBase) (hbelow : s.ttbAllocBase ≤ 2 ^ 48)
    (hroom₂ : 2 * g.pgsz ≤ s.ttbAllocBase)
    (hfirst : ttbAllocEarly g s = .ok (t, s₁))
    (hsecond : ttbAllocEarly g s₁ = .ok (u, s₂)) :
    Mapped g {t, u} t [] s₂ ∧ u ≠ t ∧
      s.ttbAllocBase = s₂.ttbAllocBase + 2 * g.pgsz := by
  rw [← earlyTables_of_room (by omega)] at hfirst
  obtain ⟨hroom, ht, hs₁⟩ := (earlyTables_ok hbelow).mp hfirst
  have hbase₁ : s₁.ttbAllocBase = t := by
    rw [hs₁]
    rfl
  rw [← earlyTables_of_room (by omega)] at hsecond
  obtain ⟨hroom', hu, hs₂⟩ := (earlyTables_ok (by omega)).mp hsecond
  rw [hbase₁] at hroom' hu
  have hbase₂ : s₂.ttbAllocBase = u := by
    rw [hs₂]
    rfl
  have hpos := g.pgsz_pos
  have hdvd : g.pgsz ∣ t := ht ▸ Nat.dvd_sub halign dvd_rfl
  have hdvd' : g.pgsz ∣ u := hu ▸ Nat.dvd_sub hdvd dvd_rfl
  have hslot : ∀ r x, r ≤ g.layout.slot g.topLevel r x ∧
      g.layout.slot g.topLevel r x < r + g.pgsz := by
    intro r x
    have hidx := g.layout.idx_lt g.topLevel x
    have hsize := g.table_size
    unfold Layout.slot
    omega
  refine ⟨mapped_of_empty (Set.mem_insert _ _) ?_ ?_ ?_ ?_ ?_, by omega, by omega⟩
  · rintro r (rfl | rfl) x
    · have hin := hslot r x
      rw [hs₂, bzero_mem_of_notMem _ (by omega)]
      rw [setTtbAllocBase_mem, hs₁, bzero_mem_of_mem _ hin]
    · rw [hs₂, bzero_mem_of_mem _ (hslot r x)]
  · rintro r (rfl | rfl)
    · exact hdvd
    · exact hdvd'
  · rw [hbase₂]
    exact hdvd'
  · omega
  · rintro r (rfl | rfl)
    · omega
    · omega

theorem views_setRoots (halign : m.mm.granule.pgsz ∣ img.start)
    (hok : m.setRoots img = .ok m') : Views 8 [] m' ∧ m'.granule = m.mm.granule := by
  unfold setRoots at hok
  simp only [Outcome.bind_eq_ok, Outcome.pure_eq_ok] at hok
  obtain ⟨⟨ttbr0, s₁⟩, hfirst, ⟨ttbr1, s₂⟩, hsecond, rfl⟩ := hok
  have htext := img.text_le
  have hdata := img.data_le
  have hbelow := img.below
  have hgap : m.mm.granule.pgsz ∣ 0x4000 := by
    cases m.mm.granule <;> decide
  have hbase := setTtbAllocBase_ttbAllocBase m.mm (img.start - 0x4000)
  have hdvd : m.mm.granule.pgsz ∣
      (m.mm.setTtbAllocBase (img.start - 0x4000)).ttbAllocBase := by
    rw [hbase]
    exact Nat.dvd_sub halign hgap
  have hle : (m.mm.setTtbAllocBase (img.start - 0x4000)).ttbAllocBase ≤
      2 ^ 48 := by
    rw [hbase]
    omega
  have hpage : m.mm.granule.pgsz ≤ 0x4000 := by
    cases m.mm.granule <;> decide
  have hram := img.in_ram
  obtain ⟨hempty, hne, hroom⟩ :=
    mapped_earlyTables hdvd hle (by rw [hbase]; omega) hfirst hsecond
  rw [hbase] at hroom
  have hcalls : 0x80000000 * 8 ≤ s₂.ttbAllocBase := by omega
  exact ⟨⟨hempty, hne, hcalls⟩, rfl⟩

theorem mapRangeWith_granule
    (hok : mapRangeWith prot va pa size sh attridx overwrite m = .ok m') :
    m'.granule = m.granule := by
  obtain ⟨mm, -, rfl⟩ := mapRangeWith_ok.mp hok
  exact setMm_granule _ _

theorem setRoots_granule (hok : m.setRoots img = .ok m') :
    m'.granule = m.mm.granule := by
  unfold setRoots at hok
  simp only [Outcome.bind_eq_ok, Outcome.pure_eq_ok] at hok
  obtain ⟨-, -, -, -, rfl⟩ := hok
  rfl

/-- The image fits below the window of the peripherals. -/
theorem image_bounds (img : KernelImage) :
    0x100000000 + img.pongoTextSize + img.dataSize < 0x200000000 ∧
      img.start + img.pongoTextSize + img.dataSize ≤ 2 ^ 48 := by
  have htext := img.text_le
  have hdata := img.data_le
  have hsmall := img.small
  have hbelow := img.below
  unfold KernelImage.dataSize KernelImage.pongoTextSize
  omega

theorem roundUp_lt (g : Granule) (n : ℕ) : g.roundUp n < n + g.pgsz := by
  have hpos := g.pgsz_pos
  have hle := Nat.div_mul_le_self (n + (g.pgsz - 1)) g.pgsz
  unfold Granule.roundUp
  omega

theorem roundUp_of_dvd {g : Granule} {n : ℕ} (h : g.pgsz ∣ n) :
    g.roundUp n = n := by
  have hpos := g.pgsz_pos
  obtain ⟨k, rfl⟩ := h
  unfold Granule.roundUp
  rw [Nat.mul_add_div hpos, Nat.div_eq_of_lt (by omega), Nat.add_zero,
    Nat.mul_comm]

/-- What `lowlevel_setup` leaves behind. -/
theorem lowlevelSetup_views (hoff : physOff < 2 ^ 32)
    (hsize : physSize ≤ 0x400000000)
    (hok : m.lowlevelSetup img el physOff physSize = .ok m') :
    Views 3 (kernelWindows img (m.mm.granule.roundUp physOff) physSize protRwx) m' ∧
      m'.granule = m.mm.granule ∧ m.mm.granule.pgsz ∣ physSize := by
  unfold lowlevelSetup at hok
  simp only [Outcome.bind_eq_ok, Outcome.pure_eq_ok, panicIf_eq_ok] at hok
  obtain ⟨m₀, hroots, m₁, hmmio, m₂, hcached, m₃, hidentity, m₄, htext, m₅, hdata,
    -, -, rfl⟩ := hok
  have hg₀ := setRoots_granule hroots
  have hg₁ := mapRangeWith_granule hmmio
  have hg₂ := mapRangeWith_granule hcached
  have hg₃ := mapRangeWith_granule hidentity
  have hg₄ := mapRangeWith_granule htext
  have hg₅ := mapRangeWith_granule hdata
  rw [setEarlyHeap_granule] at hg₄
  have himage := image_bounds img
  have hram := img.in_ram
  have hround := roundUp_lt m.mm.granule physOff
  have hpage : m.mm.granule.pgsz ≤ 0x4000 := by
    cases m.mm.granule <;> decide
  rw [hg₀] at hcached hidentity
  generalize m.mm.granule.roundUp physOff = off at *
  have hview : kCacheableView = 0x400000000 := rfl
  have haligned := (mapRangeWith_aligned (by omega) htext).2.1
  rw [setEarlyHeap_granule, hg₃, hg₂, hg₁, hg₀] at haligned
  have hwhole := (mapRangeWith_aligned (by omega) hcached).2.2
  rw [hg₁, hg₀] at hwhole
  obtain ⟨hviews, -⟩ := views_setRoots haligned hroots
  have hviews₁ := hviews.mapOnce hmmio rfl rfl (by decide) (by decide) (by decide)
    (by decide)
  have hviews₂ := hviews₁.mapOnce hcached rfl rfl (by omega) hsize (by omega)
    (by omega)
  have hviews₃ := hviews₂.mapOnce hidentity rfl rfl (by omega) hsize (by omega)
    (by omega)
  have hviews₄ := hviews₃.setEarlyHeap.mapOnce htext rfl rfl (by omega) (by omega)
    (by omega) (by omega)
  have hviews₅ := hviews₄.mapOnce hdata rfl rfl (by omega) (by omega) (by omega)
    (by omega)
  refine ⟨⟨hviews₅.mapped, hviews₅.ne, hviews₅.room⟩, ?_, hwhole⟩
  exact hg₅.trans (hg₄.trans (hg₃.trans (hg₂.trans (hg₁.trans hg₀))))

/-- Windows whose ranges do not meet. -/
theorem window_apart {prot' : Prot} {va' pa' size' sh' attridx' : ℕ}
    (h : va' + size' ≤ va ∨ va + size ≤ va') :
    (window prot va pa size sh attridx).Apart
      (window prot' va' pa' size' sh' attridx') := by
  rintro a ⟨⟨hlow, hhigh⟩, hlow', hhigh'⟩
  rw [window_start] at hlow hlow'
  rw [window_stop] at hhigh hhigh'
  omega

/-- RAM in either view avoids or covers each of the windows. -/
theorem ram_spares {off : ℕ} {p : Piece (Option Translation)}
    (hsize : size ≤ 0x400000000) (hp : p ∈ kernelWindows img off size prot)
    (hva : va = kCacheableView + off ∨ va = 0x800000000 + off) :
    p.stop ≤ va ∨ va + size ≤ p.start ∨ va ≤ p.start ∧ p.stop ≤ va + size := by
  have himage := (image_bounds img).1
  have hview : kCacheableView = 0x400000000 := rfl
  unfold kernelWindows at hp
  simp only [List.mem_cons, List.not_mem_nil, or_false] at hp
  rcases hp with rfl | rfl | rfl | rfl | rfl <;>
    simp only [window_start, window_stop] <;> omega

/-- Two of five pieces laid again, the second with another value. -/
theorem layAll_twice {f : ℕ → Option Translation}
    {a c i t d i' : Piece (Option Translation)}
    (hc : ∀ r ∈ [i, t, d], c.Apart r) (hstart : i.start = i'.start)
    (hstop : i.stop = i'.stop) (hi : ∀ r ∈ [t, d], i'.Apart r) :
    Piece.layAll f ([a, c, i, t, d] ++ [c] ++ [i']) =
      Piece.layAll f [a, c, i', t, d] := by
  have hfirst : Piece.layAll f ([a] ++ c :: [i, t, d] ++ [c]) =
      Piece.layAll f ([a] ++ c :: [i, t, d]) :=
    Piece.layAll_replace rfl rfl hc
  have hsecond : Piece.layAll f ([a, c] ++ i :: [t, d] ++ [i']) =
      Piece.layAll f ([a, c] ++ i' :: [t, d]) :=
    Piece.layAll_replace hstart hstop hi
  rw [Piece.layAll_append] at hsecond ⊢
  exact (congrArg (fun f => Piece.layAll f [i']) hfirst).trans hsecond

/-- Mapping RAM again in the same places only changes what the identity view
allows. -/
theorem layAll_mapFullRam {off : ℕ} (hsize : size ≤ 0x400000000) :
    Piece.layAll (fun _ => none)
        (kernelWindows img off size prot ++
          [window protRw (kCacheableView + off) (0x800000000 + off) size 3 1] ++
          [window protRw (0x800000000 + off) (0x800000000 + off) size 2 0]) =
      Piece.layAll (fun _ => none) (kernelWindows img off size protRw) := by
  have himage := (image_bounds img).1
  have hview : kCacheableView = 0x400000000 := rfl
  apply layAll_twice
  · intro r hr
    simp only [List.mem_cons, List.not_mem_nil, or_false] at hr
    rcases hr with rfl | rfl | rfl
    · exact window_apart (by omega)
    · exact window_apart (by omega)
    · exact window_apart (by omega)
  · rfl
  · rfl
  · intro r hr
    simp only [List.mem_cons, List.not_mem_nil, or_false] at hr
    rcases hr with rfl | rfl
    · exact window_apart (by omega)
    · exact window_apart (by omega)

/-- What `map_full_ram` adds. -/
theorem mapFullRam_views {off : ℕ} (hoff : physOff < 2 ^ 32)
    (hsize : physSize ≤ 0x400000000) (hwhole : m.granule.pgsz ∣ physSize)
    (hround : off = m.granule.roundUp physOff)
    (h : Views (n + 2) (kernelWindows img off physSize prot) m)
    (hok : m.mapFullRam physOff physSize = .ok m') :
    off = physOff ∧ m'.granule = m.granule ∧
      Views n (kernelWindows img physOff physSize prot ++
        [window protRw (kCacheableView + physOff) (0x800000000 + physOff)
          physSize 3 1] ++
        [window protRw (0x800000000 + physOff) (0x800000000 + physOff)
          physSize 2 0]) m' := by
  unfold mapFullRam at hok
  simp only [Outcome.bind_eq_ok, Outcome.pure_eq_ok] at hok
  obtain ⟨m₂, hcached, m₃, hidentity, rfl⟩ := hok
  have hview : kCacheableView = 0x400000000 := rfl
  rw [roundUp_of_dvd hwhole] at hcached hidentity
  have hg₂ := mapRangeWith_granule hcached
  have hg₃ := mapRangeWith_granule hidentity
  have haligned := (mapRangeWith_aligned (by omega) hcached).1
  have hdvd : m.granule.pgsz ∣ physOff := by
    refine (Nat.dvd_add_right ?_).mp haligned
    cases m.granule <;> decide
  rw [roundUp_of_dvd hdvd] at hround
  subst hround
  have hviews₂ := h.mapRangeWith hcached rfl rfl (by omega) hsize (by omega)
    (by omega) fun _ p hp => ram_spares hsize hp (Or.inl rfl)
  have hviews₃ := hviews₂.mapRangeWith hidentity rfl rfl (by omega) hsize
    (by omega) (by omega) fun _ p hp => by
      rcases List.mem_append.mp hp with hp | hp
      · exact ram_spares hsize hp (Or.inr rfl)
      · rw [List.mem_singleton.mp hp, window_start, window_stop]
        omega
  exact ⟨rfl, hg₃.trans hg₂, hviews₃.mapped, hviews₃.ne, hviews₃.room⟩

/-- When `lowlevel_setup` returns, an address below `ttbr0` is translated as the
window around it asks for, and no other address is. -/
theorem lowlevelSetup_translates (hoff : physOff < 2 ^ 32)
    (hsize : physSize ≤ 0x400000000)
    (hok : m.lowlevelSetup img el physOff physSize = .ok m') :
    (∀ x, x < m'.granule.space →
      translate m'.granule m'.mm.mem m'.ttbr0 x =
        Piece.layAll (fun _ => none)
          (kernelWindows img (m.mm.granule.roundUp physOff) physSize protRwx) x) ∧
    ∀ x, x < m'.granule.space →
      translate m'.granule m'.mm.mem m'.ttbr1 x = none := by
  obtain ⟨hviews, -⟩ := lowlevelSetup_views hoff hsize hok
  refine ⟨hviews.mapped.view, ?_⟩
  apply hviews.mapped.others _ _ hviews.ne
  exact Set.mem_insert_of_mem _ rfl

/-- When the peripherals have been mapped, RAM is mapped in both views and cannot be
executed from, the kernel can be executed from but not written, and apart from these
windows only the peripherals are mapped. -/
theorem entryMapping_translates (hoff : physOff < 2 ^ 32)
    (hsize : physSize ≤ 0x400000000)
    (hok : m.entryMapping img el physOff physSize = .ok m') :
    (∀ x, x < m'.granule.space →
      translate m'.granule m'.mm.mem m'.ttbr0 x =
        Piece.layAll (fun _ => none)
          (kernelWindows img physOff physSize protRw ++
            [window protRw 0x08000000 0x08000000 0x38000000 3 1]) x) ∧
    ∀ x, x < m'.granule.space →
      translate m'.granule m'.mm.mem m'.ttbr1 x = none := by
  unfold entryMapping at hok
  simp only [Outcome.bind_eq_ok] at hok
  obtain ⟨m₁, hsetup, m₂, hfull, hdevices⟩ := hok
  obtain ⟨hviews₁, hg₁, hwhole⟩ := lowlevelSetup_views hoff hsize hsetup
  rw [← hg₁] at hviews₁ hwhole
  obtain ⟨hround, hg₂, hviews₂⟩ :=
    mapFullRam_views hoff hsize hwhole rfl hviews₁ hfull
  have himage := image_bounds img
  have hview : kCacheableView = 0x400000000 := rfl
  have hviews₃ := hviews₂.mapRangeWith hdevices rfl rfl (by omega) (by decide)
    (by decide) (by decide) fun _ p hp => by
      simp only [kernelWindows, List.mem_append, List.mem_cons,
        List.not_mem_nil, or_false] at hp
      rcases hp with ((rfl | rfl | rfl | rfl | rfl) | rfl) | rfl <;>
        simp only [window_start, window_stop] <;> omega
  refine ⟨?_, ?_⟩
  · intro x hx
    rw [hviews₃.mapped.view x hx, Piece.layAll_append, layAll_mapFullRam hsize,
      ← Piece.layAll_append]
  · apply hviews₃.mapped.others _ _ hviews₃.ne
    exact Set.mem_insert_of_mem _ rfl

end Views

/-! ### On the boot machine -/

def bootImage : KernelImage where
  start := 0x818000000
  dataStart := 0x81802c000
  bssEnd := 0x81803c000
  in_ram := by decide
  text_le := by decide
  data_le := by decide
  small := by decide
  below := by decide

def bootMap : KernelMap := ⟨bootExample, .kb16, 0, 0, 0, 0, 0, 0⟩

theorem lowlevelSetup_translates_bootMap :
    ∃ m', bootMap.lowlevelSetup bootImage 1 0 0x2000000 = .ok m' ∧
      (∀ x, x < m'.granule.space →
        translate m'.granule m'.mm.mem m'.ttbr0 x =
          Piece.layAll (fun _ => none) (kernelWindows bootImage
            (bootMap.mm.granule.roundUp 0) 0x2000000 protRwx) x) ∧
      ∀ x, x < m'.granule.space →
        translate m'.granule m'.mm.mem m'.ttbr1 x = none := by
  have hrun : (bootMap.lowlevelSetup bootImage 1 0 0x2000000).toOption.map
      (fun _ => ()) = some () := by
    decide +kernel
  obtain ⟨m', hok, -⟩ := Outcome.ok_of_map hrun
  exact ⟨m', hok, lowlevelSetup_translates (by decide) (by decide) hok⟩

theorem entryMapping_translates_bootMap :
    ∃ m', bootMap.entryMapping bootImage 1 0 0x2000000 = .ok m' ∧
      (∀ x, x < m'.granule.space →
        translate m'.granule m'.mm.mem m'.ttbr0 x =
          Piece.layAll (fun _ => none)
            (kernelWindows bootImage 0 0x2000000 protRw ++
              [window protRw 0x08000000 0x08000000 0x38000000 3 1]) x) ∧
      ∀ x, x < m'.granule.space →
        translate m'.granule m'.mm.mem m'.ttbr1 x = none := by
  have hrun : (bootMap.entryMapping bootImage 1 0 0x2000000).toOption.map
      (fun _ => ()) = some () := by
    decide +kernel
  obtain ⟨m', hok, -⟩ := Outcome.ok_of_map hrun
  exact ⟨m', hok, entryMapping_translates (by decide) (by decide) hok⟩

end KernelMap

end PongoOS
