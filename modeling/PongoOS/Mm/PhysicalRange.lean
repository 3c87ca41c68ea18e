import PongoOS.Mm.Reservation

/-!
# `map_physical_range`

The range is reserved through a local copy of `*va`, which is never written
back: the caller is not told where the range begins.  The pages are counted a
second time in 32 bits, where the size rounded up to pages may wrap to zero.
-/

namespace PongoOS

open RadixTable

namespace Vm

/-- Page `i` of the mapping loop. -/
def mapPhysicalPage (a addr pa : ℕ) (prot : Prot) (i : ℕ) (s : Vm) :
    Outcome Vm :=
  s.vmSpaceMapPagePhysicalProt a ((addr + i * pageSize % 2 ^ 32) % 2 ^ 64)
    ((pa + i * pageSize % 2 ^ 32) % 2 ^ 64) prot

/-- `map_physical_range`, with the value of `*va` after the call. -/
def mapPhysicalRange (a va pa size : ℕ) (flags : VmFlags) (prot : Prot)
    (s : Vm) : Outcome (KernResult × ℕ × Vm) := do
  let (rv, addr, s₁) ← s.vmAllocate a va size { flags with nomap := true }
  if rv ≠ .success then pure (rv, va, s₁)
  else do
    let pagecount := (size + 0x3fff) % 2 ^ 32 / pageSize
    let s₂ ← Outcome.forRange (mapPhysicalPage a addr pa prot) 0 pagecount s₁
    pure (.success, va, s₂)

/-- The tables are sound, and stay so when the pages of the physical range are
mapped and the references to them consumed. -/
structure MapsPhysical (a pa size : ℕ) (prot : Prot) (roots : Set ℕ)
    (J : Mm → Prop) (s : Vm) : Prop where
  tables : Mm.PageTables s.mm.granule (s.pageArgs a 0 noProt) roots J s.mm
  leaf : ∀ i < pagesOf size,
    Mm.LeafEnv s.mm.granule
      (s.pageArgs a ((pa + i * pageSize) % 2 ^ 64) prot) roots J
      (if prot.pagingInfo then 0 else (pa + i * pageSize) % 2 ^ 64)

/-! ## The walk -/

/-- The translation of a virtual address in the upper half. -/
def translation (g : Granule) (root : ℕ) (m : Mm) (va : ℕ) :
    Option Translation :=
  translate g m.mem root (Mm.spaceOffset g true va)

/-- A walk yields addresses of 48 bits. -/
theorem translate_pa_lt {g : Granule} {mem : ℕ → ℕ} {root x : ℕ}
    {t : Translation} (h : translate g mem root x = some t) :
    t.pa < 2 ^ 48 := by
  obtain ⟨u, hu, -⟩ := stops_look g.layout mem root x
  have hle := hu.le_top
  unfold translate at h
  simp only at h
  split at h
  · cases h
    generalize (look g.layout mem root x).1 = k at *
    generalize (look g.layout mem root x).2 = e at *
    have haddr : Tte.oaAddr e < 2 ^ 48 := by
      unfold Tte.oaAddr Tte.oa field
      omega
    obtain ⟨m, hm⟩ : g.layout.blk k ∣ 2 ^ 48 :=
      (g.layout.blk_dvd hle).trans (by cases g <;> decide)
    have hpos := g.layout.blk_pos k
    have hlt : Tte.oaAddr e / g.layout.blk k < m :=
      Nat.div_lt_of_lt_mul (hm ▸ haddr)
    have hmod := Nat.mod_lt x hpos
    -- the block around the output address ends at `2 ^ 48` or before
    calc Tte.oaAddr e / g.layout.blk k * g.layout.blk k + x % g.layout.blk k
        < (Tte.oaAddr e / g.layout.blk k + 1) * g.layout.blk k := by
          rw [Nat.succ_mul]
          omega
      _ ≤ m * g.layout.blk k := Nat.mul_le_mul_right _ hlt
      _ = 2 ^ 48 := by rw [hm, Nat.mul_comm]
  · cases h

/-- Of a page that is mapped to address zero, or that holds paging
information, the first address has no translation. -/
theorem maps_first_none {g : Granule} {c : MapArgs} {roots : Set ℕ}
    {va pa size : ℕ} {s s' : Mm} (h : Mm.Maps g c roots va pa size s s')
    (hsize : 0 < size) (hnone : c.prot.pagingInfo = true ∨ pa = 0) :
    translate g s'.mem c.tt0 va = none := by
  obtain ⟨k, hk, hlow, -, -⟩ := h.inside va le_rfl (by omega)
  have hbase := Nat.le_antisymm (Mm.blockBase_le g k va) hlow
  rw [hbase, Nat.sub_self, Nat.add_zero] at hk
  refine Mm.translate_eq_none hk ?_
  rcases hnone with hpi | rfl
  · exact Mm.leafEntry_not_leaf (.inl hpi) k
  · rintro ⟨hvalid, -⟩
    unfold Mm.leafEntry at hvalid
    split at hvalid
    · exact Mm.pagingInfoWord_not_valid _ hvalid
    · rw [if_neg fun h => h.1 rfl] at hvalid
      exact absurd hvalid (by decide)

/-! ## One page -/

section Page

variable {a pa physical b i k : ℕ} {prot : Prot} {s s' : Vm} {g : Granule}
  {roots : Set ℕ} {J : Mm → Prop}

/-- Mapping page `i` of the managed range. -/
theorem vmSpaceMapPagePhysicalProt_page
    (h : Mm.PageTables g (s.pageArgs a 0 noProt) roots J s.mm)
    (hleaf : Mm.LeafEnv g (s.pageArgs a physical prot) roots J
      (if prot.pagingInfo then 0 else physical))
    (hi : i < 2 ^ 18) (haligned : physical % pageSize = 0)
    (hok : s.vmSpaceMapPagePhysicalProt a (vmSpaceBase + i * pageSize) physical
      prot = .ok s') :
    (s'.space a).ttbr1 = (s.space a).ttbr1 ∧
      Mm.PageTables g (s.pageArgs a 0 noProt) roots J s'.mm ∧
      Mm.Maps g (s.pageArgs a physical prot) roots
        (Mm.spaceOffset g true vmSpaceBase + i * pageSize)
        (if prot.pagingInfo then 0 else physical) 0x4000 s.mm s'.mm := by
  have hspace := (vmSpaceMapPagePhysicalProt_frame hok).1
  refine ⟨by rw [hspace], ?_⟩
  obtain ⟨mm, hmap, hend⟩ :=
    vmSpaceMapPagePhysicalProt_tt1 (managed_tt1 hi) hok
  generalize hp : (if prot.pagingInfo then 0 else physical) = p at *
  have hdvd : 0x4000 ∣ p := by
    rw [← hp]
    split
    · exact dvd_zero _
    · exact Nat.dvd_of_mod_eq_zero haligned
  obtain ⟨hoffset, hfits⟩ := spaceOffset_managed g hi
  rw [h.granule s.mm h.good.inv, ← Mm.mapRangeMap_spaceOffset,
    show (s.pageArgs a physical prot).isTt1 = true from rfl, hoffset] at hmap
  have hlt := Mm.mapRangeMap_lt hmap
  have hadm : Mm.Admissible g
      (Mm.spaceOffset g true (vmSpaceBase + i * pageSize)) p 0x4000 :=
    (page_inSpace g hi).admissible (pgsz_dvd_managed g i)
      ((Mm.pgsz_dvd_page g).trans hdvd) (Mm.pgsz_dvd_page g) (by decide) hlt
  rw [hoffset] at hadm
  have hva : 0x4000 ∣ Mm.spaceOffset g true vmSpaceBase + i * pageSize :=
    Nat.dvd_add (by cases g <;> decide +kernel) (Dvd.intro_left i rfl)
  have hroot := h.env.root
  have htt0 : (s.pageArgs a 0 noProt).tt0 = (s.pageArgs a physical prot).tt0 :=
    rfl
  obtain ⟨hmaps, hgood⟩ := Mm.mapRangeMap_page h.env htt0 rfl hleaf h.good hadm
    hva hmap
  -- what the counters do with the reference consumed
  obtain ⟨hsame, hJ⟩ : SameTables g.layout roots mm.mem s'.mm.mem ∧ J s'.mm := by
    rcases hend with ⟨-, rfl⟩ | ⟨hpi, -, mm', hconsume, rfl⟩
    · exact ⟨SameTables.refl, hgood.inv⟩
    · rw [hpi, if_neg (by decide)] at hp
      obtain ⟨hJ, hsame⟩ := hleaf.consume mm mm' hgood (hp ▸ hconsume)
      exact ⟨hsame, hJ⟩
  have hmaps' := hmaps.of_sameTables hsame hroot
  exact ⟨⟨h.env, h.granule, hgood.of_sameTables hsame hJ,
    hmaps'.pagesOnly hroot h.pagesOnly⟩, hmaps'⟩

theorem translation_managed {root : ℕ} {m : Mm} (hk : k < 2 ^ 33) :
    translation g root m (vmSpaceBase + k) =
      translate g m.mem root (Mm.spaceOffset g true vmSpaceBase + k) := by
  unfold translation
  rw [(Mm.spaceOffset_add (managed_inSpace g) hk).1]

/-- What the walk finds on page `i` of a physical range that was mapped from
page `b` of the managed range on. -/
structure PhysicalPage (g : Granule) (root : ℕ) (c : MapArgs) (b pa i : ℕ)
    (m : Mm) : Prop where
  mapped : c.prot.pagingInfo = false → pa + i * pageSize ≠ 0 →
    pa + (i + 1) * pageSize ≤ 2 ^ 48 → ∀ k < pageSize,
    translation g root m (vmSpaceBase + (b + i) * pageSize + k) =
      some (Mm.requested c (pa + i * pageSize + k))
  first_none : c.prot.pagingInfo = true ∨ pa + i * pageSize = 0 →
    translation g root m (vmSpaceBase + (b + i) * pageSize) = none

/-- A page keeps its translations while another one is mapped. -/
theorem PhysicalPage.frame {root j : ℕ} {c c' : MapArgs} {m m' : Mm} {p : ℕ}
    (h : PhysicalPage g root c b pa i m) (hne : i ≠ j) (hi : b + i < 2 ^ 18)
    (hroot : root ∈ roots) (hc' : c'.tt0 = root)
    (hpages : Mm.PagesOnly g root m)
    (hmaps : Mm.Maps g c' roots
      (Mm.spaceOffset g true vmSpaceBase + (b + j) * pageSize) p 0x4000 m m') :
    PhysicalPage g root c b pa i m' := by
  have hspace := (Mm.spaceOffset_add (managed_inSpace g) (k := 0)
    (by decide)).2
  have hva : g.pgsz ∣ Mm.spaceOffset g true vmSpaceBase + (b + j) * pageSize :=
    Nat.dvd_add (by cases g <;> decide +kernel)
      (Dvd.dvd.mul_left (by cases g <;> decide) _)
  have hframe := (hmaps.frame_iff (hc' ▸ hroot)).mpr
    ((hc' ▸ hpages : Mm.PagesOnly g c'.tt0 m).noBlockCut hva
      (Mm.pgsz_dvd_page g))
  have hsame : ∀ k < pageSize,
      translation g root m' (vmSpaceBase + ((b + i) * pageSize + k)) =
        translation g root m (vmSpaceBase + ((b + i) * pageSize + k)) := by
    intro k hk
    have hlt : (b + i) * pageSize + k < 2 ^ 33 := by
      unfold pageSize at *
      omega
    rw [translation_managed hlt, translation_managed hlt]
    refine hframe root hroot _ (by omega) fun ⟨_, hlow, hhigh⟩ => ?_
    unfold pageSize at *
    omega
  constructor
  · intro hpi hpa hfits k hk
    rw [Nat.add_assoc, hsame k hk, ← Nat.add_assoc]
    exact h.mapped hpi hpa hfits k hk
  · intro hnone
    have := hsame 0 (by decide)
    rw [Nat.add_zero] at this
    rw [this]
    exact h.first_none hnone

/-- One round of the mapping loop. -/
theorem mapPhysicalPage_page
    (h : Mm.PageTables g (s.pageArgs a 0 noProt) roots J s.mm)
    (hleaf : Mm.LeafEnv g
      (s.pageArgs a ((pa + i * pageSize) % 2 ^ 64) prot) roots J
      (if prot.pagingInfo then 0 else (pa + i * pageSize) % 2 ^ 64))
    (hi : b + i < 2 ^ 18) (haligned : pa % pageSize = 0)
    (hread : prot.read = true)
    (hok : mapPhysicalPage a (vmSpaceBase + b * pageSize) pa prot i s
      = .ok s') :
    (s'.space a).ttbr1 = (s.space a).ttbr1 ∧
      Mm.PageTables g (s.pageArgs a 0 noProt) roots J s'.mm ∧
      PhysicalPage g (s.space a).ttbr1 (s.pageArgs a 0 prot) b pa i s'.mm ∧
      ∀ j ≠ i, b + j < 2 ^ 18 →
        PhysicalPage g (s.space a).ttbr1 (s.pageArgs a 0 prot) b pa j s.mm →
        PhysicalPage g (s.space a).ttbr1 (s.pageArgs a 0 prot) b pa j
          s'.mm := by
  have hmod : i * pageSize % 2 ^ 32 = i * pageSize := managed_mod (by omega)
  have haddr : (vmSpaceBase + b * pageSize + i * pageSize) % 2 ^ 64 =
      vmSpaceBase + (b + i) * pageSize := by
    unfold vmSpaceBase pageSize
    omega
  unfold mapPhysicalPage at hok
  rw [hmod, haddr] at hok
  have hphysical : (pa + i * pageSize) % 2 ^ 64 % pageSize = 0 := by
    unfold pageSize at *
    omega
  obtain ⟨hroot, htables, hmaps⟩ :=
    vmSpaceMapPagePhysicalProt_page h hleaf hi hphysical hok
  refine ⟨hroot, htables, ⟨fun hpi hpa hfits k hk => ?_, fun hnone => ?_⟩,
    fun j hj hlt hpage => hpage.frame hj hlt h.env.root rfl h.pagesOnly hmaps⟩
  · have hpi' : prot.pagingInfo = false := hpi
    have hp : (pa + i * pageSize) % 2 ^ 64 = pa + i * pageSize :=
      Nat.mod_eq_of_lt (by unfold pageSize at *; omega)
    rw [hpi', if_neg (by decide), hp] at hmaps
    rw [Nat.add_assoc, translation_managed (by unfold pageSize at *; omega),
      ← Nat.add_assoc]
    exact hmaps.translate_inside h.env.root htables.good hpa
      (by unfold pageSize at *; omega) hread hpi' hk
  · rw [translation_managed (by unfold pageSize at *; omega)]
    refine maps_first_none hmaps (by decide) ?_
    rcases hnone with hpi | hzero
    · exact .inl hpi
    · right
      rw [hzero, Nat.zero_mod, ite_self]

/-- The mapping loop. -/
theorem mapPhysicalPages {n : ℕ}
    (h : Mm.PageTables g (s.pageArgs a 0 noProt) roots J s.mm)
    (hleaf : ∀ i < n, Mm.LeafEnv g
      (s.pageArgs a ((pa + i * pageSize) % 2 ^ 64) prot) roots J
      (if prot.pagingInfo then 0 else (pa + i * pageSize) % 2 ^ 64))
    (hn : b + n ≤ 2 ^ 18) (haligned : pa % pageSize = 0)
    (hread : prot.read = true)
    (hrun : Outcome.forRange
      (mapPhysicalPage a (vmSpaceBase + b * pageSize) pa prot) 0 n s
        = .ok s') :
    ∀ i < n, PhysicalPage g (s.space a).ttbr1 (s.pageArgs a 0 prot) b pa i
      s'.mm := by
  have hloop := Outcome.forRange_invariant
    (P := fun k s₁ => (s₁.space a).ttbr1 = (s.space a).ttbr1 ∧
      Mm.PageTables g (s.pageArgs a 0 noProt) roots J s₁.mm ∧
      ∀ i < k, PhysicalPage g (s.space a).ttbr1 (s.pageArgs a 0 prot) b pa i
        s₁.mm)
    ?_ ⟨rfl, h, fun i hi => absurd hi (Nat.not_lt_zero i)⟩ hrun
  · rw [Nat.zero_add] at hloop
    exact hloop.2.2
  rintro k s₁ s₂ - hk ⟨hroot, htables, hpages⟩ hround
  rw [Nat.zero_add] at hk
  have hargs : ∀ p prot, s₁.pageArgs a p prot = s.pageArgs a p prot :=
    fun p prot => pageArgs_congr hroot
  rw [← hargs] at htables
  have hleaf' := hleaf k hk
  rw [← hargs] at hleaf'
  obtain ⟨hroot', htables', hpage, hothers⟩ := mapPhysicalPage_page htables
    hleaf' (by omega) haligned hread hround
  rw [hargs, hroot] at hpage
  simp only [hargs, hroot] at hothers
  rw [hargs] at htables'
  refine ⟨hroot'.trans hroot, htables', fun i hi => ?_⟩
  rcases Nat.eq_or_lt_of_le (Nat.le_of_lt_succ hi) with rfl | hlt
  · exact hpage
  · exact hothers i hlt.ne (by omega) (hpages i hlt)

theorem mapPhysicalPages_space {addr n : ℕ}
    (hrun : Outcome.forRange (mapPhysicalPage a addr pa prot) 0 n s = .ok s') :
    s'.space = s.space :=
  Outcome.forRange_preserves (P := fun s₁ => s₁.space = s.space)
    (fun _ _ _ _ _ h hround =>
      (vmSpaceMapPagePhysicalProt_frame hround).1.trans h) rfl hrun

end Page

/-! ## The call -/

/-- Every page of the range at `va` is translated to the page of the physical
range, with the protection `prot`. -/
def RangeMapped (a va pa size : ℕ) (prot : Prot) (s : Vm) (m : Mm) : Prop :=
  ∀ i < pagesOf size, ∀ k < pageSize,
    translation s.mm.granule (s.space a).ttbr1 m (va + i * pageSize + k) =
      some (Mm.requested (s.pageArgs a 0 prot) (pa + i * pageSize + k))

/-- What a call is for. -/
structure PhysicalSpec (a pa size : ℕ) (prot : Prot) (s : Vm)
    (r : KernResult) (va' : ℕ) (s' : Vm) : Prop where
  reserved : r = .success → ∃ b, va' = vmSpaceBase + b * pageSize ∧
    FreeRun (s.space a).vmSpaceTable (pagesOf size) b ∧
    ∀ i, (s'.space a).vmSpaceTable i = true ↔
      (s.space a).vmSpaceTable i = true ∨ b ≤ i ∧ i < b + pagesOf size
  mapped : r = .success → RangeMapped a va' pa size prot s s'.mm
  unchanged : r ≠ .success → s' = s

/-- There is no room for the range, or `*va` happens to be the address that
will be chosen, and the pages can be mapped as asked for, or are so already and
the page count wraps to zero. -/
def PhysicalServed (a va pa size : ℕ) (prot : Prot) (s : Vm) : Prop :=
  (∀ b, ¬ FreeRun (s.space a).vmSpaceTable (pagesOf size) b) ∨
    ∃ b, FirstRun (s.space a).vmSpaceTable (pagesOf size) b ∧
      va = vmSpaceBase + b * pageSize ∧
      (size + 0x3fff < 2 ^ 32 ∧ prot.pagingInfo = false ∧ pa ≠ 0 ∧
          pa + pagesOf size * pageSize ≤ 2 ^ 48 ∨
        2 ^ 32 ≤ size + 0x3fff ∧ RangeMapped a va pa size prot s s.mm)

section Call

variable {a va va' pa size : ℕ} {flags : VmFlags} {prot : Prot} {s s' : Vm}
  {roots : Set ℕ} {J : Mm → Prop} {r : KernResult}

/-- How a call ends. -/
theorem mapPhysicalRange_cases (hsize : 0 < size) (hlt : size < 2 ^ 32)
    (hflags : flags.fixed = false)
    (hrun : mapPhysicalRange a va pa size flags prot s = .ok (r, va', s')) :
    (∀ b, ¬ FreeRun (s.space a).vmSpaceTable (pagesOf size) b) ∧
        r = .vmOom ∧ s' = s ∨
      ∃ b s₁, FirstRun (s.space a).vmSpaceTable (pagesOf size) b ∧
        r = .success ∧ va' = va ∧ s₁.mm = s.mm ∧
        (s₁.space a).ttbr1 = (s.space a).ttbr1 ∧
        (∀ i, (s'.space a).vmSpaceTable i = true ↔
          (s.space a).vmSpaceTable i = true ∨ b ≤ i ∧ i < b + pagesOf size) ∧
        Outcome.forRange
          (mapPhysicalPage a (vmSpaceBase + b * pageSize) pa prot) 0
          ((size + 0x3fff) % 2 ^ 32 / pageSize) s₁ = .ok s' := by
  have hcount : pagesOf size % 2 ^ 32 = pagesOf size := by
    unfold pagesOf pageSize
    omega
  have hpos : pagesOf size ≠ 0 := by
    unfold pagesOf pageSize
    omega
  unfold mapPhysicalRange at hrun
  obtain ⟨⟨rv, addr, s₁⟩, hcall, hrest⟩ := Outcome.bind_eq_ok.mp hrun
  have hcases := vmAllocate_any_cases
    (show ({ flags with nomap := true } : VmFlags).fixed = false from hflags)
    hcall
  rw [hcount] at hcases
  rcases hcases with ⟨hzero, -⟩ | ⟨-, hnone, rfl, rfl⟩ |
    ⟨-, b, hfirst, rfl, rfl, htable, hnomap⟩
  · exact absurd hzero hpos
  · cases hrest
    exact .inl ⟨hnone, rfl, rfl⟩
  · obtain ⟨s₂, hpages, hend⟩ := Outcome.bind_eq_ok.mp hrest
    cases hend
    refine .inr ⟨b, s₁, hfirst, rfl, rfl, (hnomap rfl).1, (hnomap rfl).2,
      fun i => ?_, hpages⟩
    rw [mapPhysicalPages_space hpages, htable]
    split
    · rename_i hi
      exact ⟨fun _ => .inr hi, fun _ => rfl⟩
    · rename_i hi
      exact ⟨.inl, fun h => h.resolve_right hi⟩

/-- The range that a successful call reserves is the one it returns, only if
`*va` was its address. -/
theorem PhysicalSpec.base_eq {b b' : ℕ} (hsize : 0 < size)
    (hfree : FreeRun (s.space a).vmSpaceTable (pagesOf size) b)
    (hfree' : FreeRun (s.space a).vmSpaceTable (pagesOf size) b')
    (htable : ∀ i, (s'.space a).vmSpaceTable i = true ↔
      (s.space a).vmSpaceTable i = true ∨ b ≤ i ∧ i < b + pagesOf size)
    (htable' : ∀ i, (s'.space a).vmSpaceTable i = true ↔
      (s.space a).vmSpaceTable i = true ∨ b' ≤ i ∧ i < b' + pagesOf size) :
    b = b' := by
  have hpos : 0 < pagesOf size := by
    unfold pagesOf pageSize
    omega
  have hiff : ∀ i, (s.space a).vmSpaceTable i = false →
      (b ≤ i ∧ i < b + pagesOf size ↔ b' ≤ i ∧ i < b' + pagesOf size) := by
    intro i hi
    have h := (htable i).symm.trans (htable' i)
    rwa [hi, or_iff_right (by decide), or_iff_right (by decide)] at h
  have hb := (hiff b (hfree.2 b le_rfl (by omega))).mp ⟨le_rfl, by omega⟩
  have hb' := (hiff b' (hfree'.2 b' le_rfl (by omega))).mpr
    ⟨le_rfl, by omega⟩
  omega

/-- After the mapping loop the range is mapped as asked for exactly if its
physical pages can be, and the page count has not wrapped, or it was so
before. -/
theorem rangeMapped_iff {b : ℕ} {s₁ : Vm} (hpa : pa % pageSize = 0)
    (hsize : 0 < size) (hlt : size < 2 ^ 32) (hread : prot.read = true)
    (henv : MapsPhysical a pa size prot roots J s)
    (hfree : FreeRun (s.space a).vmSpaceTable (pagesOf size) b)
    (hmm : s₁.mm = s.mm) (hroot : (s₁.space a).ttbr1 = (s.space a).ttbr1)
    (hpages : Outcome.forRange
      (mapPhysicalPage a (vmSpaceBase + b * pageSize) pa prot) 0
      ((size + 0x3fff) % 2 ^ 32 / pageSize) s₁ = .ok s') :
    RangeMapped a (vmSpaceBase + b * pageSize) pa size prot s s'.mm ↔
      (size + 0x3fff < 2 ^ 32 ∧ prot.pagingInfo = false ∧ pa ≠ 0 ∧
          pa + pagesOf size * pageSize ≤ 2 ^ 48 ∨
        2 ^ 32 ≤ size + 0x3fff ∧
          RangeMapped a (vmSpaceBase + b * pageSize) pa size prot s s.mm) := by
  by_cases hwrap : 2 ^ 32 ≤ size + 0x3fff
  · -- no page is mapped
    have hzero : (size + 0x3fff) % 2 ^ 32 / pageSize = 0 := by
      unfold pageSize
      omega
    rw [hzero] at hpages
    cases hpages
    rw [hmm]
    exact ⟨fun h => .inr ⟨hwrap, h⟩,
      fun h => h.elim (fun h => absurd h.1 (by omega)) And.right⟩
  have hcount : (size + 0x3fff) % 2 ^ 32 / pageSize = pagesOf size := by
    unfold pagesOf
    rw [Nat.mod_eq_of_lt (by omega)]
  have hpos : 0 < pagesOf size := by
    unfold pagesOf pageSize
    omega
  rw [hcount] at hpages
  have hargs : ∀ p prot, s₁.pageArgs a p prot = s.pageArgs a p prot :=
    fun p prot => pageArgs_congr hroot
  have htables := henv.tables
  have hleaf := henv.leaf
  rw [← hmm, ← hargs] at htables
  simp only [← hargs] at hleaf
  have hmapped := mapPhysicalPages (by rw [hmm] at htables ⊢; exact htables)
    hleaf hfree.small hpa hread hpages
  rw [hargs, hroot] at hmapped
  have hsplit : ∀ i k, vmSpaceBase + b * pageSize + i * pageSize + k =
      vmSpaceBase + (b + i) * pageSize + k := by
    intro i k
    rw [Nat.add_mul]
    omega
  constructor
  · intro h
    have hfirst := h 0 hpos 0 (by decide)
    have hlast := h (pagesOf size - 1) (by omega) (pageSize - 1) (by decide)
    have hbound := translate_pa_lt hlast
    refine .inl ⟨by omega, ?_, ?_, ?_⟩
    · by_contra hpi
      have hpi' : prot.pagingInfo = true := by simpa using hpi
      have hnone := (hmapped 0 hpos).first_none (.inl hpi')
      rw [hsplit, Nat.add_zero, hnone] at hfirst
      cases hfirst
    · rintro rfl
      have hnone := (hmapped 0 hpos).first_none (.inr (by decide))
      rw [hsplit, Nat.add_zero, hnone] at hfirst
      cases hfirst
    · have hpa' : pa + (pagesOf size - 1) * pageSize + (pageSize - 1) <
          2 ^ 48 := hbound
      obtain ⟨n, hn⟩ := Nat.exists_eq_succ_of_ne_zero hpos.ne'
      rw [hn] at hpa' ⊢
      unfold pageSize at *
      omega
  · rintro (⟨-, hpi, hne, hfits⟩ | ⟨hge, -⟩)
    · intro i hi k hk
      rw [hsplit]
      refine (hmapped i hi).mapped hpi (by omega) ?_ k hk
      have hle := Nat.mul_le_mul_right pageSize (Nat.succ_le_of_lt hi)
      exact (Nat.add_le_add_left hle pa).trans hfits
    · exact absurd hge hwrap

/-- A call that returns does what it is for exactly where `PhysicalServed`
holds. -/
theorem mapPhysicalRange_iff (hpa : pa % pageSize = 0) (hsize : 0 < size)
    (hlt : size < 2 ^ 32) (hflags : flags.fixed = false)
    (hread : prot.read = true) (henv : MapsPhysical a pa size prot roots J s)
    (hrun : mapPhysicalRange a va pa size flags prot s = .ok (r, va', s')) :
    PhysicalSpec a pa size prot s r va' s' ↔
      PhysicalServed a va pa size prot s := by
  rcases mapPhysicalRange_cases hsize hlt hflags hrun with
    ⟨hnone, rfl, rfl⟩ |
    ⟨b, s₁, hfirst, rfl, rfl, hmm, hroot, htable, hpages⟩
  · exact ⟨fun _ => .inl hnone, fun _ => ⟨nofun, nofun, fun _ => rfl⟩⟩
  have hmapped := rangeMapped_iff hpa hsize hlt hread henv hfirst.1 hmm hroot
    hpages
  constructor
  · intro h
    obtain ⟨b', rfl, hfree', htable'⟩ := h.reserved rfl
    obtain rfl := PhysicalSpec.base_eq hsize hfirst.1 hfree' htable htable'
    exact .inr ⟨b, hfirst, rfl, hmapped.mp (h.mapped rfl)⟩
  · rintro (hnone | ⟨b', hfirst', rfl, hpages'⟩)
    · exact absurd hfirst.1 (hnone b)
    · obtain rfl := hfirst.unique hfirst'
      exact ⟨fun _ => ⟨b, rfl, hfirst.1, htable⟩,
        fun _ => hmapped.mpr hpages', fun h => absurd rfl h⟩

end Call

end Vm

end PongoOS
