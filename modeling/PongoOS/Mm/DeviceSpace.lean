import PongoOS.Mm.PhysicalRange
import PongoOS.Support.SinglyLinked

/-!
# Spaces that map devices

Addresses below RAM are not counted.  In a space whose leaves all point there,
and while new tables come from `ttb_freelist`, the entries of the tables can be
written without any effect on the rest of the machine.
-/

namespace PongoOS

open RadixTable SinglyLinked

namespace Mm

/-- The pages at `l` in the cacheable view wait on `ttb_freelist`.  None of them is
a table. -/
structure Recycled (g : Granule) (roots : Set ℕ) (l : List ℕ) (s : Mm) : Prop where
  path : Path (fun a => s.mem (staticToPhys a)) 0 s.ttbFreelist l
  inView : ∀ a ∈ l, kCacheableView ≤ a ∧ a < kCacheableView + 0x100000000
  aligned : ∀ a ∈ l, 8 * g.layout.fan ∣ staticToPhys a
  unused : ∀ a ∈ l, ¬ IsTable g.layout s.mem roots (staticToPhys a)

/-- New tables are recycled ones, and every leaf points below RAM, which begins at
`base`. -/
structure DeviceOnly (g : Granule) (roots : Set ℕ) (base : ℕ) (s : Mm) :
    Prop where
  granule : s.granule = g
  ram : s.boot.physBase = base
  recycled : ∃ l, s.Recycled g roots l
  initialised : s.allocStaticBase ≠ 0
  noFreePage : s.paHead = 0
  device : ∀ r ∈ roots, ∀ x k e, x < g.space →
    look g.layout s.mem r x = (k, e) → IsLeaf k e →
    pageFloor (Tte.oaAddr e) < base

/-! ## Recycled tables -/

section Recycled

variable {g : Granule} {roots : Set ℕ} {base a t u i : ℕ} {l : List ℕ} {s s' : Mm}

theorem staticToPhys_inj {a b : ℕ} (ha : kCacheableView ≤ a)
    (hb : kCacheableView ≤ b) (h : staticToPhys a = staticToPhys b) : a = b := by
  unfold staticToPhys at h
  omega

theorem staticToPhys_lt (h : a < kCacheableView + 0x100000000) :
    staticToPhys a < 2 ^ 48 := by
  unfold staticToPhys
  omega

/-- The words of an aligned table are not in another one. -/
theorem table_apart (ht : 8 * g.layout.fan ∣ t) (hu : 8 * g.layout.fan ∣ u)
    (hne : u ≠ t) (hi : i < g.layout.fan) :
    u + 8 * i < t ∨ t + 8 * g.layout.fan ≤ u + 8 * i := by
  obtain ⟨a, rfl⟩ := ht
  obtain ⟨b, rfl⟩ := hu
  rcases Nat.lt_trichotomy b a with hlt | rfl | hlt
  · have hle := Nat.mul_le_mul_left (8 * g.layout.fan) (Nat.succ_le_of_lt hlt)
    rw [Nat.mul_succ] at hle
    exact .inl (by omega)
  · exact absurd rfl hne
  · have hle := Nat.mul_le_mul_left (8 * g.layout.fan) (Nat.succ_le_of_lt hlt)
    rw [Nat.mul_succ] at hle
    exact .inr (by omega)

/-- Whoever leaves the pages alone and takes none of them for a table leaves the
list as it is. -/
theorem Recycled.keep (h : Recycled g roots l s)
    (hlist : s'.ttbFreelist = s.ttbFreelist)
    (hmem : ∀ a ∈ l, s'.mem (staticToPhys a) = s.mem (staticToPhys a))
    (hunused : ∀ a ∈ l, IsTable g.layout s'.mem roots (staticToPhys a) →
      IsTable g.layout s.mem roots (staticToPhys a)) : Recycled g roots l s' :=
  ⟨hlist ▸ h.path.congr hmem, h.inView, h.aligned,
    fun a ha htable => h.unused a ha (hunused a ha htable)⟩

/-- A store to a table does not meet the list. -/
theorem Recycled.store_mem (h : Recycled g roots l s) {k x v : ℕ}
    (haligned : 8 * g.layout.fan ∣ u) (hu : ∀ a ∈ l, u ≠ staticToPhys a)
    (ha : a ∈ l) :
    (s.store (g.layout.slot k u x) v).mem (staticToPhys a) =
      s.mem (staticToPhys a) := by
  apply store_mem_of_ne
  have happart := table_apart (h.aligned a ha) haligned (hu a ha)
    (g.layout.idx_lt k x)
  have hfan := g.layout.fan_pos
  unfold Layout.slot
  omega

/-- What taking a page from the list leaves alone. -/
theorem pop_fields (s : Mm) (next page len : ℕ) :
    ((s.setTtbFreelist next).bzero page len).granule = s.granule ∧
      ((s.setTtbFreelist next).bzero page len).boot = s.boot ∧
      ((s.setTtbFreelist next).bzero page len).allocStaticBase = s.allocStaticBase ∧
      ((s.setTtbFreelist next).bzero page len).paHead = s.paHead :=
  ⟨rfl, rfl, rfl, rfl⟩

/-- A table that is allocated comes from the list. -/
theorem DeviceOnly.alloc (h : DeviceOnly g roots base s)
    (hok : ttbpageAlloc s = .ok (t, s')) :
    ∃ a l, s.Recycled g roots (a :: l) ∧ t = staticToPhys a ∧
      s' = (s.setTtbFreelist (s.mem t)).bzero t g.pgsz := by
  obtain ⟨l, hl⟩ := h.recycled
  unfold ttbpageAlloc at hok
  cases l with
  | nil =>
      unfold ppageAlloc at hok
      have hempty : s.ttbFreelist = 0 := hl.path
      rw [if_neg (not_not.mpr hempty), if_neg h.initialised] at hok
      simp only [Outcome.bind_eq_ok, Outcome.pure_eq_ok] at hok
      obtain ⟨_, ⟨s₀, rfl, hpage⟩, -⟩ := hok
      rw [if_neg (not_not.mpr h.noFreePage)] at hpage
      cases hpage
  | cons a l =>
      obtain ⟨hhead, hne, -⟩ := hl.path
      rw [if_pos (hhead ▸ hne)] at hok
      obtain ⟨page, hview, hend⟩ := Outcome.bind_eq_ok.mp hok
      obtain ⟨-, rfl⟩ := vatophysStatic_ok.mp hview
      rw [hhead, h.granule] at hend
      cases hend
      exact ⟨a, l, hl, rfl, rfl⟩

/-- Clearing the page of a table that is allocated leaves the others alone. -/
theorem Recycled.pop (h : s.Recycled g roots (a :: l)) (haligned : ∀ u,
      IsTable g.layout s.mem roots u → 8 * g.layout.fan ∣ u)
    (hs' : s' = (s.setTtbFreelist (s.mem (staticToPhys a))).bzero (staticToPhys a)
      g.pgsz) :
    SameTables g.layout roots s.mem s'.mem ∧ s'.Recycled g roots l ∧
      ∀ b ∈ l, staticToPhys b ≠ staticToPhys a := by
  have hsize := g.table_size
  have ha := List.mem_cons_self (a := a) (l := l)
  have hapart : ∀ {u}, 8 * g.layout.fan ∣ u → u ≠ staticToPhys a →
      ∀ i < g.layout.fan, s'.mem (u + 8 * i) = s.mem (u + 8 * i) := by
    intro u hu hne i hi
    have hout := table_apart (h.aligned a ha) hu hne hi
    rw [hs', bzero_mem_of_notMem _ (by omega), setTtbFreelist_mem]
  have hsame : SameTables g.layout roots s.mem s'.mem := by
    intro u hu i hi
    refine hapart (haligned u hu) ?_ i hi
    rintro rfl
    exact h.unused a ha hu
  have hne : ∀ b ∈ l, staticToPhys b ≠ staticToPhys a := by
    intro b hb heq
    have hab : b = a := staticToPhys_inj (h.inView b (List.mem_cons_of_mem _ hb)).1
      (h.inView a ha).1 heq
    exact (List.nodup_cons.mp h.path.nodup).1 (hab ▸ hb)
  obtain ⟨hhead, -, hrest⟩ := h.path
  refine ⟨hsame, ⟨?_, fun b hb => h.inView b (List.mem_cons_of_mem _ hb),
    fun b hb => h.aligned b (List.mem_cons_of_mem _ hb), ?_⟩, hne⟩
  · have hlist : s'.ttbFreelist = s.mem (staticToPhys a) := by
      rw [hs']
      rfl
    rw [hlist]
    exact hrest.congr fun b hb => hapart
      (h.aligned b (List.mem_cons_of_mem _ hb)) (hne b hb) 0 g.layout.fan_pos
  · intro b hb htable
    exact h.unused b (List.mem_cons_of_mem _ hb) (hsame.isTable.mp htable)

/-- Recycled tables are fresh ones. -/
theorem DeviceOnly.fresh :
    FreshTables ttbpageAlloc g roots (DeviceOnly g roots base) := by
  intro s t s₁ hgood halloc
  obtain ⟨a, l, hl, ht, hs₁⟩ := hgood.inv.alloc halloc
  have hsize := g.table_size
  have haligned := hl.aligned a List.mem_cons_self
  have hunused := hl.unused a List.mem_cons_self
  have hlt := staticToPhys_lt (hl.inView a List.mem_cons_self).2
  rw [← ht] at haligned hunused hlt
  obtain ⟨hsame, -, -⟩ := hl.pop hgood.forest.aligned (ht ▸ hs₁)
  refine ⟨hsame, ⟨haligned, ?_, ?_, g.child_zero⟩, hlt⟩
  · exact fun htable => hunused (hsame.isTable.mp htable)
  · intro i hi
    rw [hs₁]
    exact bzero_mem_of_mem _ (by omega)

end Recycled

section Device

variable {g : Granule} {c : MapArgs} {roots : Set ℕ} {base k va pa tt : ℕ}
  {s s' : Mm}

/-- Linking in a recycled table keeps the space one that maps devices. -/
theorem DeviceOnly.split (hroot : c.tt0 ∈ roots) (hva : va < g.space)
    (hgood : Good g roots (DeviceOnly g roots base) s)
    (hstep : SplitStep ttbpageAlloc g c k va s s') :
    DeviceOnly g roots base s' := by
  have hx : va < g.layout.space := g.space_eq ▸ hva
  have hdevice : ∀ r ∈ roots, ∀ x j e, x < g.space →
      look g.layout s'.mem r x = (j, e) → IsLeaf j e →
      pageFloor (Tte.oaAddr e) < base := by
    intro r hr x j e hy hlook hleaf
    by_cases hblock : r = c.tt0 ∧
        x / g.layout.blk (k + 1) = va / g.layout.blk (k + 1)
    · obtain ⟨rfl, hdiv⟩ := hblock
      obtain ⟨hstops, -⟩ := hstep.stops hroot DeviceOnly.fresh hva hgood hy hdiv
      rw [stops_iff.mp hstops] at hlook
      obtain ⟨rfl, rfl⟩ := Prod.mk.inj hlook
      exact absurd hleaf (not_isLeaf_zero k)
    · rw [(hstep.path hroot DeviceOnly.fresh hva hgood hr hy hblock).1] at hlook
      exact hgood.inv.device r hr x j e hy hlook hleaf
  obtain ⟨tt, t, s₁, halloc, hsame, hnew, htt, -, hchild, rfl⟩ :=
    hstep.unfold DeviceOnly.fresh hgood
  obtain ⟨a, l, hl, rfl, hs₁⟩ := hgood.inv.alloc halloc
  obtain ⟨-, hrest, hne⟩ := hl.pop hgood.forest.aligned hs₁
  have htable : IsTable g.layout s.mem roots tt := ⟨c.tt0, hroot, va, k + 1, hx, htt⟩
  have h := hgood.inv
  obtain ⟨hgranule, hboot, hstatic, hhead⟩ :=
    pop_fields s (s.mem (staticToPhys a)) (staticToPhys a) g.pgsz
  rw [← hs₁] at hgranule hboot hstatic hhead
  refine ⟨hgranule.trans h.granule, (congrArg BootArgs.physBase hboot).trans h.ram,
    ⟨l, ?_⟩,
    fun hzero => h.initialised (hstatic.symm.trans hzero), hhead.trans h.noFreePage,
    hdevice⟩
  refine hrest.keep rfl (fun b hb => hrest.store_mem (hgood.forest.aligned tt htable)
    (fun b hb heq => ?_) hb) fun b hb hlinked => ?_
  · exact hl.unused b (List.mem_cons_of_mem _ hb) (heq ▸ htable)
  · obtain ⟨r, hr, x, j, hy, hu⟩ := hlinked
    rcases (hsame.forest hgood.forest).tableOn_of_link hroot hx
      ((hsame.tableOn hroot hx).mpr htt) hchild hnew hr hy hu with
      hold | ⟨-, -, heq, -⟩
    · exact ⟨r, hr, x, j, hy, hold⟩
    · exact absurd heq (hne b hb)

theorem isLeaf_child {e : ℕ} (h : IsLeaf k e) :
    k = 0 ∨ g.layout.child e = none := by
  by_cases hk : k = 0
  · exact .inl hk
  · exact .inr (child_eq_none fun hlink => hk (h.2.mp hlink.2))

/-- A leaf step of a space that maps devices is a store. -/
theorem DeviceOnly.leafStep (h : DeviceOnly g roots base s) (hroot : c.tt0 ∈ roots)
    (hva : va < g.space)
    (hentry : IsLeaf k (leafEntry g c k pa) →
      pageFloor (Tte.oaAddr (leafEntry g c k pa)) < base)
    (hstep : LeafStep g c k va pa tt s s') :
    s' = s.store (g.layout.slot k tt va) (leafEntry g c k pa) := by
  obtain ⟨s₁, hs₁, hend⟩ := mapBlock_ok hstep.run
  have hsame : s₁ = s := by
    rcases hs₁ with rfl | ⟨-, hpi, hpa, hread, hreference⟩
    · rfl
    · have hleaf : IsLeaf k (leafEntry g c k pa) := by
        unfold leafEntry
        rw [hpi, if_neg (by decide), if_pos ⟨hpa, hread⟩]
        obtain ⟨hvalid, htable, -⟩ :=
          leafWord_fields c (g.layout.blk k = g.pgsz) pa
        refine ⟨hvalid, htable.trans ?_⟩
        rw [decide_eq_true_iff, g.blk_eq_pgsz_iff]
      rw [physReference_ignored (.inr (h.ram ▸ hentry hleaf))] at hreference
      exact (Except.ok.inj hreference).symm
  rw [hsame] at hend
  rcases hend with ⟨rfl, -⟩ | ⟨hold, -, hdereference⟩
  · rfl
  · have hlook : look g.layout s.mem c.tt0 va =
        (k, s.mem (g.layout.slot k tt va)) :=
      stops_iff.mp ⟨tt, hstep.table, rfl, isLeaf_child hold⟩
    have hbelow := h.device c.tt0 hroot va k _ hva hlook hold
    have hignored : ∀ size, physDereference
        (pageFloor (Tte.oaAddr (s.mem (g.layout.slot k tt va)))) size
        (s.store (g.layout.slot k tt va) (leafEntry g c k pa)) =
          .ok (s.store (g.layout.slot k tt va) (leafEntry g c k pa)) :=
      fun _ => physDereference_ignored (.inr (h.ram ▸ hbelow))
    rw [hignored] at hdereference
    exact (Except.ok.inj hdereference).symm

/-- Such a step keeps the space one that maps devices. -/
theorem DeviceOnly.leaf (hgood : Good g roots (DeviceOnly g roots base) s)
    (hroot : c.tt0 ∈ roots) (hva : va < g.space)
    (hentry : IsLeaf k (leafEntry g c k pa) →
      pageFloor (Tte.oaAddr (leafEntry g c k pa)) < base)
    (hstep : LeafStep g c k va pa tt s s') :
    DeviceOnly g roots base s' ∧ SameTables g.layout roots
      (Function.update s.mem (g.layout.slot k tt va) (leafEntry g c k pa))
      s'.mem := by
  have h := hgood.inv
  have hstore := h.leafStep hroot hva hentry hstep
  have hsame : SameTables g.layout roots
      (Function.update s.mem (g.layout.slot k tt va) (leafEntry g c k pa))
      s'.mem := by
    rw [hstore]
    exact SameTables.refl
  refine ⟨?_, hsame⟩
  have hdevice : ∀ r ∈ roots, ∀ x j e, x < g.space →
      look g.layout s'.mem r x = (j, e) → IsLeaf j e →
      pageFloor (Tte.oaAddr e) < base := by
    intro r hr x j e hx hlook hleaf
    by_cases hblock : r = c.tt0 ∧ x / g.layout.blk k = va / g.layout.blk k
    · obtain ⟨rfl, hdiv⟩ := hblock
      have hnew := stops_iff.mp
        (hstep.stops_of hroot hva hgood hsame hx hdiv)
      rw [hlook] at hnew
      obtain ⟨rfl, rfl⟩ := Prod.mk.inj hnew
      exact hentry hleaf
    · rw [(hstep.path_of hroot hva hgood hsame hr hx hblock).1] at hlook
      exact h.device r hr x j e hx hlook hleaf
  subst hstore
  obtain ⟨l, hl⟩ := h.recycled
  have hx : va < g.layout.space := g.space_eq ▸ hva
  have htable : IsTable g.layout s.mem roots tt :=
    ⟨c.tt0, hroot, va, k, hx, hstep.table⟩
  refine ⟨h.granule, h.ram, ⟨l, ?_⟩, h.initialised, h.noFreePage, hdevice⟩
  refine hl.keep rfl (fun b hb => hl.store_mem (hgood.forest.aligned tt htable)
    (fun b hb heq => hl.unused b hb (heq ▸ htable)) hb) fun b hb hstored => ?_
  obtain ⟨r, hr, x, j, hy, hu⟩ := hstored
  exact ⟨r, hr, x, j, hy, hgood.forest.tableOn_of_leaf hroot hx hstep.table
    (leafEntry_stops g c k pa) hr hy hu⟩

theorem leafEntry_oaAddr_le (h : IsLeaf k (leafEntry g c k pa)) :
    Tte.oaAddr (leafEntry g c k pa) ≤ pa := by
  have hvalid := h.1
  unfold leafEntry at hvalid ⊢
  split at hvalid
  · exact absurd hvalid (pagingInfoWord_not_valid _)
  rename_i hpi
  rw [if_neg hpi]
  split
  · unfold Tte.oaAddr
    rw [(leafWord_fields c _ pa).2.2.2.2.2.2.2.2.1]
    omega
  · exact Nat.zero_le _

/-- Unmapping in a space that maps devices. -/
theorem deviceOnly_env (hroot : c.tt0 ∈ roots) (hover : c.overwrite = true)
    (hread : c.prot.read = false) :
    MapEnv ttbpageAlloc g c roots (DeviceOnly g roots base) where
  root := hroot
  overwrite := hover
  fresh := DeviceOnly.fresh
  split := fun _ _ _ _ hva hgood hstep => DeviceOnly.split hroot hva hgood hstep
  leaf := fun k _ _ _ _ _ hva hgood hstep =>
    (DeviceOnly.leaf hgood hroot hva
      (fun h => absurd h (leafEntry_not_leaf (.inr hread) k)) hstep).1
  counters := fun _ k _ _ _ _ _ hva hgood hstep =>
    (DeviceOnly.leaf hgood hroot hva
      (fun h => absurd h (leafEntry_not_leaf (.inr hread) k)) hstep).2

/-- Mapping a page below RAM. -/
theorem deviceOnly_leafEnv {p : ℕ} (hroot : c.tt0 ∈ roots)
    (hpage : p + 0x4000 ≤ base) :
    LeafEnv g c roots (DeviceOnly g roots base) p := by
  constructor
  · intro va pa tt s s' hva hlow hhigh hgood hstep
    refine DeviceOnly.leaf hgood hroot hva (fun hleaf => ?_) hstep
    have hoa := leafEntry_oaAddr_le hleaf
    have hfloor : pageFloor (Tte.oaAddr (leafEntry g c 0 pa)) ≤
        Tte.oaAddr (leafEntry g c 0 pa) := Nat.div_mul_le_self _ _
    omega
  · intro s s' hgood hconsume
    have hram := hgood.inv.ram
    rw [physDereference_ignored (.inr (by omega))] at hconsume
    obtain rfl := Except.ok.inj hconsume
    exact ⟨hgood.inv, SameTables.refl⟩

end Device

/-! ## An example -/

/-- The root has no links and no leaves. -/
theorem look_recycledMm (r x : ℕ) :
    look Granule.kb16.layout Vm.recycledMm.mem r x = (1, 0) :=
  stops_iff.mp ⟨r, .root, rfl, .inr (Granule.child_zero _)⟩

theorem recycledMm_good : Good .kb16 {0x817ff0000}
    (DeviceOnly .kb16 {0x817ff0000} 0x800000000) Vm.recycledMm := by
  have hgood : Good .kb16 {0x817ff0000} (EarlyInv .kb16 {0x817ff0000})
      { bootExample with ttbAllocBase := 0 } :=
    good_of_no_links (fun _ => Granule.child_zero _) (by decide) (by decide)
      (by decide) (by decide)
  refine ⟨hgood.forest, hgood.plain, rfl, rfl, ⟨[0x417fec000], ?_⟩, by decide, rfl,
    ?_⟩
  · refine ⟨⟨rfl, by decide, rfl⟩, by decide, by decide, ?_⟩
    rintro a ha ⟨r, rfl, x, k, -, ht⟩
    rw [List.mem_singleton.mp ha] at ht
    -- without links the root is the only table
    cases ht with
    | next _ hchild => exact absurd ((Granule.child_zero _).symm.trans hchild) nofun
  · rintro r - x k e - hlook hleaf
    rw [look_recycledMm] at hlook
    obtain ⟨rfl, rfl⟩ := Prod.mk.inj hlook
    exact absurd hleaf (not_isLeaf_zero 1)

end Mm

namespace Vm

def deviceProt : Prot := ⟨true, true, false, true, true, false⟩

theorem recycledVm_maps : MapsPhysical kernel 0x200000000 0x4000 deviceProt
    {0x817ff0000} (Mm.DeviceOnly .kb16 {0x817ff0000} 0x800000000)
    recycledVm := by
  refine ⟨⟨Mm.deviceOnly_env rfl rfl rfl, fun _ h => h.granule,
    Mm.recycledMm_good, fun x k e _ hlook hleaf => ?_⟩, fun i hi => ?_⟩
  · obtain ⟨-, rfl⟩ := Prod.mk.inj ((Mm.look_recycledMm _ x).symm.trans hlook)
    exact absurd hleaf (Mm.not_isLeaf_zero _)
  obtain rfl : i = 0 := Nat.lt_one_iff.mp hi
  exact Mm.deviceOnly_leafEnv rfl (by decide)

theorem recycledVm_run (va : ℕ)
    (h : (mapPhysicalRange kernel va 0x200000000 0x4000 ⟨false, false⟩
      deviceProt recycledVm).toOption.map (fun x => (x.1, x.2.1)) =
        some (.success, va)) :
    ∃ s', mapPhysicalRange kernel va 0x200000000 0x4000 ⟨false, false⟩
      deviceProt recycledVm = .ok (.success, va, s') := by
  obtain ⟨⟨r, va', s'⟩, hrun, hend⟩ := Outcome.ok_of_map h
  obtain ⟨rfl, rfl⟩ := Prod.mk.inj hend
  exact ⟨s', hrun⟩

/-- A page of device registers is mapped below a table that is taken from the
list, and `*va` is the address chosen. -/
theorem mapPhysicalRange_iff_recycledVm :
    ∃ s', mapPhysicalRange kernel vmSpaceBase 0x200000000 0x4000
        ⟨false, false⟩ deviceProt recycledVm = .ok (.success, vmSpaceBase, s') ∧
      PhysicalSpec kernel 0x200000000 0x4000 deviceProt recycledVm .success
        vmSpaceBase s' := by
  obtain ⟨s', hrun⟩ := recycledVm_run vmSpaceBase
    (by decide +kernel)
  refine ⟨s', hrun, (mapPhysicalRange_iff (by decide) (by decide) (by decide) rfl
    rfl recycledVm_maps hrun).mpr (.inr ⟨0, ?_, rfl, .inl ?_⟩)⟩
  · exact ⟨⟨by decide, fun _ _ _ => rfl⟩, fun b hb => absurd hb (Nat.not_lt_zero b)⟩
  · decide

/-- A caller that passes zero gets zero back. -/
theorem mapPhysicalRange_keeps_va :
    ∃ s', mapPhysicalRange kernel 0 0x200000000 0x4000 ⟨false, false⟩
        deviceProt recycledVm = .ok (.success, 0, s') ∧
      ¬ PhysicalSpec kernel 0x200000000 0x4000 deviceProt recycledVm .success 0
        s' := by
  obtain ⟨s', hrun⟩ := recycledVm_run 0 (by decide +kernel)
  refine ⟨s', hrun, fun h => ?_⟩
  obtain ⟨b, hva, -⟩ := h.reserved rfl
  have hpos : 0 < vmSpaceBase := by decide
  omega

end Vm

end PongoOS
