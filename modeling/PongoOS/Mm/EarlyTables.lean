import PongoOS.Mm.MapSteps

/-!
# Early translation tables

Before `vm_init`, `ttb_alloc` is `ttb_alloc_early`, which takes tables
downwards from `ttb_alloc_base`.  As long as the region is not exhausted it
meets the assumptions of a `map_range_map` call for TTBR0.
-/

namespace PongoOS

open RadixTable

namespace Mm

/-- `ttb_alloc_early` as far as there is room for a table below `ttb_alloc_base`.  The
source does not look: it takes the table at an address that has wrapped around. -/
def earlyTables (g : Granule) (s : Mm) : Outcome (ℕ × Mm) := do
  panicIf (s.ttbAllocBase < g.pgsz) "no room for a table"
  ttbAllocEarly g s

theorem earlyTables_of_room {g : Granule} {s : Mm} (hroom : g.pgsz ≤ s.ttbAllocBase) :
    earlyTables g s = ttbAllocEarly g s := by
  unfold earlyTables
  rw [panicIf, if_neg (Nat.not_lt.mpr hroom)]
  rfl

/-- All tables lie above `ttb_alloc_base`. -/
structure EarlyInv (g : Granule) (roots : Set ℕ) (s : Mm) : Prop where
  aligned : g.pgsz ∣ s.ttbAllocBase
  below : s.ttbAllocBase ≤ 2 ^ 48
  above : ∀ t, IsTable g.layout s.mem roots t → s.ttbAllocBase ≤ t

theorem earlyTables_ok {g : Granule} {s s₁ : Mm} {t : ℕ}
    (hbelow : s.ttbAllocBase ≤ 2 ^ 48) :
    earlyTables g s = .ok (t, s₁) ↔
      g.pgsz ≤ s.ttbAllocBase ∧ t = s.ttbAllocBase - g.pgsz ∧
        s₁ = (s.setTtbAllocBase t).bzero t g.pgsz := by
  unfold earlyTables
  simp only [Outcome.bind_eq_ok, panicIf_eq_ok, Nat.not_lt]
  constructor
  · rintro ⟨-, hroom, halloc⟩
    unfold ttbAllocEarly at halloc
    rw [sub64_of_le hroom (hbelow.trans_lt (by decide))] at halloc
    cases halloc
    exact ⟨hroom, rfl, rfl⟩
  · rintro ⟨hroom, rfl, rfl⟩
    refine ⟨(), hroom, ?_⟩
    unfold ttbAllocEarly
    rw [sub64_of_le hroom (hbelow.trans_lt (by decide))]

section Early

variable {g : Granule} {c : MapArgs} {roots : Set ℕ} {s s₁ s' : Mm} {t : ℕ}

theorem EarlyInv.sameTables (h : EarlyInv g roots s)
    (hroom : g.pgsz ≤ s.ttbAllocBase) :
    SameTables g.layout roots s.mem
      ((s.setTtbAllocBase t).bzero (s.ttbAllocBase - g.pgsz) g.pgsz).mem := by
  intro u hu i _
  have habove := h.above u hu
  exact bzero_mem_of_notMem _ (by omega)

theorem EarlyInv.fresh (h : EarlyInv g roots s)
    (halloc : earlyTables g s = .ok (t, s₁)) :
    SameTables g.layout roots s.mem s₁.mem ∧
      FreshTable g.layout s₁.mem roots t ∧ t < 2 ^ 48 := by
  obtain ⟨hroom, rfl, rfl⟩ := (earlyTables_ok h.below).mp halloc
  have hpos := g.pgsz_pos
  have hbelow := h.below
  refine ⟨h.sameTables hroom, ⟨?_, ?_, ?_, g.child_zero⟩, by omega⟩
  · rw [g.table_size]
    exact Nat.dvd_sub h.aligned dvd_rfl
  · intro htable
    have habove := h.above _ ((h.sameTables hroom).isTable.mp htable)
    omega
  · intro i hi
    have hsize := g.table_size
    exact bzero_mem_of_mem _ (by omega)

theorem EarlyInv.split {k va : ℕ} (hroot : c.tt0 ∈ roots)
    (hva : va < g.space) (hgood : Good g roots (EarlyInv g roots) s)
    (h : SplitStep (earlyTables g) g c k va s s') : EarlyInv g roots s' := by
  obtain ⟨tt, t, s₁, htt, -, halloc, rfl⟩ := h
  obtain ⟨hsame, hfresh, hlt⟩ := hgood.inv.fresh halloc
  obtain ⟨hroom, ht, hs₁⟩ := (earlyTables_ok hgood.inv.below).mp halloc
  have hbelow := hgood.inv.below
  have hx : va < g.layout.space := g.space_eq ▸ hva
  have hbase : (s₁.store (g.layout.slot (k + 1) tt va)
      (Tte.link t)).ttbAllocBase = t := by
    rw [hs₁]
    rfl
  have hdvd : g.pgsz ∣ t := g.table_size ▸ hfresh.aligned
  have hfour : 0x1000 ∣ t := g.four_kb_dvd_pgsz.trans hdvd
  refine ⟨by rwa [hbase], by omega, ?_⟩
  rintro u ⟨r, hr, x, j, hx', hu⟩
  rw [hbase]
  rcases (hsame.forest hgood.forest).tableOn_of_link hroot hx
    ((hsame.tableOn hroot hx).mpr htt) (child_link hfour hlt) hfresh hr hx' hu
    with hold | ⟨-, -, rfl, -⟩
  · have habove := hgood.inv.above u
      ⟨r, hr, x, j, hx', (hsame.tableOn hr hx').mp hold⟩
    omega
  · exact le_rfl

theorem EarlyInv.leaf {k va pa tt : ℕ} (hroot : c.tt0 ∈ roots)
    (htt0 : c.isTt1 = false) (hva : va < g.space)
    (hgood : Good g roots (EarlyInv g roots) s)
    (h : LeafStep g c k va pa tt s s') : EarlyInv g roots s' := by
  have hstore : s' = s.store (g.layout.slot k tt va) (leafEntry g c k pa) := by
    obtain ⟨s₁, hs₁, hend⟩ := mapBlock_ok h.run
    simp only [htt0, Bool.false_eq_true, false_and, and_false, not_false_eq_true,
      and_true, or_false] at hs₁ hend
    rw [hend, hs₁]
  subst hstore
  refine ⟨hgood.inv.aligned, hgood.inv.below, ?_⟩
  rintro u ⟨r, hr, x, j, hx, hu⟩
  exact hgood.inv.above u ⟨r, hr, x, j, hx,
    hgood.forest.tableOn_of_leaf hroot (g.space_eq ▸ hva) h.table
      (leafEntry_stops g c k pa) hr hx hu⟩

/-- Early tables meet the assumptions of a TTBR0 call. -/
theorem earlyTables_env (hroot : c.tt0 ∈ roots) (hover : c.overwrite = true)
    (htt0 : c.isTt1 = false) :
    MapEnv (earlyTables g) g c roots (EarlyInv g roots) where
  root := hroot
  overwrite := hover
  fresh := fun _ _ _ hgood halloc => hgood.inv.fresh halloc
  split := fun _ _ _ _ hva hgood h => EarlyInv.split hroot hva hgood h
  leaf := fun _ _ _ _ _ _ hva hgood h =>
    EarlyInv.leaf hroot htt0 hva hgood h
  counters := fun h => absurd h (by rw [htt0]; decide)

/-- A root without links is a forest on its own. -/
theorem good_of_no_links {r : ℕ}
    (hnone : ∀ x, g.layout.child (s.mem (g.layout.slot g.topLevel r x)) = none)
    (haligned : g.pgsz ∣ r) (hbase : g.pgsz ∣ s.ttbAllocBase)
    (hbelow : s.ttbAllocBase ≤ 2 ^ 48) (habove : s.ttbAllocBase ≤ r) :
    Good g {r} (EarlyInv g {r}) s := by
  have honly : ∀ {x k t}, TableOn g.layout s.mem r x k t →
      k = g.topLevel ∧ t = r := by
    intro x k t ht
    induction ht with
    | root => exact ⟨rfl, rfl⟩
    | next _ hchild ih =>
        rw [ih.1, ih.2, hnone] at hchild
        cases hchild
  have htable : ∀ t, IsTable g.layout s.mem {r} t → t = r := by
    rintro t ⟨_, rfl, x, k, -, ht⟩
    exact (honly ht).2
  refine ⟨⟨?_, ?_⟩, ?_, hbase, hbelow, ?_⟩
  · intro t ht
    rw [htable t ht, g.table_size]
    exact haligned
  · rintro _ rfl _ rfl x x' k k' t hx hx' ht ht'
    obtain ⟨rfl, -⟩ := honly ht
    obtain ⟨rfl, -⟩ := honly ht'
    refine ⟨rfl, rfl, ?_⟩
    exact (Nat.div_eq_of_lt hx).trans (Nat.div_eq_of_lt hx').symm
  · rintro _ rfl x k t u - ht hchild
    obtain ⟨hk, rfl⟩ := honly ht
    rw [hk, hnone] at hchild
    cases hchild
  · intro t ht
    rw [htable t ht]
    exact habove

end Early

end Mm

end PongoOS
