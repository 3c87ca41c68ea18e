import PongoOS.Mm.EarlyRoom
import PongoOS.Mm.MapTranslation

/-!
# `map_range_map` without `overwrite`

A call that may not overwrite stops where it meets a valid entry that it would
have to replace.  One that returns is also a run of the call that may overwrite,
and it has changed no valid word of a table: it extends the translation.
-/

namespace PongoOS

open RadixTable

/-- The same call, with leave to replace valid entries. -/
def MapArgs.overwriting (c : MapArgs) : MapArgs := { c with overwrite := true }

namespace Mm

/-- No valid word from `ttb_alloc_base` on has changed. -/
structure ValidKept (s s' : Mm) : Prop where
  base : s'.ttbAllocBase ≤ s.ttbAllocBase
  words : ∀ a, s.ttbAllocBase ≤ a → Tte.valid (s.mem a) → s'.mem a = s.mem a

theorem ValidKept.refl (s : Mm) : ValidKept s s := ⟨le_rfl, fun _ _ _ => rfl⟩

theorem ValidKept.trans {s s₁ s₂ : Mm} (h : ValidKept s s₁)
    (h' : ValidKept s₁ s₂) : ValidKept s s₂ := by
  refine ⟨h'.base.trans h.base, ?_⟩
  intro a ha hvalid
  have hfirst := h.words a ha hvalid
  rw [← hfirst]
  apply h'.words a (h.base.trans ha)
  rwa [hfirst]

theorem ValidKept.store {s : Mm} {slot w : ℕ} (h : ¬ Tte.valid (s.mem slot)) :
    ValidKept s (s.store slot w) := by
  refine ⟨le_rfl, ?_⟩
  intro a _ hvalid
  apply store_mem_of_ne
  rintro rfl
  exact h hvalid

section Overwriting

variable {g : Granule} {c : MapArgs} {s s₁ s' : Mm}

theorem earlyTables_validKept {t : ℕ} (hbelow : s.ttbAllocBase ≤ 2 ^ 48)
    (halloc : earlyTables g s = .ok (t, s₁)) : ValidKept s s₁ := by
  obtain ⟨hroom, rfl, rfl⟩ := (earlyTables_ok hbelow).mp halloc
  refine ⟨Nat.sub_le _ _, ?_⟩
  intro a ha _
  apply bzero_mem_of_notMem
  omega

theorem earlyTables_not_valid {t a : ℕ} (hbelow : s.ttbAllocBase ≤ 2 ^ 48)
    (halloc : earlyTables g s = .ok (t, s₁)) (h : ¬ Tte.valid (s.mem a)) :
    ¬ Tte.valid (s₁.mem a) := by
  obtain ⟨-, rfl, rfl⟩ := (earlyTables_ok hbelow).mp halloc
  by_cases ha : s.ttbAllocBase - g.pgsz ≤ a ∧ a < s.ttbAllocBase - g.pgsz + g.pgsz
  · rw [bzero_mem_of_mem _ ha]
    decide
  · rwa [bzero_mem_of_notMem _ ha]

/-- `x` is a call without leave to overwrite and `y` the one with it. -/
def Overwrites (s : Mm) (x y : Outcome Mm) : Prop :=
  ∀ s', x = .ok s' → y = .ok s' ∧ ValidKept s s'

theorem Overwrites.bind {x y : Outcome Mm} {f h : Mm → Outcome Mm}
    (hx : Overwrites s x y) (hf : ∀ s₁, ValidKept s s₁ →
      Overwrites s₁ (f s₁) (h s₁)) : Overwrites s (x >>= f) (y >>= h) := by
  intro s' hok
  obtain ⟨s₁, hfirst, hrest⟩ := Outcome.bind_eq_ok.mp hok
  obtain ⟨hy, hkept⟩ := hx s₁ hfirst
  obtain ⟨hlast, hkept'⟩ := hf s₁ hkept s' hrest
  exact ⟨Outcome.bind_eq_ok.mpr ⟨s₁, hy, hlast⟩, hkept.trans hkept'⟩

theorem mapBlock_overwriting {blksz tt va pa : ℕ}
    (h : ¬ Tte.valid (s.mem (tt + 8 * (va / blksz % 2 ^ g.ttBits)))) :
    mapBlock g c.overwriting blksz tt va pa s = mapBlock g c blksz tt va pa s := by
  unfold mapBlock panicIf
  simp only [h, false_and, if_false]
  rfl

theorem mapBlock_overwrites {blksz tt va pa : ℕ} (hno : c.overwrite = false)
    (htt0 : c.isTt1 = false) :
    Overwrites s (mapBlock g c blksz tt va pa s)
      (mapBlock g c.overwriting blksz tt va pa s) := by
  intro s' hok
  have hfree : ¬ Tte.valid (s.mem (tt + 8 * (va / blksz % 2 ^ g.ttBits))) := by
    intro hvalid
    simp only [mapBlock, Outcome.bind_eq_ok, panicIf_eq_ok, hno] at hok
    exact hok.choose_spec.1 ⟨hvalid, Bool.false_ne_true⟩
  refine ⟨(mapBlock_overwriting hfree).trans hok, ?_⟩
  simp only [mapBlock, Outcome.bind_eq_ok, htt0, Bool.false_eq_true, and_false,
    if_false, Outcome.pure_eq_ok] at hok
  obtain ⟨-, -, s₁, hstore, rfl⟩ := hok
  split at hstore
  · cases hstore
    exact ValidKept.store hfree
  split at hstore
  · obtain ⟨s₂, hsame, hstore⟩ := Outcome.bind_eq_ok.mp hstore
    cases hsame
    cases hstore
    exact ValidKept.store hfree
  · cases hstore
    exact ValidKept.store hfree

variable {again again' : ℕ → ℕ → ℕ → Mm → Outcome Mm}

theorem mapPiece_overwrites {blksz tt va pa sz : ℕ} (hno : c.overwrite = false)
    (htt0 : c.isTt1 = false) (hbelow : s.ttbAllocBase ≤ 2 ^ 48)
    (hagain : ∀ va pa sz s, s.ttbAllocBase ≤ 2 ^ 48 →
      Overwrites s (again va pa sz s) (again' va pa sz s)) :
    Overwrites s (mapPiece again g c blksz tt va pa sz s)
      (mapPiece again' g c.overwriting blksz tt va pa sz s) := by
  unfold mapPiece
  split
  · exact hagain _ _ _ _ hbelow
  split
  · apply Overwrites.bind (hagain _ _ _ _ hbelow)
    intro s₁ hkept
    exact hagain _ _ _ _ (hkept.base.trans hbelow)
  · exact mapBlock_overwrites hno htt0

theorem mapBlocks_overwrites {blksz tt n lo va pa size : ℕ}
    (hno : c.overwrite = false) (htt0 : c.isTt1 = false)
    (hbelow : s.ttbAllocBase ≤ 2 ^ 48)
    (hagain : ∀ va pa sz s, s.ttbAllocBase ≤ 2 ^ 48 →
      Overwrites s (again va pa sz s) (again' va pa sz s)) :
    Overwrites s (mapBlocks again g c blksz tt n lo va pa size s)
      (mapBlocks again' g c.overwriting blksz tt n lo va pa size s) := by
  induction n generalizing lo va pa size s with
  | zero =>
      intro s' hok
      cases hok
      exact ⟨rfl, ValidKept.refl s⟩
  | succ n ih =>
      apply Overwrites.bind (mapPiece_overwrites hno htt0 hbelow hagain)
      intro s₁ hkept
      exact ih (hkept.base.trans hbelow)

theorem descend_overwrites {va size fuel bits tt : ℕ} {r : (ℕ × ℕ) × Mm}
    (hno : c.overwrite = false) (hbelow : s.ttbAllocBase ≤ 2 ^ 48)
    (hok : descend (earlyTables g) g c va size fuel bits tt s = .ok r) :
    descend (earlyTables g) g c.overwriting va size fuel bits tt s = .ok r ∧
      ValidKept s r.2 := by
  induction fuel generalizing bits tt s with
  | zero => cases hok
  | succ fuel ih =>
      unfold descend at hok ⊢
      simp only at hok ⊢
      split at hok
      · rename_i hin
        rw [if_pos hin]
        split at hok
        · rename_i hlink
          rw [if_pos hlink]
          exact ih hbelow hok
        · rename_i hlink
          rw [if_neg hlink]
          split at hok
          · rename_i hfree
            have hfree := hfree.resolve_right (by rw [hno]; decide)
            rw [if_pos (Or.inl hfree)]
            obtain ⟨⟨t, s₁⟩, halloc, hrest⟩ := Outcome.bind_eq_ok.mp hok
            have hkept := earlyTables_validKept hbelow halloc
            have hstore := hkept.trans (ValidKept.store (w := Tte.link t)
              (earlyTables_not_valid hbelow halloc hfree))
            obtain ⟨hrun, hlast⟩ := ih (hstore.base.trans hbelow) hrest
            refine ⟨Outcome.bind_eq_ok.mpr ⟨(t, s₁), halloc, hrun⟩, ?_⟩
            exact hstore.trans hlast
          · cases hok
      · rename_i hin
        rw [if_neg hin]
        cases hok
        exact ⟨rfl, ValidKept.refl s⟩

theorem mapRangeMapFuel_overwrites {fuel va pa size : ℕ}
    (hno : c.overwrite = false) (htt0 : c.isTt1 = false)
    (hbelow : s.ttbAllocBase ≤ 2 ^ 48) :
    Overwrites s (mapRangeMapFuel (earlyTables g) g c fuel va pa size s)
      (mapRangeMapFuel (earlyTables g) g c.overwriting fuel va pa size s) := by
  induction fuel generalizing va pa size s with
  | zero =>
      intro s' hok
      cases hok
  | succ fuel ih =>
      intro s' hok
      unfold mapRangeMapFuel at hok ⊢
      simp only [Outcome.bind_eq_ok, panicIf_eq_ok] at hok ⊢
      obtain ⟨-, hargs, ⟨⟨bits, tt⟩, s₁⟩, hdescend, hloop⟩ := hok
      obtain ⟨hrun, hkept⟩ := descend_overwrites hno hbelow hdescend
      obtain ⟨hlast, hkept'⟩ := mapBlocks_overwrites hno htt0
        (hkept.base.trans hbelow) (fun _ _ _ _ h => ih h) s' hloop
      exact ⟨⟨(), hargs, ((bits, tt), s₁), hrun, hlast⟩, hkept.trans hkept'⟩

/-- A call that may not overwrite and returns is a run of the one that may, and
it keeps every valid word. -/
theorem mapRangeMap_overwrites {va pa size : ℕ} (hno : c.overwrite = false)
    (htt0 : c.isTt1 = false) (hbelow : s.ttbAllocBase ≤ 2 ^ 48) :
    Overwrites s (mapRangeMap (earlyTables g) g c va pa size s)
      (mapRangeMap (earlyTables g) g c.overwriting va pa size s) :=
  mapRangeMapFuel_overwrites hno htt0 hbelow

/-- A call that returns has passed the check of its arguments. -/
theorem admissible_of_ok {ttbAlloc : Mm → Outcome (ℕ × Mm)} {va pa size : ℕ}
    (hspace : InSpace g c.isTt1 va size)
    (hok : mapRangeMap ttbAlloc g c va pa size s = .ok s') :
    Admissible g (spaceOffset g c.isTt1 va) pa size := by
  unfold mapRangeMap mapRangeMapFuel at hok
  simp only [Outcome.bind_eq_ok, panicIf_eq_ok] at hok
  obtain ⟨-, hargs, -⟩ := hok
  unfold BadArguments at hargs
  push Not at hargs
  obtain ⟨hva, hpa, hsize, hle, -, hfits⟩ := hargs
  have hpos : 0 < size := g.pgsz_pos.trans_le hle
  exact ⟨Nat.dvd_of_mod_eq_zero hva, Nat.dvd_of_mod_eq_zero hpa,
    Nat.dvd_of_mod_eq_zero hsize, hpos, (spaceOffset_add hspace hpos).2, hfits⟩

end Overwriting

/-! ## Valid leaves stay -/

theorem valid_of_child {g : Granule} {w t : ℕ} (h : g.layout.child w = some t) :
    Tte.valid w := by
  by_contra hvalid
  rw [child_eq_none fun hboth => hvalid hboth.1] at h
  cases h

section Extension

variable {g : Granule} {c : MapArgs} {roots : Set ℕ} {va pa size : ℕ}
  {s s' : Mm}

/-- Every word that a lookup reads on its way to a leaf is valid. -/
theorem ValidKept.samePath {r x : ℕ} (h : ValidKept s s')
    (hinv : EarlyInv g roots s) (hr : r ∈ roots) (hx : x < g.space)
    (hleaf : IsLeaf (look g.layout s.mem r x).1 (look g.layout s.mem r x).2) :
    SamePath g r x s s' := by
  obtain ⟨t, ht, hentry, hstop⟩ := stops_look g.layout s.mem r x
  generalize (look g.layout s.mem r x).1 = k at ht hentry hstop hleaf
  apply TableOn.root.walk_congr
  intro j u hu
  have habove := hinv.above u ⟨r, hr, x, j, g.space_eq ▸ hx, hu⟩
  have hword := h.words (g.layout.slot j u x)
    (habove.trans (Nat.le_add_right _ _))
  apply hword
  rcases Nat.lt_trichotomy j k with hjk | rfl | hkj
  · -- the lookup does not go on below the leaf
    obtain ⟨w, hw, hnext⟩ := hu.above hjk.le ht.le_top
    obtain ⟨v, hv⟩ := hnext hjk
    rw [hw.unique ht, hentry, hstop.resolve_left (by omega)] at hv
    cases hv
  · rw [hu.unique ht, hentry]
    exact hleaf.1
  · obtain ⟨w, hw, hnext⟩ := ht.above hkj.le hu.le_top
    obtain ⟨v, hv⟩ := hnext hkj
    rw [hu.unique hw]
    exact valid_of_child hv

/-- Where every valid leaf is kept, a mapping cuts no block. -/
theorem Maps.noBlockCut_of_kept (h : Maps g c roots va pa size s s')
    (hpos : 0 < size) (hkept : ∀ x, x < g.space →
      IsLeaf (look g.layout s.mem c.tt0 x).1 (look g.layout s.mem c.tt0 x).2 →
      SamePath g c.tt0 x s s') : NoBlockCut g c.tt0 va size s := by
  intro x k e hx hlook hleaf hmeet
  have hbase := blockBase_le g k x
  have hbpos := g.layout.blk_pos k
  -- an address of the block inside the range
  obtain ⟨y, hdiv, hlow, hhigh⟩ : ∃ y,
      y / g.layout.blk k = x / g.layout.blk k ∧ va ≤ y ∧ y < va + size := by
    obtain ⟨hfirst, hlast⟩ := hmeet
    refine ⟨max va (blockBase g k x), ?_, le_max_left _ _, ?_⟩
    · apply div_eq_of_mem_block (le_max_right _ _)
      omega
    · exact max_lt (by omega) hfirst
  have hylook : look g.layout s.mem c.tt0 y = (k, e) :=
    stops_iff.mp ((stops_iff.mpr hlook).congr_key hdiv.symm)
  have hfits := h.fits
  have hsame := hkept y (by omega) (by rwa [hylook])
  obtain ⟨j, hj, hstart, hend, -⟩ := h.inside y hlow hhigh
  rw [hsame.1, hylook] at hj
  obtain ⟨rfl, -⟩ := Prod.mk.inj hj
  rw [blockBase_congr hdiv] at hstart hend
  exact ⟨hstart, hend⟩

/-- What a call that may not overwrite does to the translation below the
roots. -/
structure Extends (g : Granule) (c : MapArgs) (roots : Set ℕ) (va pa size : ℕ)
    (s s' : Mm) : Prop where
  kept : ∀ r ∈ roots, ∀ x, x < g.space → translate g s.mem r x ≠ none →
    translate g s'.mem r x = translate g s.mem r x
  frame : FrameKept g c roots va size s s'
  mapped : ∀ k, k < size →
    translate g s'.mem c.tt0 (va + k) = some (requested c (pa + k))

theorem isLeaf_of_translate {mem : ℕ → ℕ} {r x : ℕ}
    (h : translate g mem r x ≠ none) :
    IsLeaf (look g.layout mem r x).1 (look g.layout mem r x).2 := by
  by_contra hleaf
  exact h (translate_eq_none rfl hleaf)

/-- What a call for TTBR0 that returns does, whether it may overwrite or not.
One that may not cuts no block. -/
theorem mapRangeMap_effect (hroot : c.tt0 ∈ roots) (htt0 : c.isTt1 = false)
    (hfits : va + size ≤ g.space) (hgood : Good g roots (EarlyInv g roots) s)
    (hok : mapRangeMap (earlyTables g) g c va pa size s = .ok s') :
    Maps g c roots va pa size s s' ∧ Good g roots (EarlyInv g roots) s' ∧
      (c.overwrite = false → ValidKept s s' ∧ NoBlockCut g c.tt0 va size s) := by
  have hspace : InSpace g c.isTt1 va size := by
    rw [htt0]
    exact hfits
  have hadm := admissible_of_ok hspace hok
  have hpos := hadm.size_pos
  rw [spaceOffset_of_lt c.isTt1 (by omega)] at hadm
  by_cases hover : c.overwrite = true
  · obtain ⟨hmaps, hgood'⟩ := mapRangeMap_maps
      (earlyTables_env hroot hover htt0) hadm hgood hok
    exact ⟨hmaps, hgood', fun hno => absurd (hover.symm.trans hno) (by decide)⟩
  · rw [Bool.not_eq_true] at hover
    obtain ⟨hrun, hkept⟩ :=
      mapRangeMap_overwrites hover htt0 hgood.inv.below s' hok
    obtain ⟨hmaps, hgood'⟩ := mapRangeMap_maps (c := c.overwriting)
      (earlyTables_env hroot rfl htt0) hadm hgood hrun
    refine ⟨⟨hmaps.fits, hmaps.outside, hmaps.partly, hmaps.inside⟩, hgood',
      fun _ => ⟨hkept, ?_⟩⟩
    apply hmaps.noBlockCut_of_kept hpos
    intro x hx
    exact hkept.samePath hgood.inv hroot hx

/-- A call for TTBR0 that may not overwrite and returns, with room for its tables,
changes no translation that was there: it adds the one asked for. -/
theorem mapRangeMap_extends (hroot : c.tt0 ∈ roots) (hno : c.overwrite = false)
    (htt0 : c.isTt1 = false) (hread : c.prot.read = true)
    (hpi : c.prot.pagingInfo = false) (hfits : va + size ≤ g.space)
    (hpa : pa ≠ 0) (hlt : pa + size ≤ 2 ^ 48)
    (hgood : Good g roots (EarlyInv g roots) s)
    (hok : mapRangeMap (ttbAllocEarly g) g c va pa size s = .ok s')
    (hroom : s'.ttbAllocBase ≤ 2 ^ 48) :
    Extends g c roots va pa size s s' := by
  have hrun := mapRangeMap_room htt0 (by omega) hgood.inv.below hok hroom
  obtain ⟨hmaps, hgood', hextends⟩ :=
    mapRangeMap_effect hroot htt0 hfits hgood hrun
  obtain ⟨hkept, hcut⟩ := hextends hno
  refine ⟨?_, (hmaps.frame_iff hroot).mpr hcut, ?_⟩
  · intro r hr x hx hsome
    exact (hkept.samePath hgood.inv hr hx (isLeaf_of_translate hsome)).translate
  · intro k hk
    exact hmaps.translate_inside hroot hgood' hpa hlt hread hpi hk

end Extension

/-- `rwArgs` without leave to overwrite. -/
def rwOnceArgs : MapArgs := { rwArgs with overwrite := false }

theorem mapRangeMap_extends_bootExample :
    ∃ s', mapRangeMap (ttbAllocEarly .kb16) .kb16 rwOnceArgs 0x4000 0x818000000
        0x8000 bootExample = .ok s' ∧
      Extends .kb16 rwOnceArgs {0x817ff8000} 0x4000 0x818000000 0x8000
        bootExample s' := by
  have hrun : (mapRangeMap (ttbAllocEarly .kb16) .kb16 rwOnceArgs 0x4000
      0x818000000 0x8000 bootExample).toOption.map ttbAllocBase =
        some 0x817ff0000 := by
    decide +kernel
  obtain ⟨s', hok, hbase⟩ := Outcome.ok_of_map hrun
  exact ⟨s', hok, mapRangeMap_extends rfl rfl rfl rfl rfl (by decide)
    (by decide) (by decide) good_bootExample hok (by rw [hbase]; decide)⟩

end Mm

end PongoOS
