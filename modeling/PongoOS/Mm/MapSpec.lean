import Mathlib.Tactic.Ring
import PongoOS.Mm.MapRule

/-!
# What `map_range_map` does to translations

`Maps` is the effect of a call on every lookup.  Inside the range the lookup
finds a new entry whose block lies inside the range.  Outside, a lookup whose
old entry's block meets the range finds nothing any more, and every other
lookup is as before.
-/

namespace PongoOS

open RadixTable

namespace Mm

/-- The first address of the block of level `k` around `x`. -/
def blockBase (g : Granule) (k x : ℕ) : ℕ :=
  x / g.layout.blk k * g.layout.blk k

/-- The block of level `k` around `x` meets `[va, va + size)`. -/
def BlockMeets (g : Granule) (k x va size : ℕ) : Prop :=
  blockBase g k x < va + size ∧ va < blockBase g k x + g.layout.blk k

/-- The entry that governs `x` covers a part of `[va, va + size)`. -/
def Meets (g : Granule) (root : ℕ) (s : Mm) (x va size : ℕ) : Prop :=
  BlockMeets g (look g.layout s.mem root x).1 x va size

/-- The lookups of `x` from `r` visit the same links and find the same
entry. -/
def SamePath (g : Granule) (r x : ℕ) (s s' : Mm) : Prop :=
  look g.layout s'.mem r x = look g.layout s.mem r x ∧
    links g.layout s'.mem r x = links g.layout s.mem r x

structure Maps (g : Granule) (c : MapArgs) (roots : Set ℕ)
    (va pa size : ℕ) (s s' : Mm) : Prop where
  fits : va + size ≤ g.space
  outside : ∀ r ∈ roots, ∀ x, x < g.space →
    ¬ (r = c.tt0 ∧ Meets g r s x va size) → SamePath g r x s s'
  partly : ∀ x, x < g.space → (x < va ∨ va + size ≤ x) →
    Meets g c.tt0 s x va size → ∃ k, look g.layout s'.mem c.tt0 x = (k, 0)
  inside : ∀ x, va ≤ x → x < va + size → ∃ k,
    look g.layout s'.mem c.tt0 x =
      (k, leafEntry g c k (pa + (blockBase g k x - va))) ∧
    va ≤ blockBase g k x ∧ blockBase g k x + g.layout.blk k ≤ va + size ∧
    g.layout.blk k ∣ pa + (blockBase g k x - va)

/-- The part of `Maps` that speaks of addresses outside the range. -/
structure MapsAround (g : Granule) (root : ℕ) (roots : Set ℕ)
    (va size : ℕ) (s s' : Mm) : Prop where
  fits : va + size ≤ g.space
  outside : ∀ r ∈ roots, ∀ x, x < g.space →
    ¬ (r = root ∧ Meets g r s x va size) → SamePath g r x s s'
  partly : ∀ x, x < g.space → (x < va ∨ va + size ≤ x) →
    Meets g root s x va size → ∃ k, look g.layout s'.mem root x = (k, 0)

theorem Maps.around {g : Granule} {c : MapArgs} {roots : Set ℕ}
    {va pa size : ℕ} {s s' : Mm} (h : Maps g c roots va pa size s s') :
    MapsAround g c.tt0 roots va size s s' :=
  ⟨h.fits, h.outside, h.partly⟩

/-! ## Blocks -/

section Blocks

variable {g : Granule} {k x va size : ℕ}

theorem blockBase_le (g : Granule) (k x : ℕ) : blockBase g k x ≤ x :=
  Nat.div_mul_le_self _ _

theorem lt_blockBase_add (g : Granule) (k x : ℕ) :
    x < blockBase g k x + g.layout.blk k := by
  have h := Nat.div_add_mod x (g.layout.blk k)
  have hlt := Nat.mod_lt x (g.layout.blk_pos k)
  rw [Nat.mul_comm] at h
  unfold blockBase
  omega

theorem blockBase_of_dvd (h : g.layout.blk k ∣ x) : blockBase g k x = x :=
  Nat.div_mul_cancel h

theorem blockBase_congr {y : ℕ}
    (h : x / g.layout.blk k = y / g.layout.blk k) :
    blockBase g k x = blockBase g k y := by
  rw [blockBase, blockBase, h]

theorem blockBase_add_mod (g : Granule) (k x : ℕ) :
    blockBase g k x + x % g.layout.blk k = x := by
  rw [blockBase, Nat.mul_comm, Nat.div_add_mod]

/-- Membership in a block is equality of quotients. -/
theorem div_eq_of_mem_block {y : ℕ} (hle : blockBase g k x ≤ y)
    (hlt : y < blockBase g k x + g.layout.blk k) :
    y / g.layout.blk k = x / g.layout.blk k := by
  unfold blockBase at hle hlt
  refine Nat.div_eq_of_lt_le hle ?_
  rw [Nat.succ_mul]
  exact hlt

/-- Two blocks that meet are nested. -/
theorem div_eq_of_meet {j y : ℕ} (hkj : k ≤ j)
    (h₁ : blockBase g j x < blockBase g k y + g.layout.blk k)
    (h₂ : blockBase g k y < blockBase g j x + g.layout.blk j) :
    y / g.layout.blk j = x / g.layout.blk j := by
  have hdvd := g.layout.blk_dvd hkj
  obtain ⟨m, hm⟩ := hdvd
  have hbk := g.layout.blk_pos k
  refine div_eq_of_mem_block ?_ ?_
  · -- both bases are multiples of the smaller block
    have hle : blockBase g j x ≤ blockBase g k y := by
      by_contra hlt
      push Not at hlt
      have hmul : blockBase g j x = x / g.layout.blk j * m * g.layout.blk k := by
        unfold blockBase
        rw [hm]
        ring
      have hmul' : blockBase g k y = y / g.layout.blk k * g.layout.blk k := rfl
      rw [hmul, hmul'] at hlt
      rw [hmul, hmul', ← Nat.succ_mul] at h₁
      have h₃ := Nat.lt_of_mul_lt_mul_right hlt
      have h₄ := Nat.lt_of_mul_lt_mul_right h₁
      omega
    exact hle.trans (blockBase_le g k y)
  · have hle : blockBase g k y + g.layout.blk k ≤
        blockBase g j x + g.layout.blk j := by
      have hmul : blockBase g j x + g.layout.blk j =
          (x / g.layout.blk j * m + m) * g.layout.blk k := by
        unfold blockBase
        rw [hm]
        ring
      have hmul' : blockBase g k y + g.layout.blk k =
          (y / g.layout.blk k + 1) * g.layout.blk k := by
        unfold blockBase
        ring
      have hmul'' : blockBase g k y = y / g.layout.blk k * g.layout.blk k := rfl
      rw [hmul, hmul''] at h₂
      rw [hmul, hmul']
      exact Nat.mul_le_mul_right _ (Nat.lt_of_mul_lt_mul_right h₂)
    exact (lt_blockBase_add g k y).trans_le hle

end Blocks

/-! ## One step -/

theorem SamePath.trans {g : Granule} {r x : ℕ} {s s₁ s₂ : Mm}
    (h : SamePath g r x s s₁) (h' : SamePath g r x s₁ s₂) :
    SamePath g r x s s₂ :=
  ⟨h'.1.trans h.1, h'.2.trans h.2⟩

theorem SamePath.meets {g : Granule} {r x va size : ℕ} {s s' : Mm}
    (h : SamePath g r x s s') :
    Meets g r s' x va size ↔ Meets g r s x va size := by
  unfold Meets
  rw [h.1]

theorem meets_of_mem {g : Granule} {r x va size : ℕ} {s : Mm} (hx : va ≤ x)
    (hx' : x < va + size) : Meets g r s x va size := by
  have hle := blockBase_le g (look g.layout s.mem r x).1 x
  have hlt := lt_blockBase_add g (look g.layout s.mem r x).1 x
  exact ⟨by omega, by omega⟩

section Relation

variable {ttbAlloc : Mm → Outcome (ℕ × Mm)} {g : Granule} {c : MapArgs}
  {roots : Set ℕ} {J : Mm → Prop}

/-- The effect of a leaf step that apart from the entry leaves the tables
alone. -/
theorem LeafStep.maps_of (hroot : c.tt0 ∈ roots) {k va pa tt : ℕ} {s s' : Mm}
    (hva : va + g.layout.blk k ≤ g.space) (hgood : Good g roots J s)
    (h : LeafStep g c k va pa tt s s')
    (hsame : SameTables g.layout roots
      (Function.update s.mem (g.layout.slot k tt va) (leafEntry g c k pa))
      s'.mem) :
    Maps g c roots va pa (g.layout.blk k) s s' := by
  have hbpos := g.layout.blk_pos k
  have hlt : va < g.space := by omega
  have hbase : blockBase g k va = va := blockBase_of_dvd h.va_aligned
  have hblock : ∀ x, va ≤ x → x < va + g.layout.blk k →
      x / g.layout.blk k = va / g.layout.blk k := by
    intro x hx hx'
    refine div_eq_of_mem_block ?_ ?_
    · rwa [hbase]
    · rwa [hbase]
  refine ⟨hva, ?_, ?_, ?_⟩
  · intro r hr x hx hnot
    refine h.path_of hroot hlt hgood hsame hr hx ?_
    rintro ⟨rfl, hdiv⟩
    have hxbase := blockBase_congr hdiv
    rw [hbase] at hxbase
    have hle := blockBase_le g k x
    have hlt := lt_blockBase_add g k x
    exact hnot ⟨rfl, meets_of_mem (by omega) (by omega)⟩
  · intro x hx hout hmeets
    exfalso
    -- an entry that covers `va` from outside stops the lookup above `tt`
    obtain ⟨hlow, hhigh⟩ := hmeets
    have hstop := stops_look g.layout s.mem c.tt0 x
    generalize (look g.layout s.mem c.tt0 x).1 = j at hlow hhigh hstop
    rcases Nat.lt_or_ge k j with hkj | hjk
    · have hnest : va / g.layout.blk j = x / g.layout.blk j :=
        div_eq_of_meet (x := x) (y := va) hkj.le (by rwa [hbase])
          (by rwa [hbase])
      obtain ⟨u, hu, -, hnone⟩ := hstop.congr_key hnest.symm
      obtain ⟨w, hw, hnext⟩ := h.table.above hkj.le hu.le_top
      obtain ⟨v, hv⟩ := hnext hkj
      obtain ⟨t, ht, hentry, -⟩ := hstop.congr_key hnest.symm
      rw [hw.unique ht, hentry] at hv
      rcases hnone with hzero | hnone
      · omega
      · rw [hnone] at hv
        cases hv
    · have hnest : x / g.layout.blk k = va / g.layout.blk k :=
        div_eq_of_meet (x := va) (y := x) hjk (by rw [hbase]; exact hhigh)
          (by rw [hbase]; exact hlow)
      have hxbase := blockBase_congr hnest
      rw [hbase] at hxbase
      have hle := blockBase_le g k x
      have hlt := lt_blockBase_add g k x
      omega
  · intro x hx hx'
    have hdiv := hblock x hx hx'
    have hxbase : blockBase g k x = va := by
      rw [blockBase_congr hdiv, hbase]
    refine ⟨k, ?_, ?_, ?_, ?_⟩
    · rw [hxbase, Nat.sub_self, Nat.add_zero]
      exact stops_iff.mp
        (h.stops_of hroot hlt hgood hsame (by omega) hdiv)
    · exact hxbase.ge
    · rw [hxbase]
    · rw [hxbase, Nat.sub_self, Nat.add_zero]
      exact h.pa_aligned

theorem LeafStep.maps (henv : MapEnv ttbAlloc g c roots J)
    {k va pa tt : ℕ} {s s' : Mm} (hva : va + g.layout.blk k ≤ g.space)
    (hgood : Good g roots J s) (h : LeafStep g c k va pa tt s s') :
    Maps g c roots va pa (g.layout.blk k) s s' := by
  have hbpos := g.layout.blk_pos k
  exact h.maps_of henv.root hva hgood (h.sameTables henv (by omega) hgood)

theorem SplitStep.mapsAround (henv : MapEnv ttbAlloc g c roots J)
    {k va size : ℕ} {s s₁ s₂ : Mm} (hva : va < g.space) (hsize : 0 < size)
    (hgood : Good g roots J s) (h : SplitStep ttbAlloc g c k va s s₁)
    (hmaps : MapsAround g c.tt0 roots va size s₁ s₂) :
    MapsAround g c.tt0 roots va size s s₂ := by
  have hpath := fun {r x : ℕ} (hr : r ∈ roots) (hx : x < g.space) =>
    h.path henv.root henv.fresh hva hgood hr hx
  have hmeets : ∀ x, x < g.space →
      x / g.layout.blk (k + 1) = va / g.layout.blk (k + 1) →
      Meets g c.tt0 s x va size := by
    intro x hx hdiv
    obtain ⟨-, e, he⟩ := h.stops henv.root henv.fresh hva hgood hx hdiv
    have hlook := stops_iff.mp he
    have hbase := blockBase_congr hdiv
    have hle := blockBase_le g (k + 1) va
    have hlt := lt_blockBase_add g (k + 1) va
    unfold Meets BlockMeets
    rw [hlook, hbase]
    exact ⟨by omega, hlt⟩
  refine ⟨hmaps.fits, ?_, ?_⟩
  · intro r hr x hx hnot
    have hsame : SamePath g r x s s₁ := by
      refine hpath hr hx ?_
      rintro ⟨rfl, hdiv⟩
      exact hnot ⟨rfl, hmeets x hx hdiv⟩
    refine hsame.trans (hmaps.outside r hr x hx ?_)
    rintro ⟨rfl, hmeets₁⟩
    exact hnot ⟨rfl, hsame.meets.mp hmeets₁⟩
  · intro x hx hout hmeet
    by_cases hdiv : x / g.layout.blk (k + 1) = va / g.layout.blk (k + 1)
    · by_cases hmeet₁ : Meets g c.tt0 s₁ x va size
      · exact hmaps.partly x hx hout hmeet₁
      · have hstop := (h.stops henv.root henv.fresh hva hgood hx hdiv).1
        have hsame := hmaps.outside c.tt0 henv.root x hx
          fun hboth => hmeet₁ hboth.2
        exact ⟨k, hsame.1.trans (stops_iff.mp hstop)⟩
    · have hsame : SamePath g c.tt0 x s s₁ :=
        hpath henv.root hx fun hboth => hdiv hboth.2
      exact hmaps.partly x hx hout (hsame.meets.mpr hmeet)

theorem SplitStep.maps (henv : MapEnv ttbAlloc g c roots J)
    {k va pa size : ℕ} {s s₁ s₂ : Mm} (hva : va < g.space) (hsize : 0 < size)
    (hgood : Good g roots J s) (h : SplitStep ttbAlloc g c k va s s₁)
    (hmaps : Maps g c roots va pa size s₁ s₂) :
    Maps g c roots va pa size s s₂ := by
  have haround := h.mapsAround henv hva hsize hgood hmaps.around
  exact ⟨haround.fits, haround.outside, haround.partly, hmaps.inside⟩

theorem MapsAround.comp {root va m n : ℕ} {s s₁ s₂ : Mm} (hroot : root ∈ roots)
    (h₁ : MapsAround g root roots va m s s₁)
    (h₂ : MapsAround g root roots (va + m) n s₁ s₂) :
    MapsAround g root roots va (m + n) s s₂ := by
  have hleft : ∀ {r x : ℕ} {t : Mm}, Meets g r t x va m →
      Meets g r t x va (m + n) :=
    fun h => ⟨by have := h.1; omega, h.2⟩
  have hright : ∀ {r x : ℕ} {t : Mm}, Meets g r t x (va + m) n →
      Meets g r t x va (m + n) :=
    fun h => ⟨by have := h.1; omega, by have := h.2; omega⟩
  have hfits := h₂.fits
  refine ⟨by omega, ?_, ?_⟩
  · intro r hr x hx hnot
    have hsame : SamePath g r x s s₁ :=
      h₁.outside r hr x hx fun hboth => hnot ⟨hboth.1, hleft hboth.2⟩
    refine hsame.trans (h₂.outside r hr x hx ?_)
    rintro ⟨rfl, hmeet⟩
    exact hnot ⟨rfl, hright (hsame.meets.mp hmeet)⟩
  · intro x hx hout hmeet
    by_cases hmeet₁ : Meets g root s x va m
    · obtain ⟨k, hk⟩ := h₁.partly x hx (by omega) hmeet₁
      by_cases hmeet₂ : Meets g root s₁ x (va + m) n
      · exact h₂.partly x hx (by omega) hmeet₂
      · exact ⟨k, (h₂.outside root hroot x hx
          fun hboth => hmeet₂ hboth.2).1.trans hk⟩
    · have hsame : SamePath g root x s s₁ :=
        h₁.outside root hroot x hx fun hboth => hmeet₁ hboth.2
      refine h₂.partly x hx (by omega) (hsame.meets.mpr ?_)
      by_contra hmeet₂
      obtain ⟨hlow, hhigh⟩ := hmeet
      have hbpos := g.layout.blk_pos (look g.layout s.mem root x).1
      unfold Meets BlockMeets at hmeet₁ hmeet₂
      omega

/-- Adjacent ranges compose. -/
theorem Maps.append (hroot : c.tt0 ∈ roots) {va pa m n : ℕ}
    {s s₁ s₂ : Mm} (h₁ : Maps g c roots va pa m s s₁)
    (h₂ : Maps g c roots (va + m) (pa + m) n s₁ s₂) :
    Maps g c roots va pa (m + n) s s₂ := by
  have haround := h₁.around.comp hroot h₂.around
  have hfits := h₂.fits
  refine ⟨haround.fits, haround.outside, haround.partly, ?_⟩
  intro x hx hx'
  by_cases hxm : x < va + m
  · obtain ⟨k, hk, hlow, hhigh, hdvd⟩ := h₁.inside x hx hxm
    have hsame : SamePath g c.tt0 x s₁ s₂ := by
      refine h₂.outside c.tt0 hroot x (by omega) ?_
      rintro ⟨-, hmeet⟩
      unfold Meets at hmeet
      rw [hk] at hmeet
      obtain ⟨-, hend⟩ := hmeet
      change va + m < blockBase g k x + g.layout.blk k at hend
      omega
    exact ⟨k, hsame.1.trans hk, hlow, by omega, hdvd⟩
  · obtain ⟨k, hk, hlow, hhigh, hdvd⟩ := h₂.inside x (by omega) (by omega)
    have hshift : pa + m + (blockBase g k x - (va + m)) =
        pa + (blockBase g k x - va) := by
      omega
    rw [hshift] at hk hdvd
    exact ⟨k, hk, by omega, by omega, hdvd⟩

theorem maps_relation (henv : MapEnv ttbAlloc g c roots J) :
    MapRelation ttbAlloc g c roots J (Maps g c roots) where
  comp _ _ _ _ _ _ _ h₁ h₂ := h₁.append henv.root h₂
  leaf _ _ _ _ _ _ hva hgood h := h.maps henv hva hgood
  split _ _ _ _ _ _ _ hva hsize _ _ hgood h hmaps :=
    h.maps henv hva hsize hgood hmaps

theorem mapsAround_relation (henv : MapEnv ttbAlloc g c roots J) :
    MapRelation ttbAlloc g c roots J
      (fun va _ size => MapsAround g c.tt0 roots va size) where
  comp _ _ _ _ _ _ _ h₁ h₂ := h₁.comp henv.root h₂
  leaf _ _ _ _ _ _ hva hgood h := (h.maps henv hva hgood).around
  split _ _ _ _ _ _ _ hva hsize _ _ hgood h hmaps :=
    h.mapsAround henv hva hsize hgood hmaps

/-- A successful call has the effect `Maps`. -/
theorem mapRangeMap_maps (henv : MapEnv ttbAlloc g c roots J)
    {va pa size : ℕ} {s s' : Mm} (hadm : Admissible g va pa size)
    (hgood : Good g roots J s)
    (hok : mapRangeMap ttbAlloc g c va pa size s = .ok s') :
    Maps g c roots va pa size s s' ∧ Good g roots J s' :=
  (Outcome.sat_iff.mp
    (mapRangeMap_sat henv (maps_relation henv) hadm hgood)).1 s' hok

end Relation

end Mm

end PongoOS
