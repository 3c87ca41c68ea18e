import PongoOS.Mm.MapTranslation
import PongoOS.Mm.SpaceRefs

/-!
# Mapping one page of an address space

`vm_space_map_page_physical_prot` at a TTBR1 address is a `map_range_map` of
16 KiB, followed by a dereference of the physical page.  In a space whose
tables are sound and hold pages only, it changes the translation of that page
and of no other address.
-/

namespace PongoOS

open RadixTable

namespace Mm

/-- The tables below `root` map no blocks. -/
def PagesOnly (g : Granule) (root : ℕ) (s : Mm) : Prop :=
  ∀ x k e, x < g.space → look g.layout s.mem root x = (k, e) → IsLeaf k e →
    k = 0

/-- Sound tables with granule `g` in which calls with the arguments `c` map
pages. -/
structure PageTables (g : Granule) (c : MapArgs) (roots : Set ℕ)
    (J : Mm → Prop) (s : Mm) : Prop where
  env : MapEnv ttbpageAlloc g c roots J
  granule : ∀ m, J m → m.granule = g
  good : Good g roots J s
  pagesOnly : PagesOnly g c.tt0 s

section Page

variable {ttbAlloc : Mm → Outcome (ℕ × Mm)} {g : Granule} {c : MapArgs}
  {roots : Set ℕ} {J : Mm → Prop} {va pa : ℕ} {s s' : Mm}

theorem pgsz_dvd_page (g : Granule) : g.pgsz ∣ 0x4000 := by
  cases g <;> decide

theorem page_lt_blk (g : Granule) {k : ℕ} (hk : k ≠ 0) :
    0x4000 < g.layout.blk k := by
  have hone : 0x4000 < g.layout.blk 1 := by
    cases g <;> decide
  exact hone.trans_le (g.layout.blk_le (Nat.one_le_iff_ne_zero.mpr hk))

/-- Where only pages are mapped, a call cuts no block. -/
theorem PagesOnly.noBlockCut (h : PagesOnly g c.tt0 s) {size : ℕ}
    (hva : g.pgsz ∣ va) (hsize : g.pgsz ∣ size) :
    NoBlockCut g c.tt0 va size s := by
  intro x k e hx hlook hleaf hmeets
  obtain rfl := h x k e hx hlook hleaf
  obtain ⟨hlow, hhigh⟩ := hmeets
  have hbase : g.pgsz ∣ blockBase g 0 x := by
    unfold blockBase
    rw [g.blk_zero]
    exact Nat.dvd_mul_left _ _
  rw [g.blk_zero] at hhigh ⊢
  have hpos := g.pgsz_pos
  obtain ⟨a, ha⟩ := hbase
  obtain ⟨b, rfl⟩ := hva
  obtain ⟨n, rfl⟩ := hsize
  rw [ha, ← Nat.mul_add] at hlow
  rw [ha, ← Nat.mul_succ] at hhigh
  rw [ha, ← Nat.mul_add, ← Nat.mul_succ]
  have hlow' := Nat.lt_of_mul_lt_mul_left hlow
  have hhigh' := Nat.lt_of_mul_lt_mul_left hhigh
  exact ⟨Nat.mul_le_mul_left _ (by omega), Nat.mul_le_mul_left _ (by omega)⟩

theorem Maps.pagesOnly (h : Maps g c roots va pa 0x4000 s s')
    (hroot : c.tt0 ∈ roots) (hpages : PagesOnly g c.tt0 s) :
    PagesOnly g c.tt0 s' := by
  intro x k e hx hlook hleaf
  by_cases hin : va ≤ x ∧ x < va + 0x4000
  · obtain ⟨j, hj, hlow, hhigh, -⟩ := h.inside x hin.1 hin.2
    rw [hlook] at hj
    obtain ⟨rfl, -⟩ := Prod.mk.inj hj
    by_contra hk
    have := page_lt_blk g hk
    omega
  by_cases hmeets : Meets g c.tt0 s x va 0x4000
  · obtain ⟨j, hj⟩ := h.partly x hx (by omega) hmeets
    rw [hlook] at hj
    obtain ⟨rfl, rfl⟩ := Prod.mk.inj hj
    exact absurd hleaf (not_isLeaf_zero _)
  · have hsame := (h.outside c.tt0 hroot x hx fun hboth => hmeets hboth.2).1
    exact hpages x k e hx (hsame.symm.trans hlook) hleaf

theorem leafEntry_not_leaf (hnot : c.prot.pagingInfo = true ∨
    c.prot.read = false) (k : ℕ) : ¬ IsLeaf k (leafEntry g c k pa) := by
  rintro ⟨hvalid, -⟩
  unfold leafEntry at hvalid
  split at hvalid
  · exact pagingInfoWord_not_valid _ hvalid
  · rename_i hpi
    rw [if_neg (by rintro ⟨-, hread⟩; exact hnot.elim hpi (by simp [hread]))]
      at hvalid
    exact absurd hvalid (by decide)

/-- An address of a range that is not mapped to memory has no translation. -/
theorem Maps.translate_unmapped {size : ℕ}
    (h : Maps g c roots va pa size s s')
    (hnot : c.prot.pagingInfo = true ∨ c.prot.read = false) {x : ℕ}
    (hlow : va ≤ x) (hhigh : x < va + size) :
    translate g s'.mem c.tt0 x = none := by
  obtain ⟨j, hj, -⟩ := h.inside x hlow hhigh
  exact translate_eq_none hj (leafEntry_not_leaf hnot j)

end Page

/-! ## Writing the entries of one page -/

/-- What mapping the page at `p` relies on: the entries written for it, with
the counts they change, and the reference consumed afterwards leave the tables
as they should be. -/
structure LeafEnv (g : Granule) (c : MapArgs) (roots : Set ℕ) (J : Mm → Prop)
    (p : ℕ) : Prop where
  leaf : ∀ va pa tt s s', va < g.space → p ≤ pa → pa < p + 0x4000 →
    Good g roots J s → LeafStep g c 0 va pa tt s s' →
    J s' ∧ SameTables g.layout roots
      (Function.update s.mem (g.layout.slot 0 tt va) (leafEntry g c 0 pa))
      s'.mem
  consume : ∀ s s', Good g roots J s → physDereference p 0x4000 s = .ok s' →
    J s' ∧ SameTables g.layout roots s.mem s'.mem

theorem Good.of_sameTables {g : Granule} {roots : Set ℕ} {J : Mm → Prop}
    {s s' : Mm} (h : Good g roots J s)
    (hsame : SameTables g.layout roots s.mem s'.mem) (hJ : J s') :
    Good g roots J s' :=
  ⟨hsame.forest h.forest, hsame.allLinks h.plain, hJ⟩

theorem Maps.of_sameTables {g : Granule} {c : MapArgs} {roots : Set ℕ}
    {va pa size : ℕ} {s s₁ s' : Mm} (h : Maps g c roots va pa size s s₁)
    (hsame : SameTables g.layout roots s₁.mem s'.mem)
    (hroot : c.tt0 ∈ roots) : Maps g c roots va pa size s s' := by
  have hpath : ∀ r ∈ roots, ∀ x, x < g.space → SamePath g r x s₁ s' :=
    fun r hr x hx => hsame.path hr (g.space_eq ▸ hx)
  have hfits := h.fits
  refine ⟨hfits, fun r hr x hx hnot => (h.outside r hr x hx hnot).trans
    (hpath r hr x hx), fun x hx hout hmeets => ?_, fun x hlow hhigh => ?_⟩
  · obtain ⟨k, hk⟩ := h.partly x hx hout hmeets
    exact ⟨k, (hpath _ hroot x hx).1.trans hk⟩
  · obtain ⟨k, hk, hrest⟩ := h.inside x hlow hhigh
    exact ⟨k, (hpath _ hroot x (by omega)).1.trans hk, hrest⟩

section Entries

variable {ttbAlloc : Mm → Outcome (ℕ × Mm)} {g : Granule} {c c' : MapArgs}
  {roots : Set ℕ} {J : Mm → Prop} {va pa p tt : ℕ} {s s' : Mm}

theorem mapBlock_page (hroot : c.tt0 ∈ roots) (henv : LeafEnv g c roots J p)
    (hgood : Good g roots J s) (htt : TableOn g.layout s.mem c.tt0 va 0 tt)
    (hva : g.pgsz ∣ va) (hpa : g.pgsz ∣ pa) (hlow : p ≤ pa)
    (hhigh : pa < p + 0x4000) (hfits : va + g.pgsz ≤ g.space)
    (hok : mapBlock g c g.pgsz tt va pa s = .ok s') :
    Maps g c roots va pa g.pgsz s s' ∧ Good g roots J s' ∧
      Kept g roots 0 s s' := by
  have hpos := g.pgsz_pos
  have hlt : va < g.space := by omega
  have hstep : LeafStep g c 0 va pa tt s s' :=
    ⟨htt, by rwa [g.blk_zero], by rwa [g.blk_zero], by rwa [g.blk_zero]⟩
  obtain ⟨hJ, hsame⟩ := henv.leaf va pa tt s s' hlt hlow hhigh hgood hstep
  obtain ⟨hforest, hplain⟩ := hstep.forest_of hroot hlt hgood hsame
  have hmaps := hstep.maps_of hroot (by rwa [g.blk_zero]) hgood hsame
  rw [g.blk_zero] at hmaps
  exact ⟨hmaps, ⟨hforest, hplain, hJ⟩, hstep.kept_of hroot hlt hgood hsame⟩

/-- The block loop on the last level writes one entry after the other. -/
theorem mapBlocks_page {again : ℕ → ℕ → ℕ → Mm → Outcome Mm} {n : ℕ}
    (hroot : c.tt0 ∈ roots) (henv : LeafEnv g c roots J p)
    (hgood : Good g roots J s) (htt : TableOn g.layout s.mem c.tt0 va 0 tt)
    (hva : g.pgsz ∣ va) (hpa : g.pgsz ∣ pa) (hlow : p ≤ pa)
    (hhigh : pa + (n + 1) * g.pgsz ≤ p + 0x4000)
    (hfits : va + (n + 1) * g.pgsz ≤ g.space)
    (hblock : va / g.layout.blk 1 =
      (va + (n + 1) * g.pgsz - 1) / g.layout.blk 1)
    (hok : mapBlocks again g c g.pgsz tt (n + 1) va va pa ((n + 1) * g.pgsz) s
      = .ok s') :
    Maps g c roots va pa ((n + 1) * g.pgsz) s s' ∧ Good g roots J s' := by
  have hpos := g.pgsz_pos
  induction n generalizing va pa s with
  | zero =>
      rw [Nat.zero_add, Nat.one_mul] at *
      simp only [mapBlocks, Nat.sub_self, Nat.sub_zero, Nat.min_self, mapPiece,
        lt_irrefl, if_false, Outcome.bind_eq_ok] at hok
      rw [if_neg (by rw [Nat.mod_eq_zero_of_dvd hpa]; decide)] at hok
      obtain ⟨s₁, hone, hend⟩ := hok
      cases hend
      have h := mapBlock_page hroot henv hgood htt hva hpa hlow (by omega)
        hfits hone
      exact ⟨h.1, h.2.1⟩
  | succ n ih =>
      have hsize : (n + 1 + 1) * g.pgsz = g.pgsz + (n + 1) * g.pgsz := by
        rw [Nat.succ_mul, Nat.add_comm]
      rw [mapBlocks] at hok
      simp only [Nat.sub_self, Nat.sub_zero] at hok
      rw [Nat.min_eq_left (by omega), hsize, Nat.add_sub_cancel_left] at hok
      simp only [mapPiece, lt_irrefl, if_false, Outcome.bind_eq_ok] at hok
      rw [if_neg (by rw [Nat.mod_eq_zero_of_dvd hpa]; decide)] at hok
      obtain ⟨s₁, hone, hrest⟩ := hok
      obtain ⟨hmaps, hgood₁, hkept⟩ := mapBlock_page hroot henv hgood htt hva
        hpa hlow (by omega) (by omega) hone
      have hsame : va / g.layout.blk 1 = (va + g.pgsz) / g.layout.blk 1 := by
        have h₁ : va / g.layout.blk 1 ≤ (va + g.pgsz) / g.layout.blk 1 :=
          Nat.div_le_div_right (by omega)
        have h₂ : (va + g.pgsz) / g.layout.blk 1 ≤
            (va + (n + 1 + 1) * g.pgsz - 1) / g.layout.blk 1 :=
          Nat.div_le_div_right (by rw [hsize, Nat.succ_mul]; omega)
        omega
      have htt₁ : TableOn g.layout s₁.mem c.tt0 (va + g.pgsz) 0 tt :=
        (hkept c.tt0 hroot va 0 tt (by omega) le_rfl htt).congr_key hsame
      have hnext := ih hgood₁ htt₁ (Nat.dvd_add hva dvd_rfl)
        (Nat.dvd_add hpa dvd_rfl) (by omega) (by omega) (by omega)
        (by rw [← hsame, hblock, hsize, Nat.add_assoc]) hrest
      rw [hsize]
      exact ⟨hmaps.append hroot hnext.1, hnext.2⟩

/-- The descent only looks at whether tables may be overwritten. -/
theorem descend_congr (h : c.overwrite = c'.overwrite) (size fuel bits : ℕ) :
    descend ttbAlloc g c va size fuel bits tt s =
      descend ttbAlloc g c' va size fuel bits tt s := by
  induction fuel generalizing bits tt s with
  | zero => rfl
  | succ fuel ih =>
      unfold descend
      simp only [h, ih]

/-- A range of 16 KiB at a multiple of its size lies in one block of every
level above the last. -/
theorem page_strictlyInside (g : Granule) (hva : 0x4000 ∣ va) :
    StrictlyInside g 1 va 0x4000 := by
  refine ⟨page_lt_blk g Nat.one_ne_zero, ?_⟩
  obtain ⟨q, rfl⟩ := hva
  obtain ⟨m, hm⟩ : 0x4000 ∣ g.layout.blk 1 := by
    cases g <;> decide
  rw [hm, ← Nat.div_div_eq_div_mul, ← Nat.div_div_eq_div_mul,
    show 0x4000 * q / 0x4000 = q by omega,
    show (0x4000 * q + 0x4000 - 1) / 0x4000 = q by omega]

/-- A call that returns has passed the check of its arguments. -/
theorem mapRangeMap_lt {size : ℕ}
    (hok : mapRangeMap ttbAlloc g c va pa size s = .ok s') :
    pa + size < 2 ^ 64 := by
  unfold mapRangeMap mapRangeMapFuel at hok
  simp only [Outcome.bind_eq_ok, panicIf_eq_ok] at hok
  obtain ⟨-, hbad, -⟩ := hok
  by_contra hge
  exact hbad (.inr (.inr (.inr (.inr (.inr (Nat.not_lt.mp hge))))))

/-- Mapping 16 KiB at a multiple of its size writes the entries of that page
and nothing else that a lookup sees. -/
theorem mapRangeMap_page (htables : MapEnv ttbAlloc g c' roots J)
    (htt0 : c'.tt0 = c.tt0) (hover : c.overwrite = true)
    (henv : LeafEnv g c roots J p) (hgood : Good g roots J s)
    (hadm : Admissible g va p 0x4000) (hva : 0x4000 ∣ va)
    (hok : mapRangeMap ttbAlloc g c va p 0x4000 s = .ok s') :
    Maps g c roots va p 0x4000 s s' ∧ Good g roots J s' := by
  have hroot : c.tt0 ∈ roots := htt0 ▸ htables.root
  have hin := page_strictlyInside g hva
  unfold mapRangeMap mapRangeMapFuel at hok
  simp only [spaceOffset_of_lt c.isTt1 hadm.va_lt, Outcome.bind_eq_ok,
    panicIf_eq_ok] at hok
  obtain ⟨-, -, ⟨⟨bits, tt⟩, s₁⟩, hdescend, hloop⟩ := hok
  rw [descend_congr (hover.trans htables.overwrite.symm), g.rootBits_eq,
    ← htt0] at hdescend
  have htop : va / g.layout.blk (g.topLevel + 1) =
      (va + 0x4000 - 1) / g.layout.blk (g.topLevel + 1) :=
    g.layout.div_blk_eq (Nat.le_add_left _ _) hin.2
  have hsplit := (mapsAround_relation htables).split
  obtain ⟨j, hj⟩ := (Outcome.sat_iff.mp (descend_sat
    (Q := fun va _ size => MapsAround g c'.tt0 roots va size)
    htables.descent hadm
    (fun k s s₁ s₂ => hsplit k va p 0x4000 s s₁ s₂ hadm.va_lt hadm.size_pos)
    (Nat.lt_succ_self _) hgood TableOn.root htop)).1 _ hdescend
  obtain rfl : j = 0 := by
    have := hj.below 1 (by cases g <;> decide) hin
    omega
  obtain rfl : bits = g.bitsAt 0 := hj.bits
  obtain ⟨n, hn⟩ : ∃ n, 0x4000 = (n + 1) * g.pgsz := by
    cases g
    · exact ⟨3, rfl⟩
    · exact ⟨0, rfl⟩
  have hcount : (va + 0x4000 - 1) / g.pgsz - va / g.pgsz + 1 = n + 1 := by
    obtain ⟨q, rfl⟩ := hadm.va_aligned
    have hpos := g.pgsz_pos
    have hend : g.pgsz * q + 0x4000 - 1 = g.pgsz - 1 + (q + n) * g.pgsz := by
      rw [hn, Nat.succ_mul, Nat.add_mul, Nat.mul_comm g.pgsz q]
      omega
    rw [hend, Nat.add_mul_div_right _ _ hpos, Nat.mul_div_cancel_left _ hpos,
      Nat.div_eq_of_lt (by omega)]
    omega
  simp only [g.two_pow_bitsAt, g.blk_zero] at hloop
  rw [block_count g.pgsz_pos hadm.size_pos, hcount,
    Nat.div_mul_cancel hadm.va_aligned] at hloop
  have htable := hj.table
  rw [htt0] at htable
  have hfits := hadm.va_fits
  have hblock := hin.2
  rw [hn] at hloop hfits hblock
  obtain ⟨hmaps, hgood'⟩ := mapBlocks_page hroot henv hj.good htable
    hadm.va_aligned hadm.pa_aligned le_rfl (by rw [← hn]) hfits hblock hloop
  rw [← hn] at hmaps
  have haround := hj.carry s' (htt0 ▸ hmaps.around)
  rw [htt0] at haround
  exact ⟨⟨hmaps.fits, haround.outside, haround.partly, hmaps.inside⟩, hgood'⟩

end Entries

end Mm

namespace Vm

/-- The arguments of the call for a TTBR1 address of the space at `a`. -/
def pageArgs (s : Vm) (a physical : ℕ) (prot : Prot) : MapArgs where
  tt0 := (s.space a).ttbr1
  sh := if prot.device then 3 else 2
  attridx := if prot.device then 0 else 1
  overwrite := true
  pagingInfo := if prot.pagingInfo then physical else 0
  prot := { prot with
    kernOnly := prot.kernOnly || a == kernel
    device := false }
  isTt1 := true

section Page

variable {a vaddr physical : ℕ} {prot : Prot} {s s' : Vm}

/-- A call at a TTBR1 address that returns. -/
theorem vmSpaceMapPagePhysicalProt_tt1 (hva : vaddr / 2 ^ 60 % 8 ≠ 0)
    (hok : s.vmSpaceMapPagePhysicalProt a vaddr physical prot = .ok s') :
    ∃ mm, Mm.mapRangeMap Mm.ttbpageAlloc s.mm.granule
        (s.pageArgs a physical prot) vaddr
        (if prot.pagingInfo then 0 else physical) 0x4000 s.mm = .ok mm ∧
      (prot.pagingInfo = true ∧ s' = s.setMm mm ∨
        prot.pagingInfo = false ∧ physical % 0x4000 = 0 ∧
          ∃ mm', Mm.physDereference physical 0x4000 mm = .ok mm' ∧
            s' = s.setMm mm') := by
  simp only [vmSpaceMapPagePhysicalProt, if_pos hva, Outcome.bind_eq_ok,
    Outcome.pure_eq_ok, panicIf_eq_ok] at hok
  obtain ⟨-, haligned, mm, hmap, mm', hconsume, rfl⟩ := hok
  refine ⟨mm, hmap, ?_⟩
  cases hpi : prot.pagingInfo with
  | true =>
      simp only [hpi, if_true, Outcome.pure_eq_ok] at hconsume
      exact .inl ⟨rfl, by rw [hconsume]⟩
  | false =>
      simp only [hpi, Bool.false_eq_true, if_false] at hconsume
      simp only [hpi, Bool.false_eq_true, not_false_eq_true, and_true,
        not_not] at haligned
      exact .inr ⟨rfl, haligned, mm', hconsume, rfl⟩

end Page

/-! ## Pages of the managed range -/

/-- `x` is the offset of an address on page `i` of the managed range. -/
def OnPage (g : Granule) (i x : ℕ) : Prop :=
  Mm.spaceOffset g true vmSpaceBase + i * pageSize ≤ x ∧
    x < Mm.spaceOffset g true vmSpaceBase + (i + 1) * pageSize

/-- The pages that `P` names have no translation from `root`, and every other
address has the one it had. -/
structure Unmapped (g : Granule) (root : ℕ) (roots : Set ℕ) (P : ℕ → Prop)
    (s s' : Mm) : Prop where
  inside : ∀ i x, P i → OnPage g i x → x < g.space →
    translate g s'.mem root x = none
  outside : ∀ r ∈ roots, ∀ x, x < g.space →
    ¬ (r = root ∧ ∃ i, P i ∧ OnPage g i x) →
    translate g s'.mem r x = translate g s.mem r x

namespace Unmapped

variable {g : Granule} {root : ℕ} {roots : Set ℕ} {P Q : ℕ → Prop}
  {s s₁ s₂ : Mm}

theorem refl (hnone : ∀ i, ¬ P i) : Unmapped g root roots P s s :=
  ⟨fun i _ hi => absurd hi (hnone i), fun _ _ _ _ _ => rfl⟩

theorem comp (h : Unmapped g root roots P s s₁)
    (h' : Unmapped g root roots Q s₁ s₂) (hroot : root ∈ roots) :
    Unmapped g root roots (fun i => P i ∨ Q i) s s₂ := by
  constructor
  · intro i x hi hon hx
    by_cases hQ : ∃ j, Q j ∧ OnPage g j x
    · obtain ⟨j, hj, honj⟩ := hQ
      exact h'.inside j x hj honj hx
    · rw [h'.outside root hroot x hx fun hboth => hQ hboth.2]
      exact h.inside i x (hi.resolve_right fun hi => hQ ⟨i, hi, hon⟩) hon hx
  · intro r hr x hx hnot
    have hP : ¬ (r = root ∧ ∃ i, P i ∧ OnPage g i x) :=
      fun ⟨hroot, i, hi, hon⟩ => hnot ⟨hroot, i, .inl hi, hon⟩
    have hQ : ¬ (r = root ∧ ∃ i, Q i ∧ OnPage g i x) :=
      fun ⟨hroot, i, hi, hon⟩ => hnot ⟨hroot, i, .inr hi, hon⟩
    exact (h'.outside r hr x hx hQ).trans (h.outside r hr x hx hP)

theorem congr (h : Unmapped g root roots P s s₁)
    (hPQ : ∀ i, P i ↔ Q i) : Unmapped g root roots Q s s₁ := by
  rwa [show Q = P from funext fun i => propext (hPQ i).symm]

end Unmapped

/-- The managed range lies in the upper half of the address space. -/
theorem managed_inSpace (g : Granule) :
    Mm.InSpace g true vmSpaceBase (2 ^ 33) := by
  unfold Mm.InSpace
  cases g <;> decide

section Managed

variable {g : Granule} {i x : ℕ}

theorem spaceOffset_managed (g : Granule) (hi : i < 2 ^ 18) :
    Mm.spaceOffset g true (vmSpaceBase + i * pageSize) =
        Mm.spaceOffset g true vmSpaceBase + i * pageSize ∧
      Mm.spaceOffset g true vmSpaceBase + (i + 1) * pageSize ≤ g.space := by
  obtain ⟨heq, hle⟩ := Mm.spaceOffset_add (managed_inSpace g)
    (k := i * pageSize) (by unfold pageSize; omega)
  refine ⟨heq, ?_⟩
  unfold pageSize at *
  omega

theorem page_inSpace (g : Granule) (hi : i < 2 ^ 18) :
    Mm.InSpace g true (vmSpaceBase + i * pageSize) 0x4000 := by
  have h := managed_inSpace g
  unfold Mm.InSpace at *
  rw [if_pos rfl] at *
  unfold pageSize
  omega

theorem pgsz_dvd_managed (g : Granule) (i : ℕ) :
    g.pgsz ∣ vmSpaceBase + i * pageSize :=
  Nat.dvd_add (by cases g <;> decide)
    (Dvd.dvd.mul_left (by cases g <;> decide) _)

/-- The addresses of the managed range have a bit of the mask
`0x7000000000000000`. -/
theorem managed_tt1 (hi : i < 2 ^ 18) :
    (vmSpaceBase + i * pageSize) / 2 ^ 60 % 8 ≠ 0 := by
  unfold vmSpaceBase pageSize
  omega

theorem managed_mod (hi : i < 2 ^ 18) :
    i * pageSize % 2 ^ 32 = i * pageSize :=
  Nat.mod_eq_of_lt (by unfold pageSize; omega)

end Managed

section Unmapping

variable {a i physical : ℕ} {prot : Prot} {s s' : Vm} {g : Granule}
  {roots : Set ℕ} {J : Mm → Prop}

theorem pageArgs_congr (h : (s'.space a).ttbr1 = (s.space a).ttbr1) :
    s'.pageArgs a physical prot = s.pageArgs a physical prot := by
  unfold pageArgs
  rw [h]

theorem setTableBit_ttbr1 {b : Bool} :
    ((s.setTableBit a i b).space a).ttbr1 = (s.space a).ttbr1 := by
  rw [setTableBit, setSpace_space, Function.update_self]

/-- One page is unmapped. -/
theorem vmDeallocatePage_unmaps
    (h : Mm.PageTables g (s.pageArgs a 0 noProt) roots J s.mm)
    (hi : i < 2 ^ 18) (hok : vmDeallocatePage a i s = .ok s') :
    (s'.space a).ttbr1 = (s.space a).ttbr1 ∧
      Mm.PageTables g (s.pageArgs a 0 noProt) roots J s'.mm ∧
      Unmapped g (s.space a).ttbr1 roots (fun j => j = i) s.mm s'.mm := by
  obtain ⟨s₁, hmap, hset⟩ := Outcome.bind_eq_ok.mp hok
  obtain rfl := Outcome.pure_eq_ok.mp hset
  rw [managed_mod hi] at hmap
  have hspace := (vmSpaceMapPagePhysicalProt_frame hmap).1
  refine ⟨by rw [setTableBit_ttbr1, hspace], ?_⟩
  show Mm.PageTables g _ roots J s₁.mm ∧ Unmapped g _ roots _ s.mm s₁.mm
  obtain ⟨mm, hmm, ⟨hpi, -⟩ | ⟨-, -, mm', hconsume, rfl⟩⟩ :=
    vmSpaceMapPagePhysicalProt_tt1 (managed_tt1 hi) hmap
  · cases hpi
  rw [Mm.physDereference_ignored (.inl rfl)] at hconsume
  obtain rfl := Except.ok.inj hconsume
  obtain ⟨hoffset, hfits⟩ := spaceOffset_managed g hi
  have hin := page_inSpace g hi
  have hpage := Mm.pgsz_dvd_page g
  have hadm := hin.admissible (pgsz_dvd_managed g i) (dvd_zero _) hpage
    (by decide) (by decide)
  rw [hoffset] at hadm
  rw [h.granule s.mm h.good.inv, ← Mm.mapRangeMap_spaceOffset] at hmm
  rw [show (s.pageArgs a 0 noProt).isTt1 = true from rfl, hoffset] at hmm
  obtain ⟨hmaps, hgood⟩ := Mm.mapRangeMap_maps h.env hadm h.good hmm
  have hroot := h.env.root
  refine ⟨⟨h.env, h.granule, hgood, hmaps.pagesOnly hroot h.pagesOnly⟩, ?_⟩
  have hend : Mm.spaceOffset g true vmSpaceBase + (i + 1) * pageSize =
      Mm.spaceOffset g true vmSpaceBase + i * pageSize + 0x4000 := by
    unfold pageSize
    omega
  constructor
  · rintro j x rfl ⟨hlow, hhigh⟩ -
    exact hmaps.translate_unmapped (.inr rfl) hlow (hend ▸ hhigh)
  · intro r hr x hx hnot
    have hframe := (hmaps.frame_iff hroot).mpr
      (h.pagesOnly.noBlockCut hadm.va_aligned hpage)
    refine hframe r hr x hx fun ⟨hr', hlow, hhigh⟩ => ?_
    exact hnot ⟨hr', i, rfl, hlow, hend ▸ hhigh⟩

/-- A run of pages is unmapped. -/
theorem forRange_unmaps {n : ℕ}
    (h : Mm.PageTables g (s.pageArgs a 0 noProt) roots J s.mm)
    (hn : i + n ≤ 2 ^ 18)
    (hrun : Outcome.forRange (fun i => vmDeallocatePage a i) i n s = .ok s') :
    Unmapped g (s.space a).ttbr1 roots (fun j => i ≤ j ∧ j < i + n) s.mm
      s'.mm := by
  refine (Outcome.forRange_invariant
    (P := fun k s₁ => (s₁.space a).ttbr1 = (s.space a).ttbr1 ∧
      Mm.PageTables g (s.pageArgs a 0 noProt) roots J s₁.mm ∧
      Unmapped g (s.space a).ttbr1 roots (fun j => i ≤ j ∧ j < k) s.mm s₁.mm)
    ?_ ⟨rfl, h, Unmapped.refl fun j => by omega⟩ hrun).2.2
  rintro k s₁ s₂ hk hkn ⟨hroot, htables, hunmapped⟩ hpage
  rw [← pageArgs_congr hroot] at htables
  obtain ⟨hroot', htables', hone⟩ :=
    vmDeallocatePage_unmaps htables (by omega) hpage
  rw [hroot] at hone
  refine ⟨hroot'.trans hroot, pageArgs_congr hroot ▸ htables',
    (hunmapped.comp hone h.env.root).congr fun j => ?_⟩
  omega

end Unmapping

end Vm

end PongoOS
