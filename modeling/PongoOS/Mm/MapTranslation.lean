import PongoOS.Mm.Boot
import PongoOS.Mm.EarlyTables
import PongoOS.Mm.MapSpec

/-!
# `map_range_map` and the architectural walk

The mapping asked for is the one the walk finds afterwards, as long as the
physical range stays below `2 ^ 48`, where the output address field ends.  The
rest of the space keeps its translations unless a block that reaches beyond
the range is cut: the part of that block outside the range is lost.
-/

namespace PongoOS

open RadixTable

namespace Mm

/-! ## Virtual addresses -/

/-- `[va, va + size)` lies in the half of the address space that the table
translates. -/
def InSpace (g : Granule) (isTt1 : Bool) (va size : ℕ) : Prop :=
  if isTt1 then 2 ^ 64 - g.space ≤ va ∧ va + size ≤ 2 ^ 64
  else va + size ≤ g.space

theorem spaceOffset_add {g : Granule} {isTt1 : Bool} {va size k : ℕ}
    (h : InSpace g isTt1 va size) (hk : k < size) :
    spaceOffset g isTt1 (va + k) = spaceOffset g isTt1 va + k ∧
      spaceOffset g isTt1 va + size ≤ g.space := by
  unfold InSpace at h
  cases isTt1 with
  | false =>
      rw [if_neg (by decide)] at h
      rw [spaceOffset_of_lt false (by omega),
        spaceOffset_of_lt false (by omega)]
      exact ⟨rfl, h⟩
  | true =>
      rw [if_pos rfl] at h
      unfold spaceOffset Granule.space at *
      rw [if_pos rfl, if_pos rfl]
      unfold sub64
      cases g with
      | kb4 =>
          have hbits : 64 - Granule.kb4.tsz = 39 := rfl
          have hbase : 65 - Granule.kb4.tsz = 40 := rfl
          rw [hbits] at h ⊢
          rw [hbase]
          omega
      | kb16 =>
          have hbits : 64 - Granule.kb16.tsz = 36 := rfl
          have hbase : 65 - Granule.kb16.tsz = 37 := rfl
          rw [hbits] at h ⊢
          rw [hbase]
          omega

theorem spaceOffset_lt (g : Granule) (isTt1 : Bool) (va : ℕ) :
    spaceOffset g isTt1 va < g.space := by
  unfold spaceOffset Granule.space
  split <;> exact Nat.mod_lt _ (Nat.two_pow_pos _)

theorem pgsz_dvd_spaceOffset {g : Granule} {isTt1 : Bool} {va : ℕ}
    (hva : g.pgsz ∣ va) : g.pgsz ∣ spaceOffset g isTt1 va := by
  cases isTt1 with
  | false => exact (Nat.dvd_mod_iff (by cases g <;> decide)).mpr hva
  | true =>
      unfold spaceOffset sub64
      rw [if_pos rfl]
      refine (Nat.dvd_mod_iff (by cases g <;> decide)).mpr
        ((Nat.dvd_mod_iff (by cases g <;> decide)).mpr ?_)
      exact Nat.dvd_sub (Nat.dvd_add hva (by cases g <;> decide))
        (by cases g <;> decide)

theorem InSpace.admissible {g : Granule} {isTt1 : Bool} {va pa size : ℕ}
    (h : InSpace g isTt1 va size) (hva : g.pgsz ∣ va) (hpa : g.pgsz ∣ pa)
    (hsize : g.pgsz ∣ size) (hpos : 0 < size) (hlt : pa + size < 2 ^ 64) :
    Admissible g (spaceOffset g isTt1 va) pa size :=
  ⟨pgsz_dvd_spaceOffset hva, hpa, hsize, hpos, (spaceOffset_add h hpos).2,
    hlt⟩

/-- The call only depends on the offset of `va` into the space. -/
theorem mapRangeMap_spaceOffset (ttbAlloc : Mm → Outcome (ℕ × Mm))
    (g : Granule) (c : MapArgs) (va pa size : ℕ) (s : Mm) :
    mapRangeMap ttbAlloc g c (spaceOffset g c.isTt1 va) pa size s =
      mapRangeMap ttbAlloc g c va pa size s := by
  unfold mapRangeMap mapRangeMapFuel
  rw [spaceOffset_of_lt c.isTt1 (spaceOffset_lt g c.isTt1 va)]

/-! ## The requested translation -/

/-- What a mapping with the arguments `c` asks for at physical address
`pa`. -/
def requested (c : MapArgs) (pa : ℕ) : Translation where
  pa := pa
  attr := c.attridx % 2 ^ 3
  ns := false
  ap1 := c.isTt1 ∧ ¬ c.prot.kernOnly
  ap2 := ¬ c.prot.write
  sh := c.sh % 2 ^ 2
  af := true
  nG := c.isTt1
  pxn := ¬ c.prot.exec ∨ (c.isTt1 ∧ ¬ c.prot.kernOnly)
  uxn := ¬ (c.isTt1 ∧ c.prot.exec)

/-- A plain link restricts nothing. -/
theorem plain_fields {w : ℕ} (h : Tte.Plain w) :
    Tte.nstab w = 0 ∧ Tte.aptab w = 0 ∧ Tte.pxntab w = 0 ∧
      Tte.uxntab w = 0 := by
  unfold Tte.Plain at h
  unfold Tte.nstab Tte.aptab Tte.pxntab Tte.uxntab field
  omega

theorem leafTranslation_leafWord {g : Granule} {c : MapArgs} {path : List ℕ}
    {k pa x : ℕ} {last : Bool} (hpath : ∀ w ∈ path, Tte.Plain w)
    (hpa : g.layout.blk k ∣ pa) (hlt : pa < 2 ^ 48) :
    leafTranslation g path k (leafWord c last pa) x =
      requested c (pa + x % g.layout.blk k) := by
  obtain ⟨-, -, hattr, hns, hap, hsh, haf, hnG, hoa, hpxn, huxn⟩ :=
    leafWord_fields c last pa
  have hfour : 0x1000 ∣ pa :=
    (g.four_kb_dvd_pgsz.trans (g.pgsz_dvd_blk k)).trans hpa
  have haddr : Tte.oaAddr (leafWord c last pa) = pa := by
    unfold Tte.oaAddr
    rw [hoa]
    omega
  have hns0 : ¬ ∃ w ∈ path, Tte.nstab w = 1 := by
    rintro ⟨w, hw, heq⟩
    rw [(plain_fields (hpath w hw)).1] at heq
    omega
  have hap0 : ¬ ∃ w ∈ path, Tte.aptab w / 2 = 1 := by
    rintro ⟨w, hw, heq⟩
    rw [(plain_fields (hpath w hw)).2.1] at heq
    omega
  have hap1 : ∀ w ∈ path, Tte.aptab w % 2 = 0 := by
    intro w hw
    rw [(plain_fields (hpath w hw)).2.1]
  have hpxn0 : ¬ ∃ w ∈ path, Tte.pxntab w = 1 := by
    rintro ⟨w, hw, heq⟩
    rw [(plain_fields (hpath w hw)).2.2.1] at heq
    omega
  have huxn0 : ¬ ∃ w ∈ path, Tte.uxntab w = 1 := by
    rintro ⟨w, hw, heq⟩
    rw [(plain_fields (hpath w hw)).2.2.2] at heq
    omega
  unfold leafTranslation requested
  rw [haddr, hattr, hns, hap, hsh, haf, hnG, hpxn, huxn,
    Nat.div_mul_cancel hpa]
  simp only [hns0, hap0, hpxn0, huxn0, or_false, and_iff_left hap1]
  unfold leafAp leafPxn leafUxn
  cases hw : c.prot.write <;> cases hx : c.prot.exec <;>
    cases hk : c.prot.kernOnly <;> cases ht : c.isTt1 <;> simp

section Claims

variable {ttbAlloc : Mm → Outcome (ℕ × Mm)} {g : Granule} {c : MapArgs}
  {roots : Set ℕ} {J : Mm → Prop} {va pa size : ℕ} {s s' : Mm}

/-- An address inside the range is translated as requested. -/
theorem Maps.translate_inside (h : Maps g c roots va pa size s s')
    (hroot : c.tt0 ∈ roots) (hgood : Good g roots J s')
    (hpa : pa ≠ 0) (hlt : pa + size ≤ 2 ^ 48)
    (hread : c.prot.read = true) (hpi : c.prot.pagingInfo = false)
    {k : ℕ} (hk : k < size) :
    translate g s'.mem c.tt0 (va + k) = some (requested c (pa + k)) := by
  obtain ⟨j, hlook, hlow, hhigh, hdvd⟩ :=
    h.inside (va + k) (Nat.le_add_right _ _) (by omega)
  have hle := blockBase_le g j (va + k)
  have hmod := blockBase_add_mod g j (va + k)
  have hfits := h.fits
  generalize hbase : blockBase g j (va + k) = base at *
  have hentry : leafEntry g c j (pa + (base - va)) =
      leafWord c (g.layout.blk j = g.pgsz) (pa + (base - va)) := by
    unfold leafEntry
    rw [hpi, if_neg (by decide), if_pos ⟨by omega, hread⟩]
  rw [hentry] at hlook
  obtain ⟨hvalid, htable, -⟩ :=
    leafWord_fields c (g.layout.blk j = g.pgsz) (pa + (base - va))
  have hleaf : IsLeaf j
      (leafWord c (g.layout.blk j = g.pgsz) (pa + (base - va))) := by
    refine ⟨hvalid, htable.trans ?_⟩
    rw [decide_eq_true_iff, g.blk_eq_pgsz_iff]
  have hplain : ∀ w ∈ links g.layout s'.mem c.tt0 (va + k), Tte.Plain w :=
    fun w hw => hgood.plain.links hroot (by rw [g.space_eq]; omega) hw
  unfold translate
  simp only [hlook]
  rw [if_pos hleaf, leafTranslation_leafWord hplain hdvd (by omega)]
  rw [show pa + (base - va) + (va + k) % g.layout.blk j = pa + k by omega]

/-- After the call every address of the range is translated as requested.  The
call returns unless `ttb_alloc` or a reference counter stops the machine. -/
theorem mapRangeMap_translates (henv : MapEnv ttbAlloc g c roots J)
    (hgood : Good g roots J s) (hspace : InSpace g c.isTt1 va size)
    (hvap : g.pgsz ∣ va) (hpap : g.pgsz ∣ pa) (hsizep : g.pgsz ∣ size)
    (hsize : g.pgsz ≤ size) (hpa : pa ≠ 0) (hlt : pa + size ≤ 2 ^ 48)
    (hread : c.prot.read = true) (hpi : c.prot.pagingInfo = false) :
    (∃ s', mapRangeMap ttbAlloc g c va pa size s = .ok s' ∧
      ∀ k, k < size →
        translate g s'.mem c.tt0 (spaceOffset g c.isTt1 (va + k)) =
          some (requested c (pa + k))) ∨
    ∃ e, mapRangeMap ttbAlloc g c va pa size s = .error e ∧
      MapStop ttbAlloc c.isTt1 e := by
  have hadm := hspace.admissible hvap hpap hsizep (g.pgsz_pos.trans_le hsize)
    (hlt.trans_lt (by decide))
  have hsat := Outcome.sat_iff.mp
    (mapRangeMap_sat henv (maps_relation henv) hadm hgood)
  rw [mapRangeMap_spaceOffset] at hsat
  cases hrun : mapRangeMap ttbAlloc g c va pa size s with
  | ok s' =>
      obtain ⟨hmaps, hgood'⟩ := hsat.1 s' hrun
      refine Or.inl ⟨s', rfl, fun k hk => ?_⟩
      rw [(spaceOffset_add hspace hk).1]
      exact hmaps.translate_inside henv.root hgood' hpa hlt hread hpi hk
  | error e => exact Or.inr ⟨e, rfl, hsat.2 e hrun⟩

end Claims

/-! ### On the boot machine -/

/-- The arguments of `map_range_noflush_rw` for a root at `0x817ff8000`. -/
def rwArgs : MapArgs where
  tt0 := 0x817ff8000
  sh := 3
  attridx := 1
  overwrite := true
  pagingInfo := 0
  prot := ⟨true, true, false, false, true, false⟩
  isTt1 := false

theorem good_bootExample :
    Good .kb16 {0x817ff8000} (EarlyInv .kb16 {0x817ff8000}) bootExample :=
  good_of_no_links (fun _ => Granule.child_zero _) (by decide) (by decide)
    (by decide) (by decide)

theorem rwArgs_env :
    MapEnv (earlyTables .kb16) .kb16 rwArgs {0x817ff8000}
      (EarlyInv .kb16 {0x817ff8000}) :=
  earlyTables_env rfl rfl rfl

/-- The theorem on a page of RAM mapped at address zero. -/
theorem mapRangeMap_translates_bootExample :
    (∃ s', mapRangeMap (earlyTables .kb16) .kb16 rwArgs 0 0x818000000 0x4000
        bootExample = .ok s' ∧
      ∀ k, k < 0x4000 →
        translate .kb16 s'.mem 0x817ff8000 (spaceOffset .kb16 false (0 + k)) =
          some (requested rwArgs (0x818000000 + k))) ∨
    ∃ e, mapRangeMap (earlyTables .kb16) .kb16 rwArgs 0 0x818000000 0x4000
        bootExample = .error e ∧ MapStop (earlyTables .kb16) false e :=
  mapRangeMap_translates rwArgs_env good_bootExample
    (by unfold InSpace; decide) (by decide) (by decide) (by decide)
    (by decide) (by decide) (by decide) rfl rfl

/-- The output address field has 36 bits: a page at `2 ^ 48` is mapped to
physical address zero. -/
theorem mapRangeMap_above_field :
    Good .kb16 {0x817ff8000} (EarlyInv .kb16 {0x817ff8000}) bootExample ∧
    ∃ s', mapRangeMap (earlyTables .kb16) .kb16 rwArgs 0 (2 ^ 48) 0x4000
        bootExample = .ok s' ∧
      translate .kb16 s'.mem 0x817ff8000 0 = some (requested rwArgs 0) ∧
      translate .kb16 s'.mem 0x817ff8000 0 ≠
        some (requested rwArgs (2 ^ 48)) := by
  have hrun : (mapRangeMap (earlyTables .kb16) .kb16 rwArgs 0 (2 ^ 48) 0x4000
      bootExample).toOption.map
        (fun s' => translate .kb16 s'.mem 0x817ff8000 0) =
      some (some (requested rwArgs 0)) := by
    decide +kernel
  obtain ⟨s', hcall, hzero⟩ := Outcome.ok_of_map hrun
  refine ⟨good_bootExample, s', hcall, hzero, ?_⟩
  rw [hzero]
  decide

/-! ## The frame -/

section Frame

variable {ttbAlloc : Mm → Outcome (ℕ × Mm)} {g : Granule} {c : MapArgs}
  {roots : Set ℕ} {J : Mm → Prop} {va pa size : ℕ} {s s' : Mm}

/-- Every address outside the range, below any root, is translated as
before. -/
def FrameKept (g : Granule) (c : MapArgs) (roots : Set ℕ) (va size : ℕ)
    (s s' : Mm) : Prop :=
  ∀ r ∈ roots, ∀ x, x < g.space →
    ¬ (r = c.tt0 ∧ va ≤ x ∧ x < va + size) →
    translate g s'.mem r x = translate g s.mem r x

/-- No valid leaf covers a part of the range and reaches beyond it. -/
def NoBlockCut (g : Granule) (root va size : ℕ) (s : Mm) : Prop :=
  ∀ x k e, x < g.space → look g.layout s.mem root x = (k, e) → IsLeaf k e →
    BlockMeets g k x va size →
    va ≤ blockBase g k x ∧ blockBase g k x + g.layout.blk k ≤ va + size

theorem SamePath.translate {r x : ℕ} (h : SamePath g r x s s') :
    translate g s'.mem r x = translate g s.mem r x := by
  unfold PongoOS.translate
  rw [h.1, h.2]

theorem translate_eq_none {mem : ℕ → ℕ} {r x k e : ℕ}
    (hlook : look g.layout mem r x = (k, e)) (he : ¬ IsLeaf k e) :
    translate g mem r x = none := by
  unfold translate
  rw [hlook]
  exact if_neg he

theorem translate_ne_none {mem : ℕ → ℕ} {r x k e : ℕ}
    (hlook : look g.layout mem r x = (k, e)) (he : IsLeaf k e) :
    translate g mem r x ≠ none := by
  unfold translate
  rw [hlook]
  simp only [if_pos he]
  exact Option.some_ne_none _

theorem not_isLeaf_zero (k : ℕ) : ¬ IsLeaf k 0 :=
  fun h => absurd h.1 (by decide)

/-- The block of an entry lies inside the space. -/
theorem blockBase_add_le_space {mem : ℕ → ℕ} {r x k e : ℕ}
    (hx : x < g.space) (hlook : look g.layout mem r x = (k, e)) :
    blockBase g k x + g.layout.blk k ≤ g.space := by
  obtain ⟨t, ht, -⟩ := stops_iff.mpr hlook
  have hdvd : g.layout.blk k ∣ g.space :=
    g.space_eq ▸ g.layout.blk_dvd (ht.le_top.trans (Nat.le_succ _))
  obtain ⟨m, hm⟩ := hdvd
  have hlt : x / g.layout.blk k < m :=
    Nat.div_lt_of_lt_mul (hm ▸ hx)
  unfold blockBase
  rw [← Nat.succ_mul, hm, Nat.mul_comm]
  exact Nat.mul_le_mul_left _ hlt

theorem Maps.frame_iff (h : Maps g c roots va pa size s s')
    (hroot : c.tt0 ∈ roots) :
    FrameKept g c roots va size s s' ↔ NoBlockCut g c.tt0 va size s := by
  constructor
  · intro hframe x k e hx hlook hleaf hmeet
    by_contra hcut
    have hfits := h.fits
    have hbase := blockBase_le g k x
    have hend := lt_blockBase_add g k x
    have hspace := blockBase_add_le_space hx hlook
    -- some address of the block lies outside the range
    obtain ⟨y, hydiv, hyout⟩ : ∃ y,
        y / g.layout.blk k = x / g.layout.blk k ∧
          (y < va ∨ va + size ≤ y) := by
      have hbpos := g.layout.blk_pos k
      by_cases hlow : blockBase g k x < va
      · refine ⟨blockBase g k x, ?_, Or.inl hlow⟩
        exact div_eq_of_mem_block le_rfl (by omega)
      · refine ⟨blockBase g k x + g.layout.blk k - 1, ?_, Or.inr (by omega)⟩
        exact div_eq_of_mem_block (by omega) (by omega)
    have hybase := blockBase_congr hydiv
    have hyend := lt_blockBase_add g k y
    have hylook : look g.layout s.mem c.tt0 y = (k, e) :=
      stops_iff.mp ((stops_iff.mpr hlook).congr_key hydiv.symm)
    have hymeet : Meets g c.tt0 s y va size := by
      unfold Meets
      rw [hylook]
      unfold BlockMeets at hmeet ⊢
      rwa [hybase]
    obtain ⟨j, hj⟩ := h.partly y (by omega) hyout hymeet
    have hsame := hframe c.tt0 hroot y (by omega) (by omega)
    rw [translate_eq_none hj (not_isLeaf_zero j)] at hsame
    exact translate_ne_none hylook hleaf hsame.symm
  · intro hcut r hr x hx hout
    by_cases hmeet : r = c.tt0 ∧ Meets g r s x va size
    · obtain ⟨rfl, hmeet⟩ := hmeet
      have hxout : x < va ∨ va + size ≤ x := by
        by_contra hin
        exact hout ⟨rfl, by omega, by omega⟩
      obtain ⟨j, hj⟩ := h.partly x hx hxout hmeet
      rw [translate_eq_none hj (not_isLeaf_zero j)]
      refine (translate_eq_none (k := (look g.layout s.mem c.tt0 x).1)
        (e := (look g.layout s.mem c.tt0 x).2) rfl fun hleaf => ?_).symm
      have hin := hcut x (look g.layout s.mem c.tt0 x).1
        (look g.layout s.mem c.tt0 x).2 hx rfl hleaf hmeet
      have hbase := blockBase_le g (look g.layout s.mem c.tt0 x).1 x
      have hend := lt_blockBase_add g (look g.layout s.mem c.tt0 x).1 x
      omega
    · exact (h.outside r hr x hx hmeet).translate

/-- A successful call keeps every translation outside its range exactly when
it cuts no block. -/
theorem mapRangeMap_frame_iff (henv : MapEnv ttbAlloc g c roots J)
    (hgood : Good g roots J s) (hspace : InSpace g c.isTt1 va size)
    (hvap : g.pgsz ∣ va) (hpap : g.pgsz ∣ pa) (hsizep : g.pgsz ∣ size)
    (hsize : g.pgsz ≤ size) (hlt : pa + size < 2 ^ 64)
    (hok : mapRangeMap ttbAlloc g c va pa size s = .ok s') :
    FrameKept g c roots (spaceOffset g c.isTt1 va) size s s' ↔
      NoBlockCut g c.tt0 (spaceOffset g c.isTt1 va) size s := by
  have hadm := hspace.admissible hvap hpap hsizep (g.pgsz_pos.trans_le hsize)
    hlt
  rw [← mapRangeMap_spaceOffset] at hok
  exact (mapRangeMap_maps henv hadm hgood hok).1.frame_iff henv.root

end Frame

/-- `bootExample` with a valid block of 32 MiB in slot zero of the root. -/
def blockExample : Mm := bootExample.store 0x817ff8000 0x1

theorem good_blockExample :
    Good .kb16 {0x817ff8000} (EarlyInv .kb16 {0x817ff8000}) blockExample := by
  refine good_of_no_links (fun x => ?_) (by decide) (by decide) (by decide)
    (by decide)
  by_cases hslot : Granule.kb16.layout.slot Granule.kb16.topLevel 0x817ff8000 x
      = 0x817ff8000
  · rw [hslot, blockExample, store_mem_self]
    decide
  · rw [blockExample, store_mem_of_ne _ _ _ hslot]
    exact Granule.child_zero _

/-- Mapping one page inside the block. -/
theorem blockExample_map :
    ∃ s', mapRangeMap (earlyTables .kb16) .kb16 rwArgs 0x4000 0x818000000
        0x4000 blockExample = .ok s' ∧
      translate .kb16 s'.mem 0x817ff8000 0 = none := by
  have hrun : (mapRangeMap (earlyTables .kb16) .kb16 rwArgs 0x4000 0x818000000
      0x4000 blockExample).toOption.map
        (fun s' => translate .kb16 s'.mem 0x817ff8000 0) = some none := by
    decide +kernel
  exact Outcome.ok_of_map hrun

theorem mapRangeMap_frame_iff_blockExample :
    ∃ s', mapRangeMap (earlyTables .kb16) .kb16 rwArgs 0x4000 0x818000000
        0x4000 blockExample = .ok s' ∧
      (FrameKept .kb16 rwArgs {0x817ff8000} (spaceOffset .kb16 false 0x4000)
          0x4000 blockExample s' ↔
        NoBlockCut .kb16 0x817ff8000 (spaceOffset .kb16 false 0x4000) 0x4000
          blockExample) := by
  obtain ⟨s', hok, -⟩ := blockExample_map
  exact ⟨s', hok, mapRangeMap_frame_iff rwArgs_env good_blockExample
    (by unfold InSpace; decide) (by decide) (by decide) (by decide)
    (by decide) (by decide) hok⟩

/-- The rest of the block is lost: address zero was mapped and is not any
more. -/
theorem block_rest_unmapped :
    Good .kb16 {0x817ff8000} (EarlyInv .kb16 {0x817ff8000}) blockExample ∧
    ∃ s', mapRangeMap (earlyTables .kb16) .kb16 rwArgs 0x4000 0x818000000
        0x4000 blockExample = .ok s' ∧
      ¬ FrameKept .kb16 rwArgs {0x817ff8000} 0x4000 0x4000 blockExample
        s' := by
  obtain ⟨s', hok, hnone⟩ := blockExample_map
  refine ⟨good_blockExample, s', hok, fun hframe => ?_⟩
  have hsame := hframe 0x817ff8000 rfl 0 (by decide) (by decide)
  rw [hnone] at hsame
  exact absurd hsame (by decide +kernel)

end Mm

end PongoOS
