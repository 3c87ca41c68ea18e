import PongoOS.Mm.AllocatorSteps
import PongoOS.Mm.MapRange

/-!
# The two ways in which `map_range_map` changes a table

A split links a new, empty table under an entry that was no link; a leaf step
writes one entry of the block loop.  `MapEnv` collects what `ttb_alloc`, the
reference counters and the rest of memory have to guarantee, and the results
say what a step does to the forest of tables.
-/

namespace PongoOS

open RadixTable

namespace Granule

variable (g : Granule)

@[simp] theorem layout_top : g.layout.top = g.topLevel := rfl

@[simp] theorem layout_fan : g.layout.fan = 2 ^ g.ttBits := rfl

theorem blk_zero : g.layout.blk 0 = g.pgsz := g.layout.blk_zero

/-- The number of address bits that a table of level `k` covers. -/
def bitsAt (k : ℕ) : ℕ := g.ttBits + 3 + g.ttBits * (k + 1)

theorem two_pow_bitsAt (k : ℕ) :
    2 ^ (g.bitsAt k - g.ttBits) = g.layout.blk k := by
  have hsub : g.bitsAt k - g.ttBits = g.ttBits + 3 + g.ttBits * k := by
    unfold bitsAt
    rw [Nat.mul_succ]
    omega
  rw [hsub, Nat.pow_add 2 (g.ttBits + 3), Nat.pow_mul]
  rfl

theorem bitsAt_succ_sub (k : ℕ) :
    g.bitsAt (k + 1) - g.ttBits = g.bitsAt k := by
  unfold bitsAt
  rw [Nat.mul_succ g.ttBits (k + 1)]
  omega

theorem space_eq : g.layout.space = g.space := by
  cases g <;> decide

theorem rootBits_eq : Mm.rootBits g = g.bitsAt g.topLevel := by
  cases g <;> decide

theorem pgsz_pos : 0 < g.pgsz := Nat.two_pow_pos _

theorem space_lt : g.space < 2 ^ 64 := by
  cases g <;> decide

theorem pgsz_dvd_blk (k : ℕ) : g.pgsz ∣ g.layout.blk k :=
  g.layout.page_dvd_blk k

theorem blk_eq_pgsz_iff {k : ℕ} : g.layout.blk k = g.pgsz ↔ k = 0 := by
  constructor
  · intro heq
    by_contra hk
    have hlt : g.layout.blk 0 < g.layout.blk 1 := by
      cases g <;> decide
    have hle := g.layout.blk_le (Nat.one_le_iff_ne_zero.mpr hk)
    rw [blk_zero] at hlt
    omega
  · rintro rfl
    exact g.blk_zero

theorem four_kb_dvd_pgsz : 0x1000 ∣ g.pgsz := by
  cases g <;> decide

theorem table_size : 8 * g.layout.fan = g.pgsz := by
  cases g <;> decide

theorem child_zero : g.layout.child 0 = none := by
  cases g <;> decide

end Granule

namespace Mm

/-! ## Descriptors -/

theorem child_eq_none {g : Granule} {w : ℕ}
    (h : ¬ (Tte.valid w ∧ Tte.table w)) : g.layout.child w = none :=
  if_neg h

theorem child_link {g : Granule} {t : ℕ} (ht : 0x1000 ∣ t)
    (hlt : t < 2 ^ 48) : g.layout.child (Tte.link t) = some t := by
  obtain ⟨a, rfl⟩ := ht
  have ha : a < 2 ^ 36 := by omega
  have hlink : Tte.link (0x1000 * a) = 3 + a * 0x1000 := by
    unfold Tte.link
    rw [Nat.mul_div_cancel_left a (by decide), Nat.mod_eq_of_lt ha]
  rw [hlink]
  have hvalid : Tte.valid (3 + a * 0x1000) := by
    unfold Tte.valid field
    omega
  have htable : Tte.table (3 + a * 0x1000) := by
    unfold Tte.table field
    omega
  have hoa : Tte.oaAddr (3 + a * 0x1000) = 0x1000 * a := by
    unfold Tte.oaAddr Tte.oa field
    omega
  show (if _ then _ else _) = _
  rw [if_pos ⟨hvalid, htable⟩, hoa]

theorem plain_link (t : ℕ) : Tte.Plain (Tte.link t) := by
  unfold Tte.Plain Tte.link
  omega

theorem pagingInfoWord_not_valid (pi : ℕ) :
    ¬ Tte.valid (pagingInfoWord pi) := by
  unfold Tte.valid field pagingInfoWord
  omega

theorem leafAp_lt (c : MapArgs) : leafAp c < 4 := by
  unfold leafAp
  split <;> split <;> decide

theorem leafPxn_lt (c : MapArgs) : leafPxn c < 2 := by
  unfold leafPxn
  split <;> decide

theorem leafUxn_lt (c : MapArgs) : leafUxn c < 2 := by
  unfold leafUxn
  split <;> decide

/-- The fields of a new leaf. -/
theorem leafWord_fields (c : MapArgs) (last : Bool) (pa : ℕ) :
    Tte.valid (leafWord c last pa) ∧ (Tte.table (leafWord c last pa) ↔ last) ∧
      Tte.attr (leafWord c last pa) = c.attridx % 2 ^ 3 ∧
      Tte.ns (leafWord c last pa) = 0 ∧
      Tte.ap (leafWord c last pa) = leafAp c ∧
      Tte.sh (leafWord c last pa) = c.sh % 2 ^ 2 ∧
      Tte.af (leafWord c last pa) = 1 ∧
      (Tte.nG (leafWord c last pa) = if c.isTt1 then 1 else 0) ∧
      Tte.oa (leafWord c last pa) = pa / 2 ^ 12 % 2 ^ 36 ∧
      Tte.pxn (leafWord c last pa) = leafPxn c ∧
      Tte.uxn (leafWord c last pa) = leafUxn c := by
  have hap := leafAp_lt c
  have hpxn := leafPxn_lt c
  have huxn := leafUxn_lt c
  have hattr : c.attridx % 2 ^ 3 < 2 ^ 3 := Nat.mod_lt _ (by decide)
  have hsh : c.sh % 2 ^ 2 < 2 ^ 2 := Nat.mod_lt _ (by decide)
  have hoa : pa / 2 ^ 12 % 2 ^ 36 < 2 ^ 36 := Nat.mod_lt _ (by decide)
  unfold leafWord Tte.valid Tte.table Tte.attr Tte.ns Tte.ap Tte.sh Tte.af
    Tte.nG Tte.oa Tte.pxn Tte.uxn field
  generalize c.attridx % 2 ^ 3 = a at *
  generalize c.sh % 2 ^ 2 = h at *
  generalize pa / 2 ^ 12 % 2 ^ 36 = o at *
  generalize leafAp c = p at *
  generalize leafPxn c = x at *
  generalize leafUxn c = u at *
  cases last <;> cases c.isTt1 <;> simp <;> omega

/-- What the block loop stores for the block at `pa`. -/
def leafEntry (g : Granule) (c : MapArgs) (k pa : ℕ) : ℕ :=
  if c.prot.pagingInfo then pagingInfoWord c.pagingInfo
  else if pa ≠ 0 ∧ c.prot.read then
    leafWord c (g.layout.blk k = g.pgsz) pa
  else 0

theorem leafEntry_stops (g : Granule) (c : MapArgs) (k pa : ℕ) :
    k = 0 ∨ g.layout.child (leafEntry g c k pa) = none := by
  by_cases hk : k = 0
  · exact Or.inl hk
  refine Or.inr (child_eq_none ?_)
  rintro ⟨hvalid, htable⟩
  unfold leafEntry at hvalid htable
  split at hvalid
  · exact pagingInfoWord_not_valid _ hvalid
  · rename_i hpi
    rw [if_neg hpi] at htable
    split at hvalid
    · rename_i hpa
      rw [if_pos hpa] at htable
      have hlast := (leafWord_fields c _ pa).2.1.mp htable
      exact hk (g.blk_eq_pgsz_iff.mp (of_decide_eq_true hlast))
    · exact absurd hvalid (by decide)

/-! ## Steps -/

/-- A new table is linked under the entry for `va` of level `k + 1`. -/
def SplitStep (ttbAlloc : Mm → Outcome (ℕ × Mm)) (g : Granule) (c : MapArgs)
    (k va : ℕ) (s s' : Mm) : Prop :=
  ∃ tt t s₁, TableOn g.layout s.mem c.tt0 va (k + 1) tt ∧
    g.layout.child (s.mem (g.layout.slot (k + 1) tt va)) = none ∧
    ttbAlloc s = .ok (t, s₁) ∧
    s' = s₁.store (g.layout.slot (k + 1) tt va) (Tte.link t)

/-- The block loop writes the entry for `va` of level `k` in the table `tt`. -/
structure LeafStep (g : Granule) (c : MapArgs) (k va pa tt : ℕ) (s s' : Mm) :
    Prop where
  table : TableOn g.layout s.mem c.tt0 va k tt
  va_aligned : g.layout.blk k ∣ va
  pa_aligned : g.layout.blk k ∣ pa
  run : mapBlock g c (g.layout.blk k) tt va pa s = .ok s'

/-- `mapBlock` is a reference, a store and a dereference. -/
theorem mapBlock_ok {g : Granule} {c : MapArgs} {k tt va pa : ℕ} {s s' : Mm}
    (hok : mapBlock g c (g.layout.blk k) tt va pa s = .ok s') :
    ∃ s₁, (s₁ = s ∨ c.isTt1 = true ∧ c.prot.pagingInfo = false ∧ pa ≠ 0 ∧
        c.prot.read = true ∧
        physReference (pageFloor (Tte.oaAddr (leafEntry g c k pa)))
          (pageSpan (Tte.oaAddr (leafEntry g c k pa)) (g.layout.blk k)) s
            = .ok s₁) ∧
      ((s' = s₁.store (g.layout.slot k tt va) (leafEntry g c k pa) ∧
          ¬ (IsLeaf k (s.mem (g.layout.slot k tt va)) ∧ c.isTt1 = true)) ∨
        (IsLeaf k (s.mem (g.layout.slot k tt va)) ∧ c.isTt1 = true ∧
          physDereference
            (pageFloor (Tte.oaAddr (s.mem (g.layout.slot k tt va))))
            (pageSpan (Tte.oaAddr (s.mem (g.layout.slot k tt va)))
              (g.layout.blk k))
            (s₁.store (g.layout.slot k tt va) (leafEntry g c k pa))
              = .ok s')) := by
  have hslot : tt + 8 * (va / g.layout.blk k % 2 ^ g.ttBits) =
      g.layout.slot k tt va := rfl
  simp only [mapBlock, Outcome.bind_eq_ok, panicIf_eq_ok, hslot] at hok
  obtain ⟨-, -, s₂, hstore, hend⟩ := hok
  have hleaf : (Tte.valid (s.mem (g.layout.slot k tt va)) ∧
      (Tte.table (s.mem (g.layout.slot k tt va)) ↔
        g.layout.blk k = g.pgsz) ∧ c.isTt1 = true) ↔
      (IsLeaf k (s.mem (g.layout.slot k tt va)) ∧ c.isTt1 = true) := by
    unfold IsLeaf
    rw [g.blk_eq_pgsz_iff, and_assoc]
  have hsecond : ∀ {s₁ : Mm},
      s₂ = s₁.store (g.layout.slot k tt va) (leafEntry g c k pa) →
      (s' = s₁.store (g.layout.slot k tt va) (leafEntry g c k pa) ∧
          ¬ (IsLeaf k (s.mem (g.layout.slot k tt va)) ∧ c.isTt1 = true)) ∨
        (IsLeaf k (s.mem (g.layout.slot k tt va)) ∧ c.isTt1 = true ∧
          physDereference
            (pageFloor (Tte.oaAddr (s.mem (g.layout.slot k tt va))))
            (pageSpan (Tte.oaAddr (s.mem (g.layout.slot k tt va)))
              (g.layout.blk k))
            (s₁.store (g.layout.slot k tt va) (leafEntry g c k pa))
              = .ok s') := by
    rintro s₁ rfl
    by_cases hold : IsLeaf k (s.mem (g.layout.slot k tt va)) ∧ c.isTt1 = true
    · rw [if_pos (hleaf.mpr hold)] at hend
      exact Or.inr ⟨hold.1, hold.2, hend⟩
    · rw [if_neg fun h => hold (hleaf.mp h)] at hend
      exact Or.inl ⟨(Outcome.pure_eq_ok.mp hend).symm, hold⟩
  by_cases hpi : c.prot.pagingInfo = true
  · rw [if_pos hpi] at hstore
    have hentry : leafEntry g c k pa = pagingInfoWord c.pagingInfo :=
      if_pos hpi
    refine ⟨s, Or.inl rfl, hsecond ?_⟩
    rw [hentry]
    exact (Outcome.pure_eq_ok.mp hstore).symm
  rw [if_neg hpi] at hstore
  by_cases hpa : pa ≠ 0 ∧ c.prot.read = true
  · rw [if_pos hpa] at hstore
    have hentry : leafEntry g c k pa =
        leafWord c (g.layout.blk k = g.pgsz) pa := by
      rw [leafEntry, if_neg hpi, if_pos hpa]
    simp only [Outcome.bind_eq_ok, Outcome.pure_eq_ok] at hstore
    obtain ⟨s₁, hreference, hs₂⟩ := hstore
    rw [← hentry] at hreference hs₂
    refine ⟨s₁, ?_, hsecond hs₂.symm⟩
    by_cases htt1 : c.isTt1 = true
    · rw [if_pos htt1] at hreference
      exact Or.inr ⟨htt1, by simpa using hpi, hpa.1, hpa.2, hreference⟩
    · rw [if_neg htt1] at hreference
      exact Or.inl (Outcome.pure_eq_ok.mp hreference).symm
  · rw [if_neg hpa] at hstore
    have hentry : leafEntry g c k pa = 0 := by
      rw [leafEntry, if_neg hpi, if_neg hpa]
    refine ⟨s, Or.inl rfl, hsecond ?_⟩
    rw [hentry]
    exact (Outcome.pure_eq_ok.mp hstore).symm

/-! ## What the surroundings guarantee -/

/-- The tables are a forest of plain links and `J` holds. -/
structure Good (g : Granule) (roots : Set ℕ) (J : Mm → Prop) (s : Mm) :
    Prop where
  forest : Forest g.layout s.mem roots
  plain : AllLinks g.layout s.mem roots Tte.Plain
  inv : J s

/-- `ttb_alloc` returns fresh zeroed tables and leaves the others alone. -/
def FreshTables (ttbAlloc : Mm → Outcome (ℕ × Mm)) (g : Granule)
    (roots : Set ℕ) (J : Mm → Prop) : Prop :=
  ∀ s t s₁, Good g roots J s → ttbAlloc s = .ok (t, s₁) →
    SameTables g.layout roots s.mem s₁.mem ∧
      FreshTable g.layout s₁.mem roots t ∧ t < 2 ^ 48

/-- The assumptions of a call: `ttb_alloc` returns fresh zeroed tables, and
for TTBR1 the page that the counters may free holds no table.  `J` is the
invariant of the rest of the system under which this is so. -/
structure MapEnv (ttbAlloc : Mm → Outcome (ℕ × Mm)) (g : Granule)
    (c : MapArgs) (roots : Set ℕ) (J : Mm → Prop) : Prop where
  root : c.tt0 ∈ roots
  overwrite : c.overwrite = true
  fresh : ∀ s t s₁, Good g roots J s → ttbAlloc s = .ok (t, s₁) →
    SameTables g.layout roots s.mem s₁.mem ∧
      FreshTable g.layout s₁.mem roots t ∧ t < 2 ^ 48
  split : ∀ k va s s', va < g.space → Good g roots J s →
    SplitStep ttbAlloc g c k va s s' → J s'
  leaf : ∀ k va pa tt s s', va < g.space → Good g roots J s →
    LeafStep g c k va pa tt s s' → J s'
  counters : c.isTt1 = true → ∀ k va pa tt s s', va < g.space →
    Good g roots J s → LeafStep g c k va pa tt s s' →
    SameTables g.layout roots
      (Function.update s.mem (g.layout.slot k tt va) (leafEntry g c k pa))
      s'.mem

/-- What a call relies on until it gets to the entries of the range. -/
structure DescentEnv (ttbAlloc : Mm → Outcome (ℕ × Mm)) (g : Granule)
    (c : MapArgs) (roots : Set ℕ) (J : Mm → Prop) : Prop where
  root : c.tt0 ∈ roots
  overwrite : c.overwrite = true
  fresh : FreshTables ttbAlloc g roots J
  split : ∀ k va s s', va < g.space → Good g roots J s →
    SplitStep ttbAlloc g c k va s s' → J s'

theorem MapEnv.descent {ttbAlloc : Mm → Outcome (ℕ × Mm)} {g : Granule}
    {c : MapArgs} {roots : Set ℕ} {J : Mm → Prop}
    (henv : MapEnv ttbAlloc g c roots J) : DescentEnv ttbAlloc g c roots J :=
  ⟨henv.root, henv.overwrite, henv.fresh, henv.split⟩

section Steps

variable {ttbAlloc : Mm → Outcome (ℕ × Mm)} {g : Granule} {c : MapArgs}
  {roots : Set ℕ} {J : Mm → Prop} {k va pa tt : ℕ} {s s' : Mm}

/-- Tables of level `j` and above are kept. -/
def Kept (g : Granule) (roots : Set ℕ) (j : ℕ) (s s' : Mm) : Prop :=
  ∀ r ∈ roots, ∀ x k t, x < g.space → j ≤ k →
    TableOn g.layout s.mem r x k t → TableOn g.layout s'.mem r x k t

theorem Kept.refl (j : ℕ) (s : Mm) : Kept g roots j s s :=
  fun _ _ _ _ _ _ _ ht => ht

theorem Kept.trans {j : ℕ} {s₁ : Mm} (h : Kept g roots j s s₁)
    (h' : Kept g roots j s₁ s') : Kept g roots j s s' :=
  fun r hr x k t hx hjk ht => h' r hr x k t hx hjk (h r hr x k t hx hjk ht)

theorem Kept.mono {i j : ℕ} (h : Kept g roots i s s') (hij : i ≤ j) :
    Kept g roots j s s' :=
  fun r hr x k t hx hjk ht => h r hr x k t hx (hij.trans hjk) ht

/-- The tables after a leaf step are those after the store. -/
theorem LeafStep.sameTables (henv : MapEnv ttbAlloc g c roots J)
    (hva : va < g.space) (hgood : Good g roots J s)
    (h : LeafStep g c k va pa tt s s') :
    SameTables g.layout roots
      (Function.update s.mem (g.layout.slot k tt va) (leafEntry g c k pa))
      s'.mem := by
  by_cases htt1 : c.isTt1 = true
  · exact henv.counters htt1 k va pa tt s s' hva hgood h
  · obtain ⟨s₁, hs₁, hend⟩ := mapBlock_ok h.run
    have hsame : s₁ = s := by
      rcases hs₁ with hs₁ | ⟨h1, -⟩
      · exact hs₁
      · exact absurd h1 htt1
    rcases hend with ⟨rfl, -⟩ | ⟨-, h1, -⟩
    · rw [hsame]
      exact SameTables.refl
    · exact absurd h1 htt1

/-- A leaf step keeps the forest, if apart from the entry it leaves the tables
alone. -/
theorem LeafStep.forest_of (hroot : c.tt0 ∈ roots) (hva : va < g.space)
    (hgood : Good g roots J s) (h : LeafStep g c k va pa tt s s')
    (hsame : SameTables g.layout roots
      (Function.update s.mem (g.layout.slot k tt va) (leafEntry g c k pa))
      s'.mem) :
    Forest g.layout s'.mem roots ∧
      AllLinks g.layout s'.mem roots Tte.Plain := by
  have hx : va < g.layout.space := g.space_eq ▸ hva
  have hstops := leafEntry_stops g c k pa
  exact ⟨hsame.forest (hgood.forest.store_leaf hroot hx h.table hstops),
    hsame.allLinks
      (hgood.forest.allLinks_leaf hroot hx h.table hstops hgood.plain)⟩

theorem LeafStep.kept_of (hroot : c.tt0 ∈ roots) (hva : va < g.space)
    (hgood : Good g roots J s) (h : LeafStep g c k va pa tt s s')
    (hsame : SameTables g.layout roots
      (Function.update s.mem (g.layout.slot k tt va) (leafEntry g c k pa))
      s'.mem) : Kept g roots k s s' := by
  intro r hr x j t hx hkj ht
  have hva' : va < g.layout.space := g.space_eq ▸ hva
  have hx' : x < g.layout.space := g.space_eq ▸ hx
  rw [hsame.tableOn hr hx']
  refine (hgood.forest.tableOn_store hroot hva' h.table hr hx' ?_).mpr ht
  exact fun hbelow => absurd hbelow.2.1 (Nat.not_lt.mpr hkj)

/-- Every lookup in the block finds the new entry. -/
theorem LeafStep.stops_of (hroot : c.tt0 ∈ roots) (hva : va < g.space)
    (hgood : Good g roots J s) (h : LeafStep g c k va pa tt s s')
    (hsame : SameTables g.layout roots
      (Function.update s.mem (g.layout.slot k tt va) (leafEntry g c k pa))
      s'.mem) {x : ℕ} (hx : x < g.space)
    (hblock : x / g.layout.blk k = va / g.layout.blk k) :
    Stops g.layout s'.mem c.tt0 x k (leafEntry g c k pa) := by
  have hva' : va < g.layout.space := g.space_eq ▸ hva
  have hx' : x < g.layout.space := g.space_eq ▸ hx
  rw [hsame.stops hroot hx']
  exact hgood.forest.stops_leaf hroot hva' h.table (leafEntry_stops g c k pa)
    hx' hblock

/-- Every other lookup is as before. -/
theorem LeafStep.path_of (hroot : c.tt0 ∈ roots) (hva : va < g.space)
    (hgood : Good g roots J s) (h : LeafStep g c k va pa tt s s')
    (hsame : SameTables g.layout roots
      (Function.update s.mem (g.layout.slot k tt va) (leafEntry g c k pa))
      s'.mem) {r x : ℕ} (hr : r ∈ roots) (hx : x < g.space)
    (hnot : ¬ (r = c.tt0 ∧ x / g.layout.blk k = va / g.layout.blk k)) :
    look g.layout s'.mem r x = look g.layout s.mem r x ∧
      links g.layout s'.mem r x = links g.layout s.mem r x := by
  have hva' : va < g.layout.space := g.space_eq ▸ hva
  have hx' : x < g.layout.space := g.space_eq ▸ hx
  obtain ⟨hlook, hlinks⟩ := hsame.path hr hx'
  obtain ⟨hlook', hlinks'⟩ := hgood.forest.path_store (v := leafEntry g c k pa)
    hroot hva' h.table hr hx' hnot
  exact ⟨hlook.trans hlook', hlinks.trans hlinks'⟩

theorem LeafStep.good (henv : MapEnv ttbAlloc g c roots J)
    (hva : va < g.space) (hgood : Good g roots J s)
    (h : LeafStep g c k va pa tt s s') : Good g roots J s' := by
  obtain ⟨hforest, hplain⟩ :=
    h.forest_of henv.root hva hgood (h.sameTables henv hva hgood)
  exact ⟨hforest, hplain, henv.leaf k va pa tt s s' hva hgood h⟩

theorem LeafStep.kept (henv : MapEnv ttbAlloc g c roots J)
    (hva : va < g.space) (hgood : Good g roots J s)
    (h : LeafStep g c k va pa tt s s') : Kept g roots k s s' :=
  h.kept_of henv.root hva hgood (h.sameTables henv hva hgood)

/-! ## Splits -/

theorem SplitStep.unfold (hfresh : FreshTables ttbAlloc g roots J)
    (hgood : Good g roots J s) (h : SplitStep ttbAlloc g c k va s s') :
    ∃ tt t s₁, ttbAlloc s = .ok (t, s₁) ∧
      SameTables g.layout roots s.mem s₁.mem ∧
      FreshTable g.layout s₁.mem roots t ∧
      TableOn g.layout s.mem c.tt0 va (k + 1) tt ∧
      g.layout.child (s.mem (g.layout.slot (k + 1) tt va)) = none ∧
      g.layout.child (Tte.link t) = some t ∧
      s' = s₁.store (g.layout.slot (k + 1) tt va) (Tte.link t) := by
  obtain ⟨tt, t, s₁, htt, hnone, halloc, rfl⟩ := h
  obtain ⟨hsame, hnew, hlt⟩ := hfresh s t s₁ hgood halloc
  refine ⟨tt, t, s₁, halloc, hsame, hnew, htt, hnone, ?_, rfl⟩
  refine child_link ?_ hlt
  have haligned := hnew.aligned
  rw [g.table_size] at haligned
  exact g.four_kb_dvd_pgsz.trans haligned

/-- A split keeps the forest. -/
theorem SplitStep.forest_of (hroot : c.tt0 ∈ roots)
    (hfresh : FreshTables ttbAlloc g roots J) (hva : va < g.space)
    (hgood : Good g roots J s) (h : SplitStep ttbAlloc g c k va s s') :
    Forest g.layout s'.mem roots ∧
      AllLinks g.layout s'.mem roots Tte.Plain := by
  obtain ⟨tt, t, s₁, -, hsame, hnew, htt, -, hchild, rfl⟩ :=
    h.unfold hfresh hgood
  have hx : va < g.layout.space := g.space_eq ▸ hva
  have htt₁ := (hsame.tableOn hroot hx).mpr htt
  have hF := hsame.forest hgood.forest
  exact ⟨hF.link hroot hx htt₁ hchild hnew,
    hF.allLinks_link hroot hx htt₁ hchild hnew
      (hsame.allLinks hgood.plain) (plain_link t)⟩

theorem SplitStep.good (henv : DescentEnv ttbAlloc g c roots J)
    (hva : va < g.space) (hgood : Good g roots J s)
    (h : SplitStep ttbAlloc g c k va s s') : Good g roots J s' := by
  obtain ⟨hforest, hplain⟩ := h.forest_of henv.root henv.fresh hva hgood
  exact ⟨hforest, hplain, henv.split k va s s' hva hgood h⟩

theorem SplitStep.kept (hroot : c.tt0 ∈ roots)
    (hfresh : FreshTables ttbAlloc g roots J) (hva : va < g.space)
    (hgood : Good g roots J s)
    (h : SplitStep ttbAlloc g c k va s s') : Kept g roots 0 s s' := by
  intro r hr x j u hx _ hu
  obtain ⟨tt, t, s₁, -, hsame, -, htt, hnone, -, rfl⟩ := h.unfold hfresh hgood
  have hva' : va < g.layout.space := g.space_eq ▸ hva
  have hx' : x < g.layout.space := g.space_eq ▸ hx
  have htt₁ := (hsame.tableOn hroot hva').mpr htt
  refine (hsame.forest hgood.forest).tableOn_link_of hroot hva' htt₁ ?_ hr
    hx' ((hsame.tableOn hr hx').mpr hu)
  rw [hsame.slot hroot hva' htt va, hnone]

/-- The new table is found below the entry. -/
theorem SplitStep.table (hroot : c.tt0 ∈ roots)
    (hfresh : FreshTables ttbAlloc g roots J) (hva : va < g.space)
    (hgood : Good g roots J s)
    (h : SplitStep ttbAlloc g c k va s s') :
    ∃ t s₁, ttbAlloc s = .ok (t, s₁) ∧
      TableOn g.layout s'.mem c.tt0 va k t := by
  obtain ⟨tt, t, s₁, halloc, hsame, -, htt, -, hchild, rfl⟩ :=
    h.unfold hfresh hgood
  have hva' : va < g.layout.space := g.space_eq ▸ hva
  exact ⟨t, s₁, halloc, (hsame.forest hgood.forest).tableOn_link hroot
    hva' ((hsame.tableOn hroot hva').mpr htt) hchild hva' rfl⟩

/-- Lookups in the block of the split find nothing. -/
theorem SplitStep.stops (hroot : c.tt0 ∈ roots)
    (hfresh : FreshTables ttbAlloc g roots J) (hva : va < g.space)
    (hgood : Good g roots J s)
    (h : SplitStep ttbAlloc g c k va s s') {x : ℕ} (hx : x < g.space)
    (hblock : x / g.layout.blk (k + 1) = va / g.layout.blk (k + 1)) :
    Stops g.layout s'.mem c.tt0 x k 0 ∧
      ∃ e, Stops g.layout s.mem c.tt0 x (k + 1) e := by
  obtain ⟨tt, t, s₁, -, hsame, hnew, htt, hnone, hchild, rfl⟩ :=
    h.unfold hfresh hgood
  have hva' : va < g.layout.space := g.space_eq ▸ hva
  have hx' : x < g.layout.space := g.space_eq ▸ hx
  refine ⟨(hsame.forest hgood.forest).stops_link hroot hva'
    ((hsame.tableOn hroot hva').mpr htt) hchild hnew hx' hblock, ?_⟩
  exact ⟨_, Stops.congr_key ⟨tt, htt, rfl, Or.inr hnone⟩ hblock.symm⟩

theorem SplitStep.path (hroot : c.tt0 ∈ roots)
    (hfresh : FreshTables ttbAlloc g roots J) (hva : va < g.space)
    (hgood : Good g roots J s)
    (h : SplitStep ttbAlloc g c k va s s') {r x : ℕ} (hr : r ∈ roots)
    (hx : x < g.space) (hnot : ¬ (r = c.tt0 ∧
      x / g.layout.blk (k + 1) = va / g.layout.blk (k + 1))) :
    look g.layout s'.mem r x = look g.layout s.mem r x ∧
      links g.layout s'.mem r x = links g.layout s.mem r x := by
  obtain ⟨tt, t, s₁, -, hsame, -, htt, -, -, rfl⟩ := h.unfold hfresh hgood
  have hva' : va < g.layout.space := g.space_eq ▸ hva
  have hx' : x < g.layout.space := g.space_eq ▸ hx
  obtain ⟨hlook, hlinks⟩ := hsame.path hr hx'
  obtain ⟨hlook', hlinks'⟩ :=
    (hsame.forest hgood.forest).path_store (v := Tte.link t) hroot hva'
      ((hsame.tableOn hroot hva').mpr htt) hr hx' hnot
  exact ⟨hlook'.trans hlook, hlinks'.trans hlinks⟩

end Steps

end Mm

end PongoOS
