import PongoOS.Mm.MapSteps

/-!
# An induction rule for `map_range_map`

`Q va pa size s s'` is any relation between the states before and after
mapping `[va, va + size)` that holds of a single leaf step, is not disturbed by
a split further up, and composes along adjacent ranges.  Such a relation holds
of the whole call, which never runs out of fuel.
-/

namespace PongoOS

open RadixTable

namespace Mm

structure MapRelation (ttbAlloc : Mm → Outcome (ℕ × Mm)) (g : Granule)
    (c : MapArgs) (roots : Set ℕ) (J : Mm → Prop)
    (Q : ℕ → ℕ → ℕ → Mm → Mm → Prop) : Prop where
  comp : ∀ va pa m n s s₁ s₂, Q va pa m s s₁ →
    Q (va + m) (pa + m) n s₁ s₂ → Q va pa (m + n) s s₂
  leaf : ∀ k va pa tt s s', va + g.layout.blk k ≤ g.space →
    Good g roots J s → LeafStep g c k va pa tt s s' →
    Q va pa (g.layout.blk k) s s'
  split : ∀ k va pa size s s₁ s₂, va < g.space → 0 < size →
    size < g.layout.blk (k + 1) →
    va / g.layout.blk (k + 1) = (va + size - 1) / g.layout.blk (k + 1) →
    Good g roots J s → SplitStep ttbAlloc g c k va s s₁ →
    Q va pa size s₁ s₂ → Q va pa size s s₂

/-- The arguments pass the check of `map_range_map` and stay inside the
space. -/
structure Admissible (g : Granule) (va pa size : ℕ) : Prop where
  va_aligned : g.pgsz ∣ va
  pa_aligned : g.pgsz ∣ pa
  size_aligned : g.pgsz ∣ size
  size_pos : 0 < size
  va_fits : va + size ≤ g.space
  pa_fits : pa + size < 2 ^ 64

namespace Admissible

variable {g : Granule} {va pa size : ℕ}

theorem va_lt (h : Admissible g va pa size) : va < g.space := by
  have := h.va_fits
  have := h.size_pos
  omega

theorem pgsz_le (h : Admissible g va pa size) : g.pgsz ≤ size :=
  Nat.le_of_dvd h.size_pos h.size_aligned

/-- A whole number of pages from the front. -/
theorem front (h : Admissible g va pa size) {n : ℕ} (hn : g.pgsz ∣ n)
    (hpos : 0 < n) (hle : n ≤ size) : Admissible g va pa n := by
  have hva := h.va_fits
  have hpa := h.pa_fits
  exact ⟨h.va_aligned, h.pa_aligned, hn, hpos, by omega, by omega⟩

/-- What is left behind a whole number of pages. -/
theorem back (h : Admissible g va pa size) {n : ℕ} (hn : g.pgsz ∣ n)
    (hlt : n < size) : Admissible g (va + n) (pa + n) (size - n) := by
  have hva := h.va_fits
  have hpa := h.pa_fits
  exact ⟨Nat.dvd_add h.va_aligned hn, Nat.dvd_add h.pa_aligned hn,
    Nat.dvd_sub h.size_aligned hn, by omega, by omega, by omega⟩

theorem not_bad (h : Admissible g va pa size) :
    ¬ BadArguments g va pa size := by
  have hspace := g.space_lt
  have hva := h.va_fits
  have hpa := h.pa_fits
  have hle := h.pgsz_le
  unfold BadArguments
  rw [Nat.mod_eq_zero_of_dvd h.va_aligned,
    Nat.mod_eq_zero_of_dvd h.pa_aligned,
    Nat.mod_eq_zero_of_dvd h.size_aligned]
  omega

end Admissible

/-- The range lies in one block of level `m` and does not fill it. -/
def StrictlyInside (g : Granule) (m va size : ℕ) : Prop :=
  size < g.layout.blk m ∧
    va / g.layout.blk m = (va + size - 1) / g.layout.blk m

theorem StrictlyInside.mono {g : Granule} {m n va size : ℕ}
    (h : StrictlyInside g m va size) (hmn : m ≤ n) :
    StrictlyInside g n va size :=
  ⟨h.1.trans_le (g.layout.blk_le hmn), g.layout.div_blk_eq hmn h.2⟩

/-! ## Rounding -/

/-- Rounding the end of a range up to a block. -/
theorem roundUp_eq {b x : ℕ} (hb : 0 < b) (hx : 0 < x) :
    (x + (b - 1)) / b * b = (x - 1) / b * b + b := by
  rw [show x + (b - 1) = x - 1 + b by omega, Nat.add_div_right _ hb,
    Nat.succ_mul]

/-- The number of blocks that a range meets. -/
theorem block_count {b va size : ℕ} (hb : 0 < b) (hsize : 0 < size) :
    ((va + size + (b - 1)) / b * b - va / b * b) / b =
      (va + size - 1) / b - va / b + 1 := by
  rw [roundUp_eq hb (by omega)]
  have hle : va / b ≤ (va + size - 1) / b := Nat.div_le_div_right (by omega)
  obtain ⟨d, hd⟩ := Nat.exists_eq_add_of_le hle
  rw [hd, Nat.add_mul, Nat.add_assoc, Nat.add_sub_cancel_left,
    Nat.add_sub_cancel_left, Nat.add_div_right _ hb, Nat.mul_div_cancel _ hb]

theorem single_block_iff {b va size : ℕ} (hb : 0 < b) (hsize : 0 < size) :
    (va + size + (b - 1)) / b * b - va / b * b = b ↔
      va / b = (va + size - 1) / b := by
  rw [roundUp_eq hb (by omega)]
  have hle : va / b ≤ (va + size - 1) / b := Nat.div_le_div_right (by omega)
  obtain ⟨d, hd⟩ := Nat.exists_eq_add_of_le hle
  rw [hd, Nat.add_mul, Nat.add_assoc, Nat.add_sub_cancel_left]
  constructor
  · intro heq
    have hzero : d * b = 0 := by omega
    rcases Nat.mul_eq_zero.mp hzero with hd0 | hb0
    · omega
    · omega
  · intro heq
    have hd0 : d = 0 := by omega
    rw [hd0, Nat.zero_mul, Nat.zero_add]

theorem spaceOffset_of_lt {g : Granule} {va : ℕ} (isTt1 : Bool)
    (hva : va < g.space) : spaceOffset g isTt1 va = va := by
  have hspace : va < 2 ^ (64 - g.tsz) := hva
  cases isTt1 with
  | false => exact Nat.mod_eq_of_lt hspace
  | true =>
      unfold spaceOffset
      rw [if_pos rfl]
      unfold sub64
      cases g with
      | kb4 =>
          have hbits : 64 - Granule.kb4.tsz = 39 := rfl
          have hbase : 65 - Granule.kb4.tsz = 40 := rfl
          rw [hbits] at hspace ⊢
          rw [hbase]
          omega
      | kb16 =>
          have hbits : 64 - Granule.kb16.tsz = 36 := rfl
          have hbase : 65 - Granule.kb16.tsz = 37 := rfl
          rw [hbits] at hspace ⊢
          rw [hbase]
          omega

/-! ## The block loop -/

/-- Why a call may stop: `ttb_alloc` or a reference counter did. -/
def MapStop (ttbAlloc : Mm → Outcome (ℕ × Mm)) (isTt1 : Bool) (e : Stop) :
    Prop :=
  (∃ s, ttbAlloc s = .error e) ∨
    isTt1 = true ∧ ∃ pa n s,
      physReference pa n s = .error e ∨ physDereference pa n s = .error e

section Rule

variable {ttbAlloc : Mm → Outcome (ℕ × Mm)} {g : Granule} {c : MapArgs}
  {roots : Set ℕ} {J : Mm → Prop} {Q : ℕ → ℕ → ℕ → Mm → Mm → Prop}

/-- What a call that works below level `m` establishes. -/
def CallSpec (ttbAlloc : Mm → Outcome (ℕ × Mm)) (g : Granule) (c : MapArgs)
    (roots : Set ℕ) (J : Mm → Prop) (Q : ℕ → ℕ → ℕ → Mm → Mm → Prop)
    (m va pa size : ℕ) (s : Mm) : Outcome Mm → Prop :=
  Outcome.Sat (MapStop ttbAlloc c.isTt1) fun s' =>
    Q va pa size s s' ∧ Good g roots J s' ∧ Kept g roots m s s'

/-- The only stops of the last branch are those of the counters. -/
theorem mapBlock_error {k tt va pa : ℕ} {s : Mm} {e : Stop}
    (hover : c.overwrite = true)
    (herr : mapBlock g c (g.layout.blk k) tt va pa s = .error e) :
    MapStop ttbAlloc c.isTt1 e := by
  unfold mapBlock at herr
  simp only [Outcome.bind_eq_error] at herr
  rcases herr with hpanic | ⟨-, -, hstore | ⟨s₂, -, hend⟩⟩
  · unfold panicIf at hpanic
    rw [if_neg fun h => h.2 hover] at hpanic
    cases hpanic
  · split at hstore
    · cases hstore
    split at hstore
    · rcases Outcome.bind_eq_error.mp hstore with herr | ⟨s₁, -, hstop⟩
      · split at herr
        · rename_i htt1
          exact Or.inr ⟨htt1, _, _, s, Or.inl herr⟩
        · cases herr
      · cases hstop
    · cases hstore
  · split at hend
    · rename_i hold
      exact Or.inr ⟨hold.2.2, _, _, s₂, Or.inr hend⟩
    · cases hend

theorem mapBlock_sat (henv : MapEnv ttbAlloc g c roots J)
    (hQ : MapRelation ttbAlloc g c roots J Q) {k tt va pa : ℕ} {s : Mm}
    (hva : va + g.layout.blk k ≤ g.space) (hgood : Good g roots J s)
    (htt : TableOn g.layout s.mem c.tt0 va k tt)
    (hvab : g.layout.blk k ∣ va) (hpab : g.layout.blk k ∣ pa) :
    CallSpec ttbAlloc g c roots J Q k va pa (g.layout.blk k) s
      (mapBlock g c (g.layout.blk k) tt va pa s) := by
  have hlt : va < g.space := by
    have := g.layout.blk_pos k
    omega
  refine Outcome.sat_iff.mpr ⟨fun s' hok => ?_, fun e herr => ?_⟩
  · have hstep : LeafStep g c k va pa tt s s' := ⟨htt, hvab, hpab, hok⟩
    exact ⟨hQ.leaf k va pa tt s s' hva hgood hstep,
      hstep.good henv hlt hgood, hstep.kept henv hlt hgood⟩
  · exact mapBlock_error henv.overwrite herr

/-- Two adjacent pieces. -/
theorem CallSpec.comp (hQ : MapRelation ttbAlloc g c roots J Q)
    {m k va pa a b : ℕ} {s : Mm} {x : Outcome Mm} {f : Mm → Outcome Mm}
    (hx : CallSpec ttbAlloc g c roots J Q m va pa a s x)
    (hf : ∀ s₁, Good g roots J s₁ → Kept g roots m s s₁ →
      CallSpec ttbAlloc g c roots J Q m (va + a) (pa + a) b s₁ (f s₁))
    (hk : k = a + b) :
    CallSpec ttbAlloc g c roots J Q m va pa k s (x >>= f) := by
  refine Outcome.Sat.bind hx fun s₁ hs₁ => ?_
  obtain ⟨hQ₁, hgood₁, hkept₁⟩ := hs₁
  refine (hf s₁ hgood₁ hkept₁).imp fun s₂ hs₂ => ?_
  obtain ⟨hQ₂, hgood₂, hkept₂⟩ := hs₂
  rw [hk]
  exact ⟨hQ.comp va pa a b s s₁ s₂ hQ₁ hQ₂, hgood₂, hkept₁.trans hkept₂⟩

/-- The recursive calls of the loop at level `k` are correct. -/
def AgainSpec (ttbAlloc : Mm → Outcome (ℕ × Mm)) (g : Granule) (c : MapArgs)
    (roots : Set ℕ) (J : Mm → Prop) (Q : ℕ → ℕ → ℕ → Mm → Mm → Prop)
    (k : ℕ) (again : ℕ → ℕ → ℕ → Mm → Outcome Mm) : Prop :=
  ∀ va pa size s, Admissible g va pa size → StrictlyInside g k va size →
    Good g roots J s →
    CallSpec ttbAlloc g c roots J Q k va pa size s (again va pa size s)

theorem mapPiece_sat (henv : MapEnv ttbAlloc g c roots J)
    (hQ : MapRelation ttbAlloc g c roots J Q) {k tt va pa sz : ℕ} {s : Mm}
    {again : ℕ → ℕ → ℕ → Mm → Outcome Mm}
    (hagain : AgainSpec ttbAlloc g c roots J Q k again)
    (hadm : Admissible g va pa sz)
    (hfit : va % g.layout.blk k + sz ≤ g.layout.blk k)
    (hgood : Good g roots J s)
    (htt : TableOn g.layout s.mem c.tt0 va k tt) :
    CallSpec ttbAlloc g c roots J Q k va pa sz s
      (mapPiece again g c (g.layout.blk k) tt va pa sz s) := by
  have hbpos := g.layout.blk_pos k
  have hpos := hadm.size_pos
  -- every part of the piece lies in one block
  have hinside : ∀ a n, 0 < n → n < g.layout.blk k →
      va % g.layout.blk k + a + n ≤ g.layout.blk k →
      StrictlyInside g k (va + a) n := by
    intro a n hn hlt hle
    refine ⟨hlt, ?_⟩
    have hva := Nat.div_add_mod va (g.layout.blk k)
    have hdiv : ∀ d, va % g.layout.blk k + d < g.layout.blk k →
        (va + d) / g.layout.blk k = va / g.layout.blk k := by
      intro d hd
      rw [← hva, Nat.add_assoc, Nat.mul_add_div hbpos,
        Nat.div_eq_of_lt hd, Nat.mul_add_div hbpos,
        Nat.div_eq_of_lt (Nat.mod_lt va hbpos)]
    rw [hdiv a (by omega), show va + a + n - 1 = va + (a + n - 1) by omega,
      hdiv (a + n - 1) (by omega)]
  unfold mapPiece
  by_cases hsmall : sz < g.layout.blk k
  · rw [if_pos hsmall]
    exact hagain va pa sz s hadm (hinside 0 sz hpos hsmall hfit) hgood
  rw [if_neg hsmall]
  have hsz : sz = g.layout.blk k := by omega
  have hvab : va % g.layout.blk k = 0 := by omega
  by_cases hfrag : pa % g.layout.blk k = 0
  · rw [if_neg (not_not_intro hfrag), hsz]
    exact mapBlock_sat henv hQ (hsz ▸ hadm.va_fits) hgood htt
      (Nat.dvd_of_mod_eq_zero hvab) (Nat.dvd_of_mod_eq_zero hfrag)
  · rw [if_pos hfrag]
    have hlt := Nat.mod_lt pa hbpos
    have hdvd : g.pgsz ∣ pa % g.layout.blk k :=
      (Nat.dvd_mod_iff (g.pgsz_dvd_blk k)).mpr hadm.pa_aligned
    generalize pa % g.layout.blk k = frag at *
    have hfront : g.pgsz ∣ sz - frag := Nat.dvd_sub hadm.size_aligned hdvd
    refine CallSpec.comp hQ (a := sz - frag) (b := frag)
      (hagain va pa (sz - frag) s
        (hadm.front hfront (by omega) (by omega))
        (hinside 0 _ (by omega) (by omega) (by omega)) hgood)
      (fun s₁ hgood₁ _ => ?_) (by omega)
    have hback := hadm.back hfront (by omega)
    rw [show sz - (sz - frag) = frag by omega] at hback
    rw [show va + sz - frag = va + (sz - frag) by omega,
      show pa + sz - frag = pa + (sz - frag) by omega]
    exact hagain _ _ frag s₁ hback
      (hinside (sz - frag) frag (by omega) (by omega) (by omega)) hgood₁

theorem mapBlocks_sat (henv : MapEnv ttbAlloc g c roots J)
    (hQ : MapRelation ttbAlloc g c roots J Q) {k tt : ℕ}
    {again : ℕ → ℕ → ℕ → Mm → Outcome Mm}
    (hagain : AgainSpec ttbAlloc g c roots J Q k again)
    {n lo va pa size : ℕ} {s : Mm} (hlo : g.layout.blk k ∣ lo)
    (hlova : lo ≤ va) (hvalo : va < lo + g.layout.blk k)
    (hend : va + size ≤ lo + (n + 1) * g.layout.blk k)
    (hfull : lo + n * g.layout.blk k < va + size)
    (hadm : Admissible g va pa size)
    (hblock : va / g.layout.blk (k + 1) =
      (va + size - 1) / g.layout.blk (k + 1))
    (hgood : Good g roots J s)
    (htt : TableOn g.layout s.mem c.tt0 va k tt) :
    CallSpec ttbAlloc g c roots J Q k va pa size s
      (mapBlocks again g c (g.layout.blk k) tt (n + 1) lo va pa size s) := by
  induction n generalizing lo va pa size s with
  | zero =>
      have hsz : min (g.layout.blk k - (va - lo)) size = size := by
        rw [Nat.zero_add, Nat.one_mul] at hend
        omega
      have hmod : va % g.layout.blk k = va - lo := by
        obtain ⟨a, rfl⟩ := hlo
        obtain ⟨d, rfl⟩ := Nat.exists_eq_add_of_le hlova
        rw [Nat.mul_add_mod, Nat.add_sub_cancel_left,
          Nat.mod_eq_of_lt (by omega)]
      unfold mapBlocks
      simp only [hsz]
      refine Outcome.Sat.bind (mapPiece_sat henv hQ hagain hadm ?_ hgood htt)
        fun s₁ hs₁ => hs₁
      rw [Nat.zero_add, Nat.one_mul] at hend
      omega
  | succ n ih =>
      have hbpos := g.layout.blk_pos k
      rw [Nat.succ_mul] at hend hfull
      rw [Nat.succ_mul] at hend
      have hsz : min (g.layout.blk k - (va - lo)) size =
          g.layout.blk k - (va - lo) := by
        omega
      have hmod : va % g.layout.blk k = va - lo := by
        obtain ⟨a, rfl⟩ := hlo
        obtain ⟨d, rfl⟩ := Nat.exists_eq_add_of_le hlova
        rw [Nat.mul_add_mod, Nat.add_sub_cancel_left,
          Nat.mod_eq_of_lt (by omega)]
      have hdvd : g.pgsz ∣ g.layout.blk k - (va - lo) :=
        Nat.dvd_sub (g.pgsz_dvd_blk k)
          (Nat.dvd_sub hadm.va_aligned ((g.pgsz_dvd_blk k).trans hlo))
      have hnext : va + (g.layout.blk k - (va - lo)) =
          lo + g.layout.blk k := by
        omega
      unfold mapBlocks
      simp only [hsz]
      generalize hszEq : g.layout.blk k - (va - lo) = sz at *
      have hpos : 0 < sz := by omega
      have hback := hadm.back hdvd (by omega)
      -- the rest of the range starts in the same table
      have hsame : va / g.layout.blk (k + 1) =
          (va + sz) / g.layout.blk (k + 1) := by
        refine Nat.le_antisymm (Nat.div_le_div_right (by omega)) ?_
        rw [hblock]
        exact Nat.div_le_div_right (by omega)
      refine CallSpec.comp hQ (mapPiece_sat henv hQ hagain
        (hadm.front hdvd hpos (by omega)) (by omega) hgood htt)
        (fun s₁ hgood₁ hkept₁ => ?_) (show size = sz + (size - sz) by omega)
      refine ih (Nat.dvd_add hlo (Nat.dvd_refl _)) (by omega) (by omega)
        (by rw [Nat.succ_mul]; omega) (by omega) hback ?_ hgood₁ ?_
      · rw [← hsame, hblock]
        exact congrArg (· / g.layout.blk (k + 1)) (by omega)
      · exact (hkept₁ c.tt0 henv.root va k tt hadm.va_lt le_rfl htt).congr_key
          hsame

/-! ## The descent -/

/-- Where the descent of a call for `[va, va + size)` ends. -/
structure Descended (g : Granule) (c : MapArgs) (roots : Set ℕ)
    (J : Mm → Prop) (Q : ℕ → ℕ → ℕ → Mm → Mm → Prop) (i va pa size : ℕ)
    (s : Mm) (r : (ℕ × ℕ) × Mm) (j : ℕ) : Prop where
  bits : r.1.1 = g.bitsAt j
  table : TableOn g.layout r.2.mem c.tt0 va j r.1.2
  below : ∀ m, m ≤ i → StrictlyInside g m va size → j < m
  block : va / g.layout.blk (j + 1) = (va + size - 1) / g.layout.blk (j + 1)
  le : j ≤ i
  good : Good g roots J r.2
  kept : Kept g roots 0 s r.2
  carry : ∀ s₂, Q va pa size r.2 s₂ → Q va pa size s s₂

theorem Descended.raise {i j va pa size : ℕ} {s : Mm} {r : (ℕ × ℕ) × Mm}
    (h : Descended g c roots J Q i va pa size s r j) :
    Descended g c roots J Q (i + 1) va pa size s r j := by
  refine ⟨h.bits, h.table, fun m hm hin => ?_, h.block, ?_, h.good, h.kept,
    h.carry⟩
  · have hle := h.le
    by_cases hmi : m ≤ i
    · exact h.below m hmi hin
    · omega
  · exact h.le.trans (Nat.le_succ i)

theorem Descended.before {i j va pa size : ℕ} {s s₀ : Mm}
    {r : (ℕ × ℕ) × Mm} (h : Descended g c roots J Q i va pa size s r j)
    (hkept : Kept g roots 0 s₀ s)
    (hcarry : ∀ s₂, Q va pa size s s₂ → Q va pa size s₀ s₂) :
    Descended g c roots J Q i va pa size s₀ r j :=
  ⟨h.bits, h.table, h.below, h.block, h.le, h.good, hkept.trans h.kept,
    fun s₂ hs₂ => hcarry s₂ (h.carry s₂ hs₂)⟩

theorem descend_sat (henv : DescentEnv ttbAlloc g c roots J)
    {va pa size : ℕ} (hadm : Admissible g va pa size)
    (hQ : ∀ k s s₁ s₂, size < g.layout.blk (k + 1) →
      va / g.layout.blk (k + 1) = (va + size - 1) / g.layout.blk (k + 1) →
      Good g roots J s → SplitStep ttbAlloc g c k va s s₁ →
      Q va pa size s₁ s₂ → Q va pa size s s₂) {i fuel tt : ℕ} {s : Mm}
    (hfuel : i < fuel) (hgood : Good g roots J s)
    (htt : TableOn g.layout s.mem c.tt0 va i tt)
    (hblock : va / g.layout.blk (i + 1) =
      (va + size - 1) / g.layout.blk (i + 1)) :
    Outcome.Sat (MapStop ttbAlloc c.isTt1)
      (fun r => ∃ j, Descended g c roots J Q i va pa size s r j)
      (descend ttbAlloc g c va size fuel (g.bitsAt i) tt s) := by
  have hbpos := g.layout.blk_pos
  induction i generalizing fuel tt s with
  | zero =>
      obtain ⟨fuel, rfl⟩ := Nat.exists_eq_succ_of_ne_zero (by omega : fuel ≠ 0)
      have hlarge := hadm.pgsz_le
      have hstop : ¬ (size < g.layout.blk 0 ∧
          (va + size + (g.layout.blk 0 - 1)) / g.layout.blk 0 * g.layout.blk 0
            - va / g.layout.blk 0 * g.layout.blk 0 = g.layout.blk 0) := by
        rw [g.blk_zero]
        omega
      unfold descend
      rw [g.two_pow_bitsAt]
      simp only [if_neg hstop]
      refine ⟨0, rfl, htt, ?_, hblock, le_rfl, hgood, Kept.refl 0 s,
        fun _ h => h⟩
      intro m hm hin
      obtain rfl : m = 0 := Nat.le_zero.mp hm
      rw [StrictlyInside, g.blk_zero] at hin
      omega
  | succ i ih =>
      obtain ⟨fuel, rfl⟩ := Nat.exists_eq_succ_of_ne_zero (by omega : fuel ≠ 0)
      have hiff := @single_block_iff _ va _ (hbpos (i + 1)) hadm.size_pos
      unfold descend
      rw [g.two_pow_bitsAt]
      simp only [hiff, g.bitsAt_succ_sub]
      by_cases hin : size < g.layout.blk (i + 1) ∧
          va / g.layout.blk (i + 1) = (va + size - 1) / g.layout.blk (i + 1)
      · simp only [if_pos hin]
        have hslot : tt + 8 * (va / g.layout.blk (i + 1) % 2 ^ g.ttBits) =
            g.layout.slot (i + 1) tt va := rfl
        rw [hslot]
        by_cases hlink : Tte.valid (s.mem (g.layout.slot (i + 1) tt va)) ∧
            Tte.table (s.mem (g.layout.slot (i + 1) tt va))
        · rw [if_pos hlink]
          refine (ih (by omega) hgood (htt.next (if_pos hlink)) hin.2).imp ?_
          rintro r ⟨j, hj⟩
          exact ⟨j, hj.raise⟩
        · rw [if_neg hlink, if_pos (Or.inr henv.overwrite)]
          cases halloc : ttbAlloc s with
          | error e => exact Or.inl ⟨s, halloc⟩
          | ok r =>
              obtain ⟨t, s₁⟩ := r
              have hsplit : SplitStep ttbAlloc g c i va s
                  (s₁.store (g.layout.slot (i + 1) tt va) (Tte.link t)) :=
                ⟨tt, t, s₁, htt, if_neg hlink, halloc, rfl⟩
              obtain ⟨t', s₁', halloc', htable⟩ :=
                hsplit.table henv.root henv.fresh hadm.va_lt hgood
              obtain ⟨rfl, -⟩ : t = t' ∧ s₁ = s₁' := by
                rw [halloc] at halloc'
                exact Prod.mk.inj (Except.ok.inj halloc')
              have hgood' := hsplit.good henv hadm.va_lt hgood
              refine (ih (by omega) hgood' htable hin.2).imp ?_
              rintro r ⟨j, hj⟩
              exact ⟨j, hj.raise.before
                (hsplit.kept henv.root henv.fresh hadm.va_lt hgood)
                fun s₂ => hQ i s _ s₂ hin.1 hin.2 hgood hsplit⟩
      · simp only [if_neg hin]
        refine ⟨i + 1, rfl, htt, ?_, hblock, le_rfl, hgood, Kept.refl 0 s,
          fun _ h => h⟩
        exact fun m hm hinm => absurd (hinm.mono hm) hin

/-! ## The recursion -/

/-- One level of the recursion, for a range that the recursive calls below it
can finish. -/
theorem mapRangeMapFuel_step (henv : MapEnv ttbAlloc g c roots J)
    (hQ : MapRelation ttbAlloc g c roots J Q) {n va pa size : ℕ} {s : Mm}
    (hagain : ∀ j, j ≤ n →
      AgainSpec ttbAlloc g c roots J Q j (mapRangeMapFuel ttbAlloc g c n))
    (hadm : Admissible g va pa size) (hgood : Good g roots J s)
    (hroom : g.topLevel ≤ n ∨ ∃ m, m ≤ n + 1 ∧ StrictlyInside g m va size) :
    Outcome.Sat (MapStop ttbAlloc c.isTt1)
      (fun s' => Q va pa size s s' ∧ Good g roots J s' ∧
        ∀ m, StrictlyInside g m va size ∨ g.topLevel < m →
          Kept g roots m s s')
      (mapRangeMapFuel ttbAlloc g c (n + 1) va pa size s) := by
  have hpos := hadm.size_pos
  unfold mapRangeMapFuel
  simp only [spaceOffset_of_lt c.isTt1 hadm.va_lt]
  refine Outcome.Sat.bind (P := fun _ => True) ?_ fun _ _ => ?_
  · rw [panicIf, if_neg hadm.not_bad]
    trivial
  have htop : va / g.layout.blk (g.topLevel + 1) =
      (va + size - 1) / g.layout.blk (g.topLevel + 1) := by
    have hspace : g.layout.blk (g.topLevel + 1) = g.space := g.space_eq
    have hfits := hadm.va_fits
    rw [hspace, Nat.div_eq_of_lt (by omega), Nat.div_eq_of_lt (by omega)]
  rw [g.rootBits_eq]
  refine Outcome.Sat.bind (descend_sat henv.descent hadm
    (fun k s s₁ s₂ => hQ.split k va pa size s s₁ s₂ hadm.va_lt hpos)
    (Nat.lt_succ_self _) hgood TableOn.root htop) ?_
  rintro ⟨⟨bits, tt⟩, s₁⟩ ⟨j, hj⟩
  obtain rfl : bits = g.bitsAt j := hj.bits
  have htable := hj.table
  have hgood₁ := hj.good
  have hbelow : ∀ m, StrictlyInside g m va size ∨ g.topLevel < m → j < m := by
    intro m hm
    by_cases hmtop : m ≤ g.topLevel
    · exact hj.below m hmtop (hm.resolve_right (by omega))
    · exact hj.le.trans_lt (by omega)
  have hjn : j ≤ n := by
    rcases hroom with hn | ⟨m, hm, hin⟩
    · exact hj.le.trans hn
    · have := hbelow m (Or.inl hin)
      omega
  have hbpos := g.layout.blk_pos j
  simp only [g.two_pow_bitsAt, block_count hbpos hpos]
  have hq := Nat.div_add_mod va (g.layout.blk j)
  have hr := Nat.mod_lt va hbpos
  have hq' := Nat.div_add_mod (va + size - 1) (g.layout.blk j)
  have hr' := Nat.mod_lt (va + size - 1) hbpos
  have hle : va / g.layout.blk j ≤ (va + size - 1) / g.layout.blk j :=
    Nat.div_le_div_right (by omega)
  obtain ⟨d, hd⟩ := Nat.exists_eq_add_of_le hle
  rw [hd, Nat.mul_add] at hq'
  rw [hd, Nat.add_sub_cancel_left]
  have hloop := mapBlocks_sat henv hQ (hagain j hjn) (n := d) (s := s₁)
    (show g.layout.blk j ∣ va / g.layout.blk j * g.layout.blk j from
      Nat.dvd_mul_left _ _) (by rw [Nat.mul_comm]; omega)
    (by rw [Nat.mul_comm]; omega)
    (by rw [Nat.mul_comm, Nat.add_mul, Nat.mul_comm d]; omega)
    (by rw [Nat.mul_comm, Nat.mul_comm d]; omega) hadm hj.block hgood₁ htable
  refine hloop.imp fun s₂ hs₂ => ?_
  obtain ⟨hQ₂, hgood₂, hkept₂⟩ := hs₂
  refine ⟨hj.carry s₂ hQ₂, hgood₂, fun m hm => ?_⟩
  have hjm := (hbelow m hm).le
  exact (hj.kept.mono (Nat.zero_le m)).trans (hkept₂.mono hjm)

/-- A recursive call inside a block of level `m` needs `m` levels of fuel. -/
theorem mapRangeMapFuel_again (henv : MapEnv ttbAlloc g c roots J)
    (hQ : MapRelation ttbAlloc g c roots J Q) (n : ℕ) :
    ∀ m, m ≤ n →
      AgainSpec ttbAlloc g c roots J Q m (mapRangeMapFuel ttbAlloc g c n) := by
  induction n with
  | zero =>
      intro m hm va pa size s hadm hin _
      obtain rfl : m = 0 := Nat.le_zero.mp hm
      have hle := hadm.pgsz_le
      rw [StrictlyInside, g.blk_zero] at hin
      omega
  | succ n ih =>
      intro m hm va pa size s hadm hin hgood
      refine (mapRangeMapFuel_step henv hQ ih hadm hgood
        (Or.inr ⟨m, hm, hin⟩)).imp fun s' hs' => ?_
      exact ⟨hs'.1, hs'.2.1, hs'.2.2 m (Or.inl hin)⟩

/-- The rule: the relation holds of the whole call, and the call stops only
where `ttb_alloc` or a reference counter does. -/
theorem mapRangeMap_sat (henv : MapEnv ttbAlloc g c roots J)
    (hQ : MapRelation ttbAlloc g c roots J Q) {va pa size : ℕ} {s : Mm}
    (hadm : Admissible g va pa size) (hgood : Good g roots J s) :
    Outcome.Sat (MapStop ttbAlloc c.isTt1)
      (fun s' => Q va pa size s s' ∧ Good g roots J s')
      (mapRangeMap ttbAlloc g c va pa size s) :=
  (mapRangeMapFuel_step henv hQ
    (mapRangeMapFuel_again henv hQ g.topLevel) hadm hgood
    (Or.inl le_rfl)).imp fun _ hs' => ⟨hs'.1, hs'.2.1⟩

end Rule

end Mm

end PongoOS
