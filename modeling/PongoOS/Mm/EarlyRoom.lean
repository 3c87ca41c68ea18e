import PongoOS.Mm.EarlyTables

/-!
# The room for early tables

`ttb_alloc_early` does not look whether there is room: `ttb_alloc_base` wraps
around where it is exhausted.  A call of `map_range_map` takes the tables of one
descent for itself, and those of two further calls for the ends of its range and for
each block that is misaligned.  So the room it takes is a small part of the range it
maps, and `ttb_alloc_base` is not brought all the way round: if it still is a
physical address at the end, no table was taken without room for it.
-/

namespace PongoOS

open RadixTable

namespace Mm

/-- `b` bytes at most were taken for tables on the way from `s` to `s'`. -/
def Descends (b : ℕ) (s s' : Mm) : Prop :=
  s.ttbAllocBase < 2 ^ 64 → s'.ttbAllocBase < 2 ^ 64 ∧
    ∃ n ≤ b, (s'.ttbAllocBase + n) % 2 ^ 64 = s.ttbAllocBase

section Descends

variable {b b' : ℕ} {s s₁ s' : Mm}

theorem Descends.same (h : s'.ttbAllocBase = s.ttbAllocBase) : Descends b s s' := by
  intro hbase
  rw [h]
  exact ⟨hbase, 0, Nat.zero_le b, Nat.mod_eq_of_lt hbase⟩

theorem Descends.mono (h : Descends b s s') (hb : b ≤ b') : Descends b' s s' := by
  intro hbase
  obtain ⟨hbase', n, hn, hround⟩ := h hbase
  exact ⟨hbase', n, hn.trans hb, hround⟩

theorem Descends.trans (h : Descends b s s₁) (h' : Descends b' s₁ s') :
    Descends (b + b') s s' := by
  intro hbase
  obtain ⟨hbase₁, n, hn, hround⟩ := h hbase
  obtain ⟨hbase', n', hn', hround'⟩ := h' hbase₁
  exact ⟨hbase', n' + n, by omega, by omega⟩

/-- With room for the tables, `ttb_alloc_base` goes down. -/
theorem Descends.below (h : Descends b s s') (hs : s.ttbAllocBase ≤ 2 ^ 48)
    (hb : b ≤ s.ttbAllocBase) :
    s'.ttbAllocBase ≤ s.ttbAllocBase ∧ s.ttbAllocBase ≤ s'.ttbAllocBase + b := by
  obtain ⟨hbase', n, hn, hround⟩ := h (by omega)
  omega

/-- Where the way does not lead all the way round, a physical address at its end
was one in between. -/
theorem Descends.between (h : Descends b s s₁) (h' : Descends b' s₁ s')
    (hs : s.ttbAllocBase ≤ 2 ^ 48) (hs' : s'.ttbAllocBase ≤ 2 ^ 48)
    (hb : b + b' ≤ 2 ^ 60) : s₁.ttbAllocBase ≤ 2 ^ 48 := by
  obtain ⟨hbase₁, n, hn, hround⟩ := h (by omega)
  obtain ⟨hbase', n', hn', hround'⟩ := h' hbase₁
  omega

end Descends

/-! ## Runs -/

/-- `x` takes its tables from `ttb_alloc_early`, no more than `b` bytes, and `y` is
the same run that stops where there is no room. -/
def Spends {α : Type} (st : α → Mm) (b : ℕ) (s : Mm) (x y : Outcome α) : Prop :=
  ∀ a, x = .ok a → Descends b s (st a) ∧
    (b ≤ 2 ^ 60 → s.ttbAllocBase ≤ 2 ^ 48 → (st a).ttbAllocBase ≤ 2 ^ 48 →
      y = .ok a)

section Spends

variable {α β : Type} {st : α → Mm} {st' : β → Mm} {b b' : ℕ} {s : Mm}
  {x y : Outcome α}

theorem Spends.mono (h : Spends st b s x y) (hb : b ≤ b') : Spends st b' s x y := by
  intro a hok
  obtain ⟨hdescends, hrun⟩ := h a hok
  exact ⟨hdescends.mono hb, fun hb' => hrun (hb.trans hb')⟩

theorem Spends.bind {f h : α → Outcome β} (hx : Spends st b s x y)
    (hf : ∀ a, x = .ok a → Spends st' b' (st a) (f a) (h a)) :
    Spends st' (b + b') s (x >>= f) (y >>= h) := by
  intro c hok
  obtain ⟨a, hfirst, hrest⟩ := Outcome.bind_eq_ok.mp hok
  obtain ⟨hdescends, hrun⟩ := hx a hfirst
  obtain ⟨hdescends', hrun'⟩ := hf a hfirst c hrest
  refine ⟨hdescends.trans hdescends', fun hb hs hend => ?_⟩
  have hbetween := hdescends.between hdescends' hs hend hb
  exact Outcome.bind_eq_ok.mpr ⟨a, hrun (by omega) hs hbetween,
    hrun' (by omega) hbetween hend⟩

/-- Only `ttb_alloc_base` matters of the state before. -/
theorem Spends.of_base {s₁ : Mm} (h : Spends st b s₁ x y)
    (hbase : s₁.ttbAllocBase = s.ttbAllocBase) : Spends st b s x y := by
  unfold Spends Descends at *
  rwa [hbase] at h

/-- A run that takes no table. -/
theorem Spends.same (h : ∀ a, x = .ok a → (st a).ttbAllocBase = s.ttbAllocBase) :
    Spends st b s x x :=
  fun a hok => ⟨.same (h a hok), fun _ _ _ => hok⟩

/-- A run that does not return. -/
theorem Spends.stuck (h : ∀ a, x ≠ .ok a) : Spends st b s x y :=
  fun a hok => absurd hok (h a)

theorem Spends.error {e : Stop} : Spends st b s (.error e) y := by
  intro a hok
  cases hok

end Spends

/-! ## The descent -/

section Descent

variable {g : Granule} {c : MapArgs} {s s' : Mm}

theorem ttbAllocEarly_spends :
    Spends Prod.snd g.pgsz s (ttbAllocEarly g s) (earlyTables g s) := by
  intro a hok
  cases hok
  have hsmall : g.pgsz < 2 ^ 48 := by cases g <;> decide
  have hlast : (sub64 s.ttbAllocBase g.pgsz + g.pgsz) % 2 ^ 64 =
      s.ttbAllocBase % 2 ^ 64 := by
    unfold sub64
    omega
  refine ⟨fun hbase => ⟨sub64_lt, g.pgsz, le_rfl, ?_⟩, fun _ hs hend => ?_⟩
  · exact hlast.trans (Nat.mod_eq_of_lt hbase)
  · have hend' : sub64 s.ttbAllocBase g.pgsz ≤ 2 ^ 48 := hend
    exact (earlyTables_ok hs).mpr ⟨by omega, by omega, rfl⟩

theorem descend_spends {va size fuel bits tt : ℕ} :
    Spends Prod.snd (fuel * g.pgsz) s
      (descend (ttbAllocEarly g) g c va size fuel bits tt s)
      (descend (earlyTables g) g c va size fuel bits tt s) := by
  induction fuel generalizing bits tt s with
  | zero => exact .error
  | succ fuel ih =>
      rw [Nat.succ_mul, Nat.add_comm]
      unfold descend
      dsimp only
      split
      · split
        · exact ih.mono (Nat.le_add_left _ _)
        · split
          · exact ttbAllocEarly_spends.bind fun r _ => ih.of_base rfl
          · exact .error
      · exact .same fun a hok => by cases hok; rfl

/-- A range of a page at least never leads below the last level. -/
theorem descend_level {ttbAlloc : Mm → Outcome (ℕ × Mm)} {va size fuel tt i : ℕ}
    {r : (ℕ × ℕ) × Mm} (hpage : g.pgsz ≤ size)
    (hok : descend ttbAlloc g c va size fuel (g.bitsAt i) tt s = .ok r) :
    ∃ j, r.1.1 = g.bitsAt j := by
  induction fuel generalizing i tt s with
  | zero => cases hok
  | succ fuel ih =>
      unfold descend at hok
      dsimp only at hok
      rw [g.two_pow_bitsAt] at hok
      split at hok
      · rename_i hinside
        cases i with
        | zero =>
            rw [g.blk_zero] at hinside
            omega
        | succ i =>
            rw [g.bitsAt_succ_sub] at hok
            split at hok
            · exact ih hok
            · split at hok
              · obtain ⟨_, -, hrest⟩ := Outcome.bind_eq_ok.mp hok
                exact ih hrest
              · cases hok
      · cases hok
        exact ⟨i, rfl⟩

end Descent

/-! ## The blocks -/

/-- The room for the tables of a call that starts behind a block's start or stops
before its end. -/
def endRoom (g : Granule) : ℕ → ℕ
  | 0 => 0
  | fuel + 1 => (g.topLevel + 1) * g.pgsz + 2 * endRoom g fuel

/-- The room for the tables behind each block of the level above the last. -/
def blockRoom (g : Granule) : ℕ → ℕ
  | 0 => 0
  | fuel + 1 => blockRoom g fuel + 2 * endRoom g fuel

/-- The room for the tables of a call that recurses `fuel` times at most. -/
def roomFor (g : Granule) (fuel size : ℕ) : ℕ :=
  endRoom g fuel + blockRoom g fuel * (size / g.layout.blk 1)

/-- What a call uses of the calls it makes. -/
structure Inner (g : Granule) (fuel : ℕ)
    (again again' : ℕ → ℕ → ℕ → Mm → Outcome Mm) : Prop where
  spends : ∀ va pa sz s,
    Spends id (roomFor g fuel sz) s (again va pa sz s) (again' va pa sz s)
  page_le : ∀ va pa sz s s', again va pa sz s = .ok s' → g.pgsz ≤ sz

theorem mul_blocks_le (k d x y : ℕ) :
    k * (x / d) + k * (y / d) ≤ k * ((x + y) / d) := by
  rw [← Nat.mul_add]
  exact Nat.mul_le_mul_left k Nat.div_add_div_le_add_div

theorem roomFor_le (g : Granule) (fuel size : ℕ) :
    roomFor g fuel size ≤
      endRoom g fuel + blockRoom g (fuel + 1) * (size / g.layout.blk 1) := by
  rw [roomFor, blockRoom, Nat.add_mul]
  omega

section Blocks

variable {g : Granule} {c : MapArgs} {s s' : Mm} {fuel tt n lo va pa size sz : ℕ}
  {again again' : ℕ → ℕ → ℕ → Mm → Outcome Mm}

/-- Writing an entry takes no table. -/
theorem mapBlock_ttbAllocBase {blksz : ℕ} (htt0 : c.isTt1 = false)
    (hok : mapBlock g c blksz tt va pa s = .ok s') :
    s'.ttbAllocBase = s.ttbAllocBase := by
  simp only [mapBlock, Outcome.bind_eq_ok, htt0, Bool.false_eq_true, and_false,
    if_false, Outcome.pure_eq_ok] at hok
  obtain ⟨-, -, s₁, hstore, rfl⟩ := hok
  split at hstore
  · cases hstore
    rfl
  split at hstore
  · obtain ⟨s₂, hsame, hstore⟩ := Outcome.bind_eq_ok.mp hstore
    cases hsame
    cases hstore
    rfl
  · cases hstore
    rfl

/-- On the last level there are no parts of a block. -/
theorem Inner.mapPiece_page (h : Inner g fuel again again') (htt0 : c.isTt1 = false)
    (hle : sz ≤ g.pgsz) :
    Spends id 0 s (mapPiece again g c g.pgsz tt va pa sz s)
      (mapPiece again' g c g.pgsz tt va pa sz s) := by
  unfold mapPiece
  split
  · rename_i hlt
    exact .stuck fun s' hok => absurd (h.page_le _ _ _ _ _ hok) (by omega)
  split
  · refine .stuck fun s' hok => ?_
    obtain ⟨s₁, hfirst, -⟩ := Outcome.bind_eq_ok.mp hok
    have hpage := h.page_le _ _ _ _ _ hfirst
    have hpgsz := g.pgsz_pos
    omega
  · exact .same fun s' hok => mapBlock_ttbAllocBase htt0 hok

theorem Inner.mapBlocks_page (h : Inner g fuel again again')
    (htt0 : c.isTt1 = false) :
    Spends id 0 s (mapBlocks again g c g.pgsz tt n lo va pa size s)
      (mapBlocks again' g c g.pgsz tt n lo va pa size s) := by
  induction n generalizing lo va pa size s with
  | zero => exact .same fun _ hok => by cases hok; rfl
  | succ n ih =>
      have hle : min (g.pgsz - (va - lo)) size ≤ g.pgsz := by omega
      exact (h.mapPiece_page htt0 hle).bind fun s₁ _ => ih

/-- A whole block: an entry, or the two calls of the cursed case. -/
theorem Inner.mapPiece_whole (h : Inner g fuel again again')
    (htt0 : c.isTt1 = false) (j : ℕ) :
    Spends id (blockRoom g (fuel + 1) * (g.layout.blk (j + 1) / g.layout.blk 1)) s
      (mapPiece again g c (g.layout.blk (j + 1)) tt va pa (g.layout.blk (j + 1)) s)
      (mapPiece again' g c (g.layout.blk (j + 1)) tt va pa (g.layout.blk (j + 1))
        s) := by
  unfold mapPiece
  rw [if_neg (lt_irrefl _), if_neg (lt_irrefl _)]
  split
  · have hfrag := Nat.mod_lt pa (g.layout.blk_pos (j + 1))
    generalize hblk : g.layout.blk (j + 1) = blksz at *
    generalize pa % blksz = frag at *
    have hone : 1 ≤ blksz / g.layout.blk 1 := by
      rw [← hblk]
      exact Nat.div_pos (g.layout.blk_le (Nat.le_add_left 1 j)) (g.layout.blk_pos 1)
    have hparts := mul_blocks_le (blockRoom g fuel) (g.layout.blk 1)
      (blksz - frag) frag
    rw [Nat.sub_add_cancel hfrag.le] at hparts
    have hends := Nat.mul_le_mul_left (2 * endRoom g fuel) hone
    refine Spends.mono ((h.spends _ _ _ _).bind fun s₁ _ => h.spends _ _ _ s₁) ?_
    unfold roomFor
    rw [blockRoom, Nat.add_mul]
    omega
  · exact .same fun s' hok => mapBlock_ttbAllocBase htt0 hok

theorem Inner.mapPiece_part (h : Inner g fuel again again') {blksz : ℕ}
    (hlt : sz < blksz) :
    Spends id (roomFor g fuel sz) s (mapPiece again g c blksz tt va pa sz s)
      (mapPiece again' g c blksz tt va pa sz s) := by
  unfold mapPiece
  rw [if_pos hlt, if_pos hlt]
  exact h.spends va pa sz s

theorem Inner.mapBlocks_none (h : Inner g fuel again again') {blksz : ℕ}
    (hpos : 0 < blksz) :
    Spends id 0 s (mapBlocks again g c blksz tt n lo va pa 0 s)
      (mapBlocks again' g c blksz tt n lo va pa 0 s) := by
  cases n with
  | zero => exact .same fun _ hok => by cases hok; rfl
  | succ n =>
      refine .stuck fun s' hok => ?_
      obtain ⟨s₁, hpiece, -⟩ := Outcome.bind_eq_ok.mp hok
      rw [Nat.min_zero, mapPiece, if_pos hpos] at hpiece
      have hpage := h.page_le _ _ _ _ _ hpiece
      have hpgsz := g.pgsz_pos
      omega

/-- From the start of a block on, there is one end. -/
theorem Inner.mapBlocks_aligned (h : Inner g fuel again again')
    (htt0 : c.isTt1 = false) (j : ℕ) :
    Spends id (endRoom g fuel +
        blockRoom g (fuel + 1) * (size / g.layout.blk 1)) s
      (mapBlocks again g c (g.layout.blk (j + 1)) tt n va va pa size s)
      (mapBlocks again' g c (g.layout.blk (j + 1)) tt n va va pa size s) := by
  induction n generalizing va pa size s with
  | zero => exact .same fun _ hok => by cases hok; rfl
  | succ n ih =>
      unfold mapBlocks
      dsimp only
      rw [Nat.sub_self, Nat.sub_zero]
      by_cases hlast : size < g.layout.blk (j + 1)
      · rw [Nat.min_eq_right hlast.le, Nat.sub_self]
        exact ((h.mapPiece_part hlast).mono (roomFor_le g fuel size)).bind
          fun s₁ _ => h.mapBlocks_none (g.layout.blk_pos _)
      · rw [Nat.min_eq_left (Nat.le_of_not_lt hlast)]
        have hparts := mul_blocks_le (blockRoom g (fuel + 1)) (g.layout.blk 1)
          (g.layout.blk (j + 1)) (size - g.layout.blk (j + 1))
        rw [Nat.add_sub_cancel' (Nat.le_of_not_lt hlast)] at hparts
        refine Spends.mono ((h.mapPiece_whole htt0 j).bind fun s₁ _ => ih) ?_
        omega

/-- From within a block on, there are two. -/
theorem Inner.mapBlocks_within (h : Inner g fuel again again')
    (htt0 : c.isTt1 = false) (j : ℕ) (hlo : lo ≤ va)
    (hin : va < lo + g.layout.blk (j + 1)) :
    Spends id (2 * endRoom g fuel +
        blockRoom g (fuel + 1) * (size / g.layout.blk 1)) s
      (mapBlocks again g c (g.layout.blk (j + 1)) tt n lo va pa size s)
      (mapBlocks again' g c (g.layout.blk (j + 1)) tt n lo va pa size s) := by
  rcases hlo.eq_or_lt with rfl | hlt
  · exact (h.mapBlocks_aligned htt0 j).mono (by omega)
  cases n with
  | zero => exact .same fun _ hok => by cases hok; rfl
  | succ n =>
      have hpart : min (g.layout.blk (j + 1) - (va - lo)) size <
          g.layout.blk (j + 1) := by omega
      unfold mapBlocks
      dsimp only
      by_cases hend : size ≤ g.layout.blk (j + 1) - (va - lo)
      · rw [Nat.min_eq_right hend] at hpart ⊢
        rw [Nat.sub_self]
        have hmore := roomFor_le g fuel size
        refine ((h.mapPiece_part hpart).bind fun s₁ _ =>
          h.mapBlocks_none (g.layout.blk_pos _)).mono ?_
        omega
      · have hstop : g.layout.blk (j + 1) - (va - lo) ≤ size := by omega
        rw [Nat.min_eq_left hstop] at hpart ⊢
        have hnext : lo + g.layout.blk (j + 1) =
            va + (g.layout.blk (j + 1) - (va - lo)) := by omega
        rw [hnext]
        generalize g.layout.blk (j + 1) - (va - lo) = sz at *
        have hmore := roomFor_le g fuel sz
        have hparts := mul_blocks_le (blockRoom g (fuel + 1)) (g.layout.blk 1) sz
          (size - sz)
        rw [Nat.add_sub_cancel' hstop] at hparts
        refine ((h.mapPiece_part hpart).bind fun s₁ _ =>
          h.mapBlocks_aligned htt0 j).mono ?_
        omega

end Blocks

/-! ## `map_range_map` -/

section Call

variable {g : Granule} {c : MapArgs} {s s' : Mm} {va pa size : ℕ}

/-- The induction is on the depth of the recursion. -/
theorem mapRangeMapFuel_inner (htt0 : c.isTt1 = false) (fuel : ℕ) :
    Inner g fuel (mapRangeMapFuel (ttbAllocEarly g) g c fuel)
      (mapRangeMapFuel (earlyTables g) g c fuel) := by
  induction fuel with
  | zero =>
      refine ⟨fun va pa size s => .error, fun va pa size s s' hok => ?_⟩
      cases hok
  | succ fuel ih =>
      refine ⟨fun va pa size s => ?_, fun va pa size s s' hok => ?_⟩
      · unfold mapRangeMapFuel
        dsimp only
        by_cases hbad : BadArguments g (spaceOffset g c.isTt1 va) pa size
        · rw [panicIf, if_pos hbad]
          exact .error
        rw [panicIf, if_neg hbad, Outcome.ok_bind, Outcome.ok_bind, g.rootBits_eq]
        have hpage : g.pgsz ≤ size := by
          unfold BadArguments at hbad
          omega
        have hroom : roomFor g (fuel + 1) size = (g.topLevel + 1) * g.pgsz +
            (2 * endRoom g fuel +
              blockRoom g (fuel + 1) * (size / g.layout.blk 1)) := by
          rw [roomFor, endRoom, Nat.add_assoc]
        rw [hroom]
        refine descend_spends.bind fun r hr => ?_
        obtain ⟨⟨bits, tt⟩, s₁⟩ := r
        obtain ⟨level, rfl⟩ : ∃ j, bits = g.bitsAt j := descend_level hpage hr
        dsimp only
        rw [g.two_pow_bitsAt]
        cases level with
        | zero =>
            rw [g.blk_zero]
            exact (ih.mapBlocks_page htt0).mono (Nat.zero_le _)
        | succ j =>
            have hpos := g.layout.blk_pos (j + 1)
            exact ih.mapBlocks_within htt0 j (Nat.div_mul_le_self _ _)
              (Nat.lt_div_mul_add hpos)
      · unfold mapRangeMapFuel at hok
        obtain ⟨_, hgood, -⟩ := Outcome.bind_eq_ok.mp hok
        have hbad := panicIf_eq_ok.mp hgood
        unfold BadArguments at hbad
        omega

theorem mapRangeMap_spends (htt0 : c.isTt1 = false) :
    Spends id (2 ^ 19 + size / 16) s
      (mapRangeMap (ttbAllocEarly g) g c va pa size s)
      (mapRangeMap (earlyTables g) g c va pa size s) := by
  refine ((mapRangeMapFuel_inner htt0 _).spends va pa size s).mono ?_
  cases g
  · show 86016 + 98304 * (size / 2097152) ≤ _
    omega
  · show 98304 + 65536 * (size / 33554432) ≤ _
    omega

/-- If `ttb_alloc_base` still is a physical address, there was room for every
table. -/
theorem mapRangeMap_room (htt0 : c.isTt1 = false) (hsize : size ≤ 2 ^ 48)
    (hbelow : s.ttbAllocBase ≤ 2 ^ 48)
    (hok : mapRangeMap (ttbAllocEarly g) g c va pa size s = .ok s')
    (hroom : s'.ttbAllocBase ≤ 2 ^ 48) :
    mapRangeMap (earlyTables g) g c va pa size s = .ok s' :=
  (mapRangeMap_spends htt0 s' hok).2 (by omega) hbelow hroom

end Call

end Mm

end PongoOS
