import PongoOS.Xnu.Patchfinder

/-!
# What the interpreter calls

The loops of the interpreter are compared with one that looks at the pattern itself
at each element.  The window holds the elements from the current one on, because no
callback writes what is scanned; the loops differ in how many elements they visit.
-/

namespace PongoOS

/-! ## Direct matching -/

/-- The pattern is in memory at `stream`. -/
def PfPatch.MatchesAt (p : PfPatch) (t : AccessType) (m : ByteMemory)
    (stream : ℕ) : Prop :=
  ∀ k (hk : k < p.pairs.length),
    element t m (stream + k * t.width) &&& p.pairs[k].mask = p.pairs[k].value

instance (p : PfPatch) (t : AccessType) (m : ByteMemory) (stream : ℕ) :
    Decidable (p.MatchesAt t m stream) :=
  inferInstanceAs (Decidable (∀ k (_ : k < p.pairs.length), _ = _))

/-- The callback is called if the patch is enabled and its pattern is in `m`. -/
def directVisit (t : AccessType) (m : ByteMemory) (s : PfScan)
    (v : ℕ × PfPatch) : PfScan :=
  if s.world.shouldMatch v.2.addr = true ∧ v.2.MatchesAt t m v.1 then v.2.call v.1 s
  else s

/-- All patches at the first `n` elements, in order. -/
def visits (t : AccessType) (patches : List PfPatch) (base n : ℕ) :
    List (ℕ × PfPatch) :=
  (List.range n).flatMap fun i => patches.map fun p => (base + i * t.width, p)

/-- The calls for a range: each enabled patch is called where its pattern is. -/
def directCalls (t : AccessType) (range : PfRange) (patches : List PfPatch)
    (w : PfWorld) : List (ℕ × ℕ) :=
  ((visits t patches range.cacheableBase (range.size / t.width)).foldl
    (directVisit t w.mem) ⟨w, []⟩).calls

/-- No byte of the block is changed by the callback. -/
def PfPatch.Keeps (p : PfPatch) (start size : ℕ) : Prop :=
  ∀ stream w x, start ≤ x → x < start + size →
    (p.callback stream w).2.mem x = w.mem x

/-- How many elements are looked at from one on. -/
def lookahead (patches : List PfPatch) : ℕ :=
  (patches.map fun p => p.pairs.length).foldr max 8

/-- The callbacks do not write what is scanned. -/
def KeepsScanned (t : AccessType) (range : PfRange) (patches : List PfPatch) :
    Prop :=
  ∀ p ∈ patches, p.Keeps range.cacheableBase
    ((range.size / t.width + lookahead patches) * t.width)

section Lookahead

variable {patches : List PfPatch} {p : PfPatch}

theorem eight_le_lookahead : 8 ≤ lookahead patches := by
  unfold lookahead
  induction patches with
  | nil => exact Nat.le_refl 8
  | cons p patches ih => exact Nat.le_trans ih (Nat.le_max_right _ _)

theorem length_le_lookahead (h : p ∈ patches) :
    p.pairs.length ≤ lookahead patches := by
  unfold lookahead
  induction patches with
  | nil => cases h
  | cons q patches ih =>
      rcases List.mem_cons.mp h with rfl | h
      · exact Nat.le_max_left _ _
      · exact Nat.le_trans (ih h) (Nat.le_max_right _ _)

end Lookahead

/-! ## One element -/

section Element

variable {t : AccessType} {m m' : ByteMemory} {p : PfPatch} {base size n i : ℕ}
  {patches : List PfPatch} {s : PfScan}

theorem AccessType.width_pos : 0 < t.width := by cases t <;> decide

/-- The memories agree on a block. -/
def AgreeOn (m m' : ByteMemory) (base size : ℕ) : Prop :=
  ∀ x, base ≤ x → x < base + size → m x = m' x

theorem element_congr (h : AgreeOn m m' base (n * t.width)) (hi : i < n) :
    element t m (base + i * t.width) = element t m' (base + i * t.width) := by
  have hle : i * t.width + t.width ≤ n * t.width := by
    rw [← Nat.succ_mul]
    exact Nat.mul_le_mul_right _ hi
  refine congrArg (fun bytes => UInt64.ofNat (littleEndian bytes))
    (ByteMemory.bytesAt_congr fun j hj => h _ (by omega) (by omega))

/-- The window at the element with index `i`. -/
def window (t : AccessType) (m : ByteMemory) (base i : ℕ) : List UInt64 :=
  (List.range 8).map fun k => element t m (base + (i + k) % 2 ^ 32 * t.width)

theorem xnuPfMaskmatchMatch_eq {reads : List UInt64} {stream : ℕ} :
    xnuPfMaskmatchMatch t p reads stream s =
      if maskmatchMatch t p reads s.world.mem stream = true then p.call stream s
      else s := by
  cases t <;> rfl

/-- The elements that are compared are those of `m'`. -/
theorem maskmatchMatch_iff_of_read {reads : List UInt64} {stream : ℕ}
    (hread : ∀ k, k < p.pairs.length →
      (if p.pairs.length < 8 then reads.getD k 0
        else element t m (stream + k * t.width)) =
      element t m' (stream + k * t.width)) :
    maskmatchMatch t p reads m stream = true ↔ p.MatchesAt t m' stream := by
  simp only [maskmatchMatch, List.all_eq_true, beq_iff_eq]
  constructor
  · intro hall k hk
    have hpair := hall (p.pairs[k], k) (List.mk_mem_zipIdx_iff_getElem?.mpr
      (List.getElem?_eq_getElem hk))
    rwa [hread k hk] at hpair
  · rintro hmatch ⟨pair, k⟩ hmem
    obtain ⟨hk, rfl⟩ := List.getElem?_eq_some_iff.mp
      (List.mk_mem_zipIdx_iff_getElem?.mp hmem)
    rw [hread k hk]
    exact hmatch k hk

theorem getD_window {k : ℕ} (hk : k < 8) :
    (window t m base i).getD k 0 =
      element t m (base + (i + k) % 2 ^ 32 * t.width) := by
  simp [window, hk]

theorem maskmatchMatch_iff (h : AgreeOn m m' base ((n + lookahead patches) * t.width))
    (hp : p ∈ patches) (hi : i < n) (hn : n + 6 ≤ 2 ^ 32) :
    maskmatchMatch t p (window t m' base i) m (base + i * t.width) = true ↔
      p.MatchesAt t m' (base + i * t.width) := by
  have hlength := length_le_lookahead hp
  refine maskmatchMatch_iff_of_read fun k hk => ?_
  have haddr : base + i * t.width + k * t.width = base + (i + k) * t.width := by
    rw [Nat.add_mul, Nat.add_assoc]
  split
  · rename_i hshort
    have hwrap : (i + k) % 2 ^ 32 = i + k := Nat.mod_eq_of_lt (by omega)
    rw [getD_window (by omega), hwrap, haddr]
  · rw [haddr]
    exact element_congr h (by omega)

theorem call_mem {stream : ℕ} :
    (p.call stream s).world.mem = (p.callback stream s.world).2.mem := by
  simp only [PfPatch.call]
  split <;> rfl

theorem directVisit_agreeOn {stream : ℕ} (hp : p.Keeps base size)
    (h : AgreeOn s.world.mem m base size) :
    AgreeOn (directVisit t m' s (stream, p)).world.mem m base size := by
  intro x hx hx'
  unfold directVisit
  split
  · rw [call_mem, hp _ _ x hx hx']
    exact h x hx hx'
  · exact h x hx hx'

/-! ## The loops -/

/-- The patches at one element.  The induction is on the rest of the list. -/
theorem patches_eq (ps : List PfPatch) (hps : ∀ p ∈ ps, p ∈ patches)
    (hkeeps : ∀ p ∈ patches, p.Keeps base ((n + lookahead patches) * t.width))
    (h : AgreeOn s.world.mem m base ((n + lookahead patches) * t.width))
    (hi : i < n) (hn : n + 6 ≤ 2 ^ 32) :
    ps.foldl (fun scan p =>
        if scan.world.shouldMatch p.addr then
          xnuPfMaskmatchMatch t p (window t m base i) (base + i * t.width) scan
        else scan) s =
      (ps.map fun p => (base + i * t.width, p)).foldl (directVisit t m) s ∧
    AgreeOn ((ps.map fun p => (base + i * t.width, p)).foldl (directVisit t m)
      s).world.mem m base ((n + lookahead patches) * t.width) := by
  induction ps generalizing s with
  | nil => exact ⟨rfl, h⟩
  | cons p ps ih =>
      have hp := hps p List.mem_cons_self
      have hfirst : (if s.world.shouldMatch p.addr then
          xnuPfMaskmatchMatch t p (window t m base i) (base + i * t.width) s
        else s) = directVisit t m s (base + i * t.width, p) := by
        rw [xnuPfMaskmatchMatch_eq, directVisit]
        simp only [maskmatchMatch_iff h hp hi hn, ite_and]
      rw [List.foldl_cons, List.map_cons, List.foldl_cons, hfirst]
      exact ih (fun q hq => hps q (List.mem_cons_of_mem _ hq))
        (directVisit_agreeOn (hkeeps p hp) h)

theorem window_tail :
    (window t m base i).tail ++ [element t m (base + (i + 8) % 2 ^ 32 * t.width)] =
      window t m base (i + 1) := by
  simp [window, List.range_succ, Nat.add_assoc]

theorem window_succ (h : AgreeOn m' m base ((n + lookahead patches) * t.width))
    (hi : i < n) :
    (window t m base i).tail ++ [element t m' (base + (i + 8) % 2 ^ 32 * t.width)] =
      window t m base (i + 1) := by
  have height := @eight_le_lookahead patches
  have hlt : (i + 8) % 2 ^ 32 < n + lookahead patches :=
    Nat.lt_of_le_of_lt (Nat.mod_le _ _) (by omega)
  rw [element_congr h hlt, window_tail]

theorem window_zero :
    ((List.range 8).map fun i => element t m (base + i * t.width)) =
      window t m base 0 := by
  refine List.map_congr_left fun k hk => ?_
  have hk' := List.mem_range.mp hk
  rw [Nat.zero_add, Nat.mod_eq_of_lt (by omega)]

theorem visits_succ :
    visits t patches base (n + 1) =
      visits t patches base n ++ patches.map fun p => (base + n * t.width, p) := by
  simp [visits, List.range_succ]

/-- As long as the window does not wrap around. -/
theorem applyIters_eq {w : PfWorld}
    (hkeeps : ∀ p ∈ patches, p.Keeps base ((n + lookahead patches) * t.width))
    (hn : n + 6 ≤ 2 ^ 32) :
    applyIters t n ⟨base, size⟩ patches w =
      (visits t patches base n).foldl (directVisit t w.mem) ⟨w, []⟩ := by
  have hrounds : ∀ k ≤ n,
      (List.range k).foldl (applyAt t patches base) (⟨w, []⟩, window t w.mem base 0) =
        ((visits t patches base k).foldl (directVisit t w.mem) ⟨w, []⟩,
          window t w.mem base k) ∧
      AgreeOn ((visits t patches base k).foldl (directVisit t w.mem)
        ⟨w, []⟩).world.mem w.mem base ((n + lookahead patches) * t.width) := by
    intro k hk
    induction k with
    | zero => exact ⟨rfl, fun _ _ _ => rfl⟩
    | succ k ih =>
        obtain ⟨hscan, hagree⟩ := ih (by omega)
        obtain ⟨hpatches, hagree'⟩ := patches_eq patches (fun _ hp => hp) hkeeps hagree
          hk hn
        rw [List.range_succ, List.foldl_append, hscan, visits_succ, List.foldl_append,
          List.foldl_cons, List.foldl_nil, applyAt]
        simp only [hpatches]
        exact ⟨congrArg (Prod.mk _) (window_succ hagree' hk), hagree'⟩
  rw [applyIters, window_zero, (hrounds n (Nat.le_refl n)).1]

end Element

/-! ## When the calls are right -/

/-- How often the loop for the access type runs. -/
def streamIters : AccessType → ℕ → ℕ
  | .bits8, size => size % 2 ^ 32
  | .bits16, size => (size >>> 1) % 2 ^ 32
  | .bits32, size => (size >>> 2) % 2 ^ 32
  | .bits64, size => (size >>> 2) % 2 ^ 32

theorem xnuPfApply_eq {range : PfRange} {ps : PfPatchset} {w : PfWorld}
    (hjit : ps.jitMatcher = none) :
    (xnuPfApply range ps w).1 =
      applyIters ps.accesstype (streamIters ps.accesstype range.size) range
        ps.patches w := by
  rw [xnuPfApply, hjit]
  cases ps.accesstype <;> rfl

/-- The interpreter calls what it should for any patchset. -/
def CallsRight (t : AccessType) (size : ℕ) : Prop :=
  ∀ base ps w, ps.jitMatcher = none → ps.accesstype = t →
    KeepsScanned t ⟨base, size⟩ ps.patches →
    (xnuPfApply ⟨base, size⟩ ps w).1.calls = directCalls t ⟨base, size⟩ ps.patches w

/-- The loop visits all elements and no more, and its window does not wrap
around. -/
def VisitsAll (t : AccessType) (size : ℕ) : Prop :=
  (t = .bits64 → size = 0) ∧ size / t.width + 6 ≤ 2 ^ 32

theorem streamIters_eq {t : AccessType} {size : ℕ} (h : VisitsAll t size) :
    streamIters t size = size / t.width := by
  obtain ⟨hwide, hmax⟩ := h
  cases t with
  | bits8 =>
      simp only [AccessType.width, streamIters] at hmax ⊢
      omega
  | bits16 =>
      simp only [AccessType.width, streamIters, Nat.shiftRight_eq_div_pow] at hmax ⊢
      omega
  | bits32 =>
      simp only [AccessType.width, streamIters, Nat.shiftRight_eq_div_pow] at hmax ⊢
      omega
  | bits64 =>
      rw [hwide rfl]
      rfl

theorem VisitsAll.callsRight {t : AccessType} {size : ℕ} (h : VisitsAll t size) :
    CallsRight t size := by
  intro base ps w hjit haccess hkeeps
  subst haccess
  rw [xnuPfApply_eq hjit, streamIters_eq h]
  exact congrArg PfScan.calls (applyIters_eq hkeeps h.2)

/-! ## When they are not -/

/-- A patch with a callback that does nothing. -/
def quietPatch (pairs : List PfPair) : PfPatch :=
  ⟨0, fun _ w => (false, w), false, "", pairs⟩

def quietSet (t : AccessType) (pairs : List PfPair) : PfPatchset :=
  ⟨[quietPatch pairs], none, t, false⟩

/-- All patches are enabled. -/
def enabledWorld (m : ByteMemory) : PfWorld := ⟨m, fun _ => true, fun _ => false⟩

section Quiet

variable {t : AccessType} {m : ByteMemory} {pairs : List PfPair} {base size n : ℕ}

theorem quietPatch_keeps {start len : ℕ} : (quietPatch pairs).Keeps start len :=
  fun _ _ _ _ _ => rfl

theorem quiet_call {stream : ℕ} {s : PfScan} :
    (quietPatch pairs).call stream s = ⟨s.world, s.calls ++ [(0, stream)]⟩ := rfl

/-- The calls of the interpreter: nothing is written, so the window is never out
of date. -/
theorem quiet_applyIters :
    (applyIters t n ⟨base, size⟩ [quietPatch pairs] (enabledWorld m)).calls =
      (List.range n).flatMap fun i =>
        if maskmatchMatch t (quietPatch pairs) (window t m base i) m
            (base + i * t.width) = true then [(0, base + i * t.width)] else [] := by
  have hrounds : ∀ n, (List.range n).foldl (applyAt t [quietPatch pairs] base)
      (⟨enabledWorld m, []⟩, window t m base 0) =
        (⟨enabledWorld m, (List.range n).flatMap fun i =>
          if maskmatchMatch t (quietPatch pairs) (window t m base i) m
              (base + i * t.width) = true then [(0, base + i * t.width)] else []⟩,
          window t m base n) := by
    intro n
    induction n with
    | zero => rfl
    | succ n ih =>
        rw [List.range_succ, List.foldl_append, ih, List.flatMap_append,
          List.foldl_cons, List.foldl_nil, applyAt, List.foldl_cons, List.foldl_nil,
          xnuPfMaskmatchMatch_eq, quiet_call]
        by_cases hmatch : maskmatchMatch t (quietPatch pairs) (window t m base n) m
            (base + n * t.width) = true
        · simp only [enabledWorld, hmatch, if_true, List.flatMap_singleton]
          exact congrArg (Prod.mk _) window_tail
        · simp only [enabledWorld, hmatch, if_true, List.flatMap_singleton,
            Bool.false_eq_true, if_false, List.append_nil]
          exact congrArg (Prod.mk _) window_tail
  rw [applyIters, window_zero, show (enabledWorld m).mem = m from rfl, hrounds n]

theorem quiet_directCalls :
    directCalls t ⟨base, size⟩ [quietPatch pairs] (enabledWorld m) =
      (List.range (size / t.width)).flatMap fun i =>
        if (quietPatch pairs).MatchesAt t m (base + i * t.width) then
          [(0, base + i * t.width)] else [] := by
  have hrounds : ∀ n, (visits t [quietPatch pairs] base n).foldl (directVisit t m)
      ⟨enabledWorld m, []⟩ =
        ⟨enabledWorld m, (List.range n).flatMap fun i =>
          if (quietPatch pairs).MatchesAt t m (base + i * t.width) then
            [(0, base + i * t.width)] else []⟩ := by
    intro n
    induction n with
    | zero => rfl
    | succ n ih =>
        rw [visits_succ, List.foldl_append, ih, List.range_succ, List.flatMap_append,
          List.map_singleton, List.foldl_cons, List.foldl_nil, directVisit, quiet_call]
        simp only [enabledWorld, true_and, List.flatMap_singleton]
        split
        · rfl
        · rw [List.append_nil]
  exact congrArg PfScan.calls (hrounds _)

/-- What is right for these patches. -/
theorem CallsRight.quiet (h : CallsRight t size) (m : ByteMemory)
    (pairs : List PfPair) :
    ((List.range (streamIters t size)).flatMap fun i =>
        if maskmatchMatch t (quietPatch pairs) (window t m 0 i) m
            (0 + i * t.width) = true then [(0, 0 + i * t.width)] else []) =
      (List.range (size / t.width)).flatMap fun i =>
        if (quietPatch pairs).MatchesAt t m (0 + i * t.width) then
          [(0, 0 + i * t.width)] else [] := by
  have hright := h 0 (quietSet t pairs) (enabledWorld m) rfl rfl
    (List.forall_mem_singleton.mpr quietPatch_keeps)
  rw [xnuPfApply_eq rfl] at hright
  exact quiet_applyIters.symm.trans (hright.trans quiet_directCalls)

/-- A pattern without pairs is everywhere. -/
theorem CallsRight.streamIters_eq (h : CallsRight t size) :
    streamIters t size = size / t.width := by
  have hright := congrArg List.length (h.quiet (fun _ => 0) [])
  have hmatch : ∀ i, (quietPatch []).MatchesAt t (fun _ => 0) i := by
    intro i k hk
    exact absurd hk (Nat.not_lt_zero k)
  simp only [hmatch, if_true] at hright
  simpa [maskmatchMatch, quietPatch] using hright

/-- The lowest bit of an element is in its first byte. -/
theorem element_and_one {addr : ℕ} :
    element t m addr &&& 1 = 1 ↔ (m addr).toNat % 2 = 1 := by
  obtain ⟨n, hn⟩ := Nat.exists_eq_succ_of_ne_zero (Nat.ne_of_gt (@AccessType.width_pos t))
  rw [element, hn, ByteMemory.bytesAt_succ, littleEndian, ← UInt64.toNat_inj,
    UInt64.toNat_and, UInt64.toNat_ofNat', UInt64.toNat_one, Nat.and_one_is_mod]
  omega

/-- The only element whose lowest bit is set is the one with index `j`. -/
def markedMem (t : AccessType) (j : ℕ) : ByteMemory := fun a =>
  if a = j * t.width then 1 else 0

theorem markedMem_element {i j : ℕ} :
    element t (markedMem t j) (i * t.width) &&& 1 = 1 ↔ i = j := by
  rw [element_and_one, markedMem]
  constructor
  · intro h
    split at h
    · rename_i heq
      exact Nat.eq_of_mul_eq_mul_right AccessType.width_pos heq
    · simp at h
  · rintro rfl
    simp

/-- Six pairs without a condition and one that looks at the lowest bit. -/
def lastBitPairs : List PfPair := List.replicate 6 ⟨0, 0⟩ ++ [⟨1, 1⟩]

theorem lastBit_matchesAt {i j : ℕ} :
    (quietPatch lastBitPairs).MatchesAt t (markedMem t j) (i * t.width) ↔
      i + 6 = j := by
  rw [← markedMem_element (t := t), Nat.add_mul]
  constructor
  · exact fun h => h 6 (by decide)
  · intro h k hk
    have hlength : (quietPatch lastBitPairs).pairs.length = 7 := rfl
    rcases Nat.lt_or_ge k 6 with hlt | hge
    · have hpair : (quietPatch lastBitPairs).pairs[k] = ⟨0, 0⟩ :=
        (List.getElem_append_left (by simpa using hlt)).trans
          (List.getElem_replicate _)
      rw [hpair, UInt64.and_zero]
    · obtain rfl : k = 6 := by omega
      exact h

theorem lastBit_maskmatchMatch {i j : ℕ}
    (h : maskmatchMatch t (quietPatch lastBitPairs) (window t (markedMem t j) 0 i)
      (markedMem t j) (0 + i * t.width) = true) : (i + 6) % 2 ^ 32 = j := by
  rw [maskmatchMatch, List.all_eq_true] at h
  have hlast := h (⟨1, 1⟩, 6) (List.mk_mem_zipIdx_iff_getElem?.mpr rfl)
  have hshort : (quietPatch lastBitPairs).pairs.length < 8 := by decide
  simp only [if_pos hshort, beq_iff_eq] at hlast
  exact markedMem_element.mp (by simpa [window] using hlast)

/-- The window must not wrap around in the last round. -/
theorem CallsRight.visitsAll (h : CallsRight t size) (hsize : size % t.width = 0) :
    VisitsAll t size := by
  have hiters := h.streamIters_eq
  have hlt : size / t.width < 2 ^ 32 := by
    rw [← hiters]
    cases t <;> exact Nat.mod_lt _ (by decide)
  refine ⟨?_, ?_⟩
  · rintro rfl
    simp only [AccessType.width, streamIters, Nat.shiftRight_eq_div_pow] at hsize hiters
    omega
  · by_contra hmax
    generalize hn : size / t.width = n at *
    have hright := h.quiet (markedMem t (n + 5)) lastBitPairs
    rw [hiters, hn] at hright
    have hmem : (0, 0 + (n - 1) * t.width) ∈ (List.range n).flatMap fun i =>
        if (quietPatch lastBitPairs).MatchesAt t (markedMem t (n + 5))
            (0 + i * t.width) then [(0, 0 + i * t.width)] else [] := by
      refine List.mem_flatMap.mpr ⟨n - 1, List.mem_range.mpr (by omega), ?_⟩
      rw [if_pos]
      · exact List.mem_singleton_self _
      · rw [Nat.zero_add, lastBit_matchesAt]
        omega
    rw [← hright] at hmem
    obtain ⟨i, hi, hmem⟩ := List.mem_flatMap.mp hmem
    split at hmem
    · rename_i hmatch
      have hwrap := lastBit_maskmatchMatch hmatch
      have hmod := Nat.mod_lt (i + 6) (show 0 < 2 ^ 32 by decide)
      omega
    · cases hmem

end Quiet

/-- The interpreter is right exactly for the ranges it visits completely. -/
theorem callsRight_iff {t : AccessType} {size : ℕ} (hsize : size % t.width = 0) :
    CallsRight t size ↔ VisitsAll t size :=
  ⟨fun h => h.visitsAll hsize, VisitsAll.callsRight⟩

/-- Four words, and the widest range of words whose window does not wrap. -/
theorem callsRight_iff_sample :
    CallsRight .bits32 16 ∧ CallsRight .bits32 0x3ffffffe8 ∧
      ¬ CallsRight .bits32 0x3ffffffec :=
  ⟨(callsRight_iff rfl).mpr ⟨nofun, by decide⟩,
    (callsRight_iff rfl).mpr ⟨nofun, by decide⟩,
    fun h => absurd ((callsRight_iff rfl).mp h).2 (by decide)⟩

/-- The element behind a range of one 64-bit element is visited. -/
theorem calls_behind_range :
    KeepsScanned .bits64 ⟨0, 8⟩ (quietSet .bits64 [⟨0, 0⟩]).patches ∧
      (xnuPfApply ⟨0, 8⟩ (quietSet .bits64 [⟨0, 0⟩])
        (enabledWorld fun _ => 0)).1.calls = [(0, 0), (0, 8)] ∧
      directCalls .bits64 ⟨0, 8⟩ (quietSet .bits64 [⟨0, 0⟩]).patches
        (enabledWorld fun _ => 0) = [(0, 0)] :=
  ⟨List.forall_mem_singleton.mpr quietPatch_keeps, by decide, by decide⟩

end PongoOS
