import PongoOS.Xnu.Interpreter

/-!
# Patterns with padding

A pattern of fewer than eight pairs is compared with the window of elements that
were read before, a longer one with memory.  Pairs without a condition that are
put behind a short pattern move it from the one to the other.  This makes no
difference as long as the window holds what is in memory.
-/

namespace PongoOS

/-- The pattern with `n` more pairs, which are always there. -/
def PfPatch.pad (p : PfPatch) (n : ℕ) : PfPatch :=
  { p with pairs := p.pairs ++ List.replicate n ⟨0, 0⟩ }

/-- The patchset with `p` between `pre` and `post`. -/
def PfPatchset.withPatch (ps : PfPatchset) (pre : List PfPatch) (p : PfPatch)
    (post : List PfPatch) : PfPatchset :=
  { ps with patches := pre ++ p :: post }

/-- A callback that is called at one of the first `n` elements does not write
those from the `lo`-th to the seventh behind it. -/
def PfPatch.KeepsWindow (p : PfPatch) (t : AccessType) (base n lo : ℕ) : Prop :=
  ∀ i < n, ∀ k < 8, lo ≤ k → ∀ w,
    element t (p.callback (base + i * t.width) w).2.mem
        (base + (i + k) * t.width) =
      element t w.mem (base + (i + k) * t.width)

/-- The window at the element with index `i` holds what is in memory, from its
place `lo` on. -/
structure Fresh (t : AccessType) (base i lo : ℕ) (reads : List UInt64)
    (m : ByteMemory) : Prop where
  length_eq : reads.length = 8
  read : ∀ k < 8, lo ≤ k → i + k < 2 ^ 32 →
    reads.getD k 0 = element t m (base + (i + k) * t.width)

theorem Fresh.of_le {t : AccessType} {base i lo : ℕ} {reads : List UInt64}
    {m : ByteMemory} (h : Fresh t base i 0 reads m) : Fresh t base i lo reads m :=
  ⟨h.length_eq, fun k hk _ => h.read k hk (Nat.zero_le k)⟩

/-- What is done with one patch. -/
def visitPatch (t : AccessType) (reads : List UInt64) (stream : ℕ) (s : PfScan)
    (p : PfPatch) : PfScan :=
  if s.world.shouldMatch p.addr then xnuPfMaskmatchMatch t p reads stream s
  else s

section Padding

variable {t : AccessType} {base i lo n k : ℕ} {reads : List UInt64}
  {m : ByteMemory} {p : PfPatch} {s : PfScan} {pre post : List PfPatch}

/-! ## One pattern -/

theorem maskmatchMatch_of_short (h : Fresh t base i 0 reads m) (hi : i + 6 < 2 ^ 32)
    (hshort : p.pairs.length < 8) :
    maskmatchMatch t p reads m (base + i * t.width) = true ↔
      p.MatchesAt t m (base + i * t.width) := by
  refine maskmatchMatch_iff_of_read fun k hk => ?_
  rw [if_pos hshort, h.read k (by omega) (Nat.zero_le k) (by omega), Nat.add_mul,
    Nat.add_assoc]

theorem maskmatchMatch_of_long {stream : ℕ} (hlong : 8 ≤ p.pairs.length) :
    maskmatchMatch t p reads m stream = true ↔ p.MatchesAt t m stream :=
  maskmatchMatch_iff_of_read fun _ _ => if_neg (Nat.not_lt.2 hlong)

/-- The padding is always there. -/
theorem pad_matchesAt {stream : ℕ} :
    (p.pad n).MatchesAt t m stream ↔ p.MatchesAt t m stream := by
  constructor
  · intro h k hk
    have hpair := h k (by
      simp only [PfPatch.pad, List.length_append]
      omega)
    simpa [PfPatch.pad, List.getElem_append_left hk] using hpair
  · intro h k hk
    rcases Nat.lt_or_ge k p.pairs.length with hlt | hge
    · have hpair : (p.pad n).pairs[k] = p.pairs[k] :=
        List.getElem_append_left hlt
      rw [hpair]
      exact h k hlt
    · have hpair : (p.pad n).pairs[k] = ⟨0, 0⟩ :=
        (List.getElem_append_right hge).trans (List.getElem_replicate _)
      rw [hpair, UInt64.and_zero]

theorem visitPatch_pad (h : Fresh t base i 0 reads s.world.mem)
    (hi : i + 6 < 2 ^ 32) (hshort : p.pairs.length < 8)
    (hlong : 8 ≤ p.pairs.length + n) :
    visitPatch t reads (base + i * t.width) s (p.pad n) =
      visitPatch t reads (base + i * t.width) s p := by
  have hlength : 8 ≤ (p.pad n).pairs.length := by
    simpa [PfPatch.pad] using hlong
  have hmatch : maskmatchMatch t (p.pad n) reads s.world.mem
        (base + i * t.width) =
      maskmatchMatch t p reads s.world.mem (base + i * t.width) := by
    rw [Bool.eq_iff_iff, maskmatchMatch_of_long hlength, pad_matchesAt,
      maskmatchMatch_of_short h hi hshort]
  unfold visitPatch
  rw [xnuPfMaskmatchMatch_eq, xnuPfMaskmatchMatch_eq, hmatch]
  rfl

/-! ## The loops -/

theorem visitPatch_fresh (h : Fresh t base i lo reads s.world.mem)
    (hp : p.KeepsWindow t base n lo) (hi : i < n) :
    Fresh t base i lo reads
      (visitPatch t reads (base + i * t.width) s p).world.mem := by
  unfold visitPatch
  rw [xnuPfMaskmatchMatch_eq]
  split
  · split
    · refine ⟨h.length_eq, fun k hk hlo hwrap => ?_⟩
      rw [call_mem, hp i hi k hk hlo, h.read k hk hlo hwrap]
    · exact h
  · exact h

theorem visitPatches_fresh (ps : List PfPatch)
    (hps : ∀ p ∈ ps, p.KeepsWindow t base n lo) (hi : i < n) {s : PfScan}
    (h : Fresh t base i lo reads s.world.mem) :
    Fresh t base i lo reads
      (ps.foldl (visitPatch t reads (base + i * t.width)) s).world.mem := by
  induction ps generalizing s with
  | nil => exact h
  | cons p ps ih =>
      exact ih (fun q hq => hps q (List.mem_cons_of_mem _ hq))
        (visitPatch_fresh h (hps p List.mem_cons_self) hi)

/-- The window is moved by one element, so its first place does not matter. -/
theorem Fresh.next (h : Fresh t base i 1 reads m) :
    Fresh t base (i + 1) 0
      (reads.tail ++ [element t m (base + (i + 8) % 2 ^ 32 * t.width)]) m := by
  have hlength := h.length_eq
  refine ⟨by simp [hlength], fun k hk _ hwrap => ?_⟩
  rcases Nat.lt_or_ge k 7 with hlt | hge
  · have hread := h.read (k + 1) (by omega) (by omega) (by omega)
    rw [List.getD_eq_getElem?_getD, List.getElem?_append_left (by simp; omega),
      List.getElem?_tail, ← List.getD_eq_getElem?_getD, hread,
      show i + (k + 1) = i + 1 + k by omega]
  · obtain rfl : k = 7 := by omega
    rw [List.getD_eq_getElem?_getD, List.getElem?_append_right (by simp [hlength]),
      Nat.mod_eq_of_lt (by omega)]
    simp [hlength, Nat.add_assoc]

theorem applyAt_eq {patches : List PfPatch} :
    applyAt t patches base (s, reads) i =
      (patches.foldl (visitPatch t reads (base + i * t.width)) s, reads.tail ++
        [element t (patches.foldl (visitPatch t reads (base + i * t.width))
          s).world.mem (base + (i + 8) % 2 ^ 32 * t.width)]) := rfl

/-- One round is the same with and without the padding. -/
theorem applyAt_pad (h : Fresh t base i 0 reads s.world.mem) (hi : i < n)
    (hn : n + 6 ≤ 2 ^ 32) (hshort : p.pairs.length < 8)
    (hlong : 8 ≤ p.pairs.length + k)
    (hbefore : ∀ q ∈ pre, q.KeepsWindow t base n 0)
    (hfrom : ∀ q ∈ p :: post, q.KeepsWindow t base n 1) :
    applyAt t (pre ++ p.pad k :: post) base (s, reads) i =
        applyAt t (pre ++ p :: post) base (s, reads) i ∧
      Fresh t base (i + 1) 0 (applyAt t (pre ++ p :: post) base (s, reads) i).2
        (applyAt t (pre ++ p :: post) base (s, reads) i).1.world.mem := by
  have hpre := visitPatches_fresh pre hbefore hi h
  have hvisit := visitPatch_pad hpre (by omega) hshort hlong
  have hrest := visitPatches_fresh (p :: post) hfrom hi hpre.of_le
  refine ⟨?_, ?_⟩
  · rw [applyAt_eq, applyAt_eq, List.foldl_append, List.foldl_append,
      List.foldl_cons, List.foldl_cons, hvisit]
  · rw [applyAt_eq, List.foldl_append]
    exact hrest.next

theorem fresh_zero : Fresh t base 0 0
    ((List.range 8).map fun i => element t m (base + i * t.width)) m := by
  refine ⟨by simp, fun k hk _ _ => ?_⟩
  simp [List.getD_eq_getElem?_getD, hk]

theorem applyIters_pad {size : ℕ} {w : PfWorld} (hn : n + 6 ≤ 2 ^ 32)
    (hshort : p.pairs.length < 8) (hlong : 8 ≤ p.pairs.length + k)
    (hbefore : ∀ q ∈ pre, q.KeepsWindow t base n 0)
    (hfrom : ∀ q ∈ p :: post, q.KeepsWindow t base n 1) :
    applyIters t n ⟨base, size⟩ (pre ++ p.pad k :: post) w =
      applyIters t n ⟨base, size⟩ (pre ++ p :: post) w := by
  have hrounds : ∀ r ≤ n, ∀ reads s, Fresh t base 0 0 reads s.world.mem →
      (List.range r).foldl (applyAt t (pre ++ p.pad k :: post) base) (s, reads) =
        (List.range r).foldl (applyAt t (pre ++ p :: post) base) (s, reads) ∧
      Fresh t base r 0
        ((List.range r).foldl (applyAt t (pre ++ p :: post) base) (s, reads)).2
        ((List.range r).foldl (applyAt t (pre ++ p :: post) base)
          (s, reads)).1.world.mem := by
    intro r hr reads s hfresh
    induction r with
    | zero => exact ⟨rfl, hfresh⟩
    | succ r ih =>
        obtain ⟨hscan, hwindow⟩ := ih (by omega)
        rw [List.range_succ, List.foldl_append, List.foldl_append, hscan]
        exact applyAt_pad hwindow hr hn hshort hlong hbefore hfrom
  rw [applyIters, applyIters, (hrounds n le_rfl _ _ fresh_zero).1]

end Padding

/-! ## The interpreter -/

/-- Padding does not change what the interpreter does, if no callback writes what
the padded pattern still finds in the window. -/
theorem xnuPfApply_pad (range : PfRange) (ps : PfPatchset)
    (pre post : List PfPatch) (p : PfPatch) (k : ℕ) (w : PfWorld)
    (hjit : ps.jitMatcher = none) (hshort : p.pairs.length < 8)
    (hlong : 8 ≤ p.pairs.length + k)
    (hn : streamIters ps.accesstype range.size + 6 ≤ 2 ^ 32)
    (hbefore : ∀ q ∈ pre, q.KeepsWindow ps.accesstype range.cacheableBase
      (streamIters ps.accesstype range.size) 0)
    (hfrom : ∀ q ∈ p :: post, q.KeepsWindow ps.accesstype range.cacheableBase
      (streamIters ps.accesstype range.size) 1) :
    (xnuPfApply range (ps.withPatch pre (p.pad k) post) w).1 =
      (xnuPfApply range (ps.withPatch pre p post) w).1 := by
  have hinterpreted : ∀ q, (xnuPfApply range (ps.withPatch pre q post) w).1 =
      applyIters ps.accesstype (streamIters ps.accesstype range.size) range
        (pre ++ q :: post) w := fun q => xnuPfApply_eq hjit
  rw [hinterpreted, hinterpreted]
  exact applyIters_pad hn hshort hlong hbefore hfrom

/-- Looks for a one, and clears the element that is `d` elements behind it. -/
def clearPatch (d : ℕ) : PfPatch :=
  ⟨0, fun stream w => (true, { w with mem := Function.update w.mem (stream + d) 0 }),
    false, "", [⟨1, 0xff⟩]⟩

def onesWorld : PfWorld := enabledWorld fun a => if a < 2 then 1 else 0

/-- A callback may write the element that it is called at. -/
theorem clearPatch_keepsWindow :
    ∀ q ∈ clearPatch 0 :: [], q.KeepsWindow .bits8 0 2 1 := by
  rintro q hq i hi k hk hlo w
  obtain rfl := List.mem_singleton.1 hq
  have hne : i + k ≠ i := by omega
  have hupdate : Function.update w.mem i 0 (i + k) = w.mem (i + k) :=
    Function.update_of_ne hne 0 w.mem
  simp [clearPatch, element, AccessType.width, ByteMemory.bytesAt, hupdate]

theorem xnuPfApply_pad_clearPatch :
    (xnuPfApply ⟨0, 2⟩ ((quietSet .bits8 []).withPatch [] ((clearPatch 0).pad 7) [])
      onesWorld).1.calls = [(0, 0), (0, 1)] := by
  rw [xnuPfApply_pad ⟨0, 2⟩ (quietSet .bits8 []) [] [] (clearPatch 0) 7 onesWorld
    rfl (by decide) (by decide) (by decide) (by simp) clearPatch_keepsWindow]
  decide

/-- A callback clears the next element: the window still has it. -/
theorem padding_changes_calls :
    ¬ ∀ (range : PfRange) (ps : PfPatchset) (pre post : List PfPatch)
      (p : PfPatch) (k : ℕ) (w : PfWorld), ps.jitMatcher = none →
      p.pairs.length < 8 → 8 ≤ p.pairs.length + k →
      (xnuPfApply range (ps.withPatch pre (p.pad k) post) w).1.calls =
        (xnuPfApply range (ps.withPatch pre p post) w).1.calls := by
  intro h
  have hsame := h ⟨0, 2⟩ (quietSet .bits8 []) [] [] (clearPatch 1) 7 onesWorld rfl
    (by decide) (by decide)
  exact absurd hsame (by decide)

end PongoOS
