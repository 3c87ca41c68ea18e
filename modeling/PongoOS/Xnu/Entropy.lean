import Mathlib.Data.Nat.Bitwise
import Mathlib.Data.Nat.Count
import PongoOS.Xnu.Emitter
import PongoOS.Xnu.Interpreter

/-!
# The pair that is compared first

A pair is rated by the changes between the bits of its mask that are to be zero
and the others.  If no pair is rated above zero, `hi_entropy` stays at -1, and the
compiler uses it as it is.
-/

namespace PongoOS

/-! ## Changes between bits -/

/-- The bit below `z`; below the lowest one there is a one. -/
def bitBelow (x : UInt64) : ℕ → Bool
  | 0 => true
  | z + 1 => x.toNat.testBit z

/-- The changes among the lowest `n` bits, from the lowest one on. -/
def bitChangesBelow (x : UInt64) (n : ℕ) : ℕ :=
  Nat.count (fun z => x.toNat.testBit z ≠ bitBelow x z) n

/-- The changes from bit to bit, from the lowest one on. -/
def bitChanges (x : UInt64) : ℕ := bitChangesBelow x 64

section Bits

variable {x : UInt64} {n z : ℕ}

theorem bitBelow_succ : bitBelow x (z + 1) = x.toNat.testBit z := rfl

theorem shiftRight_and_one (hz : z < 64) :
    ((x >>> UInt64.ofNat z) &&& 1 == 1) = x.toNat.testBit z := by
  have hmod : z % 2 ^ 64 % 64 = z := by omega
  rw [Bool.eq_iff_iff, beq_iff_eq, ← UInt64.toNat_inj, UInt64.toNat_and,
    UInt64.toNat_shiftRight, UInt64.toNat_ofNat', hmod, UInt64.toNat_one,
    Nat.and_one_is_mod, Nat.testBit_eq_decide_div_mod_eq, decide_eq_true_eq,
    Nat.shiftRight_eq_div_pow]

theorem eq_of_testBit_eq {x y : UInt64}
    (h : ∀ z < 64, x.toNat.testBit z = y.toNat.testBit z) : x = y := by
  refine UInt64.toNat_inj.1 (Nat.eq_of_testBit_eq fun z => ?_)
  rcases Nat.lt_or_ge z 64 with hz | hz
  · exact h z hz
  · have hle : 2 ^ 64 ≤ 2 ^ z := Nat.pow_le_pow_right (by decide) hz
    rw [Nat.testBit_lt_two_pow (Nat.lt_of_lt_of_le x.toNat_lt hle),
      Nat.testBit_lt_two_pow (Nat.lt_of_lt_of_le y.toNat_lt hle)]

/-- The rating loop counts the changes. -/
theorem foldl_rateBit (hn : n ≤ 64) :
    (List.range n).foldl (rateBit x) (0, true) =
      (UInt8.ofNat (bitChangesBelow x n), bitBelow x n) := by
  induction n with
  | zero => rfl
  | succ n ih =>
      have hcount : bitChangesBelow x (n + 1) = bitChangesBelow x n +
          if x.toNat.testBit n ≠ bitBelow x n then 1 else 0 :=
        Nat.count_succ _ n
      rw [List.range_succ, List.foldl_append, ih (by omega), List.foldl_cons,
        List.foldl_nil, rateBit, shiftRight_and_one hn, hcount]
      by_cases hbit : x.toNat.testBit n = bitBelow x n
      · simp [hbit, bitBelow_succ]
      · simp [hbit, bitBelow_succ]

theorem bitChanges_le : bitChanges x ≤ 64 := Nat.count_le _

theorem bitChanges_eq_zero_iff : bitChanges x = 0 ↔ x = 0xFFFFFFFFFFFFFFFF := by
  constructor
  · intro h
    have hsame := Nat.count_iff_forall_not.1 h
    have hones : ∀ z < 64, x.toNat.testBit z = true := by
      intro z
      induction z with
      | zero => exact fun hz => by simpa [bitBelow] using hsame 0 hz
      | succ z ih =>
          intro hz
          have hprev := ih (by omega)
          simpa [bitBelow, hprev] using hsame (z + 1) hz
    have hall : ∀ z < 64,
        (0xFFFFFFFFFFFFFFFF : UInt64).toNat.testBit z = true := by
      decide +kernel
    exact eq_of_testBit_eq fun z hz => (hones z hz).trans (hall z hz).symm
  · rintro rfl
    decide +kernel

theorem bitChanges_eq_sixtyfour_iff :
    bitChanges x = 64 ↔ x = 0xAAAAAAAAAAAAAAAA := by
  constructor
  · intro h
    have hdiffer := Nat.count_iff_forall.1 h
    have halternate : ∀ z < 64, x.toNat.testBit z = decide (z % 2 = 1) := by
      intro z
      induction z with
      | zero => exact fun hz => by simpa [bitBelow] using hdiffer 0 hz
      | succ z ih =>
          intro hz
          have hprev := ih (by omega)
          have hnot : x.toNat.testBit (z + 1) = !x.toNat.testBit z := by
            simpa [bitBelow, Bool.eq_not] using hdiffer (z + 1) hz
          rw [hnot, hprev, ← decide_not, decide_eq_decide]
          omega
    have hall : ∀ z < 64,
        (0xAAAAAAAAAAAAAAAA : UInt64).toNat.testBit z = decide (z % 2 = 1) := by
      decide +kernel
    exact eq_of_testBit_eq fun z hz => (halternate z hz).trans (hall z hz).symm
  · rintro rfl
    decide +kernel

end Bits

/-! ## Ratings -/

/-- The rating of the pair is zero. -/
def PfPair.Flat (t : AccessType) (pair : PfPair) : Prop :=
  pair.value = 0 ∧ pair.mask = 0xFFFFFFFFFFFFFFFF ∨
    pair.value = retInsn ∧ bitChanges (pair.value ^^^ pair.mask) < 8 ∨
    t = .bits64 ∧ pair.mask = 0xFFFFFFFFFFFFFFFF ∧
      pair.value = 0x5555555555555555

instance (t : AccessType) (pair : PfPair) : Decidable (pair.Flat t) :=
  inferInstanceAs (Decidable (_ ∨ _))

section Ratings

variable {t : AccessType} {pair : PfPair}

theorem pairRating_toNat : (pairRating t pair).toNat =
    if pair.mask = t.andNop then
      (if pair.value = retInsn then bitChanges (pair.value ^^^ pair.mask) / 8
        else bitChanges (pair.value ^^^ pair.mask)) * 4 % 256
    else if pair.value = retInsn then bitChanges (pair.value ^^^ pair.mask) / 8
    else bitChanges (pair.value ^^^ pair.mask) := by
  have hle := bitChanges_le (x := pair.value ^^^ pair.mask)
  have hloop : ((List.range 64).foldl (rateBit (pair.value ^^^ pair.mask))
      (0, true)).1 = UInt8.ofNat (bitChanges (pair.value ^^^ pair.mask)) :=
    congrArg Prod.fst (foldl_rateBit le_rfl)
  have hnat : (UInt8.ofNat (bitChanges (pair.value ^^^ pair.mask))).toNat =
      bitChanges (pair.value ^^^ pair.mask) := by
    rw [UInt8.toNat_ofNat']
    exact Nat.mod_eq_of_lt (by omega)
  have hright : ∀ x : UInt8, (x >>> 3).toNat = x.toNat / 8 := fun x => by
    rw [UInt8.toNat_shiftRight, Nat.shiftRight_eq_div_pow]
    rfl
  have hleft : ∀ x : UInt8, (x <<< 2).toNat = x.toNat * 4 % 256 := fun x => by
    rw [UInt8.toNat_shiftLeft, Nat.shiftLeft_eq]
    rfl
  unfold pairRating
  rw [hloop]
  dsimp only
  split <;> split <;> simp only [hleft, hright, hnat]

/-- What is required by a pair that `xnu_pf_maskmatch` accepts is one in its
mask. -/
theorem xor_eq_ones (h : pair.value &&& pair.mask = pair.value) :
    pair.value ^^^ pair.mask = 0xFFFFFFFFFFFFFFFF ↔
      pair.value = 0 ∧ pair.mask = 0xFFFFFFFFFFFFFFFF := by
  constructor
  · intro hxor
    have hvalue : pair.value = 0 := by
      refine eq_of_testBit_eq fun z hz => ?_
      have hones : ∀ z < 64,
          (0xFFFFFFFFFFFFFFFF : UInt64).toNat.testBit z = true := by
        decide +kernel
      have hbit := hones z hz
      rw [← hxor, UInt64.toNat_xor, Nat.testBit_xor] at hbit
      have hand := congrArg (fun x => x.toNat.testBit z) h
      simp only [UInt64.toNat_and, Nat.testBit_and] at hand
      rw [UInt64.toNat_zero, Nat.zero_testBit]
      cases hv : pair.value.toNat.testBit z with
      | false => rfl
      | true =>
          rw [hv, Bool.true_and] at hand
          rw [hv, hand] at hbit
          cases hbit
    rw [hvalue, UInt64.zero_xor] at hxor
    exact ⟨hvalue, hxor⟩
  · rintro ⟨hvalue, hmask⟩
    rw [hvalue, hmask]
    rfl

/-- All bits change only where all 64 bits are compared. -/
theorem xor_eq_alternating (h : pair.value &&& pair.mask = pair.value)
    (hmask : pair.mask = t.andNop) :
    pair.value ^^^ pair.mask = 0xAAAAAAAAAAAAAAAA ↔
      t = .bits64 ∧ pair.mask = 0xFFFFFFFFFFFFFFFF ∧
        pair.value = 0x5555555555555555 := by
  constructor
  · intro hxor
    have hvalue : pair.value = 0xAAAAAAAAAAAAAAAA ^^^ t.andNop := by
      rw [← hxor, ← hmask, UInt64.xor_assoc, UInt64.xor_self, UInt64.xor_zero]
    rw [hmask, hvalue] at h
    cases t with
    | bits64 => exact ⟨rfl, hmask, hvalue⟩
    | bits8 => exact absurd h (by decide)
    | bits16 => exact absurd h (by decide)
    | bits32 => exact absurd h (by decide)
  · rintro ⟨-, hones, hvalue⟩
    rw [hvalue, hones]
    rfl

/-- A pair is rated zero if it has no changes, or so few that the shift to the
right leaves none, or so many that the shift to the left leaves none. -/
theorem pairRating_eq_zero_iff (h : pair.value &&& pair.mask = pair.value) :
    pairRating t pair = 0 ↔ pair.Flat t := by
  have hle := bitChanges_le (x := pair.value ^^^ pair.mask)
  rw [← UInt8.toNat_inj, pairRating_toNat, PfPair.Flat, UInt8.toNat_zero]
  by_cases hret : pair.value = retInsn
  · have hvalue : ¬ pair.value = 0 := by
      rw [hret]
      decide
    have hpattern : ¬ pair.value = 0x5555555555555555 := by
      rw [hret]
      decide
    rw [if_pos hret]
    generalize bitChanges (pair.value ^^^ pair.mask) = c at hle ⊢
    simp only [hvalue, hpattern, and_false, false_and, or_false, false_or,
      and_iff_right hret]
    split <;> omega
  · have hzero := (bitChanges_eq_zero_iff (x := pair.value ^^^ pair.mask)).trans
      (xor_eq_ones h)
    rw [if_neg hret]
    simp only [hret, false_and, false_or]
    split
    · next hmask =>
        have hall := (bitChanges_eq_sixtyfour_iff
          (x := pair.value ^^^ pair.mask)).trans (xor_eq_alternating h hmask)
        rw [← hzero, ← hall]
        omega
    · next hmask =>
        have hnot : ¬ (t = .bits64 ∧ pair.mask = 0xFFFFFFFFFFFFFFFF ∧
            pair.value = 0x5555555555555555) := by
          rintro ⟨rfl, hones, -⟩
          exact hmask hones
        rw [hzero, or_iff_left hnot]

end Ratings

/-! ## The index -/

section Index

variable {asm : JitAsm} {matchFn : UInt64} {va : ℕ} {t : AccessType}
  {p : JitPatch} {s : JitState} {ss : StubState} {hi : ℤ} {i : ℕ} {is : List ℕ}

theorem pairAt_natCast (p : JitPatch) (i : ℕ) :
    p.pairAt i = p.pairs.getD i ⟨0, 0⟩ := by
  unfold JitPatch.pairAt
  rw [if_neg (by omega), Int.toNat_natCast]

theorem accepted_pairAt (hp : p.Accepted) (i : ℕ) :
    (p.pairAt i).value &&& (p.pairAt i).mask = (p.pairAt i).value := by
  rw [pairAt_natCast]
  rcases Nat.lt_or_ge i p.pairs.length with hi | hi
  · rw [List.getD_eq_getElem _ _ hi]
    exact hp _ (List.getElem_mem hi)
  · rw [List.getD_eq_default _ _ hi]
    rfl

/-- `hi_entropy` is -1 if all pairs are rated zero, and one of the others if not. -/
theorem hiEntropy_cases (t : AccessType) (p : JitPatch) :
    (hiEntropy t p = -1 ∧ ∀ i < p.cap, pairRating t (p.pairAt i) = 0) ∨
      ∃ i < p.cap, hiEntropy t p = i ∧ pairRating t (p.pairAt i) ≠ 0 := by
  have hloop : ∀ n, ((List.range n).foldl (rateHighest t p) (-1, 0) = (-1, 0) ∧
      ∀ i < n, pairRating t (p.pairAt i) = 0) ∨
      ∃ i < n, (List.range n).foldl (rateHighest t p) (-1, 0) =
        ((i : ℤ), pairRating t (p.pairAt i)) ∧
          pairRating t (p.pairAt i) ≠ 0 := by
    intro n
    induction n with
    | zero => exact .inl ⟨rfl, fun i hi => absurd hi (Nat.not_lt_zero i)⟩
    | succ n ih =>
        rw [List.range_succ, List.foldl_append, List.foldl_cons, List.foldl_nil]
        rcases ih with ⟨hfold, hall⟩ | ⟨i, hi, hfold, hrating⟩
        · rw [hfold, rateHighest]
          by_cases hzero : pairRating t (p.pairAt n) = 0
          · refine .inl ⟨by simp [hzero], fun i hi => ?_⟩
            rcases Nat.lt_succ_iff_lt_or_eq.1 hi with hlt | rfl
            · exact hall i hlt
            · exact hzero
          · have hpos : (0 : UInt8) < pairRating t (p.pairAt n) :=
              UInt8.pos_iff_ne_zero.2 hzero
            exact .inr ⟨n, Nat.lt_succ_self n, by simp [hpos], hzero⟩
        · rw [hfold, rateHighest]
          by_cases hlt : pairRating t (p.pairAt i) < pairRating t (p.pairAt n)
          · refine .inr ⟨n, Nat.lt_succ_self n, by simp [hlt], ?_⟩
            exact UInt8.pos_iff_ne_zero.1
              (UInt8.lt_of_le_of_lt UInt8.zero_le hlt)
          · exact .inr ⟨i, Nat.lt_succ_of_lt hi, by simp [hlt], hrating⟩
  rcases hloop p.cap with ⟨hfold, hall⟩ | ⟨i, hi, hfold, hrating⟩
  · exact .inl ⟨congrArg Prod.fst hfold, hall⟩
  · exact .inr ⟨i, hi, congrArg Prod.fst hfold, hrating⟩

/-- What the body of the loop over the pairs keeps. -/
theorem emitStubs_invariant {I : StubState → Prop} :
    ∀ {is : List ℕ} {ss : StubState},
    (∀ i ∈ is, ∀ ss, I ss → I { ss with uses := ss.uses ++ [(i : ℤ)] }) →
    (∀ i ∈ is, ∀ ss, I ss → I (emitStub t p hi i ss)) → I ss →
    I (emitStubs t p hi is ss).1
  | [], _, _, _, h => h
  | i :: is, ss, huse, hstub, h => by
      have hrest : ∀ {ss' : StubState}, I ss' → I (emitStubs t p hi is ss').1 :=
        fun h' => emitStubs_invariant
          (fun j hj => huse j (List.mem_cons_of_mem _ hj))
          (fun j hj => hstub j (List.mem_cons_of_mem _ hj)) h'
      have hused := huse i List.mem_cons_self ss h
      rw [emitStubs]
      split
      · exact hrest h
      · split
        · exact hrest hused
        · split
          · exact hused
          · exact hrest (hstub i List.mem_cons_self _ hused)

/-- No pair of an accepted pattern ends the loop. -/
theorem emitStubs_not_stopped (hp : p.Accepted) :
    ∀ {is : List ℕ} {ss : StubState}, (emitStubs t p hi is ss).2 = false
  | [], _ => rfl
  | i :: is, ss => by
      rw [emitStubs]
      split
      · exact emitStubs_not_stopped hp
      · split
        · exact emitStubs_not_stopped hp
        · next hzero =>
            split
            · next hmask =>
                refine absurd ⟨hmask, ?_⟩ hzero
                rw [← accepted_pairAt hp i, hmask, UInt64.and_zero]
            · exact emitStubs_not_stopped hp

/-- The numbers that are used are those of the first eight pairs and
`hi_entropy`. -/
theorem mem_emit_uses (hp : p.Accepted) (hcap : 0 < p.cap) {j : ℤ} :
    j ∈ (xnuPfMaskmatchEmit asm matchFn va t p s).2 ↔
      j = hiEntropy t p ∨ ∃ i < p.cap, j = (i : ℤ) := by
  have huses : ∀ ss : StubState, ss.uses = (List.range p.cap).map Nat.cast →
      (∀ i < p.cap, (i : ℤ) ∈
        (emitStubs t p (hiEntropy t p) (List.range p.cap) ss).1.uses) ∧
      ∀ k ∈ (emitStubs t p (hiEntropy t p) (List.range p.cap) ss).1.uses,
        k = hiEntropy t p ∨ ∃ i < p.cap, k = (i : ℤ) := by
    intro ss hss
    refine emitStubs_invariant (I := fun ss => (∀ i < p.cap, (i : ℤ) ∈ ss.uses) ∧
      ∀ k ∈ ss.uses, k = hiEntropy t p ∨ ∃ i < p.cap, k = (i : ℤ)) ?_ ?_ ?_
    · rintro i hi ss ⟨hall, honly⟩
      refine ⟨fun k hk => List.mem_append_left _ (hall k hk), fun k hk => ?_⟩
      rcases List.mem_append.1 hk with hk | hk
      · exact honly k hk
      · exact .inr ⟨i, List.mem_range.1 hi, List.mem_singleton.1 hk⟩
    · rintro i hi ss ⟨hall, honly⟩
      refine ⟨fun k hk => List.mem_append_left _ (hall k hk), fun k hk => ?_⟩
      rcases List.mem_append.1 hk with hk | hk
      · exact honly k hk
      · exact .inl (List.mem_singleton.1 hk)
    · rw [hss]
      refine ⟨fun k hk => List.mem_map_of_mem (List.mem_range.2 hk),
        fun k hk => ?_⟩
      obtain ⟨i, hi, rfl⟩ := List.mem_map.1 hk
      exact .inr ⟨i, List.mem_range.1 hi, rfl⟩
  unfold xnuPfMaskmatchEmit
  dsimp only
  obtain ⟨hall, honly⟩ := huses ⟨emitSlowpath asm matchFn va p s,
    (emitSlowpath asm matchFn va p s).insnEnd, [],
    (List.range p.cap).map Nat.cast⟩ rfl
  rw [emitStubs_not_stopped hp, if_neg (by simp; omega), List.mem_append,
    List.mem_singleton]
  constructor
  · rintro (hj | hj)
    · exact honly j hj
    · exact .inl hj
  · rintro (hj | ⟨i, hi, rfl⟩)
    · exact .inr hj
    · exact .inl (hall i hi)

theorem exists_not_flat_iff (hp : p.Accepted) :
    (∃ pair ∈ p.pairs.take 8, ¬ pair.Flat t) ↔
      ∃ i < p.cap, pairRating t (p.pairAt i) ≠ 0 := by
  simp only [List.mem_take_iff_getElem, Ne,
    pairRating_eq_zero_iff (accepted_pairAt hp _)]
  constructor
  · rintro ⟨pair, ⟨i, hi, rfl⟩, hflat⟩
    refine ⟨i, by unfold JitPatch.cap; omega, ?_⟩
    rwa [pairAt_natCast, List.getD_eq_getElem]
  · rintro ⟨i, hi, hflat⟩
    unfold JitPatch.cap at hi
    rw [pairAt_natCast, List.getD_eq_getElem _ _ (by omega)] at hflat
    exact ⟨_, ⟨i, by omega, rfl⟩, hflat⟩

/-- The compiler uses only indices of the pattern's pairs exactly if one of the
first eight pairs is rated above zero. -/
theorem emit_indexes_iff (asm : JitAsm) (matchFn : UInt64) (va : ℕ)
    (t : AccessType) (p : JitPatch) (s : JitState) (hp : p.Accepted)
    (hne : p.pairs ≠ []) :
    (∀ j ∈ (xnuPfMaskmatchEmit asm matchFn va t p s).2,
        0 ≤ j ∧ j < p.pairs.length) ↔
      ∃ pair ∈ p.pairs.take 8, ¬ pair.Flat t := by
  have hlength := List.length_pos_iff.2 hne
  have hcap : 0 < p.cap := by
    unfold JitPatch.cap
    omega
  have hle : p.cap ≤ p.pairs.length := Nat.min_le_left _ _
  rw [exists_not_flat_iff hp]
  simp only [mem_emit_uses hp hcap]
  rcases hiEntropy_cases t p with ⟨hnone, hall⟩ | ⟨i, hi, hsome, hrating⟩
  · refine iff_of_false (fun h => ?_) ?_
    · have hneg := (h _ (.inl rfl)).1
      omega
    · rintro ⟨i, hi, hrating⟩
      exact hrating (hall i hi)
  · refine iff_of_true (fun j hj => ?_) ⟨i, hi, hrating⟩
    rcases hj with rfl | ⟨k, hk, rfl⟩
    · omega
    · omega

end Index

/-- Pieces of `xnu.S` with their lengths only. -/
def nopAsm : JitAsm where
  head := List.replicate 10 nopInsn
  headLoad _ := List.replicate 11 nopInsn
  iterLoad _ := List.replicate 10 nopInsn
  iterEnd := List.replicate 8 nopInsn
  slowpath := List.replicate 12 nopInsn
  head_length := List.length_replicate
  headLoad_length _ := List.length_replicate
  iterLoad_length _ := List.length_replicate
  iterEnd_length := List.length_replicate
  slowpath_length := List.length_replicate

/-- A pattern of pairs only. -/
def pairsPatch (pairs : List PfPair) : JitPatch :=
  { quietPatch pairs with nameAddr := 0 }

def freshJit (size : ℤ) : JitState := ⟨0, size, 0, [], [], []⟩

/-- Looks for `RET`, and then for a zero. -/
theorem emit_indexes_ret :
    (pairsPatch [⟨retInsn, 0xFFFFFFFF⟩, ⟨0, 0xFFFFFFFF⟩]).Accepted ∧
      ∀ j ∈ (xnuPfMaskmatchEmit nopAsm 0 0 .bits32
        (pairsPatch [⟨retInsn, 0xFFFFFFFF⟩, ⟨0, 0xFFFFFFFF⟩])
        (freshJit 64)).2, 0 ≤ j ∧ j < 2 :=
  ⟨by decide, (emit_indexes_iff nopAsm 0 0 .bits32
    (pairsPatch [⟨retInsn, 0xFFFFFFFF⟩, ⟨0, 0xFFFFFFFF⟩]) (freshJit 64)
    (by decide) (by decide)).2 (by decide +kernel)⟩

/-- A single pair that looks for 64 zeros is rated zero. -/
theorem emit_uses_index_below_pairs :
    ¬ ∀ (asm : JitAsm) (matchFn : UInt64) (va : ℕ) (t : AccessType)
      (p : JitPatch) (s : JitState), p.Accepted → p.pairs ≠ [] →
      ∀ j ∈ (xnuPfMaskmatchEmit asm matchFn va t p s).2,
        0 ≤ j ∧ j < p.pairs.length := by
  intro h
  have hrange := h nopAsm 0 0 .bits64 (pairsPatch [⟨0, 0xFFFFFFFFFFFFFFFF⟩])
    (freshJit 64) (by decide) (by decide) (-1) (by decide +kernel)
  exact absurd hrange.1 (by decide)

end PongoOS
