import Mathlib.Algebra.BigOperators.Ring.List
import Mathlib.Algebra.Order.BigOperators.Group.List
import Mathlib.Algebra.Order.Ring.Nat
import PongoOS.Xnu.Entropy

/-!
# The size of the buffer

The words that a pattern takes are counted without the compiler: those of its code,
those of its stubs, and the slow path with its alignment.  The compiler takes
exactly these, so that the code and the stubs meet exactly if they are more than
the buffer has.
-/

namespace PongoOS

/-! ## How many words are needed -/

/-- The instructions that load a constant: one, and one more for each higher part
that is not zero. -/
def constWords (value : UInt64) : ℕ :=
  1 + (if value >>> 16 &&& 0xFFFF ≠ 0 then 1 else 0) +
    (if value >>> 32 &&& 0xFFFF ≠ 0 then 1 else 0) +
    (if value >>> 48 &&& 0xFFFF ≠ 0 then 1 else 0)

/-- A stub, with its branch.  A constant that the pair has in common with the one
that is compared first is not loaded again. -/
def stubWords (t : AccessType) (hi pair : PfPair) : ℕ :=
  (if hi.value = pair.value then 0 else constWords (pair.value &&& t.andNop)) +
    (if pair.mask = t.andNop then 1
      else if hi.mask = pair.mask then 2
      else 2 + constWords (pair.mask &&& t.andNop)) + 1

/-- The comparison with the first pair, with its branch. -/
def codeWords (t : AccessType) (hi : PfPair) (p0 : UInt64) : ℕ :=
  (if p0 = 0 ∨ p0 ≠ hi.value then constWords (hi.value &&& t.andNop) else 0) +
    (if hi.mask = t.andNop then 1 else 2 + constWords (hi.mask &&& t.andNop)) + 1

/-- The pair that is compared first. -/
def JitPatch.first (t : AccessType) (p : JitPatch) : PfPair :=
  p.pairAt (hiEntropy t p)

/-- The stub of the pair at `i`; pairs without a condition have none. -/
def JitPatch.pairNeed (t : AccessType) (p : JitPatch) (i : ℕ) : ℕ :=
  if (i : ℤ) = hiEntropy t p ∨ (p.pairAt i).mask = 0 then 0
  else stubWords t (p.first t) (p.pairAt i)

def JitPatch.stubNeed (t : AccessType) (p : JitPatch) : ℕ :=
  ((List.range p.cap).map (p.pairNeed t)).sum

def JitPatch.codeNeed (t : AccessType) (p : JitPatch) (p0 : UInt64) : ℕ :=
  if p.cap = 0 then 0 else codeWords t (p.first t) p0

def JitPatch.p0Next (t : AccessType) (p : JitPatch) (p0 : UInt64) : UInt64 :=
  if p.cap = 0 then p0 else nextP0 t (p.first t) p0

/-- The words of the patterns.  `extra` is one if the slow path of the first one
needs a word more for its alignment: an odd number of words in front of it is
stubs. -/
def wordsNeeded (t : AccessType) : UInt64 → ℕ → List JitPatch → ℕ
  | _, _, [] => 0
  | p0, extra, p :: ps =>
      slowpathStubSize + extra + p.stubNeed t + p.codeNeed t p0 +
        wordsNeeded t (p.p0Next t p0) (p.stubNeed t % 2) ps

/-! ## The words of the instructions -/

theorem xnuPfImm64Load_length (reg : UInt8) (value : UInt64) :
    (xnuPfImm64Load reg value).length = constWords value := by
  unfold xnuPfImm64Load constWords
  dsimp only
  rw [List.length_append, List.length_append, List.length_append]
  refine congrArg₂ (· + ·) (congrArg₂ (· + ·) (congrArg₂ (· + ·) rfl ?_) ?_) ?_
  · split <;> rfl
  · split <;> rfl
  · split <;> rfl

theorem cmpStub_length (t : AccessType) (hi pair : PfPair) (i : ℕ) :
    (cmpStub t hi pair i).length + 1 = stubWords t hi pair := by
  unfold cmpStub stubWords
  dsimp only
  rw [List.length_append]
  refine congrArg (· + 1) (congrArg₂ (· + ·) ?_ ?_)
  · split
    · rfl
    · exact xnuPfImm64Load_length _ _
  · by_cases hnop : pair.mask = t.andNop
    · rw [if_neg (not_not.2 hnop), if_pos hnop]
      rfl
    · rw [if_pos hnop, if_neg hnop]
      by_cases hmask : hi.mask = pair.mask
      · rw [if_pos ⟨hmask ▸ hnop, hmask⟩, if_pos hmask]
        rfl
      · rw [if_neg (fun h => hmask h.2), if_neg hmask, List.length_append,
          xnuPfImm64Load_length, Nat.add_comm]
        rfl

theorem cmpCode_length (t : AccessType) (hi : PfPair) (hiEntropy : ℤ)
    (p0 : UInt64) :
    (cmpCode t hi hiEntropy p0).length + 1 = codeWords t hi p0 := by
  unfold cmpCode codeWords
  rw [List.length_append]
  refine congrArg (· + 1) (congrArg₂ (· + ·) ?_ ?_)
  · split
    · exact xnuPfImm64Load_length _ _
    · rfl
  · by_cases hnop : hi.mask = t.andNop
    · rw [if_neg (not_not.2 hnop), if_pos hnop]
      rfl
    · rw [if_pos hnop, if_neg hnop, List.length_append, xnuPfImm64Load_length,
        Nat.add_comm]
      rfl

theorem constWords_le (value : UInt64) : constWords value ≤ 4 := by
  unfold constWords
  split <;> split <;> split <;> omega

/-! ## The stubs -/

section Stubs

variable {t : AccessType} {p : JitPatch} {hi : ℤ} {a : ℤ}

/-- `ss'` comes from `ss` by stubs of `n` words in front of the others. -/
structure StubsAdded (n : ℕ) (ss ss' : StubState) : Prop where
  insnEnd : ss'.state.insnEnd = ss.state.insnEnd - n
  insn : ss'.state.insn = ss.state.insn
  p0 : ss'.state.p0 = ss.state.p0
  code : ss'.state.code = ss.state.code
  pads : ss'.state.pads = ss.state.pads
  stubs : ∀ a ∈ ss'.state.stubs.places, a ∈ ss.state.stubs.places ∨
    ss'.state.insnEnd ≤ a ∧ a < ss.state.insnEnd
  kept : ∀ a ∈ ss.state.stubs.places, a ∈ ss'.state.stubs.places
  last : n = 0 ∨ ss'.state.insnEnd ∈ ss'.state.stubs.places
  linkage : ∀ a ∈ ss'.linkage, a ∈ ss.linkage ∨
    ss'.state.insnEnd ≤ a ∧ a < ss.state.insnEnd

theorem StubsAdded.refl {ss ss' : StubState} (hstate : ss'.state = ss.state)
    (hlinkage : ss'.linkage = ss.linkage) : StubsAdded 0 ss ss' where
  insnEnd := by rw [hstate]; omega
  insn := by rw [hstate]
  p0 := by rw [hstate]
  code := by rw [hstate]
  pads := by rw [hstate]
  stubs := fun a ha => .inl (hstate ▸ ha)
  kept := fun a ha => hstate ▸ ha
  last := .inl rfl
  linkage := fun a ha => .inl (hlinkage ▸ ha)

theorem StubsAdded.trans {m n : ℕ} {ss ss' ss'' : StubState}
    (h : StubsAdded m ss ss') (h' : StubsAdded n ss' ss'') :
    StubsAdded (m + n) ss ss'' where
  insnEnd := by
    rw [h'.insnEnd, h.insnEnd]
    omega
  insn := h'.insn.trans h.insn
  p0 := h'.p0.trans h.p0
  code := h'.code.trans h.code
  pads := h'.pads.trans h.pads
  stubs := by
    intro a ha
    have hend := h.insnEnd
    have hend' := h'.insnEnd
    rcases h'.stubs a ha with ha | ⟨hle, hlt⟩
    · rcases h.stubs a ha with ha | ⟨hle, hlt⟩
      · exact .inl ha
      · exact .inr ⟨by omega, hlt⟩
    · exact .inr ⟨hle, by omega⟩
  kept := fun a ha => h'.kept a (h.kept a ha)
  last := by
    rcases h'.last with rfl | hlast
    · rcases h.last with rfl | hlast
      · exact .inl rfl
      · right
        rw [h'.insnEnd, Int.natCast_zero, Int.sub_zero]
        exact h'.kept _ hlast
    · exact .inr hlast
  linkage := by
    intro a ha
    have hend := h.insnEnd
    have hend' := h'.insnEnd
    rcases h'.linkage a ha with ha | ⟨hle, hlt⟩
    · rcases h.linkage a ha with ha | ⟨hle, hlt⟩
      · exact .inl ha
      · exact .inr ⟨by omega, hlt⟩
    · exact .inr ⟨hle, by omega⟩

theorem emitStub_added (t : AccessType) (p : JitPatch) (hi : ℤ) (i : ℕ)
    (ss : StubState) :
    StubsAdded (stubWords t (p.pairAt hi) (p.pairAt i)) ss
      (emitStub t p hi i ss) := by
  have hlength := cmpStub_length t (p.pairAt hi) (p.pairAt i) i
  have hplaces : (emitStub t p hi i ss).state.stubs.places =
      ss.state.stubs.places ++ (wordsAt (emitStub t p hi i ss).state.insnEnd
        (cmpStub t (p.pairAt hi) (p.pairAt i) i)).places := places_append
  have hend : (emitStub t p hi i ss).state.insnEnd = ss.state.insnEnd -
      ((cmpStub t (p.pairAt hi) (p.pairAt i) i).length + 1) := rfl
  have hlinkage : (emitStub t p hi i ss).linkage =
      ss.linkage ++ [(emitStub t p hi i ss).state.insnEnd +
        (cmpStub t (p.pairAt hi) (p.pairAt i) i).length] := rfl
  have hpos : 0 < (cmpStub t (p.pairAt hi) (p.pairAt i) i).length := by
    unfold stubWords at hlength
    split at hlength <;> split at hlength <;> (try split at hlength) <;> omega
  refine ⟨by omega, rfl, rfl, rfl, rfl, fun a ha => ?_, fun a ha => ?_, ?_,
    fun a ha => ?_⟩
  · rw [hplaces, List.mem_append, mem_places_wordsAt] at ha
    rcases ha with ha | ha
    · exact .inl ha
    · exact .inr ⟨ha.1, by omega⟩
  · rw [hplaces]
    exact List.mem_append_left _ ha
  · right
    rw [hplaces, List.mem_append, mem_places_wordsAt]
    exact .inr ⟨le_rfl, by omega⟩
  · rw [hlinkage, List.mem_append, List.mem_singleton] at ha
    rcases ha with ha | rfl
    · exact .inl ha
    · exact .inr ⟨by omega, by omega⟩

/-- The loop over the pairs adds the stubs that are counted. -/
theorem emitStubs_added (t : AccessType) (hp : p.Accepted) :
    ∀ (is : List ℕ) (ss : StubState),
    StubsAdded (is.map (p.pairNeed t)).sum ss
      (emitStubs t p (hiEntropy t p) is ss).1
  | [], ss => .refl rfl rfl
  | i :: is, ss => by
      rw [List.map_cons, List.sum_cons, emitStubs]
      by_cases hfirst : (i : ℤ) = hiEntropy t p
      · rw [if_pos hfirst, JitPatch.pairNeed, if_pos (.inl hfirst), Nat.zero_add]
        exact emitStubs_added t hp is ss
      · rw [if_neg hfirst]
        have hused : StubsAdded 0 ss { ss with uses := ss.uses ++ [(i : ℤ)] } :=
          .refl rfl rfl
        by_cases hmask : (p.pairAt i).mask = 0
        · have hvalue : (p.pairAt i).value = 0 := by
            rw [← accepted_pairAt hp i, hmask, UInt64.and_zero]
          rw [if_pos ⟨hmask, hvalue⟩, JitPatch.pairNeed, if_pos (.inr hmask)]
          exact hused.trans (emitStubs_added t hp is _)
        · rw [if_neg (fun h => hmask h.1), if_neg hmask, JitPatch.pairNeed,
            if_neg (by simp [hfirst, hmask])]
          have hstub := hused.trans (emitStub_added t p (hiEntropy t p) i _)
          rw [Nat.zero_add] at hstub
          exact hstub.trans (emitStubs_added t hp is _)

end Stubs

/-! ## A pattern -/

section Patch

variable {asm : JitAsm} {matchFn : UInt64} {va : ℕ} {t : AccessType}
  {p : JitPatch} {s : JitState}

/-- The word that the alignment of the slow path costs. -/
def alignWords (insnEnd : ℤ) : ℕ := if insnEnd % 2 = 0 then 1 else 0

/-- `s'` comes from `s` by `n` words in front of the stubs and `m` words behind the
code. -/
structure PatchAdded (n m : ℕ) (s s' : JitState) : Prop where
  insn : s'.insn = s.insn + m
  insnEnd : s'.insnEnd = s.insnEnd - n
  code : ∀ a, a ∈ s'.code.places ↔
    a ∈ s.code.places ∨ s.insn ≤ a ∧ a < s'.insn
  stubs : ∀ a ∈ s'.stubs.places, a ∈ s.stubs.places ∨
    s'.insnEnd ≤ a ∧ a < s.insnEnd
  last : s'.insnEnd ∈ s'.stubs.places
  pads : ∀ a ∈ s'.pads.places, a ∈ s.pads.places ∨
    s'.insnEnd ≤ a + 1 ∧ a < s.insnEnd

/-- The slow path is in an odd place, because the buffer is four bytes behind a
page. -/
theorem emitSlowpath_insnEnd (asm : JitAsm) (matchFn : UInt64) (hva : 8 ∣ va)
    (p : JitPatch) (s : JitState) :
    (emitSlowpath asm matchFn va p s).insnEnd =
        s.insnEnd - (slowpathStubSize + alignWords s.insnEnd : ℕ) ∧
      (emitSlowpath asm matchFn va p s).insnEnd % 2 = 1 := by
  obtain ⟨k, rfl⟩ := hva
  unfold emitSlowpath xnuPfAlign3 alignWords slowpathStubSize
  dsimp only
  split <;> split <;> dsimp only <;> omega

theorem emitSlowpath_added (asm : JitAsm) (matchFn : UInt64) (hva : 8 ∣ va)
    (p : JitPatch) (s : JitState) :
    PatchAdded (slowpathStubSize + alignWords s.insnEnd) 0 s
      (emitSlowpath asm matchFn va p s) := by
  have hend := (emitSlowpath_insnEnd asm matchFn hva p s).1
  have hplaces : (emitSlowpath asm matchFn va p s).stubs.places =
      s.stubs.places ++
        (wordsAt (emitSlowpath asm matchFn va p s).insnEnd asm.slowpath).places ++
        (wordsAt ((emitSlowpath asm matchFn va p s).insnEnd + asm.slowpath.length)
          (pointerWords (UInt64.ofNat p.addr) ++
            pointerWords matchFn)).places := by
    rw [← places_append, ← places_append]
    rfl
  have hpads : ∀ a ∈ (emitSlowpath asm matchFn va p s).pads.places,
      a ∈ s.pads.places ∨ a + 1 = (emitSlowpath asm matchFn va p s).insnEnd := by
    intro a ha
    unfold emitSlowpath xnuPfAlign3 at ha ⊢
    dsimp only at ha ⊢
    rw [places_append, List.mem_append] at ha
    rcases ha with ha | ha
    · exact .inl ha
    · split at ha
      · next heven =>
          rw [if_pos heven]
          exact .inr (by rw [List.mem_singleton.1 ha])
      · cases ha
  have hasm := asm.slowpath_length
  have hpointers : (pointerWords (UInt64.ofNat p.addr) ++
      pointerWords matchFn).length = 4 := rfl
  unfold slowpathStubSize at hend
  refine ⟨(Int.add_zero _).symm, hend, fun a => ?_, fun a ha => ?_, ?_,
    fun a ha => ?_⟩
  · exact ⟨.inl, fun h => h.elim id fun h => absurd h.1 (not_le.2 h.2)⟩
  · rw [hplaces, List.mem_append, List.mem_append, mem_places_wordsAt,
      mem_places_wordsAt] at ha
    rcases ha with (ha | ha) | ha
    · exact .inl ha
    · exact .inr ⟨ha.1, by omega⟩
    · exact .inr ⟨by omega, by omega⟩
  · rw [hplaces, List.mem_append, List.mem_append, mem_places_wordsAt]
    exact .inl (.inr ⟨le_rfl, by omega⟩)
  · rcases hpads a ha with ha | ha
    · exact .inl ha
    · exact .inr ⟨by omega, by omega⟩

/-- The words of the stubs that are written at the end are in the slow path and
behind the stubs. -/
theorem emitCode_stubs {hi slowpath : ℤ} {ss : StubState} {a : ℤ}
    (ha : a ∈ (emitCode t p hi slowpath ss).stubs.places) :
    a ∈ ss.state.stubs.places ∨ a ∈ ss.linkage ∨
      slowpath ≤ a ∧ a < slowpath + slowpathStubSize := by
  have hconst := constWords_le (nextP0 t (p.pairAt hi) ss.state.p0)
  have hload := xnuPfImm64Load_length 0 (nextP0 t (p.pairAt hi) ss.state.p0)
  unfold emitCode slowpathStubSize at *
  dsimp only at ha
  rw [places_append, places_append, places_append, List.mem_append,
    List.mem_append, List.mem_append, mem_places_wordsAt] at ha
  rcases ha with ((ha | ha) | ha) | ha
  · exact .inl ha
  · refine .inr (.inl ?_)
    simpa [JitWrites.places] using ha
  · exact .inr (.inr ⟨by omega, by omega⟩)
  · rw [mem_places_singleton] at ha
    exact .inr (.inr ⟨by omega, by omega⟩)

theorem emitCode_code {hi slowpath : ℤ} {ss : StubState} {a : ℤ} :
    a ∈ (emitCode t p hi slowpath ss).code.places ↔
      a ∈ ss.state.code.places ∨ ss.state.insn ≤ a ∧
        a < ss.state.insn + codeWords t (p.pairAt hi) ss.state.p0 := by
  have hlength := cmpCode_length t (p.pairAt hi) hi ss.state.p0
  unfold emitCode
  dsimp only
  rw [places_append, places_append, List.mem_append, List.mem_append,
    mem_places_wordsAt, mem_places_singleton, or_assoc]
  refine or_congr_right ⟨?_, fun h => ?_⟩
  · rintro (h | rfl)
    · exact ⟨h.1, by omega⟩
    · exact ⟨by omega, by omega⟩
  · by_cases hlt : a < ss.state.insn +
        (cmpCode t (p.pairAt hi) hi ss.state.p0).length
    · exact .inl ⟨h.1, hlt⟩
    · exact .inr (by omega)

/-- The words of a pattern without its code. -/
def JitPatch.backNeed (t : AccessType) (p : JitPatch) (insnEnd : ℤ) : ℕ :=
  slowpathStubSize + alignWords insnEnd + p.stubNeed t

/-- Stubs behind a slow path. -/
theorem PatchAdded.addStubs {n k : ℕ} {ss ss' : StubState}
    (h : PatchAdded n 0 s ss.state) (h' : StubsAdded k ss ss') :
    PatchAdded (n + k) 0 s ss'.state := by
  have hend := h.insnEnd
  have hend' := h'.insnEnd
  refine ⟨h'.insn.trans h.insn, by omega, ?_, ?_, ?_, ?_⟩
  · rw [h'.code, h'.insn]
    exact h.code
  · intro a ha
    rcases h'.stubs a ha with ha | ⟨hle, hlt⟩
    · rcases h.stubs a ha with ha | ⟨hle, hlt⟩
      · exact .inl ha
      · exact .inr ⟨by omega, hlt⟩
    · exact .inr ⟨hle, by omega⟩
  · rcases h'.last with rfl | hlast
    · rw [h'.insnEnd, Int.natCast_zero, Int.sub_zero]
      exact h'.kept _ h.last
    · exact hlast
  · intro a ha
    rw [h'.pads] at ha
    rcases h.pads a ha with ha | ⟨hle, hlt⟩
    · exact .inl ha
    · exact .inr ⟨by omega, hlt⟩

/-- The code behind the stubs. -/
theorem PatchAdded.addCode {n : ℕ} {hi slowpath : ℤ} {ss : StubState}
    (h : PatchAdded n 0 s ss.state)
    (hlinkage : ∀ a ∈ ss.linkage, ss.state.insnEnd ≤ a ∧ a < s.insnEnd)
    (hslow : ss.state.insnEnd ≤ slowpath ∧
      slowpath + slowpathStubSize ≤ s.insnEnd) :
    PatchAdded n (codeWords t (p.pairAt hi) ss.state.p0) s
      (emitCode t p hi slowpath ss) := by
  have hlength := cmpCode_length t (p.pairAt hi) hi ss.state.p0
  have hinsn := h.insn
  have hinsn' : (emitCode t p hi slowpath ss).insn = ss.state.insn +
      codeWords t (p.pairAt hi) ss.state.p0 := by
    have hexit : (emitCode t p hi slowpath ss).insn = ss.state.insn +
      (cmpCode t (p.pairAt hi) hi ss.state.p0).length + 1 := rfl
    omega
  refine ⟨by omega, h.insnEnd, fun a => ?_, fun a ha => ?_, ?_, h.pads⟩
  · rw [emitCode_code, h.code, hinsn']
    constructor
    · rintro ((ha | ha) | ha)
      · exact .inl ha
      · omega
      · exact .inr ⟨by omega, ha.2⟩
    · rintro (ha | ha)
      · exact .inl (.inl ha)
      · exact .inr ⟨by omega, ha.2⟩
  · rcases emitCode_stubs ha with ha | ha | ha
    · exact h.stubs a ha
    · exact .inr (hlinkage a ha)
    · exact .inr ⟨le_trans hslow.1 ha.1, lt_of_lt_of_le ha.2 hslow.2⟩
  · unfold emitCode
    dsimp only
    rw [places_append, places_append, places_append]
    exact List.mem_append_left _ (List.mem_append_left _
      (List.mem_append_left _ h.last))

/-- The compiler takes the words that are counted. -/
theorem emit_added (asm : JitAsm) (matchFn : UInt64) (hva : 8 ∣ va)
    (t : AccessType) (hp : p.Accepted) (s : JitState) :
    PatchAdded (p.backNeed t s.insnEnd) (p.codeNeed t s.p0) s
        (xnuPfMaskmatchEmit asm matchFn va t p s).1 ∧
      (xnuPfMaskmatchEmit asm matchFn va t p s).1.p0 = p.p0Next t s.p0 := by
  have hslow := emitSlowpath_added asm matchFn hva p s
  have hsend := hslow.insnEnd
  have hp0 : (emitSlowpath asm matchFn va p s).p0 = s.p0 := rfl
  unfold xnuPfMaskmatchEmit
  dsimp only
  generalize emitSlowpath asm matchFn va p s = s₁ at hslow hsend hp0 ⊢
  have hstubs := emitStubs_added t hp (List.range p.cap)
    ⟨s₁, s₁.insnEnd, [], (List.range p.cap).map Nat.cast⟩
  have hstop : (emitStubs t p (hiEntropy t p) (List.range p.cap)
      ⟨s₁, s₁.insnEnd, [], (List.range p.cap).map Nat.cast⟩).2 = false :=
    emitStubs_not_stopped hp
  have hboth := hslow.addStubs hstubs
  generalize emitStubs t p (hiEntropy t p) (List.range p.cap)
    ⟨s₁, s₁.insnEnd, [], (List.range p.cap).map Nat.cast⟩ = r
      at hstubs hstop hboth ⊢
  have hrp0 : r.1.state.p0 = s.p0 := hstubs.p0.trans hp0
  rw [hstop]
  by_cases hcap : p.cap = 0
  · rw [if_pos (.inr hcap), JitPatch.codeNeed, if_pos hcap, JitPatch.p0Next,
      if_pos hcap]
    exact ⟨hboth, hrp0⟩
  · rw [if_neg (by simp [hcap]), JitPatch.codeNeed, if_neg hcap,
      JitPatch.p0Next, if_neg hcap, ← hrp0]
    have hrend := hstubs.insnEnd
    dsimp only at hrend
    refine ⟨hboth.addCode (fun a ha => ?_) ?_, rfl⟩
    · rcases hstubs.linkage a ha with ha | ⟨hle, hlt⟩
      · cases ha
      · dsimp only at hlt
        exact ⟨hle, by omega⟩
    · exact ⟨by omega, by omega⟩

end Patch

/-! ## Bounds -/

section Bounds

variable {t : AccessType} {p : JitPatch} {hi pair : PfPair} {p0 : UInt64}

/-- The most instructions that load a constant of the access type. -/
def AccessType.maxConst : AccessType → ℕ
  | .bits8 => 1
  | .bits16 => 1
  | .bits32 => 2
  | .bits64 => 4

theorem and_shiftRight_eq_zero {x y k : UInt64} (hk : k.toNat < 64)
    (hy : y.toNat < 2 ^ k.toNat) : (x &&& y) >>> k = 0 := by
  rw [← UInt64.toNat_inj, UInt64.toNat_shiftRight, UInt64.toNat_and,
    Nat.mod_eq_of_lt hk, Nat.shiftRight_eq_div_pow]
  exact Nat.div_eq_of_lt (Nat.lt_of_le_of_lt Nat.and_le_right hy)

theorem constWords_and_le (t : AccessType) (value : UInt64) :
    constWords (value &&& t.andNop) ≤ t.maxConst := by
  have hfour := constWords_le (value &&& t.andNop)
  unfold constWords at *
  cases t with
  | bits64 => exact hfour
  | bits32 =>
      have h32 : (value &&& AccessType.bits32.andNop) >>> 32 = 0 :=
        and_shiftRight_eq_zero (by decide) (by decide)
      have h48 : (value &&& AccessType.bits32.andNop) >>> 48 = 0 :=
        and_shiftRight_eq_zero (by decide) (by decide)
      simp only [h32, h48, AccessType.maxConst]
      split <;> simp
  | bits16 =>
      have h16 : (value &&& AccessType.bits16.andNop) >>> 16 = 0 :=
        and_shiftRight_eq_zero (by decide) (by decide)
      have h32 : (value &&& AccessType.bits16.andNop) >>> 32 = 0 :=
        and_shiftRight_eq_zero (by decide) (by decide)
      have h48 : (value &&& AccessType.bits16.andNop) >>> 48 = 0 :=
        and_shiftRight_eq_zero (by decide) (by decide)
      simp [h16, h32, h48, AccessType.maxConst]
  | bits8 =>
      have h16 : (value &&& AccessType.bits8.andNop) >>> 16 = 0 :=
        and_shiftRight_eq_zero (by decide) (by decide)
      have h32 : (value &&& AccessType.bits8.andNop) >>> 32 = 0 :=
        and_shiftRight_eq_zero (by decide) (by decide)
      have h48 : (value &&& AccessType.bits8.andNop) >>> 48 = 0 :=
        and_shiftRight_eq_zero (by decide) (by decide)
      simp [h16, h32, h48, AccessType.maxConst]

theorem stubWords_le : stubWords t hi pair ≤ 2 * t.maxConst + 3 := by
  have hvalue := constWords_and_le t pair.value
  have hmask := constWords_and_le t pair.mask
  unfold stubWords
  split <;> split <;> (try split) <;> omega

theorem codeWords_le : codeWords t hi p0 ≤ 2 * t.maxConst + 3 := by
  have hvalue := constWords_and_le t hi.value
  have hmask := constWords_and_le t hi.mask
  unfold codeWords
  split <;> split <;> omega

theorem codeNeed_le (t : AccessType) (p : JitPatch) (p0 : UInt64) :
    p.codeNeed t p0 ≤ 2 * t.maxConst + 3 := by
  unfold JitPatch.codeNeed
  split
  · exact Nat.zero_le _
  · exact codeWords_le

theorem pairNeed_le (t : AccessType) (p : JitPatch) (i : ℕ) :
    p.pairNeed t i ≤ 2 * t.maxConst + 3 := by
  unfold JitPatch.pairNeed
  split
  · exact Nat.zero_le _
  · exact stubWords_le

theorem stubNeed_le (t : AccessType) (p : JitPatch) :
    p.stubNeed t ≤ p.cap * (2 * t.maxConst + 3) := by
  have hsum := List.sum_le_card_nsmul ((List.range p.cap).map (p.pairNeed t))
    (2 * t.maxConst + 3) (by
      intro n hn
      obtain ⟨i, -, rfl⟩ := List.mem_map.1 hn
      exact pairNeed_le t p i)
  simpa [JitPatch.stubNeed] using hsum

theorem cap_le (p : JitPatch) : p.cap ≤ 8 := Nat.min_le_right _ _

theorem maxEmitSize_eq (t : AccessType) (p : JitPatch) : p.maxEmitSize t =
    4 * (slowpathStubSize + (t.bits / 16 * 2 + 4) * p.cap) := by
  unfold JitPatch.maxEmitSize
  rw [Nat.shiftRight_eq_div_pow, Nat.mul_comm]

/-- One pattern takes less than its budget and the slack. -/
theorem need_le (t : AccessType) (p : JitPatch) (p0 : UInt64) (insnEnd : ℤ) :
    4 * (p.backNeed t insnEnd + p.codeNeed t p0) ≤
      p.maxEmitSize t + 0x100 := by
  have hcap := cap_le p
  have hstubs := stubNeed_le t p
  have hcode := codeNeed_le t p p0
  have halign : alignWords insnEnd ≤ 1 := by
    unfold alignWords
    split <;> omega
  rw [maxEmitSize_eq]
  unfold JitPatch.backNeed slowpathStubSize at *
  cases t <;> simp only [AccessType.maxConst, AccessType.bits] at * <;> omega

end Bounds

/-! ## A patchset -/

section Run

variable {asm : JitAsm} {matchFn : UInt64} {va : ℕ} {t : AccessType}
  {p : JitPatch} {s s' : JitState} {size : ℤ}

/-- What holds of the buffer while the patterns are compiled: the code is in front
of `insn_stream`, without the word that is left for the branch behind the loop, and
the stubs are between `insn_stream_end` and the end of the buffer. -/
structure JitInv (size : ℤ) (s : JitState) : Prop where
  insn_ge : 22 ≤ s.insn
  insnEnd_le : s.insnEnd ≤ size
  code : ∀ a, a ∈ s.code.places ↔ (0 ≤ a ∧ a < s.insn) ∧ a ≠ 21
  stubs : ∀ a ∈ s.stubs.places, s.insnEnd ≤ a ∧ a < size
  last : s.insnEnd = size ∨ s.insnEnd ∈ s.stubs.places
  pads : ∀ a ∈ s.pads.places, s.insnEnd ≤ a + 1 ∧ a < size

theorem JitInv.added {n m : ℕ} (h : JitInv size s) (hadd : PatchAdded n m s s') :
    JitInv size s' := by
  have hinsn := hadd.insn
  have hend := hadd.insnEnd
  have hge := h.insn_ge
  have hle := h.insnEnd_le
  refine ⟨by omega, by omega, fun a => ?_, fun a ha => ?_, .inr hadd.last,
    fun a ha => ?_⟩
  · rw [hadd.code, h.code]
    omega
  · rcases hadd.stubs a ha with ha | ha
    · have hold := h.stubs a ha
      exact ⟨by omega, hold.2⟩
    · exact ⟨ha.1, by omega⟩
  · rcases hadd.pads a ha with ha | ha
    · have hold := h.pads a ha
      exact ⟨by omega, hold.2⟩
    · exact ⟨ha.1, by omega⟩

/-- The check of the forward code never fails. -/
theorem emitPatch_eq (hva : 8 ∣ va) (hp : p.Accepted) :
    emitPatch asm matchFn va t s p =
      .ok (xnuPfMaskmatchEmit asm matchFn va t p s).1 := by
  have hinsn := (emit_added asm matchFn hva t hp s).1.insn
  have hcode := codeNeed_le t p s.p0
  have hconst : t.maxConst ≤ 4 := by cases t <;> decide
  have hmax : 64 ≤ p.maxEmitSize t := by
    rw [maxEmitSize_eq]
    unfold slowpathStubSize
    omega
  unfold emitPatch
  dsimp only
  rw [if_neg]
  omega

/-- Behind the stubs of a pattern the place is even if they are an odd number of
words. -/
theorem alignWords_backNeed (t : AccessType) (p : JitPatch) (insnEnd : ℤ) :
    alignWords (insnEnd - (p.backNeed t insnEnd : ℕ)) = p.stubNeed t % 2 := by
  unfold JitPatch.backNeed alignWords slowpathStubSize
  split <;> split <;> omega

/-- The patterns take the words that are counted. -/
theorem foldlM_emitPatch (asm : JitAsm) (matchFn : UInt64) (hva : 8 ∣ va)
    (t : AccessType) :
    ∀ (patches : List JitPatch) (s : JitState), (∀ p ∈ patches, p.Accepted) →
    JitInv size s →
    ∃ s', patches.foldlM (emitPatch asm matchFn va t) s = .ok s' ∧
      JitInv size s' ∧ s'.insn - s.insn + (s.insnEnd - s'.insnEnd) =
        wordsNeeded t s.p0 (alignWords s.insnEnd) patches
  | [], s, _, h => ⟨s, rfl, h, by simp [wordsNeeded]⟩
  | p :: ps, s, hp, h => by
      obtain ⟨hadd, hp0⟩ :=
        emit_added asm matchFn hva t (hp p List.mem_cons_self) s
      rw [List.foldlM_cons, emitPatch_eq hva (hp p List.mem_cons_self),
        except_ok_bind]
      obtain ⟨s', hrun, hinv, hwords⟩ := foldlM_emitPatch asm matchFn hva t ps
        (xnuPfMaskmatchEmit asm matchFn va t p s).1
        (fun q hq => hp q (List.mem_cons_of_mem _ hq)) (h.added hadd)
      refine ⟨s', hrun, hinv, ?_⟩
      have hinsn := hadd.insn
      have hend := hadd.insnEnd
      rw [hp0, hend, alignWords_backNeed] at hwords
      rw [wordsNeeded]
      unfold JitPatch.backNeed at hend hwords
      push_cast at *
      omega

/-- The words around the patterns: the head of the loop, its tail and the code
behind it. -/
def frameWords : ℕ := 41

theorem eight_dvd_maxEmitSize : 8 ∣ p.maxEmitSize t := by
  rw [maxEmitSize_eq]
  unfold slowpathStubSize
  cases t <;> simp only [AccessType.bits] <;> omega

theorem jitWords_even (t : AccessType) (patches : List JitPatch) :
    jitWords t patches % 2 = 0 := by
  have hsum : 8 ∣ (patches.map fun p => p.maxEmitSize t).sum := by
    refine List.dvd_sum fun n hn => ?_
    obtain ⟨p, -, rfl⟩ := List.mem_map.1 hn
    exact eight_dvd_maxEmitSize
  unfold jitWords jitSize
  rw [Nat.shiftRight_eq_div_pow]
  omega

/-- The compiler ends, and this is where its writes are. -/
theorem xnuPfEmit_spec (hva : 8 ∣ va) (asm : JitAsm) (matchFn : UInt64)
    (t : AccessType) (p0 : UInt64) {patches : List JitPatch}
    (hp : ∀ p ∈ patches, p.Accepted) :
    ∃ s, xnuPfEmit asm matchFn va t p0 patches = .ok s ∧
      s.insn + (jitWords t patches - s.insnEnd) =
        (frameWords + wordsNeeded t p0 1 patches : ℕ) ∧
      (∀ a, a ∈ s.code.places ↔ 0 ≤ a ∧ a < s.insn) ∧
      (∀ a ∈ s.stubs.places, s.insnEnd ≤ a ∧ a < jitWords t patches) ∧
      (s.insnEnd = jitWords t patches ∨ s.insnEnd ∈ s.stubs.places) ∧
      (∀ a ∈ s.pads.places, s.insnEnd ≤ a + 1 ∧ a < jitWords t patches) ∧
      frameWords ≤ s.insn ∧ s.insnEnd ≤ jitWords t patches := by
  have hhead := asm.head_length
  have hload := asm.headLoad_length t
  have hiter := asm.iterLoad_length t
  have hiterEnd := asm.iterEnd_length
  have hstart : JitInv (jitWords t patches) ⟨asm.head.length +
      (asm.headLoad t).length + 1, jitWords t patches, p0,
      wordsAt 0 asm.head ++ wordsAt asm.head.length (asm.headLoad t), [], []⟩ := by
    refine ⟨by simp only [hhead, hload]; omega, le_rfl, fun a => ?_, nofun,
      .inl rfl, nofun⟩
    dsimp only
    rw [places_append, List.mem_append, mem_places_wordsAt, mem_places_wordsAt]
    omega
  obtain ⟨s, hrun, hinv, hwords⟩ :=
    foldlM_emitPatch asm matchFn hva t patches _ hp hstart
  have halign : alignWords (jitWords t patches) = 1 := by
    have heven := jitWords_even t patches
    unfold alignWords
    rw [if_pos (by omega)]
  have hge := hinv.insn_ge
  dsimp only at hwords
  rw [halign] at hwords
  unfold xnuPfEmit
  dsimp only
  rw [hrun, except_ok_bind]
  refine ⟨_, rfl, ?_, fun a => ?_, hinv.stubs, hinv.last, hinv.pads, ?_,
    hinv.insnEnd_le⟩
  · dsimp only
    unfold frameWords
    push_cast
    omega
  · dsimp only
    have htwo : ∀ {b c : ℤ} {v w : UInt32},
        a ∈ JitWrites.places [(b, v), (c, w)] ↔ a = b ∨ a = c := by
      intro b c v w
      rw [JitWrites.places, List.map_cons, List.map_singleton, List.mem_cons,
        List.mem_singleton]
    rw [places_append, places_append, places_append, List.mem_append,
      List.mem_append, List.mem_append, mem_places_wordsAt, mem_places_wordsAt,
      hinv.code, htwo]
    omega
  · dsimp only
    unfold frameWords
    push_cast
    omega

end Run

/-! ## When the buffer is large enough -/

/-- The words that a pattern takes at both ends. -/
def takenWords (asm : JitAsm) (matchFn : UInt64) (va : ℕ) (t : AccessType)
    (p : JitPatch) (s : JitState) : ℤ :=
  let s' := (xnuPfMaskmatchEmit asm matchFn va t p s).1
  s'.insn - s.insn + (s.insnEnd - s'.insnEnd)

/-- All writes are in the buffer, the code and the stubs do not overlap, and each
pattern fits into its budget and the slack. -/
def JitFits (asm : JitAsm) (matchFn : UInt64) (va : ℕ) (t : AccessType)
    (p0 : UInt64) (patches : List JitPatch) : Prop :=
  (∃ s, xnuPfEmit asm matchFn va t p0 patches = .ok s ∧
    (∀ a ∈ JitWrites.places (s.code ++ s.stubs ++ s.pads),
      0 ≤ a ∧ a < jitWords t patches) ∧
    ∀ a ∈ s.code.places, a ∉ s.stubs.places) ∧
  ∀ p ∈ patches, ∀ s, 4 * takenWords asm matchFn va t p s ≤
    (p.maxEmitSize t + 0x100 : ℕ)

section Fits

variable {asm : JitAsm} {matchFn : UInt64} {page : ℕ} {t : AccessType}
  {p : JitPatch} {p0 : UInt64} {patches : List JitPatch}

theorem eight_dvd_page (page : ℕ) : 8 ∣ page * 0x4000 := by omega

theorem JitFits.room (h : JitFits asm matchFn (page * 0x4000) t p0 patches)
    (hp : ∀ p ∈ patches, p.Accepted) :
    frameWords + wordsNeeded t p0 1 patches ≤ jitWords t patches := by
  obtain ⟨s, hrun, hwords, hcode, hstubs, hlast, hpads, hinsn, hend⟩ :=
    xnuPfEmit_spec (eight_dvd_page page) asm matchFn t p0 hp
  obtain ⟨⟨s', hrun', hin, hapart⟩, -⟩ := h
  obtain rfl : s = s' := Except.ok.inj (hrun.symm.trans hrun')
  simp only [places_append, List.mem_append] at hin
  unfold frameWords at hinsn
  rcases hlast with hlast | hlast
  · have hlt := (hin (s.insn - 1)
      (.inl (.inl ((hcode _).2 ⟨by omega, by omega⟩)))).2
    omega
  · have hge := (hin s.insnEnd (.inl (.inr hlast))).1
    have hnot : ¬ s.insnEnd < s.insn := fun hlt =>
      hapart s.insnEnd ((hcode _).2 ⟨hge, hlt⟩) hlast
    omega

theorem JitFits.of_room (hp : ∀ p ∈ patches, p.Accepted)
    (hroom : frameWords + wordsNeeded t p0 1 patches ≤ jitWords t patches) :
    JitFits asm matchFn (page * 0x4000) t p0 patches := by
  obtain ⟨s, hrun, hwords, hcode, hstubs, -, hpads, hinsn, hend⟩ :=
    xnuPfEmit_spec (eight_dvd_page page) asm matchFn t p0 hp
  unfold frameWords at hinsn
  refine ⟨⟨s, hrun, fun a ha => ?_, fun a ha hstub => ?_⟩, fun p hmem s => ?_⟩
  · simp only [places_append, List.mem_append] at ha
    rcases ha with (ha | ha) | ha
    · have hplace := (hcode a).1 ha
      omega
    · have hplace := hstubs a ha
      omega
    · have hplace := hpads a ha
      omega
  · have hfront := (hcode a).1 ha
    have hback := hstubs a hstub
    omega
  · have hadd := (emit_added asm matchFn (eight_dvd_page page) t
      (hp p hmem) s).1
    have hinsn := hadd.insn
    have hend := hadd.insnEnd
    have hneed := need_le t p s.p0 s.insnEnd
    unfold takenWords
    dsimp only
    omega

/-! ## Accesses of more than eight bits -/

/-- All pairs but one have a stub. -/
theorem stubNeed_le_of_first {k : ℕ} (hk : k < p.cap)
    (hfirst : hiEntropy t p = k) :
    p.stubNeed t + (2 * t.maxConst + 3) ≤ p.cap * (2 * t.maxConst + 3) := by
  have hsum : ∀ n, ((List.range n).map (p.pairNeed t)).sum +
      (if k < n then 2 * t.maxConst + 3 else 0) ≤ n * (2 * t.maxConst + 3) := by
    intro n
    induction n with
    | zero => simp
    | succ n ih =>
        rw [List.range_succ, List.map_append, List.sum_append, List.map_singleton,
          List.sum_singleton, Nat.succ_mul n]
        have hneed := pairNeed_le t p n
        rcases Nat.lt_trichotomy k n with hlt | rfl | hlt
        · rw [if_pos hlt] at ih
          rw [if_pos (by omega)]
          omega
        · have hzero : p.pairNeed t k = 0 := if_pos (.inl hfirst.symm)
          rw [if_neg (by omega)] at ih
          rw [if_pos (by omega)]
          omega
        · rw [if_neg (by omega)] at ih
          rw [if_neg (by omega)]
          omega
  have hall := hsum p.cap
  rwa [if_pos hk] at hall

theorem need_le_of_not_flat (p0 : UInt64) (hp : p.Accepted)
    (hflat : p.pairs ≠ [] → ∃ pair ∈ p.pairs.take 8, ¬ pair.Flat t) :
    p.stubNeed t + p.codeNeed t p0 ≤ p.cap * (2 * t.maxConst + 3) := by
  by_cases hcap : p.cap = 0
  · have hstubs := stubNeed_le t p
    rw [JitPatch.codeNeed, if_pos hcap]
    exact hstubs
  · have hne : p.pairs ≠ [] := by
      rintro hnil
      rw [JitPatch.cap, hnil] at hcap
      exact hcap rfl
    have hcode := codeNeed_le t p p0
    obtain ⟨i, hi, hrating⟩ := (exists_not_flat_iff hp).1 (hflat hne)
    rcases hiEntropy_cases t p with ⟨-, hall⟩ | ⟨k, hk, hfirst, -⟩
    · exact absurd (hall i hi) hrating
    · have hstubs := stubNeed_le_of_first hk hfirst
      omega

/-- The budget of such a pattern has a word for each pair left over, and one of
them pays for the alignment of the next one. -/
theorem wordsNeeded_le (ht : t ≠ .bits8) : ∀ (patches : List JitPatch)
    (p0 : UInt64) (extra : ℕ), (∀ p ∈ patches, p.Accepted) →
    (∀ p ∈ patches, p.pairs ≠ [] → ∃ pair ∈ p.pairs.take 8, ¬ pair.Flat t) →
    4 * wordsNeeded t p0 extra patches ≤
      (patches.map fun p => p.maxEmitSize t).sum + 4 * extra
  | [], _, _, _, _ => by simp [wordsNeeded]
  | p :: ps, p0, extra, hp, hflat => by
      have hrest := wordsNeeded_le ht ps (p.p0Next t p0) (p.stubNeed t % 2)
        (fun q hq => hp q (List.mem_cons_of_mem _ hq))
        (fun q hq => hflat q (List.mem_cons_of_mem _ hq))
      have hneed := need_le_of_not_flat p0 (hp p List.mem_cons_self) (hflat p List.mem_cons_self)
      have hstubs := stubNeed_le t p
      rw [wordsNeeded, List.map_cons, List.sum_cons, maxEmitSize_eq]
      have hbudget : (t.bits / 16 * 2 + 4) * p.cap =
          p.cap * (2 * t.maxConst + 3) + p.cap := by
        cases t with
        | bits8 => exact absurd rfl ht
        | bits16 => simp only [AccessType.bits, AccessType.maxConst]; omega
        | bits32 => simp only [AccessType.bits, AccessType.maxConst]; omega
        | bits64 => simp only [AccessType.bits, AccessType.maxConst]; omega
      have hodd : p.stubNeed t % 2 ≤ p.cap := by
        by_cases hcap : p.cap = 0
        · rw [hcap, Nat.zero_mul] at hstubs
          omega
        · omega
      omega

/-- With wider accesses the buffer is large enough if every pattern has a pair that
can be compared first. -/
theorem jitFits_of_wide (ht : t ≠ .bits8) (hp : ∀ p ∈ patches, p.Accepted)
    (hflat : ∀ p ∈ patches, p.pairs ≠ [] →
      ∃ pair ∈ p.pairs.take 8, ¬ pair.Flat t)
    (hsize : 0x100 + (patches.map fun p => p.maxEmitSize t).sum < 2 ^ 32) :
    JitFits asm matchFn (page * 0x4000) t p0 patches := by
  refine .of_room hp ?_
  have hneed := wordsNeeded_le ht patches p0 1 hp hflat
  unfold jitWords jitSize frameWords
  rw [Nat.mod_eq_of_lt hsize, Nat.shiftRight_eq_div_pow]
  omega

end Fits

/-- The code and the stubs meet exactly if more words are needed than there are. -/
theorem jitFits_iff (asm : JitAsm) (matchFn : UInt64) (page : ℕ) (t : AccessType)
    (p0 : UInt64) (patches : List JitPatch) (hp : ∀ p ∈ patches, p.Accepted) :
    JitFits asm matchFn (page * 0x4000) t p0 patches ↔
      frameWords + wordsNeeded t p0 1 patches ≤ jitWords t patches :=
  ⟨fun h => h.room hp, .of_room hp⟩

/-- Eight pairs that have no constant in common. -/
def mixedPatch : JitPatch :=
  pairsPatch ((List.range 8).map fun i =>
    ⟨UInt64.ofNat i, 0xF0 ||| UInt64.ofNat i⟩)

theorem jitFits_mixedPatch :
    JitFits nopAsm 0 (0 * 0x4000) .bits8 0 [mixedPatch, mixedPatch] :=
  (jitFits_iff nopAsm 0 0 .bits8 0 [mixedPatch, mixedPatch]
    (by decide +kernel)).2 (by decide +kernel)

/-- With 8-bit accesses a pair can need five words and has a budget of four. -/
theorem three_patterns_overlap :
    ¬ ∀ (asm : JitAsm) (matchFn : UInt64) (page : ℕ) (t : AccessType)
      (p0 : UInt64) (patches : List JitPatch), (∀ p ∈ patches, p.Accepted) →
      JitFits asm matchFn (page * 0x4000) t p0 patches := by
  intro h
  have haccepted : ∀ p ∈ [mixedPatch, mixedPatch, mixedPatch], p.Accepted := by
    decide +kernel
  have hroom := (h nopAsm 0 0 .bits8 0 [mixedPatch, mixedPatch, mixedPatch]
    haccepted).room haccepted
  exact absurd hroom (by decide +kernel)

end PongoOS
