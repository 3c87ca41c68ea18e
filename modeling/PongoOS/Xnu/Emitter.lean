import PongoOS.Support.Outcome
import PongoOS.Xnu.JitInstructions

/-!
# The just-in-time compiler of the patchfinder

The code of a patchset is written forward from the start of a buffer.  For each
pattern it compares one pair, the one that is least likely to be there; the
comparisons with the other pairs are stubs, and these are written backward from
the end of the buffer.
-/

namespace PongoOS

/-! ## Patterns -/

/-- A pattern as it is in memory: `name` is a pointer, and stands right in front of
`pair_count` and `pairs`. -/
structure JitPatch extends PfPatch where
  nameAddr : UInt64

/-- What is at an index of `pairs`.  At -1 there are the pointer to the name and
`pair_count`. -/
def JitPatch.pairAt (p : JitPatch) (i : ℤ) : PfPair :=
  if i = -1 then ⟨p.nameAddr, UInt64.ofNat p.pairs.length⟩
  else p.pairs.getD i.toNat ⟨0, 0⟩

/-- The check of `xnu_pf_maskmatch`. -/
def JitPatch.Accepted (p : JitPatch) : Prop :=
  ∀ pair ∈ p.pairs, pair.value &&& pair.mask = pair.value

instance (p : JitPatch) : Decidable p.Accepted :=
  inferInstanceAs (Decidable (∀ _ ∈ _, _))

/-- `XNU_PF_ACCESS_8BIT` and so on. -/
def AccessType.bits : AccessType → ℕ
  | .bits8 => 0x8
  | .bits16 => 0x10
  | .bits32 => 0x20
  | .bits64 => 0x40

/-- `and_nop`. -/
def AccessType.andNop : AccessType → UInt64
  | .bits8 => 0xFF
  | .bits16 => 0xFFFF
  | .bits32 => 0xFFFFFFFF
  | .bits64 => 0xFFFFFFFFFFFFFFFF

/-- How many pairs are compared before the callback's own comparison. -/
def JitPatch.cap (p : JitPatch) : ℕ := min p.pairs.length 8

/-- `pfjit_max_emit_size`, as `xnu_pf_maskmatch` sets it. -/
def JitPatch.maxEmitSize (p : JitPatch) (t : AccessType) : ℕ :=
  (slowpathStubSize + ((t.bits >>> 4) * 2 + 4) * p.cap) * 4

/-! ## The pair that is compared first -/

/-- One bit of the rating loop, with `cur_rating` and `last`. -/
def rateBit (x : UInt64) (r : UInt8 × Bool) (z : ℕ) : UInt8 × Bool :=
  let bit := (x >>> UInt64.ofNat z) &&& 1 == 1
  if bit != r.2 then (r.1 + 1, bit) else r

/-- `RET`. -/
def retInsn : UInt64 := 0xD65F03C0

/-- `cur_rating` of a pair. -/
def pairRating (t : AccessType) (pair : PfPair) : UInt8 :=
  let rating := ((List.range 64).foldl (rateBit (pair.value ^^^ pair.mask))
    (0, true)).1
  let rating := if pair.value = retInsn then rating >>> 3 else rating
  if pair.mask = t.andNop then rating <<< 2 else rating

/-- One pair of the loop, with `hi_entropy` and `highest_rating`. -/
def rateHighest (t : AccessType) (p : JitPatch) (h : ℤ × UInt8) (i : ℕ) :
    ℤ × UInt8 :=
  let rating := pairRating t (p.pairAt i)
  if h.2 < rating then (i, rating) else h

/-- `hi_entropy`. -/
def hiEntropy (t : AccessType) (p : JitPatch) : ℤ :=
  ((List.range p.cap).foldl (rateHighest t p) (-1, 0)).1

/-! ## The stubs -/

/-- What the compiler has written, and where it goes on. -/
structure JitState where
  /-- `insn_stream`. -/
  insn : ℤ
  /-- `insn_stream_end`. -/
  insnEnd : ℤ
  p0 : UInt64
  code : JitWrites
  stubs : JitWrites
  /-- Written in front of a stub, for its alignment. -/
  pads : JitWrites

/-- `xnu_pf_align3_emit`; the buffer starts four bytes behind the page at `va`. -/
def xnuPfAlign3 (va : ℕ) (place : ℤ) : ℤ × JitWrites :=
  if (va + 4 + 4 * place) % 8 = 4 then (place + 1, [(place, nopInsn)])
  else (place, [])

/-- The slow path of a pattern, which calls `xnu_pf_maskmatch_match` at
`matchFn`. -/
def emitSlowpath (asm : JitAsm) (matchFn : UInt64) (va : ℕ) (p : JitPatch)
    (s : JitState) : JitState :=
  let aligned := xnuPfAlign3 va (s.insnEnd - (slowpathStubSize + 1))
  { s with
    insnEnd := aligned.1
    pads := s.pads ++ aligned.2
    stubs := s.stubs ++ wordsAt aligned.1 asm.slowpath ++
      wordsAt (aligned.1 + asm.slowpath.length)
        (pointerWords (UInt64.ofNat p.addr) ++ pointerWords matchFn) }

/-- The comparison with the pair at `i`; `hi` is compared first, and its constants
are in the registers 0 and 1. -/
def cmpStub (t : AccessType) (hi pair : PfPair) (i : ℕ) : List UInt32 :=
  let shared := hi.value = pair.value
  let reg0 : UInt8 := if shared then 0 else 2
  let value := if shared then []
    else xnuPfImm64Load reg0 (pair.value &&& t.andNop)
  value ++
    if pair.mask ≠ t.andNop then
      let shared := hi.mask ≠ t.andNop ∧ hi.mask = pair.mask
      let reg1 : UInt8 := if shared then 1 else 3
      let mask := if shared then []
        else xnuPfImm64Load reg1 (pair.mask &&& t.andNop)
      mask ++ [xnuPfAnd 8 (20 + UInt8.ofNat i) reg1, xnuPfCmp 8 reg0]
    else [xnuPfCmp (20 + UInt8.ofNat i) reg0]

/-- What the loop over the pairs has done: `prev_stub`, the places of `linkage`, and
the numbers that were used for a pair. -/
structure StubState where
  state : JitState
  prevStub : ℤ
  linkage : List ℤ
  uses : List ℤ

/-- The stub of the pair at `i`; the word behind it is left for the branch. -/
def emitStub (t : AccessType) (p : JitPatch) (hi : ℤ) (i : ℕ) (s : StubState) :
    StubState :=
  let words := cmpStub t (p.pairAt hi) (p.pairAt i) i
  let out := s.state.insnEnd - (words.length + 1)
  { state :=
      { s.state with
        insnEnd := out
        stubs := s.state.stubs ++ wordsAt out words }
    prevStub := out
    linkage := s.linkage ++ [out + words.length]
    uses := s.uses ++ [hi] }

/-- The loop over the pairs.  It ends early if `cap` is set to zero. -/
def emitStubs (t : AccessType) (p : JitPatch) (hi : ℤ) :
    List ℕ → StubState → StubState × Bool
  | [], s => (s, false)
  | i :: is, s =>
      if (i : ℤ) = hi then emitStubs t p hi is s
      else
        let s := { s with uses := s.uses ++ [(i : ℤ)] }
        if (p.pairAt i).mask = 0 ∧ (p.pairAt i).value = 0 then
          emitStubs t p hi is s
        else if (p.pairAt i).mask = 0 then (s, true)
        else emitStubs t p hi is (emitStub t p hi i s)

/-! ## The code -/

/-- What is written forward, before the branch: the constants of the first pair,
unless register 0 has the value, and the comparison. -/
def cmpCode (t : AccessType) (hi : PfPair) (hiEntropy : ℤ) (p0 : UInt64) :
    List UInt32 :=
  (if p0 = 0 ∨ p0 ≠ hi.value then xnuPfImm64Load 0 (hi.value &&& t.andNop)
    else []) ++
    if hi.mask ≠ t.andNop then
      xnuPfImm64Load 1 (hi.mask &&& t.andNop) ++
        [xnuPfAnd 8 (UInt8.ofInt (20 + hiEntropy)) 1, xnuPfCmp 8 0]
    else [xnuPfCmp (UInt8.ofInt (20 + hiEntropy)) 0]

/-- `patchset->p0` behind it. -/
def nextP0 (t : AccessType) (hi : PfPair) (p0 : UInt64) : UInt64 :=
  if p0 = 0 ∨ p0 ≠ hi.value then hi.value &&& t.andNop else p0

/-- The code of a pattern and the words of its stubs that depend on where it
ends. -/
def emitCode (t : AccessType) (p : JitPatch) (hi slowpath : ℤ) (s : StubState) :
    JitState :=
  let words := cmpCode t (p.pairAt hi) hi s.state.p0
  let branch := s.state.insn + words.length
  let exit := branch + 1
  let p0 := nextP0 t (p.pairAt hi) s.state.p0
  { s.state with
    insn := exit
    p0 := p0
    code := s.state.code ++ wordsAt s.state.insn words ++
      [(branch, xnuPfBEq (s.prevStub - branch))]
    stubs := s.state.stubs ++
      (s.linkage.map fun place => (place, xnuPfBNe (exit - place))) ++
      wordsAt (slowpath + 6) (xnuPfImm64Load 0 p0) ++
      [(slowpath + 10, xnuPfB (exit - (slowpath + 10)))] }

/-- `xnu_pf_maskmatch_emit`, with the numbers that it uses as an index of `pairs` or
adds to a register. -/
def xnuPfMaskmatchEmit (asm : JitAsm) (matchFn : UInt64) (va : ℕ)
    (t : AccessType) (p : JitPatch) (s : JitState) : JitState × List ℤ :=
  let s := emitSlowpath asm matchFn va p s
  let rated := (List.range p.cap).map Nat.cast
  let hi := hiEntropy t p
  let (stubs, stopped) := emitStubs t p hi (List.range p.cap)
    ⟨s, s.insnEnd, [], rated⟩
  if stopped ∨ p.cap = 0 then (stubs.state, stubs.uses)
  else (emitCode t p hi s.insnEnd stubs, stubs.uses ++ [hi])

/-! ## A patchset -/

/-- One pattern of the loop of `xnu_pf_emit`. -/
def emitPatch (asm : JitAsm) (matchFn : UInt64) (va : ℕ) (t : AccessType)
    (s : JitState) (p : JitPatch) : Outcome JitState :=
  let s' := (xnuPfMaskmatchEmit asm matchFn va t p s).1
  if (p.maxEmitSize t : ℤ) < 4 * (s'.insn - s.insn) then
    .error (.panic "pf_jit: jit overflow")
  else .ok s'

/-- `jit_size`. -/
def jitSize (t : AccessType) (patches : List JitPatch) : ℕ :=
  (0x100 + (patches.map fun p => p.maxEmitSize t).sum) % 2 ^ 32

/-- `jit_size >> 2`. -/
def jitWords (t : AccessType) (patches : List JitPatch) : ℕ :=
  jitSize t patches >>> 2

/-- `xnu_pf_emit` for maskmatch patterns, with the buffer that `jit_alloc` gets at
the page at `va`. -/
def xnuPfEmit (asm : JitAsm) (matchFn : UInt64) (va : ℕ) (t : AccessType)
    (p0 : UInt64) (patches : List JitPatch) : Outcome JitState := do
  let bailout : ℤ := asm.head.length + (asm.headLoad t).length
  let loopHead := bailout + 1
  let s : JitState :=
    { insn := loopHead
      insnEnd := jitWords t patches
      p0 := p0
      code := wordsAt 0 asm.head ++ wordsAt asm.head.length (asm.headLoad t)
      stubs := []
      pads := [] }
  let s ← patches.foldlM (emitPatch asm matchFn va t) s
  let branch := s.insn + (asm.iterLoad t).length
  let exit := branch + 1
  .ok { s with
    insn := exit + asm.iterEnd.length
    code := s.code ++ wordsAt s.insn (asm.iterLoad t) ++
      [(branch, xnuPfB (loopHead - branch)), (bailout, xnuPfB (exit - bailout))] ++
      wordsAt exit asm.iterEnd }

end PongoOS
