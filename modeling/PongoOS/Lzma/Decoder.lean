import PongoOS.Linux.Staging
import PongoOS.Support.RangeCoder

/-!
# The LZMA decoder

A symbol is a byte, a match with a distance and a length, or a match with one of
the last four distances.  `LzmaDec_DecodeReal` decodes symbols into the
dictionary as long as there are enough bytes of input for any symbol.  In front
of the last ones `LzmaDec_TryDummy` finds out whether the bytes are enough for
the next symbol.
-/

namespace PongoOS

open RangeCoder

namespace Lzma

/-! ## The probabilities -/

def kNumPosBitsMax : ℕ := 4
def kNumPosStatesMax : ℕ := 2 ^ kNumPosBitsMax
def kLenNumLowBits : ℕ := 3
def kLenNumLowSymbols : ℕ := 2 ^ kLenNumLowBits
def kLenNumMidBits : ℕ := 3
def kLenNumMidSymbols : ℕ := 2 ^ kLenNumMidBits
def kLenNumHighBits : ℕ := 8
def kLenNumHighSymbols : ℕ := 2 ^ kLenNumHighBits

def lenChoice : ℕ := 0
def lenChoice2 : ℕ := lenChoice + 1
def lenLow : ℕ := lenChoice2 + 1
def lenMid : ℕ := lenLow + kNumPosStatesMax * 2 ^ kLenNumLowBits
def lenHigh : ℕ := lenMid + kNumPosStatesMax * 2 ^ kLenNumMidBits
def kNumLenProbs : ℕ := lenHigh + kLenNumHighSymbols

def kNumStates : ℕ := 12
def kNumLitStates : ℕ := 7
def kStartPosModelIndex : ℕ := 4
def kEndPosModelIndex : ℕ := 14
def kNumFullDistances : ℕ := 2 ^ (kEndPosModelIndex / 2)
def kNumPosSlotBits : ℕ := 6
def kNumLenToPosStates : ℕ := 4
def kNumAlignBits : ℕ := 4
def kAlignTableSize : ℕ := 2 ^ kNumAlignBits
def kMatchMinLen : ℕ := 2
def kMatchSpecLenStart : ℕ :=
  kMatchMinLen + kLenNumLowSymbols + kLenNumMidSymbols + kLenNumHighSymbols

def isMatch : ℕ := 0
def isRep : ℕ := isMatch + kNumStates * 2 ^ kNumPosBitsMax
def isRepG0 : ℕ := isRep + kNumStates
def isRepG1 : ℕ := isRepG0 + kNumStates
def isRepG2 : ℕ := isRepG1 + kNumStates
def isRep0Long : ℕ := isRepG2 + kNumStates
def posSlot : ℕ := isRep0Long + kNumStates * 2 ^ kNumPosBitsMax
def specPos : ℕ := posSlot + kNumLenToPosStates * 2 ^ kNumPosSlotBits
def align : ℕ := specPos + kNumFullDistances - kEndPosModelIndex
def lenCoder : ℕ := align + kAlignTableSize
def repLenCoder : ℕ := lenCoder + kNumLenProbs
def literal : ℕ := repLenCoder + kNumLenProbs

def lzmaBaseSize : ℕ := 1846
def lzmaLitSize : ℕ := 768

theorem literal_eq : literal = lzmaBaseSize := rfl

def lzmaPropsGetNumProbs (p : LzmaProps) : ℕ :=
  lzmaBaseSize + lzmaLitSize * 2 ^ (p.lc + p.lp)

/-- The bytes of input that are enough for any symbol. -/
def lzmaRequiredInputMax : ℕ := 20

/-! ## The state -/

/-- `CLzmaDec`.  The coder is `range`, `code` and `buf`, as an offset, and
`tempBufSize` is the length of `tempBuf`. -/
structure LzmaDec where
  prop : LzmaProps
  probs : Model
  dic : ByteMemory
  dicBufSize : ℕ
  dicPos : ℕ
  coder : Coder
  processedPos : ℕ
  checkDicSize : ℕ
  state : ℕ
  rep0 : ℕ
  rep1 : ℕ
  rep2 : ℕ
  rep3 : ℕ
  remainLen : ℕ
  needFlush : Bool
  needInitState : Bool
  tempBuf : List UInt8

/-- Why a symbol is not decoded: the data are wrong, or the dictionary would be
accessed outside of its buffer. -/
inductive SymbolStop where
  | data
  | outside
deriving DecidableEq, Repr

abbrev SymbolTree := BitTree SymbolStop

namespace LzmaDec

variable (p : LzmaDec)

def posState : ℕ := p.processedPos % 2 ^ p.prop.pb

/-- `dic[i]` -/
def dicByte (i : ℕ) : SymbolTree UInt8 :=
  if i < p.dicBufSize then pure (p.dic i) else .stop .outside

/-- `(dicPos - rep0) + ((dicPos < rep0) ? dicBufSize : 0)` -/
def repPos : ℕ :=
  (sub64 p.dicPos p.rep0 + if p.dicPos < p.rep0 then p.dicBufSize else 0) % 2 ^ 64

/-! ## Literals -/

/-- Where the probabilities of the literal start. -/
def literalProbs : SymbolTree ℕ :=
  if p.checkDicSize ≠ 0 ∨ p.processedPos ≠ 0 then do
    let prev ← p.dicByte (sub64 (if p.dicPos = 0 then p.dicBufSize else p.dicPos) 1)
    pure (literal + lzmaLitSize * (p.processedPos % 2 ^ p.prop.lp * 2 ^ p.prop.lc +
      prev.toNat / 2 ^ (8 - p.prop.lc)))
  else pure literal

/-- A literal behind a match.  As long as its bits are those of `matchByte`,
these select the probability as well.  Here `bit` is a part of `offs`, which
makes `offs & ~bit` a difference. -/
def matchedFrom (prob : ℕ) : ℕ → ℕ → ℕ → ℕ → SymbolTree ℕ
  | 0, _, _, symbol => pure symbol
  | n + 1, matchByte, offs, symbol => do
      let matchByte := matchByte * 2
      let bit := matchByte &&& offs
      let b ← BitTree.bit (prob + offs + bit + symbol)
      matchedFrom prob n matchByte (if b then offs &&& bit else offs - bit)
        (2 * symbol + b.toNat)

def literalSymbol : SymbolTree ℕ := do
  let prob ← p.literalProbs
  if p.state < kNumLitStates then BitTree.treeFrom prob 8 1
  else
    let matchByte ← p.dicByte p.repPos
    matchedFrom prob 8 matchByte.toNat 0x100 1

/-- The state behind a literal. -/
def literalState : ℕ :=
  if p.state < kNumLitStates then p.state - (if p.state < 4 then p.state else 3)
  else p.state - (if p.state < 10 then 3 else 6)

/-- `dic[dicPos++] = b`, with `processedPos++`. -/
def putByte (b : UInt8) : SymbolTree LzmaDec :=
  if p.dicPos < p.dicBufSize then
    pure { p with
      dic := Function.update p.dic p.dicPos b
      dicPos := p.dicPos + 1
      processedPos := (p.processedPos + 1) % 2 ^ 32 }
  else .stop .outside

/-! ## Lengths and distances -/

end LzmaDec

def decodeLen {ε : Type} (prob posState : ℕ) : BitTree ε ℕ := do
  let choice ← BitTree.bit (prob + lenChoice)
  if choice = false then
    BitTree.tree (prob + lenLow + posState * 2 ^ kLenNumLowBits) kLenNumLowBits
  else
    let choice2 ← BitTree.bit (prob + lenChoice2)
    if choice2 = false then
      let len ← BitTree.tree (prob + lenMid + posState * 2 ^ kLenNumMidBits)
        kLenNumMidBits
      pure (len + kLenNumLowSymbols)
    else
      let len ← BitTree.tree (prob + lenHigh) kLenNumHighBits
      pure (len + kLenNumLowSymbols + kLenNumMidSymbols)

/-- The low bits of a distance, the lowest one first. -/
def reverseFrom {ε : Type} (prob : ℕ) : ℕ → ℕ → ℕ → ℕ → BitTree ε ℕ
  | 0, _, _, distance => pure distance
  | n + 1, i, mask, distance => do
      let b ← BitTree.bit (prob + i)
      reverseFrom prob n (2 * i + b.toNat) (mask * 2)
        (if b then distance ||| mask else distance)

def directFrom {ε : Type} : ℕ → ℕ → BitTree ε ℕ
  | 0, distance => pure distance
  | n + 1, distance => do
      let b ← BitTree.directBit
      directFrom n ((distance * 2 + b.toNat) % 2 ^ 32)

def posSlotProbs (len : ℕ) : ℕ :=
  posSlot + (if len < kNumLenToPosStates then len else kNumLenToPosStates - 1) *
    2 ^ kNumPosSlotBits

/-- The distance, and whether it can be the end mark. -/
def decodeDistance {ε : Type} (len : ℕ) : BitTree ε (ℕ × Bool) := do
  let slot ← BitTree.tree (posSlotProbs len) kNumPosSlotBits
  if slot < kStartPosModelIndex then pure (slot, false)
  else
    let numDirectBits := slot / 2 - 1
    let distance := 2 + slot % 2
    if slot < kEndPosModelIndex then
      let distance := distance * 2 ^ numDirectBits
      let distance ←
        reverseFrom (specPos + distance - slot - 1) numDirectBits 1 1 distance
      pure (distance, false)
    else
      let distance ← directFrom (numDirectBits - kNumAlignBits) distance
      let distance ← reverseFrom align kNumAlignBits 1 1
        (distance * 2 ^ kNumAlignBits % 2 ^ 32)
      pure (distance, true)

/-! ## Copies -/

namespace LzmaDec

/-- `n` bytes are copied, one after the other, from `pos` on.  The source wraps
around at the end of the buffer if `wraps`. -/
def copyFrom (wraps : Bool) : ℕ → ℕ → LzmaDec → SymbolTree LzmaDec
  | 0, _, p => pure p
  | n + 1, pos, p =>
      if p.dicPos < p.dicBufSize then do
        let b ← p.dicByte pos
        copyFrom wraps n (if wraps ∧ pos + 1 = p.dicBufSize then 0 else pos + 1)
          { p with
            dic := Function.update p.dic p.dicPos b
            dicPos := p.dicPos + 1 }
      else .stop .outside

/-- What a match with the distance `rep0` does to the dictionary.  The part of it
that is behind `limit` remains. -/
def copyMatch (p : LzmaDec) (limit len : ℕ) : SymbolTree LzmaDec := do
  let len := len + kMatchMinLen
  if limit = p.dicPos then .stop .data
  else
    let rem := sub64 limit p.dicPos
    let curLen := if rem < len then rem else len
    let pos := p.repPos
    copyFrom (decide (p.dicBufSize < (pos + curLen) % 2 ^ 64)) curLen pos
      { p with
        processedPos := (p.processedPos + curLen) % 2 ^ 32
        remainLen := len - curLen }

/-! ## Symbols -/

/-- A match with one of the last distances.  The result is the state with the
distances in their new order, or `none` for a match of one byte. -/
def decodeRep (p : LzmaDec) : SymbolTree (Option LzmaDec) := do
  let g0 ← BitTree.bit (isRepG0 + p.state)
  if g0 = false then
    let long ← BitTree.bit (isRep0Long + p.state * 2 ^ kNumPosBitsMax + p.posState)
    if long = false then pure none else pure (some p)
  else
    let g1 ← BitTree.bit (isRepG1 + p.state)
    if g1 = false then pure (some { p with rep0 := p.rep1, rep1 := p.rep0 })
    else
      let g2 ← BitTree.bit (isRepG2 + p.state)
      if g2 = false then
        pure (some { p with rep0 := p.rep2, rep1 := p.rep0, rep2 := p.rep1 })
      else
        pure (some { p with
          rep0 := p.rep3, rep1 := p.rep0, rep2 := p.rep1, rep3 := p.rep2 })

/-- One round of the loop of `LzmaDec_DecodeReal`: the state behind the symbol,
and whether the symbol was the end mark. -/
def symbol (p : LzmaDec) (limit : ℕ) : SymbolTree (LzmaDec × Bool) := do
  let matched ← BitTree.bit (isMatch + p.state * 2 ^ kNumPosBitsMax + p.posState)
  if matched = false then
    let symbol ← p.literalSymbol
    let p ← { p with state := p.literalState }.putByte (UInt8.ofNat symbol)
    pure (p, false)
  else
    let rep ← BitTree.bit (isRep + p.state)
    if rep = false then
      let len ← decodeLen lenCoder p.posState
      let (distance, canEnd) ← decodeDistance len
      if canEnd ∧ distance = 0xffffffff then
        pure ({ p with remainLen := len + kMatchSpecLenStart }, true)
      else
        let q := { p with
          rep0 := (distance + 1) % 2 ^ 32
          rep1 := p.rep0
          rep2 := p.rep1
          rep3 := p.rep2
          state := if p.state < kNumLitStates then kNumLitStates
            else kNumLitStates + 3 }
        if (if p.checkDicSize = 0 then p.processedPos else p.checkDicSize) ≤ distance
        then .stop .data
        else
          let q ← q.copyMatch limit len
          pure (q, false)
    else if p.checkDicSize = 0 ∧ p.processedPos = 0 then .stop .data
    else
      match ← p.decodeRep with
      | none =>
          let b ← p.dicByte p.repPos
          let p ← { p with state := if p.state < kNumLitStates then 9 else 11 }.putByte b
          pure (p, false)
      | some q =>
          let q := { q with state := if q.state < kNumLitStates then 8 else 11 }
          let len ← decodeLen repLenCoder p.posState
          let q ← q.copyMatch limit len
          pure (q, false)

/-! ## A symbol that is only tried -/

end LzmaDec

inductive Dummy where
  | lit
  | match
  | rep
deriving DecidableEq, Repr

/-- The low bits of a distance, of which only the number matters. -/
def dummyReverse {ε : Type} (prob : ℕ) : ℕ → ℕ → BitTree ε Unit
  | 0, _ => pure ()
  | n + 1, i => do
      let b ← BitTree.bit (prob + i)
      dummyReverse prob n (2 * i + b.toNat)

def dummyDirect {ε : Type} : ℕ → BitTree ε Unit
  | 0 => pure ()
  | n + 1 => do
      let _ ← BitTree.directBit
      dummyDirect n

def dummyDistance {ε : Type} (len : ℕ) : BitTree ε Unit := do
  let slot ← BitTree.tree (posSlotProbs len) kNumPosSlotBits
  if slot < kStartPosModelIndex then pure ()
  else
    let numDirectBits := slot / 2 - 1
    if slot < kEndPosModelIndex then
      dummyReverse (specPos + (2 + slot % 2) * 2 ^ numDirectBits - slot - 1)
        numDirectBits 1
    else
      dummyDirect (numDirectBits - kNumAlignBits)
      dummyReverse align kNumAlignBits 1

namespace LzmaDec

/-- A match with one of the last distances, and whether a length follows. -/
def dummyRep (p : LzmaDec) : SymbolTree Bool := do
  let g0 ← BitTree.bit (isRepG0 + p.state)
  if g0 = false then
    BitTree.bit (isRep0Long + p.state * 2 ^ kNumPosBitsMax + p.posState)
  else
    let g1 ← BitTree.bit (isRepG1 + p.state)
    if g1 = false then pure true
    else
      let _ ← BitTree.bit (isRepG2 + p.state)
      pure true

/-- The bits that `LzmaDec_TryDummy` decodes. -/
def dummy (p : LzmaDec) : SymbolTree Dummy := do
  let matched ← BitTree.bit (isMatch + p.state * 2 ^ kNumPosBitsMax + p.posState)
  if matched = false then
    let _ ← p.literalSymbol
    pure .lit
  else
    let rep ← BitTree.bit (isRep + p.state)
    if rep = false then
      let len ← decodeLen lenCoder p.posState
      dummyDistance len
      pure .match
    else
      if (← p.dummyRep) = true then
        let _ ← decodeLen (ε := SymbolStop) repLenCoder p.posState
        pure .rep
      else pure .rep

/-- `LzmaDec_TryDummy`: whether the bytes of `src` between `pos` and `limit` are
enough for a symbol, and where the coder comes to. -/
def tryDummy (p : LzmaDec) (src : ByteMemory) (pos limit : ℕ) :
    Except Coder (Except SymbolStop Dummy × Coder) := do
  let (r, c) ← p.dummy.check src limit p.probs { p.coder with pos := pos }
  let c ← BitTree.checkedNormalize src limit c
  pure (r, c)

end LzmaDec

/-! ## Decoding -/

/-- Why decoding ends early: the data are wrong, with the local variables at that
place, the dictionary would be accessed outside of its buffer, or the embedding
has no fuel left. -/
inductive LzmaStop where
  | data (p : LzmaDec)
  | outside
  | outOfFuel

namespace LzmaDec

/-- A symbol is decoded with the bits of the coder. -/
def symbolRun (p : LzmaDec) (src : ByteMemory) (limit : ℕ) :
    Except SymbolStop (LzmaDec × Bool) × Model × Coder :=
  (p.symbol limit).run src p.probs p.coder

/-- The loop of `LzmaDec_DecodeReal`.  Its `len` is `remainLen`. -/
def decodeReal (src : ByteMemory) (limit bufLimit : ℕ) :
    ℕ → LzmaDec → Except LzmaStop LzmaDec
  | 0, _ => .error .outOfFuel
  | fuel + 1, p =>
      let r := p.symbolRun src limit
      match r.1 with
      | .error .data => .error (.data { p with probs := r.2.1, coder := r.2.2 })
      | .error .outside => .error .outside
      | .ok (q, isEnd) =>
          if isEnd = false ∧ q.dicPos < limit ∧ r.2.2.pos < bufLimit then
            decodeReal src limit bufLimit fuel
              { q with probs := r.2.1, coder := r.2.2 }
          else .ok { q with probs := r.2.1, coder := r.2.2.normalize src }

/-- `n` bytes of the match that remains. -/
def writeRemFrom : ℕ → LzmaDec → Except LzmaStop LzmaDec
  | 0, p => pure p
  | n + 1, p =>
      if p.repPos < p.dicBufSize ∧ p.dicPos < p.dicBufSize then
        writeRemFrom n { p with
          dic := Function.update p.dic p.dicPos (p.dic p.repPos)
          dicPos := p.dicPos + 1 }
      else .error .outside

/-- `LzmaDec_WriteRem` -/
def writeRem (p : LzmaDec) (limit : ℕ) : Except LzmaStop LzmaDec :=
  if p.remainLen ≠ 0 ∧ p.remainLen < kMatchSpecLenStart then
    let len :=
      if sub64 limit p.dicPos < p.remainLen then sub64 limit p.dicPos
      else p.remainLen
    writeRemFrom len { p with
      checkDicSize :=
        if p.checkDicSize = 0 ∧ sub32 p.prop.dicSize p.processedPos ≤ len then
          p.prop.dicSize
        else p.checkDicSize
      processedPos := (p.processedPos + len) % 2 ^ 32
      remainLen := p.remainLen - len }
  else pure p

/-- The limit of a round of `LzmaDec_DecodeReal2`.  It is lowered where
`checkDicSize` is set already. -/
def roundLimit (p : LzmaDec) (limit : ℕ) : ℕ :=
  let rem := sub32 p.prop.dicSize p.processedPos
  if p.checkDicSize ≠ 0 ∧ rem < sub64 limit p.dicPos then p.dicPos + rem else limit

/-- `checkDicSize` behind a round. -/
def checkSize (p : LzmaDec) : LzmaDec :=
  { p with
    checkDicSize :=
      if p.prop.dicSize ≤ p.processedPos then p.prop.dicSize else p.checkDicSize }

/-- One round of `LzmaDec_DecodeReal2`. -/
def decodeRound (fuel : ℕ) (src : ByteMemory) (limit bufLimit : ℕ) (p : LzmaDec) :
    Except LzmaStop LzmaDec := do
  let q ← decodeReal src (p.roundLimit limit) bufLimit fuel { p with remainLen := 0 }
  q.checkSize.writeRem limit

/-- `LzmaDec_DecodeReal2` -/
def decodeReal2 (src : ByteMemory) (limit bufLimit : ℕ) :
    ℕ → LzmaDec → Except LzmaStop LzmaDec
  | 0, _ => .error .outOfFuel
  | fuel + 1, p => do
      let p ← p.decodeRound (fuel + 1) src limit bufLimit
      if p.dicPos < limit ∧ p.coder.pos < bufLimit ∧
          p.remainLen < kMatchSpecLenStart then
        decodeReal2 src limit bufLimit fuel p
      else if kMatchSpecLenStart < p.remainLen then
        pure { p with remainLen := kMatchSpecLenStart }
      else pure p

/-- `LzmaDec_InitRc`, with the bytes of the temporary buffer. -/
def initRc (p : LzmaDec) : LzmaDec :=
  { p with
    coder := ⟨0xffffffff, bigEndian (p.tempBuf.drop 1), p.coder.pos⟩
    needFlush := false
    tempBuf := [] }

/-- `LzmaDec_InitStateReal` -/
def initStateReal (p : LzmaDec) : LzmaDec :=
  { p with
    probs := fun _ => .half
    rep0 := 1
    rep1 := 1
    rep2 := 1
    rep3 := 1
    state := 0
    needInitState := false }

/-- The bytes of `src` from `pos` on that are taken until `tempBuf` has `size`
bytes. -/
def fillTempBuf (p : LzmaDec) (src : ByteMemory) (pos n size : ℕ) : List UInt8 :=
  src.bytesAt pos (min (size - p.tempBuf.length) (n - pos))

/-- What a call of `LzmaDec_DecodeToDic` returns, with the decoder it leaves and
how far it read. -/
structure DicEnd where
  res : SRes
  status : LzmaStatus
  dec : LzmaDec
  read : ℕ

/-- The decoder is ready for symbols, or the call is over: there are not enough
bytes for the range coder, or the dictionary is full. -/
def prepare (p : LzmaDec) (dicLimit : ℕ) (src : ByteMemory) (pos n : ℕ) :
    Except DicEnd (LzmaDec × ℕ) := do
  let (p, pos) ←
    if p.needFlush then
      let got := p.fillTempBuf src pos n rcInitSize
      let p := { p with tempBuf := p.tempBuf ++ got }
      let pos := pos + got.length
      if p.tempBuf.length < rcInitSize then .error ⟨.ok, .needsMoreInput, p, pos⟩
      else if p.tempBuf.head? ≠ some 0 then
        .error ⟨.errorData, .notSpecified, p, pos⟩
      else .ok (p.initRc, pos)
    else .ok (p, pos)
  if dicLimit ≤ p.dicPos then
    if p.remainLen = 0 ∧ p.coder.code = 0 then
      .error ⟨.ok, .maybeFinishedWithoutMark, p, pos⟩
    else .error ⟨.ok, .notFinished, p, pos⟩
  else .ok (if p.needInitState then p.initStateReal else p, pos)

/-- `LzmaDec_DecodeReal2` from `pos` on.  The second result is how far
`LzmaDec_TryDummy` looked before. -/
def decodeAt (p : LzmaDec) (fuel dicLimit : ℕ) (src : ByteMemory)
    (pos bufLimit seen : ℕ) : Except LzmaStop (LzmaDec ⊕ DicEnd) :=
  match decodeReal2 src dicLimit bufLimit fuel
      { p with coder := { p.coder with pos := pos } } with
  | .ok p => .ok (.inl p)
  | .error (.data q) =>
      .ok (.inr ⟨.errorData, .notSpecified, q, max seen q.coder.pos⟩)
  | .error e => .error e

/-- One round of `LzmaDec_DecodeToDic` on a decoder that is ready: the decoder and
the position for the next round, or what the call returns. -/
def dicRound (p : LzmaDec) (fuel dicLimit : ℕ) (src : ByteMemory) (pos n : ℕ) :
    Except LzmaStop ((LzmaDec × ℕ) ⊕ DicEnd) :=
  if p.tempBuf = [] then
    if n - pos < lzmaRequiredInputMax then
      match p.tryDummy src pos n with
      | .error _ =>
          .ok (.inr ⟨.ok, .needsMoreInput,
            { p with tempBuf := src.bytesAt pos (n - pos) }, n⟩)
      | .ok (.error _, _) => .error .outside
      | .ok (.ok _, c) => do
          let r ← p.decodeAt fuel dicLimit src pos pos c.pos
          .ok (r.map (fun q => (q, q.coder.pos)) id)
    else do
      let r ← p.decodeAt fuel dicLimit src pos (n - lzmaRequiredInputMax) pos
      .ok (r.map (fun q => (q, q.coder.pos)) id)
  else
    let got := p.fillTempBuf src pos n lzmaRequiredInputMax
    let p := { p with tempBuf := p.tempBuf ++ got }
    let rem := p.tempBuf.length
    let buf : ByteMemory := fun i => p.tempBuf.getD i 0
    let decode : Except LzmaStop ((LzmaDec × ℕ) ⊕ DicEnd) := do
      let r ← p.decodeAt fuel dicLimit buf 0 0 0
      .ok (r.map
        (fun q => ({ q with tempBuf := [] },
          pos + sub32 got.length (sub32 rem q.coder.pos)))
        fun e => { e with read := pos + got.length })
    if rem < lzmaRequiredInputMax then
      match p.tryDummy buf 0 rem with
      | .error _ => .ok (.inr ⟨.ok, .needsMoreInput, p, pos + got.length⟩)
      | .ok (.error _, _) => .error .outside
      | .ok (.ok _, _) => decode
    else decode

/-- The loop of `LzmaDec_DecodeToDic`, for `LZMA_FINISH_ANY`. -/
def decodeLoop (dicLimit : ℕ) (src : ByteMemory) (n : ℕ) :
    ℕ → LzmaDec → ℕ → Except LzmaStop DicEnd
  | 0, _, _ => .error .outOfFuel
  | fuel + 1, p, pos =>
      if p.remainLen = kMatchSpecLenStart then
        if p.coder.code = 0 then .ok ⟨.ok, .finishedWithMark, p, pos⟩
        else .ok ⟨.errorData, .notSpecified, p, pos⟩
      else
        match p.prepare dicLimit src pos n with
        | .error e => .ok e
        | .ok (p, pos) => do
            match ← p.dicRound (fuel + 1) dicLimit src pos n with
            | .inl (p, pos) => decodeLoop dicLimit src n fuel p pos
            | .inr e => .ok e

def decodeToDic (p : LzmaDec) (fuel dicLimit : ℕ) (src : ByteMemory) (n : ℕ) :
    Except LzmaStop DicEnd := do
  let p ← p.writeRem dicLimit
  decodeLoop dicLimit src n fuel p 0

/-- A decoder after `LzmaDec_Init`, with a buffer that holds `dirty`. -/
def init (prop : LzmaProps) (dicBufSize : ℕ) (dirty : ByteMemory) : LzmaDec where
  prop := prop
  probs := fun _ => .half
  dic := dirty
  dicBufSize := dicBufSize
  dicPos := 0
  coder := ⟨0, 0, 0⟩
  processedPos := 0
  checkDicSize := 0
  state := 0
  rep0 := 0
  rep1 := 0
  rep2 := 0
  rep3 := 0
  remainLen := 0
  needFlush := true
  needInitState := true
  tempBuf := []

end LzmaDec

/-- What `LzmaProps_Decode` makes of any bytes. -/
structure ValidProps (prop : LzmaProps) : Prop where
  lc : prop.lc ≤ 8
  lp : prop.lp ≤ 4
  pb : prop.pb ≤ 4
  dicSize : prop.dicSize < 2 ^ 32

instance (prop : LzmaProps) : Decidable (ValidProps prop) :=
  decidable_of_iff (prop.lc ≤ 8 ∧ prop.lp ≤ 4 ∧ prop.pb ≤ 4 ∧ prop.dicSize < 2 ^ 32)
    ⟨fun h => ⟨h.1, h.2.1, h.2.2.1, h.2.2.2⟩,
      fun h => ⟨h.lc, h.lp, h.pb, h.dicSize⟩⟩

/-- The decompressor with this decoder.  It is only called with properties that
were decoded, and the limit is a `size_t`. -/
def lzmaLib (malloc : ℕ → Bool) (dirty : ByteMemory) : LzmaLib where
  malloc := malloc
  decodeToDic prop dicLimit src n :=
    if ValidProps prop ∧ dicLimit < 2 ^ 64 then
      match (LzmaDec.init prop dicLimit dirty).decodeToDic (dicLimit + 3) dicLimit src n
      with
      | .ok e => ⟨e.res, e.status, e.dec.dic.bytesAt 0 e.dec.dicPos, e.read⟩
      | .error _ => ⟨.errorData, .notSpecified, [], n⟩
    else ⟨.errorUnsupported, .notSpecified, [], n⟩

end Lzma

end PongoOS
