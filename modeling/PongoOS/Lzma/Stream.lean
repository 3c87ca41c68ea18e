import PongoOS.Lzma.Bounds

/-!
# Calls of the LZMA decoder

A call for a buffer that starts with a new decoder stays inside of the buffer and
of the input, and it returns: every round writes a byte, or it finds the end
mark.
-/

namespace PongoOS

open RangeCoder BitTree

namespace Lzma

namespace LzmaDec

variable {p : LzmaDec} {src : ByteMemory} {limit bufLimit bound fuel : ℕ}

/-! ## The rest of a match -/

theorem writeRemFrom_result {n : ℕ} (hrep : 0 < p.rep0) (hle : p.rep0 ≤ p.dicPos)
    (hroom : p.dicPos + n ≤ p.dicBufSize) (hword : p.dicBufSize < 2 ^ 64) :
    ∃ dic, writeRemFrom n p = .ok { p with dic := dic, dicPos := p.dicPos + n } ∧
      ∀ i < p.dicPos, dic i = p.dic i := by
  induction n generalizing p with
  | zero => exact ⟨p.dic, rfl, fun _ _ => rfl⟩
  | succ n ih =>
      have hpos : p.repPos = p.dicPos - p.rep0 := repPos_of_le hle (by omega)
      obtain ⟨dic, hrest, hbelow⟩ := ih
        (p := { p with
          dic := Function.update p.dic p.dicPos (p.dic p.repPos)
          dicPos := p.dicPos + 1 })
        hrep (Nat.le_succ_of_le hle) (by dsimp only; omega) hword
      refine ⟨dic, ?_, fun i hi => (hbelow i (Nat.lt_succ_of_lt hi)).trans
        (update_below hi)⟩
      rw [writeRemFrom, if_pos (by omega), hrest]
      dsimp only
      rw [Nat.add_assoc, Nat.add_comm 1 n]

/-- The rest of a match is written up to the limit. -/
structure Rest (p : LzmaDec) (limit : ℕ) (q : LzmaDec) : Prop where
  continues : p.Extends q
  state : q.state = p.state
  inDic : q.InDic
  le : q.dicPos ≤ limit
  coder : q.coder = p.coder
  same : kMatchSpecLenStart ≤ p.remainLen → q.remainLen = p.remainLen

theorem writeRem_result (h : p.InDic) (hp : p.Indexed) (hle : p.dicPos ≤ limit)
    (hsize : limit ≤ p.dicBufSize) : ∃ q, p.writeRem limit = .ok q ∧ p.Rest limit q := by
  have hword := h.size
  unfold writeRem
  by_cases hrest : p.remainLen ≠ 0 ∧ p.remainLen < kMatchSpecLenStart
  · rw [if_pos hrest, sub64_of_le hle (by omega)]
    have hstart := h.remain hrest.1 hrest.2
    generalize hlen : (if limit - p.dicPos < p.remainLen then limit - p.dicPos
      else p.remainLen) = len
    have hroom : p.dicPos + len ≤ limit := by
      rw [← hlen]
      split <;> omega
    have hgrow : p.dicPos ≤ p.dicPos + len := Nat.le_add_right _ _
    have hprocessed := h.processed
    have hprocessed' := h.processed_lt
    have hdicSize := hp.prop.dicSize
    obtain ⟨dic, hwrite, hbelow⟩ := writeRemFrom_result (n := len)
      (p := { p with
        checkDicSize :=
          if p.checkDicSize = 0 ∧ sub32 p.prop.dicSize p.processedPos ≤ len then
            p.prop.dicSize
          else p.checkDicSize
        processedPos := (p.processedPos + len) % 2 ^ 32
        remainLen := p.remainLen - len })
      h.rep0.1 (h.rep0.le hstart) (hroom.trans hsize) hword
    refine ⟨_, hwrite, ⟨rfl, rfl, rfl, rfl, rfl, hgrow, hbelow⟩, rfl, ?_, hroom, rfl,
      fun hend => absurd hrest.2 (Nat.not_lt_of_le hend)⟩
    have hchecked : (if p.checkDicSize = 0 ∧
          sub32 p.prop.dicSize p.processedPos ≤ len then p.prop.dicSize
        else p.checkDicSize) ≤ p.dicPos + len ∧
        (if p.checkDicSize = 0 ∧ sub32 p.prop.dicSize p.processedPos ≤ len then
          p.prop.dicSize else p.checkDicSize) < 2 ^ 32 := by
      by_cases hset : p.checkDicSize = 0 ∧ sub32 p.prop.dicSize p.processedPos ≤ len
      · rw [if_pos hset]
        refine ⟨?_, hdicSize⟩
        rcases Nat.lt_or_ge p.prop.dicSize p.processedPos with hlt | hge
        · omega
        · have hsub := hset.2
          rw [sub32_of_le hge hdicSize] at hsub
          omega
      · rw [if_neg hset]
        exact ⟨h.checked.trans hgrow, h.checked_lt⟩
    exact
      { size := hword
        room := hroom.trans hsize
        processed := (Nat.mod_le _ _).trans (Nat.add_le_add_right hprocessed len)
        processed_lt := Nat.mod_lt _ (Nat.two_pow_pos 32)
        checked := hchecked.1
        checked_lt := hchecked.2
        rep0 := h.rep0.mono hgrow
        rep1 := h.rep1.mono hgrow
        rep2 := h.rep2.mono hgrow
        rep3 := h.rep3.mono hgrow
        matched := fun _ => lt_of_lt_of_le hstart hgrow
        remain := fun _ _ => lt_of_lt_of_le hstart hgrow }
  · rw [if_neg hrest]
    exact ⟨p, rfl, Extends.refl p, rfl, h, hle, rfl, fun _ => rfl⟩

/-! ## Rounds -/

/-- The bytes in front of `bound` are enough for as long as the loop goes on. -/
def Supplied (p : LzmaDec) (src : ByteMemory) (bufLimit bound : ℕ) : Prop :=
  bufLimit + 20 ≤ bound ∧ topValue ≤ p.coder.range ∧ p.coder.pos + 20 ≤ bound ∨
    bufLimit ≤ p.coder.pos ∧ p.coder.pos ≤ bound ∧
      ∃ r, p.tryDummy src p.coder.pos bound = .ok r

theorem Supplied.fits (h : p.Supplied src bufLimit bound) (hr : p.Ready limit)
    (hp : p.Indexed) (hc : p.coder.Valid) : p.Fits src limit bound := by
  rcases h with ⟨-, hlower, hbound⟩ | ⟨-, hbound, r, htry⟩
  · exact (symbolRun_round hr hp hc).fits (.inr ⟨hlower, hbound⟩)
  · exact fits_of_tryDummy hp hbound rfl htry

theorem Supplied.loop (h : p.Supplied src bufLimit bound) :
    bufLimit + 20 ≤ bound ∨ bufLimit ≤ p.coder.pos :=
  h.imp (fun h => h.1) fun h => h.1

theorem roundLimit_between (h : p.InDic) (hlt : p.dicPos < limit)
    (hsize : limit ≤ p.dicBufSize) :
    p.dicPos ≤ p.roundLimit limit ∧ p.roundLimit limit ≤ limit := by
  have hword := h.size
  unfold roundLimit
  rw [sub64_of_le (Nat.le_of_lt hlt) (by omega)]
  dsimp only
  split <;> omega

/-- Nothing remains of a match when a round starts. -/
theorem InDic.roundReady (h : p.InDic) (hlt : p.dicPos < limit)
    (hsize : limit ≤ p.dicBufSize) :
    { p with remainLen := 0 }.Ready (p.roundLimit limit) := by
  obtain ⟨hge, hle⟩ := roundLimit_between h hlt hsize
  exact ⟨{ h with remain := fun hne => absurd rfl hne }, lt_of_lt_of_le hlt hsize, hge,
    hle.trans hsize⟩

theorem InDic.checkSize (h : p.InDic) : p.checkSize.InDic := by
  have hprocessed := h.processed
  have hprocessed' := h.processed_lt
  refine { h with checked := ?_, checked_lt := ?_ }
  · change (if p.prop.dicSize ≤ p.processedPos then p.prop.dicSize
      else p.checkDicSize) ≤ p.dicPos
    split
    · omega
    · exact h.checked
  · change (if p.prop.dicSize ≤ p.processedPos then p.prop.dicSize
      else p.checkDicSize) < 2 ^ 32
    split
    · omega
    · exact h.checked_lt

/-- The symbols of a round. -/
theorem roundSymbols_within (h : p.InDic) (hp : p.Indexed) (hc : p.coder.Valid)
    (hlt : p.dicPos < limit) (hsize : limit ≤ p.dicBufSize)
    (hfuel : limit - p.dicPos < fuel) (hbytes : p.Supplied src bufLimit bound) :
    p.Within limit bound
      (decodeReal src (p.roundLimit limit) bufLimit fuel { p with remainLen := 0 }) := by
  have hready := h.roundReady hlt hsize
  have hle := (roundLimit_between h hlt hsize).2
  have hmax : max (p.roundLimit limit) (p.dicPos + 1) ≤ max limit (p.dicPos + 1) :=
    max_le_max_right _ hle
  have hidx : { p with remainLen := 0 }.Indexed := ⟨hp.state, hp.prop⟩
  have hsupplied : { p with remainLen := 0 }.Supplied src bufLimit bound := hbytes
  have hsteps : p.roundLimit limit - p.dicPos < fuel := by omega
  have hwithin := decodeReal_within hready hidx hc hsteps hsupplied.loop
    (hsupplied.fits hready hidx hc)
  generalize decodeReal src (p.roundLimit limit) bufLimit fuel _ = r at *
  match r, hwithin with
  | .error (.data q), hfailed =>
      have hext := hfailed.continues
      exact ⟨⟨hext.prop, hext.dicBufSize, hext.needFlush, hext.needInitState,
        hext.tempBuf, hext.dicPos, hext.dic⟩, hfailed.inDic, hfailed.pos_le,
        hfailed.bound, hfailed.le.trans hmax⟩
  | .ok q, hdone =>
      have hext := hdone.continues
      exact ⟨⟨hext.prop, hext.dicBufSize, hext.needFlush, hext.needInitState,
        hext.tempBuf, hext.dicPos, hext.dic⟩, hdone.indexed, hdone.inDic, hdone.valid,
        hdone.normal, hdone.pos_le, hdone.bound, hdone.le.trans hmax, hdone.moved⟩

/-- What is written behind the symbols of a round. -/
theorem Advanced.writeRem {q : LzmaDec} (h : p.Advanced limit bound q)
    (hlt : p.dicPos < limit) (hsize : limit ≤ p.dicBufSize) :
    ∃ r, q.checkSize.writeRem limit = .ok r ∧ q.checkSize.Rest limit r := by
  rw [← h.continues.dicBufSize] at hsize
  exact writeRem_result h.inDic.checkSize ⟨h.indexed.state, h.indexed.prop⟩
    (h.le.trans (max_le le_rfl hlt)) hsize

theorem decodeRound_within (h : p.InDic) (hp : p.Indexed) (hc : p.coder.Valid)
    (hlt : p.dicPos < limit) (hsize : limit ≤ p.dicBufSize)
    (hfuel : limit - p.dicPos < fuel) (hbytes : p.Supplied src bufLimit bound) :
    p.Within limit bound (p.decodeRound fuel src limit bufLimit) := by
  have hwithin := roundSymbols_within h hp hc hlt hsize hfuel hbytes
  unfold decodeRound
  generalize decodeReal src (p.roundLimit limit) bufLimit fuel _ = r at *
  match r, hwithin with
  | .error (.data q), hfailed => exact hfailed
  | .ok q, hdone =>
      obtain ⟨q', hrem, hrest⟩ := hdone.writeRem hlt hsize
      rw [except_ok_bind, hrem]
      have hext : p.Extends q' := hdone.continues.trans
        ⟨hrest.continues.prop, hrest.continues.dicBufSize, hrest.continues.needFlush,
          hrest.continues.needInitState, hrest.continues.tempBuf,
          hrest.continues.dicPos, hrest.continues.dic⟩
      refine
        { continues := hext
          indexed := ⟨hrest.state ▸ hdone.indexed.state,
            hrest.continues.prop ▸ hdone.indexed.prop⟩
          inDic := hrest.inDic
          valid := hrest.coder ▸ hdone.valid
          normal := hrest.coder ▸ hdone.normal
          pos_le := hrest.coder ▸ hdone.pos_le
          bound := hrest.coder ▸ hdone.bound
          le := hrest.le.trans (le_max_left _ _)
          moved := ?_ }
      rcases hdone.moved with hmoved | hend
      · exact .inl (lt_of_lt_of_le hmoved hrest.continues.dicPos)
      · exact .inr (by rw [hrest.same hend]; exact hend)

/-- What `LzmaDec_DecodeReal2` leaves, where the end mark is told exactly. -/
def Stepped (p : LzmaDec) (limit bound : ℕ) : Except LzmaStop LzmaDec → Prop
  | .ok q => p.Advanced limit bound q ∧
      (p.dicPos < q.dicPos ∨ q.remainLen = kMatchSpecLenStart)
  | .error (.data q) => p.Failed limit bound q
  | .error _ => False

theorem Advanced.supplied {q : LzmaDec} (h : p.Advanced limit bound q)
    (hbytes : p.Supplied src bufLimit bound) (hmore : q.coder.pos < bufLimit) :
    q.Supplied src bufLimit bound := by
  have hpos := h.pos_le
  rcases hbytes with ⟨hbuf, -, -⟩ | ⟨hbuf, -, -⟩
  · exact .inl ⟨hbuf, h.normal, by omega⟩
  · omega

theorem Stepped.trans {q : LzmaDec} {r : Except LzmaStop LzmaDec}
    (hq : p.Advanced limit bound q) (hlt : p.dicPos < q.dicPos)
    (hfree : q.dicPos < limit) (h : q.Stepped limit bound r) :
    p.Stepped limit bound r := by
  match r, h with
  | .ok r, ⟨h, _⟩ =>
      exact ⟨Within.trans (r := .ok r) hq.continues hq.pos_le hlt hfree h,
        .inl (lt_of_lt_of_le hlt h.continues.dicPos)⟩
  | .error (.data r), h =>
      exact Within.trans (r := .error (.data r)) hq.continues hq.pos_le hlt hfree h

theorem decodeReal2_stepped (h : p.InDic) (hp : p.Indexed) (hc : p.coder.Valid)
    (hlt : p.dicPos < limit) (hsize : limit ≤ p.dicBufSize)
    (hfuel : limit - p.dicPos < fuel) (hbytes : p.Supplied src bufLimit bound) :
    p.Stepped limit bound (decodeReal2 src limit bufLimit fuel p) := by
  induction fuel generalizing p with
  | zero => omega
  | succ fuel ih =>
      have hround := decodeRound_within h hp hc hlt hsize hfuel hbytes
      rw [decodeReal2]
      generalize p.decodeRound (fuel + 1) src limit bufLimit = r at *
      match r, hround with
      | .error (.data q), hfailed => exact hfailed
      | .ok q, hdone =>
          rw [except_ok_bind]
          have hmark : ¬ q.remainLen < kMatchSpecLenStart →
              kMatchSpecLenStart ≤ q.remainLen := Nat.le_of_not_lt
          by_cases hgo : q.dicPos < limit ∧ q.coder.pos < bufLimit ∧
              q.remainLen < kMatchSpecLenStart
          · rw [if_pos hgo]
            have hmoved : p.dicPos < q.dicPos :=
              hdone.moved.resolve_right (Nat.not_le_of_lt hgo.2.2)
            have hsize' : limit ≤ q.dicBufSize := by
              rw [hdone.continues.dicBufSize]
              exact hsize
            exact (ih hdone.inDic hdone.indexed hdone.valid hgo.1 hsize' (by omega)
              (hdone.supplied hbytes hgo.2.1)).trans hdone hmoved hgo.1
          · rw [if_neg hgo]
            by_cases hbeyond : kMatchSpecLenStart < q.remainLen
            · rw [if_pos hbeyond]
              have hclamped : p.Advanced limit bound
                  { q with remainLen := kMatchSpecLenStart } :=
                { continues := ⟨hdone.continues.prop, hdone.continues.dicBufSize,
                    hdone.continues.needFlush, hdone.continues.needInitState,
                    hdone.continues.tempBuf, hdone.continues.dicPos,
                    hdone.continues.dic⟩
                  indexed := ⟨hdone.indexed.state, hdone.indexed.prop⟩
                  inDic := { hdone.inDic with
                    remain := fun _ hrem => absurd hrem (Nat.lt_irrefl _) }
                  valid := hdone.valid
                  normal := hdone.normal
                  pos_le := hdone.pos_le
                  bound := hdone.bound
                  le := hdone.le
                  moved := .inr le_rfl }
              exact ⟨hclamped, .inr rfl⟩
            · rw [if_neg hbeyond]
              refine ⟨hdone, hdone.moved.imp_right fun hle => ?_⟩
              omega

/-! ## The trial -/

end LzmaDec

section Parts

variable {ε : Type}

theorem dummyReverse_ok (prob n i : ℕ) :
    (dummyReverse prob n i : BitTree ε Unit).Sat (Ok fun _ _ _ => True) := by
  induction n generalizing i with
  | zero => exact ⟨(), rfl, trivial⟩
  | succ n ih => exact sat_bit.mpr fun b => ih _

theorem dummyDirect_ok (n : ℕ) :
    (dummyDirect n : BitTree ε Unit).Sat (Ok fun _ _ _ => True) := by
  induction n with
  | zero => exact ⟨(), rfl, trivial⟩
  | succ n ih => exact sat_directBit.mpr fun b => ih

theorem dummyDistance_ok (len : ℕ) :
    (dummyDistance len : BitTree ε Unit).Sat (Ok fun _ _ _ => True) := by
  unfold dummyDistance
  refine Sat.bind_ok (tree_sat _ _) fun slot _ _ _ => ?_
  by_cases hshort : slot < kStartPosModelIndex
  · rw [if_pos hshort]
    exact ⟨(), rfl, trivial⟩
  rw [if_neg hshort]
  dsimp only
  by_cases hspec : slot < kEndPosModelIndex
  · rw [if_pos hspec]
    exact dummyReverse_ok _ _ _
  · rw [if_neg hspec]
    exact Sat.bind_ok (dummyDirect_ok _) fun _ _ _ _ => dummyReverse_ok _ _ _

end Parts

namespace LzmaDec

variable {p : LzmaDec} {src : ByteMemory} {limit fuel pos n : ℕ}

theorem dummyRep_ok : p.dummyRep.Sat (Ok fun _ _ _ => True) := by
  unfold dummyRep
  refine sat_bit.mpr fun g0 => ?_
  cases g0 with
  | false => exact fun long => ⟨long, rfl, trivial⟩
  | true =>
      refine sat_bit.mpr fun g1 => ?_
      cases g1 with
      | false => exact ⟨true, rfl, trivial⟩
      | true => exact sat_bit.mpr fun g2 => ⟨true, rfl, trivial⟩

theorem dummy_ok (h : p.Ready limit) (hp : p.Indexed) :
    p.dummy.Sat (Ok fun _ _ _ => True) := by
  unfold dummy
  refine sat_bit.mpr fun matched => ?_
  cases matched with
  | false =>
      exact Sat.bind_ok (literalSymbol_result h) fun _ _ _ _ => ⟨_, rfl, trivial⟩
  | true =>
      refine sat_bit.mpr fun rep => ?_
      cases rep with
      | false =>
          refine Sat.bind_ok (decodeLen_sat hp.posState_lt) fun len _ _ _ => ?_
          exact Sat.bind_ok (dummyDistance_ok len) fun _ _ _ _ => ⟨_, rfl, trivial⟩
      | true =>
          refine Sat.bind_ok dummyRep_ok fun long _ _ _ => ?_
          cases long with
          | false => exact ⟨_, rfl, trivial⟩
          | true =>
              exact Sat.bind_ok (decodeLen_sat hp.posState_lt) fun _ _ _ _ =>
                ⟨_, rfl, trivial⟩

theorem tryDummy_result {r : Except SymbolStop Dummy × Coder} (h : p.Ready limit)
    (hp : p.Indexed) (hpos : pos ≤ n) (htry : p.tryDummy src pos n = .ok r) :
    (∃ a, r.1 = .ok a) ∧ r.2.pos ≤ n := by
  unfold tryDummy at htry
  rw [except_bind_eq_ok] at htry
  obtain ⟨⟨result, c⟩, hcheck, htry⟩ := htry
  rw [except_bind_eq_ok] at htry
  obtain ⟨c', hn, hr⟩ := htry
  cases hr
  obtain ⟨hle, -, -, a, ha, -⟩ := (dummy_ok h hp).check (c := { p.coder with pos := pos })
    hpos hcheck
  exact ⟨⟨a, ha⟩, (checkedNormalize_ok hn).2 hle⟩

/-! ## Calls -/

/-- Where the bytes of symbols start. -/
def start (p : LzmaDec) (pos n : ℕ) : ℕ :=
  if p.needFlush then min (pos + rcInitSize) n else pos

/-- A decoder between the rounds of a call, with `pos` of `n` bytes read. -/
structure Waiting (p : LzmaDec) (limit pos n : ℕ) : Prop where
  tempBuf : p.tempBuf = []
  size : p.dicBufSize = limit
  le : p.dicPos ≤ limit
  pos_le : pos ≤ n
  inDic : (if p.needInitState then p.initStateReal else p).InDic
  indexed : (if p.needInitState then p.initStateReal else p).Indexed
  valid : p.needFlush = false → p.coder.Valid ∧ topValue ≤ p.coder.range
  marked : p.remainLen = kMatchSpecLenStart → p.needFlush = false

/-- A decoder that is ready for symbols. -/
structure Prepared (p : LzmaDec) (limit pos n : ℕ) : Prop where
  tempBuf : p.tempBuf = []
  flushed : p.needFlush = false
  initialized : p.needInitState = false
  size : p.dicBufSize = limit
  free : p.dicPos < limit
  pos_le : pos ≤ n
  inDic : p.InDic
  indexed : p.Indexed
  valid : p.coder.Valid
  normal : topValue ≤ p.coder.range

theorem Prepared.ready (h : p.Prepared limit pos n) : p.Ready limit :=
  ⟨h.inDic, h.size ▸ h.free, Nat.le_of_lt h.free, h.size ▸ le_rfl⟩

/-- What a call may return: the output ends in front of the limit, and the input
was not left. -/
structure Returned (p : LzmaDec) (limit pos n : ℕ) (e : DicEnd) : Prop where
  le : e.dec.dicPos ≤ limit
  start_le : p.start pos n ≤ e.read
  read_le : e.read ≤ n

/-- The first bytes are those of the range coder. -/
theorem Waiting.flush (h : p.Waiting limit pos n) (hflush : p.needFlush = true)
    (src : ByteMemory) :
    (p.tempBuf ++ p.fillTempBuf src pos n rcInitSize).length =
      min rcInitSize (n - pos) ∧
    pos + (p.fillTempBuf src pos n rcInitSize).length = p.start pos n := by
  have hpos := h.pos_le
  have hlength : (p.fillTempBuf src pos n rcInitSize).length =
      min rcInitSize (n - pos) := by
    rw [fillTempBuf, h.tempBuf, ByteMemory.length_bytesAt]
    rfl
  refine ⟨?_, ?_⟩
  · rw [h.tempBuf, List.nil_append, hlength]
  · rw [hlength, start, if_pos hflush]
    omega

theorem bigEndian_lt {bs : List UInt8} : bigEndian bs < 256 ^ bs.length := by
  have hreverse := littleEndian_lt bs.reverse
  rwa [List.length_reverse] at hreverse

/-- What `prepare` leads to. -/
def PrepareEnd (p : LzmaDec) (limit pos n : ℕ) :
    Except DicEnd (LzmaDec × ℕ) → Prop
  | .ok (q, pos') => q.Prepared limit pos' n ∧ q.dicPos = p.dicPos ∧
      q.remainLen = p.remainLen ∧ pos' = p.start pos n
  | .error e => p.Returned limit pos n e

/-- The rest of `prepare`, from the comparison with the limit on. -/
theorem prepareEnd_flushed {q : LzmaDec} {pos' : ℕ} (hq : q.Waiting limit pos' n)
    (hflushed : q.needFlush = false) (hdic : q.dicPos = p.dicPos)
    (hrem : q.remainLen = p.remainLen) (hstart : pos' = p.start pos n) :
    p.PrepareEnd limit pos n
      (if limit ≤ q.dicPos then
        if q.remainLen = 0 ∧ q.coder.code = 0 then
          .error ⟨.ok, .maybeFinishedWithoutMark, q, pos'⟩
        else .error ⟨.ok, .notFinished, q, pos'⟩
      else .ok (if q.needInitState then q.initStateReal else q, pos')) := by
  have hreturned : ∀ status, p.Returned limit pos n ⟨.ok, status, q, pos'⟩ :=
    fun _ => ⟨hq.le, Nat.le_of_eq hstart.symm, hq.pos_le⟩
  by_cases hfull : limit ≤ q.dicPos
  · rw [if_pos hfull]
    split
    · exact hreturned _
    · exact hreturned _
  · rw [if_neg hfull]
    have hvalid := hq.valid hflushed
    have hfree := Nat.lt_of_not_le hfull
    have hinDic := hq.inDic
    have hindexed := hq.indexed
    cases hinit : q.needInitState with
    | true =>
        rw [hinit, if_pos rfl] at hinDic hindexed
        rw [if_pos rfl]
        exact ⟨⟨hq.tempBuf, hflushed, rfl, hq.size, hfree, hq.pos_le, hinDic, hindexed,
          hvalid.1, hvalid.2⟩, hdic, hrem, hstart⟩
    | false =>
        rw [hinit, if_neg Bool.false_ne_true] at hinDic hindexed
        rw [if_neg Bool.false_ne_true]
        exact ⟨⟨hq.tempBuf, hflushed, hinit, hq.size, hfree, hq.pos_le, hinDic, hindexed,
          hvalid.1, hvalid.2⟩, hdic, hrem, hstart⟩

/-- The input is no part of what is known of the dictionary either. -/
theorem InDic.withInput (h : p.InDic) (coder : Coder) (needFlush needInitState : Bool)
    (tempBuf : List UInt8) :
    { p with
      coder := coder
      needFlush := needFlush
      needInitState := needInitState
      tempBuf := tempBuf }.InDic :=
  ⟨h.size, h.room, h.processed, h.processed_lt, h.checked, h.checked_lt, h.rep0,
    h.rep1, h.rep2, h.rep3, h.matched, h.remain⟩

theorem Waiting.initRc {bs : List UInt8} {pos' : ℕ} (h : p.Waiting limit pos n)
    (hbs : bs.length ≤ rcInitSize) (hpos' : pos' ≤ n) :
    { p with tempBuf := bs }.initRc.Waiting limit pos' n := by
  have hinDic := h.inDic
  have hindexed := h.indexed
  have hcode : bigEndian (bs.drop 1) < 2 ^ 32 := by
    refine bigEndian_lt.trans_le ?_
    rw [List.length_drop]
    exact (Nat.pow_le_pow_right (by decide) (Nat.sub_le_sub_right hbs 1)).trans
      (by decide)
  have hvalid : Coder.Valid ⟨0xffffffff, bigEndian (bs.drop 1), p.coder.pos⟩ :=
    ⟨by unfold minRange; norm_num, by norm_num, hcode⟩
  have hnormal : topValue ≤ 0xffffffff := by unfold topValue; norm_num
  refine ⟨rfl, h.size, h.le, hpos', ?_, ?_, fun _ => ⟨hvalid, hnormal⟩, fun _ => rfl⟩
  · unfold LzmaDec.initRc
    dsimp only
    cases hinit : p.needInitState with
    | true =>
        rw [hinit, if_pos rfl] at hinDic
        rw [if_pos rfl]
        exact hinDic.withInput _ _ _ _
    | false =>
        rw [hinit, if_neg Bool.false_ne_true] at hinDic
        rw [if_neg Bool.false_ne_true]
        exact hinDic.withInput _ _ _ _
  · unfold LzmaDec.initRc
    dsimp only
    cases hinit : p.needInitState with
    | true =>
        rw [hinit, if_pos rfl] at hindexed
        rw [if_pos rfl]
        exact ⟨hindexed.state, hindexed.prop⟩
    | false =>
        rw [hinit, if_neg Bool.false_ne_true] at hindexed
        rw [if_neg Bool.false_ne_true]
        exact ⟨hindexed.state, hindexed.prop⟩

theorem prepare_result (h : p.Waiting limit pos n) :
    p.PrepareEnd limit pos n (p.prepare limit src pos n) := by
  unfold prepare
  cases hflush : p.needFlush with
  | false =>
      rw [if_neg Bool.false_ne_true, except_ok_bind]
      exact prepareEnd_flushed h hflush rfl rfl (by rw [start, hflush]; rfl)
  | true =>
      obtain ⟨hlength, hstart⟩ := h.flush hflush src
      have hle : p.start pos n ≤ n := by
        rw [start, if_pos hflush]
        exact min_le_right _ _
      rw [if_pos rfl]
      dsimp only
      rw [hstart]
      by_cases hshort :
          (p.tempBuf ++ p.fillTempBuf src pos n rcInitSize).length < rcInitSize
      · rw [if_pos hshort]
        exact ⟨h.le, le_rfl, hle⟩
      rw [if_neg hshort]
      by_cases hfirst : (p.tempBuf ++ p.fillTempBuf src pos n rcInitSize).head? ≠ some 0
      · rw [if_pos hfirst]
        exact ⟨h.le, le_rfl, hle⟩
      · rw [if_neg hfirst, except_ok_bind]
        have hbytes : (p.tempBuf ++ p.fillTempBuf src pos n rcInitSize).length ≤
            rcInitSize := hlength ▸ min_le_left _ _
        exact prepareEnd_flushed (h.initRc hbytes hle) rfl rfl rfl rfl

/-- What a round leads to. -/
def RoundEnd (p : LzmaDec) (limit pos n : ℕ) :
    Except LzmaStop ((LzmaDec × ℕ) ⊕ DicEnd) → Prop
  | .ok (.inl (q, pos')) => q.Waiting limit pos' n ∧ q.needFlush = false ∧ pos ≤ pos' ∧
      (p.dicPos < q.dicPos ∨ q.remainLen = kMatchSpecLenStart)
  | .ok (.inr e) => p.Returned limit pos n e
  | .error _ => False

theorem Prepared.start (h : p.Prepared limit pos n) : p.start pos n = pos := by
  rw [LzmaDec.start, h.flushed, if_neg Bool.false_ne_true]

theorem decodeAt_result {bufLimit seen : ℕ} (h : p.Prepared limit pos n)
    (hfuel : limit - p.dicPos < fuel) (hseen : seen ≤ n)
    (hbytes : { p with coder := { p.coder with pos := pos } }.Supplied src bufLimit n) :
    p.RoundEnd limit pos n
      ((fun r : LzmaDec ⊕ DicEnd => r.map (fun q => (q, q.coder.pos)) id) <$>
        p.decodeAt fuel limit src pos bufLimit seen) := by
  have hvalid := h.valid
  have hstepped := decodeReal2_stepped
    (h.inDic.withInput { p.coder with pos := pos } p.needFlush p.needInitState p.tempBuf)
    ⟨h.indexed.state, h.indexed.prop⟩ ⟨hvalid.lower, hvalid.upper, hvalid.code⟩ h.free
    (Nat.le_of_eq h.size.symm) hfuel hbytes
  have hmax : max limit (p.dicPos + 1) ≤ limit := max_le le_rfl h.free
  unfold decodeAt
  generalize decodeReal2 src limit bufLimit fuel _ = r at *
  match r, hstepped with
  | .ok q, ⟨hdone, hmoved⟩ =>
      have hcontinues := hdone.continues
      have hinit : q.needInitState = false :=
        hcontinues.needInitState.trans h.initialized
      have hflushed : q.needFlush = false := hcontinues.needFlush.trans h.flushed
      refine ⟨⟨hcontinues.tempBuf.trans h.tempBuf, hcontinues.dicBufSize.trans h.size,
        hdone.le.trans hmax, hdone.bound, ?_, ?_, fun _ => ⟨hdone.valid, hdone.normal⟩,
        fun _ => hflushed⟩, hflushed, hdone.pos_le, hmoved⟩
      · rw [hinit, if_neg Bool.false_ne_true]
        exact hdone.inDic
      · rw [hinit, if_neg Bool.false_ne_true]
        exact hdone.indexed
  | .error (.data q), hfailed =>
      exact ⟨hfailed.le.trans hmax,
        h.start.le.trans (hfailed.pos_le.trans (le_max_right _ _)),
        max_le hseen hfailed.bound⟩

theorem Prepared.dicRound_result (h : p.Prepared limit pos n) (src : ByteMemory)
    (hfuel : limit - p.dicPos < fuel) :
    p.RoundEnd limit pos n (p.dicRound fuel limit src pos n) := by
  have hpos := h.pos_le
  unfold dicRound
  rw [if_pos h.tempBuf]
  by_cases hshort : n - pos < lzmaRequiredInputMax
  · rw [if_pos hshort]
    cases htry : p.tryDummy src pos n with
    | error c => exact ⟨Nat.le_of_lt h.free, h.start.le.trans hpos, le_rfl⟩
    | ok r =>
        obtain ⟨⟨a, ha⟩, hle⟩ := tryDummy_result h.ready h.indexed hpos htry
        obtain ⟨result, c⟩ := r
        dsimp only at ha hle
        subst ha
        exact decodeAt_result h hfuel hle (.inr ⟨le_rfl, hpos, _, htry⟩)
  · rw [if_neg hshort]
    unfold lzmaRequiredInputMax at hshort ⊢
    exact decodeAt_result h hfuel hpos
      (.inl ⟨by omega, h.normal, by dsimp only; omega⟩)

/-- A call returns, since every round writes a byte or finds the end mark. -/
theorem Waiting.decodeLoop_result (h : p.Waiting limit pos n) (src : ByteMemory)
    (hfuel : limit - p.dicPos + 1 < fuel ∨
      p.remainLen = kMatchSpecLenStart ∧ 0 < fuel) :
    ∃ e, decodeLoop limit src n fuel p pos = .ok e ∧ p.Returned limit pos n e := by
  induction fuel generalizing p pos with
  | zero => omega
  | succ fuel ih =>
      rw [decodeLoop]
      by_cases hmark : p.remainLen = kMatchSpecLenStart
      · have hstart : p.start pos n = pos := by
          rw [LzmaDec.start, h.marked hmark, if_neg Bool.false_ne_true]
        rw [if_pos hmark]
        by_cases hcode : p.coder.code = 0
        · rw [if_pos hcode]
          exact ⟨_, rfl, h.le, hstart.le, h.pos_le⟩
        · rw [if_neg hcode]
          exact ⟨_, rfl, h.le, hstart.le, h.pos_le⟩
      rw [if_neg hmark]
      have hprepare : p.PrepareEnd limit pos n (p.prepare limit src pos n) :=
        prepare_result h
      generalize p.prepare limit src pos n = r at *
      match r, hprepare with
      | .error e, hreturned => exact ⟨e, rfl, hreturned⟩
      | .ok (q, pos'), ⟨hready, hdic, _, hstart⟩ =>
          have hround : q.RoundEnd limit pos' n
              (q.dicRound (fuel + 1) limit src pos' n) :=
            hready.dicRound_result src (by omega)
          dsimp only
          generalize q.dicRound (fuel + 1) limit src pos' n = r at *
          match r, hround with
          | .ok (.inr e), hreturned =>
              have hread := hreturned.start_le
              rw [hready.start, hstart] at hread
              exact ⟨e, rfl, hreturned.le, hread, hreturned.read_le⟩
          | .ok (.inl (q', pos'')), ⟨hwaiting, hflushed, hpos, hmoved⟩ =>
              have hfree := hready.free
              obtain ⟨e, hloop, hreturned⟩ := ih hwaiting (by omega)
              have hread := hreturned.start_le
              rw [LzmaDec.start, hflushed, if_neg Bool.false_ne_true] at hread
              refine ⟨e, hloop, hreturned.le, ?_, hreturned.read_le⟩
              exact hstart.symm.le.trans (hpos.trans hread)

/-- The decoder as `LzmaDec_Init` leaves it. -/
theorem init_waiting {prop : LzmaProps} {dirty : ByteMemory} (hprop : ValidProps prop)
    (hlimit : limit < 2 ^ 64) : (init prop limit dirty).Waiting limit 0 n where
  tempBuf := rfl
  size := rfl
  le := Nat.zero_le _
  pos_le := Nat.zero_le _
  inDic := by
    have hrep : (init prop limit dirty).initStateReal.Reaching 1 :=
      ⟨Nat.one_pos, le_max_left _ _⟩
    exact
      { size := hlimit
        room := Nat.zero_le _
        processed := le_rfl
        processed_lt := Nat.two_pow_pos 32
        checked := le_rfl
        checked_lt := Nat.two_pow_pos 32
        rep0 := hrep
        rep1 := hrep
        rep2 := hrep
        rep3 := hrep
        matched := fun h => absurd (show kNumLitStates ≤ 0 from h) (by decide)
        remain := fun h => absurd rfl h }
  indexed := ⟨show 0 < kNumStates by decide, hprop⟩
  valid h := by cases h
  marked h := by cases h

/-- Nothing remains of a match yet. -/
theorem decodeToDic_init {prop : LzmaProps} {dirty : ByteMemory} :
    (init prop limit dirty).decodeToDic fuel limit src n =
      decodeLoop limit src n fuel (init prop limit dirty) 0 := by
  rw [decodeToDic, writeRem, if_neg (by rintro ⟨h, -⟩; exact h rfl)]
  rfl

/-- Every call on a new decoder returns.  The dictionary is accessed inside of its
buffer only, and what is read is inside of the input. -/
theorem decodeToDic_result {prop : LzmaProps} (dirty src : ByteMemory) (n : ℕ)
    (hprop : ValidProps prop) (hlimit : limit < 2 ^ 64) (hfuel : limit + 3 ≤ fuel) :
    ∃ e, (init prop limit dirty).decodeToDic fuel limit src n = .ok e ∧
      e.dec.dicPos ≤ limit ∧ min rcInitSize n ≤ e.read ∧ e.read ≤ n := by
  have hwaiting : (init prop limit dirty).Waiting limit 0 n := init_waiting hprop hlimit
  have hsteps : limit - (init prop limit dirty).dicPos + 1 < fuel := by
    dsimp only [init]
    omega
  obtain ⟨e, hloop, hreturned⟩ := hwaiting.decodeLoop_result src (.inl hsteps)
  refine ⟨e, ?_, hreturned.le, ?_, hreturned.read_le⟩
  · rw [decodeToDic_init, hloop]
  · have hread := hreturned.start_le
    rwa [LzmaDec.start, show (init prop limit dirty).needFlush = true from rfl,
      if_pos rfl, Nat.zero_add] at hread

end LzmaDec

end Lzma

end PongoOS
