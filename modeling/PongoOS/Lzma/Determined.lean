import PongoOS.Lzma.Stream

/-!
# The output of the LZMA decoder

What was in the buffer before does not get into the output, and neither do the
bytes behind the input: two decoders that differ in these only do the same.
-/

namespace PongoOS

open RangeCoder BitTree

namespace Lzma

namespace LzmaDec

/-- The decoders differ only in what the dictionary holds behind its position. -/
structure Same (p q : LzmaDec) : Prop where
  eq : q = { p with dic := q.dic }
  dic : ∀ i < p.dicPos, q.dic i = p.dic i

variable {p q : LzmaDec} {dic : ByteMemory} {src src' : ByteMemory}
variable {limit bufLimit bound fuel pos n : ℕ}

theorem same_dic (hdic : ∀ i < p.dicPos, dic i = p.dic i) :
    p.Same { p with dic := dic } :=
  ⟨rfl, hdic⟩

theorem update_same (hdic : ∀ i < p.dicPos, dic i = p.dic i) (b : UInt8) :
    ∀ i < p.dicPos + 1,
      Function.update dic p.dicPos b i = Function.update p.dic p.dicPos b i := by
  intro i hi
  by_cases hlast : i = p.dicPos
  · rw [hlast, Function.update_self, Function.update_self]
  · rw [Function.update_of_ne hlast, Function.update_of_ne hlast]
    exact hdic i (by omega)

/-! ## Symbols -/

theorem dicByte_same (hdic : ∀ i < p.dicPos, dic i = p.dic i) {i : ℕ}
    (hi : i < p.dicPos) : { p with dic := dic }.dicByte i = p.dicByte i := by
  unfold dicByte
  dsimp only
  rw [hdic i hi]

theorem repPos_lt_dicPos (hrep : 0 < p.rep0) (hle : p.rep0 ≤ p.dicPos)
    (hroom : p.dicPos < 2 ^ 64) : p.repPos < p.dicPos := by
  rw [repPos_of_le hle hroom]
  omega

theorem Ready.repPos_lt_pos (h : p.Ready limit) (hstart : 0 < p.dicPos) :
    p.repPos < p.dicPos :=
  repPos_lt_dicPos h.rep0.1 (h.rep0.le hstart) (h.free.trans h.size)

theorem literalSymbol_same (h : p.Ready limit) (hdic : ∀ i < p.dicPos, dic i = p.dic i) :
    { p with dic := dic }.literalSymbol = p.literalSymbol := by
  have hprobs : { p with dic := dic }.literalProbs = p.literalProbs := by
    unfold literalProbs
    dsimp only
    by_cases hsome : p.checkDicSize ≠ 0 ∨ p.processedPos ≠ 0
    · have hstart := h.started hsome
      have hword := h.free.trans h.size
      rw [if_pos hsome, if_pos hsome, if_neg (Nat.ne_of_gt hstart)]
      have hlast : sub64 p.dicPos 1 < p.dicPos := by
        rw [sub64_of_le hstart hword]
        exact Nat.sub_lt hstart Nat.one_pos
      rw [dicByte_same hdic hlast]
    · rw [if_neg hsome, if_neg hsome]
  unfold literalSymbol
  rw [hprobs]
  dsimp only
  by_cases hstate : p.state < kNumLitStates
  · simp only [if_pos hstate]
  · have hmatched := h.matched (Nat.le_of_not_lt hstate)
    have hrepPos : { p with dic := dic }.repPos = p.repPos := rfl
    simp only [if_neg hstate, hrepPos, dicByte_same hdic (h.repPos_lt_pos hmatched)]

theorem dummy_same (h : p.Ready limit) (hdic : ∀ i < p.dicPos, dic i = p.dic i) :
    { p with dic := dic }.dummy = p.dummy := by
  unfold dummy
  rw [literalSymbol_same h hdic]
  rfl

theorem putByte_alike (hdic : ∀ i < p.dicPos, dic i = p.dic i) (b : UInt8) :
    (p.putByte b).Alike Same ({ p with dic := dic }.putByte b) := by
  unfold putByte
  dsimp only
  by_cases hfree : p.dicPos < p.dicBufSize
  · rw [if_pos hfree, if_pos hfree]
    exact ⟨_, rfl, rfl, update_same hdic b⟩
  · rw [if_neg hfree, if_neg hfree]
    rfl

theorem copyFrom_alike {wraps : Bool} {n pos : ℕ} (hpos : pos < p.dicPos)
    (hdic : ∀ i < p.dicPos, dic i = p.dic i) :
    (copyFrom wraps n pos p).Alike Same (copyFrom wraps n pos { p with dic := dic }) := by
  induction n generalizing pos p dic with
  | zero => exact ⟨_, rfl, same_dic hdic⟩
  | succ n ih =>
      rw [copyFrom, copyFrom]
      dsimp only
      by_cases hfree : p.dicPos < p.dicBufSize
      · rw [if_pos hfree, if_pos hfree, dicByte_same hdic hpos]
        refine Alike.bind_same fun b => ?_
        have hnext : (if wraps ∧ pos + 1 = p.dicBufSize then 0 else pos + 1) <
            p.dicPos + 1 := by
          split <;> omega
        exact ih (p := { p with
          dic := Function.update p.dic p.dicPos b
          dicPos := p.dicPos + 1 }) hnext (update_same hdic b)
      · rw [if_neg hfree, if_neg hfree]
        rfl

theorem copyMatch_alike {len : ℕ} (hpos : p.repPos < p.dicPos)
    (hdic : ∀ i < p.dicPos, dic i = p.dic i) :
    (p.copyMatch limit len).Alike Same ({ p with dic := dic }.copyMatch limit len) := by
  have hrepPos : { p with dic := dic }.repPos = p.repPos := rfl
  unfold copyMatch
  dsimp only
  by_cases hfull : limit = p.dicPos
  · rw [if_pos hfull, if_pos hfull]
    rfl
  · rw [if_neg hfull, if_neg hfull, hrepPos]
    exact copyFrom_alike (p := { p with processedPos := _, remainLen := _ }) hpos hdic

theorem decodeRep_alike (h : p.InDic) :
    p.decodeRep.Alike (fun r r' => r = none ∧ r' = none ∨
        ∃ q, r = some q ∧ r' = some { q with dic := dic } ∧ p.Reordered q)
      { p with dic := dic }.decodeRep := by
  unfold decodeRep
  refine Alike.bind_same fun g0 => ?_
  cases g0 with
  | false =>
      refine Alike.bind_same fun long => ?_
      cases long with
      | false => exact ⟨_, rfl, .inl ⟨rfl, rfl⟩⟩
      | true =>
          exact ⟨_, rfl, .inr ⟨_, rfl, rfl, rfl, h.rep0, h.rep1, h.rep2, h.rep3⟩⟩
  | true =>
      refine Alike.bind_same fun g1 => ?_
      cases g1 with
      | false =>
          exact ⟨_, rfl, .inr ⟨_, rfl, rfl, rfl, h.rep1, h.rep0, h.rep2, h.rep3⟩⟩
      | true =>
          refine Alike.bind_same fun g2 => ?_
          cases g2 with
          | false =>
              exact ⟨_, rfl, .inr ⟨_, rfl, rfl, rfl, h.rep2, h.rep0, h.rep1, h.rep3⟩⟩
          | true =>
              exact ⟨_, rfl, .inr ⟨_, rfl, rfl, rfl, h.rep3, h.rep0, h.rep1, h.rep2⟩⟩

/-- What one symbol leaves in decoders that differ in this way. -/
def SameSymbol (r r' : LzmaDec × Bool) : Prop := r.1.Same r'.1 ∧ r'.2 = r.2

theorem sameSymbol_alike {t t' : SymbolTree LzmaDec} (h : t.Alike Same t') :
    (do let q ← t; pure (q, false)).Alike SameSymbol
      (do let q ← t'; pure (q, false)) :=
  h.bind fun _ _ hsame => ⟨_, rfl, hsame, rfl⟩

/-- A symbol reads the dictionary only in front of its position. -/
theorem symbol_alike (h : p.Ready limit) (hdic : ∀ i < p.dicPos, dic i = p.dic i) :
    (p.symbol limit).Alike SameSymbol ({ p with dic := dic }.symbol limit) := by
  unfold symbol
  refine Alike.bind_same fun matched => ?_
  cases matched with
  | false =>
      rw [literalSymbol_same h hdic]
      refine Alike.bind_same fun symbol => ?_
      exact sameSymbol_alike
        (putByte_alike (p := { p with state := p.literalState }) hdic _)
  | true =>
      refine Alike.bind_same fun rep => ?_
      cases rep with
      | false =>
          refine Alike.bind_same fun len => Alike.bind_same fun dist => ?_
          obtain ⟨distance, canEnd⟩ := dist
          dsimp only
          by_cases hend : canEnd ∧ distance = 0xffffffff
          · rw [if_pos hend, if_pos hend]
            exact ⟨_, rfl, same_dic (p := { p with remainLen := _ }) hdic, rfl⟩
          rw [if_neg hend, if_neg hend]
          by_cases hfar :
              (if p.checkDicSize = 0 then p.processedPos else p.checkDicSize) ≤ distance
          · rw [if_pos hfar, if_pos hfar]
            rfl
          · rw [if_neg hfar, if_neg hfar]
            have hnear := h.distance (Nat.lt_of_not_le hfar)
            exact sameSymbol_alike (copyMatch_alike
              (p := { p with rep0 := _, rep1 := _, rep2 := _, rep3 := _, state := _ })
              (repPos_lt_dicPos hnear.1 hnear.2 (h.free.trans h.size)) hdic)
      | true =>
          by_cases hstart : p.checkDicSize = 0 ∧ p.processedPos = 0
          · simp only [Bool.true_eq_false, if_false, if_pos hstart]
            rfl
          simp only [Bool.true_eq_false, if_false, if_neg hstart]
          have hpos := h.started (by omega)
          refine (decodeRep_alike h.toInDic).bind ?_
          rintro r r' (⟨rfl, rfl⟩ | ⟨q, rfl, rfl, hq⟩)
          · dsimp only
            have hrepPos : { p with dic := dic }.repPos = p.repPos := rfl
            rw [hrepPos, dicByte_same hdic (h.repPos_lt_pos hpos)]
            refine Alike.bind_same fun b => ?_
            exact sameSymbol_alike (putByte_alike
              (p := { p with state := if p.state < kNumLitStates then 9 else 11 }) hdic b)
          · dsimp only
            refine Alike.bind_same fun len => ?_
            have hrep0 := hq.rep0
            rw [hq.eq]
            exact sameSymbol_alike (copyMatch_alike
              (p := { p with rep0 := _, rep1 := _, rep2 := _, rep3 := _, state := _ })
              (repPos_lt_dicPos hrep0.1 (hrep0.le hpos) (h.free.trans h.size)) hdic)

/-! ## Many symbols -/

theorem Same.exists_dic (h : p.Same q) :
    ∃ dic, q = { p with dic := dic } ∧ ∀ i < p.dicPos, dic i = p.dic i :=
  ⟨q.dic, h.eq, h.dic⟩

/-- The results of decoding with decoders that differ in this way. -/
def SameEnd : Except LzmaStop LzmaDec → Except LzmaStop LzmaDec → Prop
  | .ok p, .ok q => p.Same q
  | .error (.data p), .error (.data q) => p.Same q
  | _, _ => False

theorem SameEnd.cases {r r' : Except LzmaStop LzmaDec} (h : SameEnd r r') :
    (∃ q q', r = .error (.data q) ∧ r' = .error (.data q') ∧ q.Same q') ∨
      ∃ q q', r = .ok q ∧ r' = .ok q' ∧ q.Same q' := by
  rcases r with (q | _ | _) | q
  · rcases r' with (q' | _ | _) | q'
    · exact .inl ⟨q, q', rfl, rfl, h⟩
    · cases h
    · cases h
    · cases h
  · cases h
  · cases h
  · rcases r' with (q' | _ | _) | q'
    · cases h
    · cases h
    · cases h
    · exact .inr ⟨q, q', rfl, rfl, h⟩

theorem decodeReal_same (h : p.Ready limit) (hp : p.Indexed) (hc : p.coder.Valid)
    (hfuel : limit - p.dicPos < fuel)
    (hloop : bufLimit + 20 ≤ bound ∨ bufLimit ≤ p.coder.pos)
    (hfits : p.Fits src limit bound) (hagree : ∀ i < bound, src' i = src i)
    (hdic : ∀ i < p.dicPos, dic i = p.dic i) :
    SameEnd (decodeReal src limit bufLimit fuel p)
      (decodeReal src' limit bufLimit fuel { p with dic := dic }) := by
  induction fuel generalizing p dic with
  | zero => omega
  | succ fuel ih =>
      have hround : p.Round src limit := symbolRun_round h hp hc
      have hvalid := hround.valid
      have hpos := hround.pos_le
      have hsound := hround.sound
      have hnormal := hfits.normal_le
      obtain ⟨hsame, hcoder⟩ := (symbol_alike h hdic).run hagree
        hfits.pos_le (m := p.probs)
      change (LzmaDec.symbolRun { p with dic := dic } src' limit).2 =
        (p.symbolRun src limit).2 at hcoder
      change SameResult SameSymbol (p.symbolRun src limit).1
        (LzmaDec.symbolRun { p with dic := dic } src' limit).1 at hsame
      rw [decodeReal, decodeReal]
      generalize p.symbolRun src limit = run at *
      generalize LzmaDec.symbolRun { p with dic := dic } src' limit = run' at *
      obtain ⟨result, probs, coder⟩ := run
      obtain ⟨result', _⟩ := run'
      subst hcoder
      cases result with
      | error e =>
          cases result' with
          | error e' =>
              obtain rfl := hsame
              obtain rfl := hsound
              exact ⟨rfl, hdic⟩
          | ok r' => exact hsame.elim
      | ok r =>
          cases result' with
          | error e' => exact hsame.elim
          | ok r' =>
              obtain ⟨q, isEnd⟩ := r
              obtain ⟨q', isEnd'⟩ := r'
              obtain ⟨hq, hend⟩ := hsame
              obtain ⟨dic', hq', hdic'⟩ := hq.exists_dic
              dsimp only at hq' hdic' hend
              subst hq' hend
              dsimp only
              by_cases hgo : isEnd' = false ∧ q.dicPos < limit ∧ coder.pos < bufLimit
              · rw [if_pos hgo, if_pos hgo]
                obtain ⟨rfl, hfree, hmore⟩ := hgo
                have hlt := hsound.moved rfl
                obtain ⟨hready, hidx⟩ := hsound.next h hfree probs coder
                dsimp only at hpos hvalid
                have hloop' : bufLimit + 20 ≤ bound := by omega
                have hfits' : { q with probs := probs, coder := coder }.Fits src limit bound :=
                  (symbolRun_round hready hidx hvalid).fits (.inl (by dsimp only; omega))
                exact ih hready hidx hvalid (by dsimp only; omega) (.inl hloop') hfits' hdic'
              · rw [if_neg hgo, if_neg hgo, normalize_congr hagree (hnormal _ rfl)]
                exact ⟨rfl, hdic'⟩

theorem writeRemFrom_same (hrep : 0 < p.rep0) (hle : p.rep0 ≤ p.dicPos)
    (hroom : p.dicPos + n ≤ p.dicBufSize) (hword : p.dicBufSize < 2 ^ 64)
    (hdic : ∀ i < p.dicPos, dic i = p.dic i) :
    SameEnd (writeRemFrom n p) (writeRemFrom n { p with dic := dic }) := by
  induction n generalizing p dic with
  | zero => exact ⟨rfl, hdic⟩
  | succ n ih =>
      have hpos : p.repPos < p.dicPos := repPos_lt_dicPos hrep hle (by omega)
      have hrepPos : { p with dic := dic }.repPos = p.repPos := rfl
      rw [writeRemFrom, writeRemFrom, hrepPos]
      dsimp only
      have hfree : p.repPos < p.dicBufSize ∧ p.dicPos < p.dicBufSize :=
        ⟨by omega, by omega⟩
      rw [if_pos hfree, if_pos hfree, hdic _ hpos]
      exact ih (p := { p with
          dic := Function.update p.dic p.dicPos (p.dic p.repPos)
          dicPos := p.dicPos + 1 })
        hrep (Nat.le_succ_of_le hle) (by dsimp only; omega) hword (update_same hdic _)

theorem writeRem_same (h : p.InDic) (hle : p.dicPos ≤ limit)
    (hsize : limit ≤ p.dicBufSize) (hdic : ∀ i < p.dicPos, dic i = p.dic i) :
    SameEnd (p.writeRem limit) ({ p with dic := dic }.writeRem limit) := by
  have hword := h.size
  unfold writeRem
  dsimp only
  by_cases hrest : p.remainLen ≠ 0 ∧ p.remainLen < kMatchSpecLenStart
  · rw [if_pos hrest, if_pos hrest]
    have hstart := h.remain hrest.1 hrest.2
    rw [sub64_of_le hle (by omega)]
    generalize hlen : (if limit - p.dicPos < p.remainLen then limit - p.dicPos
      else p.remainLen) = len
    have hroom : p.dicPos + len ≤ p.dicBufSize := by
      rw [← hlen]
      split <;> omega
    exact writeRemFrom_same (p := { p with checkDicSize := _, processedPos := _, remainLen := _ })
      h.rep0.1 (h.rep0.le hstart) hroom hword hdic
  · rw [if_neg hrest, if_neg hrest]
    exact ⟨rfl, hdic⟩

theorem decodeRound_same (h : p.InDic) (hp : p.Indexed) (hc : p.coder.Valid)
    (hlt : p.dicPos < limit) (hsize : limit ≤ p.dicBufSize)
    (hfuel : limit - p.dicPos < fuel) (hbytes : p.Supplied src bufLimit bound)
    (hagree : ∀ i < bound, src' i = src i) (hdic : ∀ i < p.dicPos, dic i = p.dic i) :
    SameEnd (p.decodeRound fuel src limit bufLimit)
      ({ p with dic := dic }.decodeRound fuel src' limit bufLimit) := by
  have hready := h.roundReady hlt hsize
  have hidx : { p with remainLen := 0 }.Indexed := ⟨hp.state, hp.prop⟩
  have hsupplied : { p with remainLen := 0 }.Supplied src bufLimit bound := hbytes
  have hle := (roundLimit_between h hlt hsize).2
  have hlimit : { p with dic := dic }.roundLimit limit = p.roundLimit limit := rfl
  have hwithin := roundSymbols_within h hp hc hlt hsize hfuel hbytes
  have hsteps : p.roundLimit limit - p.dicPos < fuel := by omega
  have hsame := decodeReal_same hready hidx hc hsteps hsupplied.loop
    (hsupplied.fits hready hidx hc) hagree hdic
  unfold decodeRound
  rw [hlimit]
  dsimp only at hsame ⊢
  generalize decodeReal src (p.roundLimit limit) bufLimit fuel _ = r at *
  generalize decodeReal src' (p.roundLimit limit) bufLimit fuel _ = r' at *
  rcases hsame.cases with ⟨q, q', rfl, rfl, hq⟩ | ⟨q, q', rfl, rfl, hq⟩
  · exact hq
  · obtain ⟨dic', rfl, hdic'⟩ := hq.exists_dic
    rw [← hwithin.continues.dicBufSize] at hsize
    exact writeRem_same hwithin.inDic.checkSize (hwithin.le.trans (max_le le_rfl hlt))
      hsize hdic'

theorem decodeReal2_same (h : p.InDic) (hp : p.Indexed) (hc : p.coder.Valid)
    (hlt : p.dicPos < limit) (hsize : limit ≤ p.dicBufSize)
    (hfuel : limit - p.dicPos < fuel) (hbytes : p.Supplied src bufLimit bound)
    (hagree : ∀ i < bound, src' i = src i) (hdic : ∀ i < p.dicPos, dic i = p.dic i) :
    SameEnd (decodeReal2 src limit bufLimit fuel p)
      (decodeReal2 src' limit bufLimit fuel { p with dic := dic }) := by
  induction fuel generalizing p dic with
  | zero => omega
  | succ fuel ih =>
      have hround := decodeRound_within h hp hc hlt hsize hfuel hbytes
      have hsame := decodeRound_same h hp hc hlt hsize hfuel hbytes hagree hdic
      rw [decodeReal2, decodeReal2]
      generalize p.decodeRound (fuel + 1) src limit bufLimit = r at *
      generalize LzmaDec.decodeRound (fuel + 1) src' limit bufLimit _ = r' at *
      rcases hsame.cases with ⟨q, q', rfl, rfl, hq⟩ | ⟨q, q', rfl, rfl, hq⟩
      · exact hq
      · obtain ⟨dic', rfl, hdic'⟩ := hq.exists_dic
        rw [except_ok_bind, except_ok_bind]
        dsimp only
        by_cases hgo : q.dicPos < limit ∧ q.coder.pos < bufLimit ∧
            q.remainLen < kMatchSpecLenStart
        · rw [if_pos hgo, if_pos hgo]
          have hmoved : p.dicPos < q.dicPos :=
            hround.moved.resolve_right (Nat.not_le_of_lt hgo.2.2)
          rw [← hround.continues.dicBufSize] at hsize
          exact ih hround.inDic hround.indexed hround.valid hgo.1 hsize (by omega)
            (hround.supplied hbytes hgo.2.1) hdic'
        · rw [if_neg hgo, if_neg hgo]
          by_cases hbeyond : kMatchSpecLenStart < q.remainLen
          · rw [if_pos hbeyond, if_pos hbeyond]
            exact ⟨rfl, hdic'⟩
          · rw [if_neg hbeyond, if_neg hbeyond]
            exact ⟨rfl, hdic'⟩

/-! ## Calls -/

/-- What calls return, of decoders that differ in this way. -/
structure SameReturn (e e' : DicEnd) : Prop where
  res : e'.res = e.res
  status : e'.status = e.status
  dec : e.dec.Same e'.dec
  read : e'.read = e.read

theorem tryDummy_same (h : p.Ready limit) (hpos : pos ≤ n)
    (hagree : ∀ i < n, src' i = src i) (hdic : ∀ i < p.dicPos, dic i = p.dic i) :
    { p with dic := dic }.tryDummy src' pos n = p.tryDummy src pos n := by
  unfold tryDummy
  rw [dummy_same h hdic]
  dsimp only
  rw [check_congr hagree hpos]
  cases hcheck : p.dummy.check src n p.probs { p.coder with pos := pos } with
  | error c => rfl
  | ok r =>
      obtain ⟨hle, -⟩ := (sat_true p.dummy).check (c := { p.coder with pos := pos }) hpos
        hcheck
      rw [except_ok_bind, except_ok_bind, checkedNormalize_congr hagree hle]

theorem bytesAt_same (hagree : ∀ i < n, src' i = src i) (hpos : pos ≤ n) (k : ℕ) :
    src'.bytesAt pos (min k (n - pos)) = src.bytesAt pos (min k (n - pos)) :=
  ByteMemory.bytesAt_congr fun i hi => hagree _ (by omega)

/-- What the results of a round have to do with each other. -/
def SameRound : Except LzmaStop ((LzmaDec × ℕ) ⊕ DicEnd) →
    Except LzmaStop ((LzmaDec × ℕ) ⊕ DicEnd) → Prop
  | .ok (.inl (p, pos)), .ok (.inl (q, pos')) => p.Same q ∧ pos' = pos
  | .ok (.inr e), .ok (.inr e') => SameReturn e e'
  | _, _ => False

theorem decodeAt_same {seen : ℕ} (h : p.Prepared limit pos n)
    (hfuel : limit - p.dicPos < fuel)
    (hbytes : { p with coder := { p.coder with pos := pos } }.Supplied src bufLimit n)
    (hagree : ∀ i < n, src' i = src i) (hdic : ∀ i < p.dicPos, dic i = p.dic i) :
    SameRound
      ((fun r : LzmaDec ⊕ DicEnd => r.map (fun q => (q, q.coder.pos)) id) <$>
        p.decodeAt fuel limit src pos bufLimit seen)
      ((fun r : LzmaDec ⊕ DicEnd => r.map (fun q => (q, q.coder.pos)) id) <$>
        { p with dic := dic }.decodeAt fuel limit src' pos bufLimit seen) := by
  have hvalid := h.valid
  have hsame := decodeReal2_same
    (h.inDic.withInput { p.coder with pos := pos } p.needFlush p.needInitState p.tempBuf)
    ⟨h.indexed.state, h.indexed.prop⟩ ⟨hvalid.lower, hvalid.upper, hvalid.code⟩ h.free
    (Nat.le_of_eq h.size.symm) hfuel hbytes hagree hdic
  unfold decodeAt
  dsimp only at hsame ⊢
  generalize decodeReal2 src limit bufLimit fuel _ = r at *
  generalize decodeReal2 src' limit bufLimit fuel _ = r' at *
  match r, r', hsame with
  | .ok q, .ok q', hq =>
      obtain ⟨dic', rfl, hdic'⟩ := hq.exists_dic
      exact ⟨⟨rfl, hdic'⟩, rfl⟩
  | .error (.data q), .error (.data q'), hq =>
      obtain ⟨dic', rfl, hdic'⟩ := hq.exists_dic
      exact ⟨rfl, rfl, ⟨rfl, hdic'⟩, rfl⟩

theorem dicRound_same (h : p.Prepared limit pos n) (hfuel : limit - p.dicPos < fuel)
    (hagree : ∀ i < n, src' i = src i) (hdic : ∀ i < p.dicPos, dic i = p.dic i) :
    SameRound (p.dicRound fuel limit src pos n)
      ({ p with dic := dic }.dicRound fuel limit src' pos n) := by
  have hpos := h.pos_le
  unfold dicRound
  rw [if_pos h.tempBuf, if_pos h.tempBuf]
  by_cases hshort : n - pos < lzmaRequiredInputMax
  · rw [if_pos hshort, if_pos hshort, tryDummy_same h.ready hpos hagree hdic]
    cases htry : p.tryDummy src pos n with
    | error c =>
        have hrest := bytesAt_same hagree hpos (n - pos)
        rw [min_self] at hrest
        dsimp only
        rw [hrest]
        exact ⟨rfl, rfl, ⟨rfl, hdic⟩, rfl⟩
    | ok r =>
        obtain ⟨⟨a, ha⟩, -⟩ := tryDummy_result h.ready h.indexed hpos htry
        obtain ⟨result, c⟩ := r
        dsimp only at ha
        subst ha
        exact decodeAt_same h hfuel (.inr ⟨le_rfl, hpos, _, htry⟩) hagree hdic
  · rw [if_neg hshort, if_neg hshort]
    unfold lzmaRequiredInputMax at hshort ⊢
    exact decodeAt_same h hfuel
      (.inl ⟨by omega, h.normal, by dsimp only; omega⟩) hagree hdic

/-- What the results of `prepare` have to do with each other. -/
def SamePrepared :
    Except DicEnd (LzmaDec × ℕ) → Except DicEnd (LzmaDec × ℕ) → Prop
  | .ok (p, pos), .ok (q, pos') => p.Same q ∧ pos' = pos
  | .error e, .error e' => SameReturn e e'
  | _, _ => False

/-- The rest of `prepare`, from the comparison with the limit on. -/
theorem samePrepared_flushed (hdic : ∀ i < p.dicPos, dic i = p.dic i) :
    SamePrepared
      (if limit ≤ p.dicPos then
        if p.remainLen = 0 ∧ p.coder.code = 0 then
          .error ⟨.ok, .maybeFinishedWithoutMark, p, pos⟩
        else .error ⟨.ok, .notFinished, p, pos⟩
      else .ok (if p.needInitState then p.initStateReal else p, pos))
      (if limit ≤ p.dicPos then
        if p.remainLen = 0 ∧ p.coder.code = 0 then
          .error ⟨.ok, .maybeFinishedWithoutMark, { p with dic := dic }, pos⟩
        else .error ⟨.ok, .notFinished, { p with dic := dic }, pos⟩
      else .ok (if p.needInitState then { p with dic := dic }.initStateReal
        else { p with dic := dic }, pos)) := by
  by_cases hfull : limit ≤ p.dicPos
  · rw [if_pos hfull, if_pos hfull]
    split
    · exact ⟨rfl, rfl, same_dic hdic, rfl⟩
    · exact ⟨rfl, rfl, same_dic hdic, rfl⟩
  · rw [if_neg hfull, if_neg hfull]
    split
    · exact ⟨⟨rfl, hdic⟩, rfl⟩
    · exact ⟨same_dic hdic, rfl⟩

theorem prepare_same (h : p.Waiting limit pos n) (hagree : ∀ i < n, src' i = src i)
    (hdic : ∀ i < p.dicPos, dic i = p.dic i) :
    SamePrepared (p.prepare limit src pos n)
      ({ p with dic := dic }.prepare limit src' pos n) := by
  have hfill : { p with dic := dic }.fillTempBuf src' pos n rcInitSize =
      p.fillTempBuf src pos n rcInitSize := bytesAt_same hagree h.pos_le _
  unfold prepare
  rw [hfill]
  dsimp only
  by_cases hflush : p.needFlush = true
  · rw [if_pos hflush, if_pos hflush]
    generalize p.tempBuf ++ p.fillTempBuf src pos n rcInitSize = bs
    by_cases hshort : bs.length < rcInitSize
    · rw [if_pos hshort, if_pos hshort]
      exact ⟨rfl, rfl, ⟨rfl, hdic⟩, rfl⟩
    rw [if_neg hshort, if_neg hshort]
    by_cases hfirst : bs.head? ≠ some 0
    · rw [if_pos hfirst, if_pos hfirst]
      exact ⟨rfl, rfl, ⟨rfl, hdic⟩, rfl⟩
    · rw [if_neg hfirst, if_neg hfirst, except_ok_bind, except_ok_bind]
      exact samePrepared_flushed (p := { p with tempBuf := bs }.initRc) hdic
  · rw [if_neg hflush, if_neg hflush, except_ok_bind, except_ok_bind]
    exact samePrepared_flushed hdic

/-- After a round, the loop goes on or the call returns. -/
theorem next_same {r r' : Except LzmaStop ((LzmaDec × ℕ) ⊕ DicEnd)}
    {f f' : LzmaDec → ℕ → Except LzmaStop DicEnd} (hround : p.RoundEnd limit pos n r)
    (hsame : SameRound r r')
    (hnext : ∀ {q : LzmaDec} {dic : ByteMemory} {pos : ℕ}, q.Waiting limit pos n →
      (p.dicPos < q.dicPos ∨ q.remainLen = kMatchSpecLenStart) →
      (∀ i < q.dicPos, dic i = q.dic i) →
      ∃ e e', f q pos = .ok e ∧ f' { q with dic := dic } pos = .ok e' ∧
        SameReturn e e') :
    ∃ e e',
      (do
        match ← r with
        | .inl (q, pos) => f q pos
        | .inr e => .ok e) = .ok e ∧
      (do
        match ← r' with
        | .inl (q, pos) => f' q pos
        | .inr e => .ok e) = .ok e' ∧ SameReturn e e' := by
  rcases r with _ | ⟨q, pos'⟩ | e
  · exact hround.elim
  · rcases r' with _ | ⟨q', _⟩ | _
    · exact hsame.elim
    · obtain ⟨hwaiting, -, -, hmoved⟩ := hround
      obtain ⟨hq, rfl⟩ := hsame
      obtain ⟨dic, rfl, hdic⟩ := hq.exists_dic
      exact hnext hwaiting hmoved hdic
    · exact hsame.elim
  · rcases r' with _ | _ | e'
    · exact hsame.elim
    · exact hsame.elim
    · exact ⟨e, e', rfl, rfl, hsame⟩

theorem decodeLoop_same (h : p.Waiting limit pos n)
    (hfuel : limit - p.dicPos + 1 < fuel ∨
      p.remainLen = kMatchSpecLenStart ∧ 0 < fuel)
    (hagree : ∀ i < n, src' i = src i) (hdic : ∀ i < p.dicPos, dic i = p.dic i) :
    ∃ e e', decodeLoop limit src n fuel p pos = .ok e ∧
      decodeLoop limit src' n fuel { p with dic := dic } pos = .ok e' ∧
      SameReturn e e' := by
  induction fuel generalizing p pos dic with
  | zero => omega
  | succ fuel ih =>
      rw [decodeLoop, decodeLoop]
      dsimp only
      by_cases hmark : p.remainLen = kMatchSpecLenStart
      · rw [if_pos hmark, if_pos hmark]
        by_cases hcode : p.coder.code = 0
        · rw [if_pos hcode, if_pos hcode]
          exact ⟨_, _, rfl, rfl, rfl, rfl, ⟨rfl, hdic⟩, rfl⟩
        · rw [if_neg hcode, if_neg hcode]
          exact ⟨_, _, rfl, rfl, rfl, rfl, ⟨rfl, hdic⟩, rfl⟩
      rw [if_neg hmark, if_neg hmark]
      have hprepare : p.PrepareEnd limit pos n (p.prepare limit src pos n) :=
        prepare_result h
      have hsame := prepare_same h hagree hdic
      generalize p.prepare limit src pos n = r at *
      generalize LzmaDec.prepare _ limit src' pos n = r' at *
      cases r with
      | error e =>
          cases r' with
          | error e' => exact ⟨e, e', rfl, rfl, hsame⟩
          | ok => exact hsame.elim
      | ok r =>
          cases r' with
          | error => exact hsame.elim
          | ok r' =>
              obtain ⟨q, pos⟩ := r
              obtain ⟨q', _⟩ := r'
              obtain ⟨hready, hdicPos, -, -⟩ := hprepare
              obtain ⟨hq, rfl⟩ := hsame
              obtain ⟨dic', rfl, hdic'⟩ := hq.exists_dic
              have hfree := hready.free
              have hsteps : limit - q.dicPos < fuel + 1 := by omega
              have hround := hready.dicRound_result src hsteps
              have hsame := dicRound_same hready hsteps hagree hdic'
              dsimp only at hround hsame ⊢
              generalize q.dicRound (fuel + 1) limit src _ n = r at *
              generalize LzmaDec.dicRound _ (fuel + 1) limit src' _ n = r' at *
              exact next_same hround hsame fun hwaiting hmoved hdic'' =>
                ih hwaiting (by omega) hdic''

/-- What a call returns is a function of the properties, of the limit and of the
bytes of the input. -/
theorem decodeToDic_same {prop : LzmaProps} (dirty dirty' : ByteMemory)
    (hprop : ValidProps prop) (hlimit : limit < 2 ^ 64) (hfuel : limit + 3 ≤ fuel)
    (hagree : ∀ i < n, src' i = src i) :
    ∃ e e', (init prop limit dirty).decodeToDic fuel limit src n = .ok e ∧
      (init prop limit dirty').decodeToDic fuel limit src' n = .ok e' ∧
      SameReturn e e' := by
  have hwaiting : (init prop limit dirty).Waiting limit 0 n := init_waiting hprop hlimit
  rw [decodeToDic_init, decodeToDic_init]
  exact decodeLoop_same hwaiting (.inl (by dsimp only [init]; omega)) hagree
    fun i hi => absurd hi (Nat.not_lt_zero i)

end LzmaDec

end Lzma

end PongoOS
