import PongoOS.Lzma.Symbols

/-!
# The dictionary

A distance never reaches in front of the first byte of the output, as it is
compared to the number of bytes that were decoded.  So a symbol reads what was
written before it, and it writes the bytes behind that, up to the limit.
-/

namespace PongoOS

open RangeCoder BitTree

namespace Lzma

namespace LzmaDec

/-- A distance that is kept for later: one that was not used may be 1 in front of
the first byte. -/
def Reaching (p : LzmaDec) (rep : ℕ) : Prop := 0 < rep ∧ rep ≤ max 1 p.dicPos

/-- What holds of the dictionary between symbols. -/
structure InDic (p : LzmaDec) : Prop where
  size : p.dicBufSize < 2 ^ 64
  room : p.dicPos ≤ p.dicBufSize
  processed : p.processedPos ≤ p.dicPos
  processed_lt : p.processedPos < 2 ^ 32
  checked : p.checkDicSize ≤ p.dicPos
  checked_lt : p.checkDicSize < 2 ^ 32
  rep0 : p.Reaching p.rep0
  rep1 : p.Reaching p.rep1
  rep2 : p.Reaching p.rep2
  rep3 : p.Reaching p.rep3
  matched : kNumLitStates ≤ p.state → 0 < p.dicPos
  remain : p.remainLen ≠ 0 → p.remainLen < kMatchSpecLenStart → 0 < p.dicPos

/-- There is room for a symbol. -/
structure Ready (p : LzmaDec) (limit : ℕ) : Prop extends p.InDic where
  free : p.dicPos < p.dicBufSize
  pos_le : p.dicPos ≤ limit
  le_size : limit ≤ p.dicBufSize

/-- What the decoder `q` behind some symbols has in common with `p`. -/
structure Extends (p q : LzmaDec) : Prop where
  prop : q.prop = p.prop
  dicBufSize : q.dicBufSize = p.dicBufSize
  needFlush : q.needFlush = p.needFlush
  needInitState : q.needInitState = p.needInitState
  tempBuf : q.tempBuf = p.tempBuf
  dicPos : p.dicPos ≤ q.dicPos
  dic : ∀ i < p.dicPos, q.dic i = p.dic i

variable {p q : LzmaDec} {limit : ℕ}

theorem Extends.refl (p : LzmaDec) : p.Extends p :=
  ⟨rfl, rfl, rfl, rfl, rfl, le_rfl, fun _ _ => rfl⟩

theorem Extends.trans {r : LzmaDec} (h : p.Extends q) (h' : q.Extends r) :
    p.Extends r where
  prop := h'.prop.trans h.prop
  dicBufSize := h'.dicBufSize.trans h.dicBufSize
  needFlush := h'.needFlush.trans h.needFlush
  needInitState := h'.needInitState.trans h.needInitState
  tempBuf := h'.tempBuf.trans h.tempBuf
  dicPos := h.dicPos.trans h'.dicPos
  dic i hi := (h'.dic i (lt_of_lt_of_le hi h.dicPos)).trans (h.dic i hi)

theorem Reaching.mono {rep : ℕ} (h : p.Reaching rep) (hpos : p.dicPos ≤ q.dicPos) :
    q.Reaching rep :=
  ⟨h.1, h.2.trans (max_le_max_left 1 hpos)⟩

theorem Reaching.le {rep : ℕ} (h : p.Reaching rep) (hpos : 0 < p.dicPos) :
    rep ≤ p.dicPos :=
  h.2.trans (max_le hpos le_rfl)

theorem repPos_of_le (hle : p.rep0 ≤ p.dicPos) (hpos : p.dicPos < 2 ^ 64) :
    p.repPos = p.dicPos - p.rep0 := by
  unfold repPos
  rw [if_neg (Nat.not_lt_of_le hle), Nat.add_zero, sub64_of_le hle hpos]
  exact Nat.mod_eq_of_lt (by omega)

/-! ## Single bytes -/

theorem dicByte_result {i : ℕ} (hi : i < p.dicBufSize) :
    p.dicByte i = pure (p.dic i) :=
  if_pos hi

theorem putByte_result (hfree : p.dicPos < p.dicBufSize) (b : UInt8) :
    p.putByte b = pure { p with
      dic := Function.update p.dic p.dicPos b
      dicPos := p.dicPos + 1
      processedPos := (p.processedPos + 1) % 2 ^ 32 } :=
  if_pos hfree

/-- Bytes that are not in front of the position leave what is. -/
theorem update_below {dic : ByteMemory} {i j : ℕ} {b : UInt8} (hij : i < j) :
    Function.update dic j b i = dic i :=
  Function.update_of_ne (Nat.ne_of_lt hij) _ _

/-! ## Copies -/

/-- A copy that stays in the buffer. -/
theorem copyFrom_result (n pos : ℕ) (hpos : pos + n ≤ p.dicBufSize)
    (hroom : p.dicPos + n ≤ p.dicBufSize) :
    ∃ dic, copyFrom false n pos p =
        pure { p with dic := dic, dicPos := p.dicPos + n } ∧
      ∀ i < p.dicPos, dic i = p.dic i := by
  induction n generalizing pos p with
  | zero => exact ⟨p.dic, rfl, fun _ _ => rfl⟩
  | succ n ih =>
      obtain ⟨dic, hcopy, hbelow⟩ := ih
        (p := { p with
          dic := Function.update p.dic p.dicPos (p.dic pos)
          dicPos := p.dicPos + 1 })
        (pos + 1)
        (by dsimp only; omega) (by dsimp only; omega)
      refine ⟨dic, ?_, fun i hi => ?_⟩
      · rw [copyFrom, if_pos (by omega), dicByte_result (by omega)]
        change copyFrom false n (if false = true ∧ _ then 0 else pos + 1) _ = _
        rw [if_neg (by simp), hcopy]
        dsimp only
        rw [Nat.add_assoc, Nat.add_comm 1 n]
      · exact (hbelow i (Nat.lt_succ_of_lt hi)).trans (update_below hi)

/-- A match copies at least one byte, and it stops in front of the limit. -/
theorem copyMatch_result (len : ℕ) (hrep : 0 < p.rep0) (hle : p.rep0 ≤ p.dicPos)
    (hlimit : p.dicPos ≤ limit) (hsize : limit ≤ p.dicBufSize)
    (hword : p.dicBufSize < 2 ^ 64) :
    p.copyMatch limit len = .stop .data ∨
      ∃ n dic, 0 < n ∧ p.dicPos + n ≤ limit ∧ (∀ i < p.dicPos, dic i = p.dic i) ∧
        p.copyMatch limit len = pure { p with
          processedPos := (p.processedPos + n) % 2 ^ 32
          remainLen := len + kMatchMinLen - n
          dic := dic
          dicPos := p.dicPos + n } := by
  unfold copyMatch
  by_cases hfull : limit = p.dicPos
  · exact .inl (if_pos hfull)
  right
  simp only [if_neg hfull]
  rw [sub64_of_le hlimit (by omega), repPos_of_le hle (by omega)]
  generalize hn : (if limit - p.dicPos < len + kMatchMinLen then limit - p.dicPos
    else len + kMatchMinLen) = n
  have hmin : 0 < kMatchMinLen := by decide
  have hpos : 0 < n := by
    rw [← hn]
    split <;> omega
  have hroom : p.dicPos + n ≤ limit := by
    rw [← hn]
    split <;> omega
  have hstraight : ¬ p.dicBufSize < (p.dicPos - p.rep0 + n) % 2 ^ 64 := by
    rw [Nat.mod_eq_of_lt (by omega)]
    omega
  rw [decide_eq_false hstraight]
  obtain ⟨dic, hcopy, hbelow⟩ := copyFrom_result
    (p := { p with
      processedPos := (p.processedPos + n) % 2 ^ 32
      remainLen := len + kMatchMinLen - n })
    n (p.dicPos - p.rep0) (by dsimp only; omega) (by dsimp only; omega)
  exact ⟨n, dic, hpos, hroom, hbelow, hcopy⟩

/-! ## Symbols -/

/-- What a symbol leaves where there is room for it. -/
structure Decoded (p : LzmaDec) (limit : ℕ) (q : LzmaDec) (isEnd : Bool) : Prop where
  continues : p.Extends q
  indexed : q.Indexed
  inDic : q.InDic
  le : q.dicPos ≤ max limit (p.dicPos + 1)
  moved : isEnd = false → p.dicPos < q.dicPos
  marked : isEnd = true → q.dicPos = p.dicPos ∧ kMatchSpecLenStart ≤ q.remainLen

/-- The results of a symbol: nothing is accessed outside of the dictionary. -/
def Sound (p : LzmaDec) (limit : ℕ) : Except SymbolStop (LzmaDec × Bool) → Prop
  | .ok (q, isEnd) => p.Decoded limit q isEnd
  | .error e => e = .data

theorem literalState_le (hstate : p.state < kNumStates) :
    p.literalState < kNumLitStates := by
  unfold kNumStates at hstate
  unfold literalState kNumLitStates
  split
  · split <;> omega
  · split <;> omega

/-- A byte that is put behind the others. -/
theorem decoded_putByte (h : p.Ready limit) (hp : p.Indexed) {state : ℕ}
    (hstate : state < kNumStates) (b : UInt8) :
    p.Decoded limit { p with
      state := state
      dic := Function.update p.dic p.dicPos b
      dicPos := p.dicPos + 1
      processedPos := (p.processedPos + 1) % 2 ^ 32 } false := by
  have hsucc : p.dicPos ≤ p.dicPos + 1 := Nat.le_succ _
  exact
    { continues := ⟨rfl, rfl, rfl, rfl, rfl, hsucc, fun i hi => update_below hi⟩
      indexed := ⟨hstate, hp.prop⟩
      inDic :=
        { size := h.size
          room := h.free
          processed := (Nat.mod_le _ _).trans (Nat.succ_le_succ h.processed)
          processed_lt := Nat.mod_lt _ (Nat.two_pow_pos 32)
          checked := h.checked.trans hsucc
          checked_lt := h.checked_lt
          rep0 := h.rep0.mono hsucc
          rep1 := h.rep1.mono hsucc
          rep2 := h.rep2.mono hsucc
          rep3 := h.rep3.mono hsucc
          matched := fun _ => Nat.succ_pos _
          remain := fun _ _ => Nat.succ_pos _ }
      le := le_max_right _ _
      moved := fun _ => Nat.lt_succ_self _
      marked := fun h => absurd h Bool.false_ne_true }

theorem sound_putByte (h : p.Ready limit) (hp : p.Indexed) {state : ℕ}
    (hstate : state < kNumStates) (b : UInt8) :
    (do
      let q ← { p with state := state }.putByte b
      pure (q, false) : SymbolTree (LzmaDec × Bool)).Sat
        fun r _ _ => p.Sound limit r := by
  rw [putByte_result (p := { p with state := state }) h.free]
  exact decoded_putByte h hp hstate b

/-- What a match leaves behind: `r` has the distances and the state for it. -/
theorem decoded_copyMatch (h : p.Ready limit) {r : LzmaDec} {len : ℕ}
    (hext : p.Extends r) (hidx : r.Indexed) (hpos : r.dicPos = p.dicPos)
    (hdic : r.InDic) (hstart : 0 < p.dicPos) :
    (do
      let q ← r.copyMatch limit len
      pure (q, false) : SymbolTree (LzmaDec × Bool)).Sat fun r _ _ => p.Sound limit r := by
  have hrep := hdic.rep0.le (by omega)
  have hlimit := h.pos_le
  have hsize := h.le_size
  rw [← hpos] at hlimit
  rw [← hext.dicBufSize] at hsize
  rcases copyMatch_result len hdic.rep0.1 hrep hlimit hsize hdic.size with
    hstop | ⟨n, dic, hn, hroom, hbelow, hcopy⟩
  · rw [hstop]
    rfl
  · rw [hcopy]
    have hle : r.dicPos ≤ r.dicPos + n := Nat.le_add_right _ _
    have hcont : r.Extends { r with
        processedPos := (r.processedPos + n) % 2 ^ 32
        remainLen := len + kMatchMinLen - n
        dic := dic
        dicPos := r.dicPos + n } := ⟨rfl, rfl, rfl, rfl, rfl, hle, hbelow⟩
    exact
      { continues := hext.trans hcont
        indexed := ⟨hidx.state, hidx.prop⟩
        inDic :=
          { size := hdic.size
            room := hroom.trans hsize
            processed := (Nat.mod_le _ _).trans (Nat.add_le_add_right hdic.processed n)
            processed_lt := Nat.mod_lt _ (Nat.two_pow_pos 32)
            checked := hdic.checked.trans hle
            checked_lt := hdic.checked_lt
            rep0 := hdic.rep0.mono hle
            rep1 := hdic.rep1.mono hle
            rep2 := hdic.rep2.mono hle
            rep3 := hdic.rep3.mono hle
            matched := fun _ => Nat.lt_of_lt_of_le hn (Nat.le_add_left _ _)
            remain := fun _ _ => Nat.lt_of_lt_of_le hn (Nat.le_add_left _ _) }
        le := hroom.trans (le_max_left _ _)
        moved := fun _ => by
          dsimp only
          omega
        marked := fun h => absurd h Bool.false_ne_true }

/-- The end mark changes nothing else. -/
theorem decoded_end (h : p.Ready limit) (hp : p.Indexed) {len : ℕ}
    (hlen : kMatchSpecLenStart ≤ len) :
    p.Decoded limit { p with remainLen := len } true where
  continues := ⟨rfl, rfl, rfl, rfl, rfl, le_rfl, fun _ _ => rfl⟩
  indexed := ⟨hp.state, hp.prop⟩
  inDic :=
    { h.toInDic with
      remain := fun _ hlt => absurd hlen (Nat.not_le_of_lt hlt) }
  le := (Nat.le_succ _).trans (le_max_right _ _)
  moved hfalse := absurd hfalse.symm Bool.false_ne_true
  marked _ := ⟨rfl, hlen⟩

/-- A new distance, which was compared to the number of bytes. -/
theorem Ready.distance (h : p.Ready limit) {distance : ℕ}
    (hnear : distance <
      if p.checkDicSize = 0 then p.processedPos else p.checkDicSize) :
    0 < (distance + 1) % 2 ^ 32 ∧ (distance + 1) % 2 ^ 32 ≤ p.dicPos := by
  have hchecked := h.checked
  have hchecked' := h.checked_lt
  have hprocessed := h.processed
  have hprocessed' := h.processed_lt
  rw [Nat.mod_eq_of_lt (by split at hnear <;> omega)]
  split at hnear <;> omega

theorem sound_distance (h : p.Ready limit) (hp : p.Indexed) {len distance : ℕ}
    (hnear : distance <
      if p.checkDicSize = 0 then p.processedPos else p.checkDicSize) :
    (do
      let q ← { p with
          rep0 := (distance + 1) % 2 ^ 32
          rep1 := p.rep0
          rep2 := p.rep1
          rep3 := p.rep2
          state := if p.state < kNumLitStates then kNumLitStates
            else kNumLitStates + 3 }.copyMatch limit len
      pure (q, false) : SymbolTree (LzmaDec × Bool)).Sat
        fun r _ _ => p.Sound limit r := by
  obtain ⟨hsome, hbound⟩ := h.distance hnear
  have hstart : 0 < p.dicPos := lt_of_lt_of_le hsome hbound
  exact decoded_copyMatch h ⟨rfl, rfl, rfl, rfl, rfl, le_rfl, fun _ _ => rfl⟩
    ⟨by dsimp only; split <;> decide, hp.prop⟩ rfl
    { h.toInDic with
      rep0 := ⟨hsome, hbound.trans (le_max_right _ _)⟩
      rep1 := h.rep0
      rep2 := h.rep1
      rep3 := h.rep2
      matched := fun _ => hstart } hstart

theorem Ready.started (h : p.Ready limit)
    (hsome : p.checkDicSize ≠ 0 ∨ p.processedPos ≠ 0) : 0 < p.dicPos := by
  have hchecked := h.checked
  have hprocessed := h.processed
  omega

/-- The byte at the last distance. -/
theorem Ready.repPos_lt (h : p.Ready limit) (hstart : 0 < p.dicPos) :
    p.repPos < p.dicBufSize := by
  have hsize := h.size
  have hroom := h.room
  have hpos := h.rep0.1
  rw [repPos_of_le (h.rep0.le hstart) (by omega)]
  omega

theorem literalSymbol_result (h : p.Ready limit) :
    p.literalSymbol.Sat (Ok fun _ _ _ => True) := by
  have hprobs : p.literalProbs.Sat (Ok fun _ _ _ => True) := by
    unfold literalProbs
    by_cases hsome : p.checkDicSize ≠ 0 ∨ p.processedPos ≠ 0
    · have hstart := h.started hsome
      have hsize := h.size
      have hroom := h.room
      rw [if_pos hsome, if_neg (Nat.ne_of_gt hstart), sub64_of_le hstart (by omega),
        dicByte_result (by omega)]
      exact ⟨_, rfl, trivial⟩
    · rw [if_neg hsome]
      exact ⟨_, rfl, trivial⟩
  unfold literalSymbol
  refine Sat.bind_ok hprobs fun prob is d _ => ?_
  by_cases hstate : p.state < kNumLitStates
  · rw [if_pos hstate]
    refine Sat.mono ?_ (treeFrom_sat prob 8 Nat.one_pos)
    rintro r is d ⟨v, rfl, -⟩
    exact ⟨v, rfl, trivial⟩
  · rw [if_neg hstate, dicByte_result (h.repPos_lt (h.matched (Nat.le_of_not_lt hstate)))]
    refine Sat.mono ?_ (matchedFrom_sat prob 8 (.inr rfl) Nat.one_pos (by decide))
    rintro r is d ⟨v, rfl, -⟩
    exact ⟨v, rfl, trivial⟩

/-- The last distances, in another order. -/
structure Reordered (p q : LzmaDec) : Prop where
  eq : q = { p with rep0 := q.rep0, rep1 := q.rep1, rep2 := q.rep2, rep3 := q.rep3 }
  rep0 : p.Reaching q.rep0
  rep1 : p.Reaching q.rep1
  rep2 : p.Reaching q.rep2
  rep3 : p.Reaching q.rep3

theorem decodeRep_result (h : p.InDic) :
    p.decodeRep.Sat (Ok fun r _ _ => ∀ q, r = some q → p.Reordered q) := by
  unfold decodeRep
  refine sat_bit.mpr fun g0 => ?_
  cases g0 with
  | false =>
      refine sat_bit.mpr fun long => ?_
      cases long with
      | false => exact ⟨none, rfl, fun q hq => by cases hq⟩
      | true =>
          refine ⟨_, rfl, fun q hq => ?_⟩
          cases hq
          exact ⟨rfl, h.rep0, h.rep1, h.rep2, h.rep3⟩
  | true =>
      refine sat_bit.mpr fun g1 => ?_
      cases g1 with
      | false =>
          refine ⟨_, rfl, fun q hq => ?_⟩
          cases hq
          exact ⟨rfl, h.rep1, h.rep0, h.rep2, h.rep3⟩
      | true =>
          refine sat_bit.mpr fun g2 => ?_
          cases g2 with
          | false =>
              refine ⟨_, rfl, fun q hq => ?_⟩
              cases hq
              exact ⟨rfl, h.rep2, h.rep0, h.rep1, h.rep3⟩
          | true =>
              refine ⟨_, rfl, fun q hq => ?_⟩
              cases hq
              exact ⟨rfl, h.rep3, h.rep0, h.rep1, h.rep2⟩

theorem sound_reordered (h : p.Ready limit) (hp : p.Indexed) (hstart : 0 < p.dicPos)
    (hq : p.Reordered q) {state len : ℕ} (hstate : state < kNumStates) :
    (do
      let q ← { q with state := state }.copyMatch limit len
      pure (q, false) : SymbolTree (LzmaDec × Bool)).Sat
        fun r _ _ => p.Sound limit r := by
  have hrep0 := hq.rep0
  have hrep1 := hq.rep1
  have hrep2 := hq.rep2
  have hrep3 := hq.rep3
  rw [hq.eq]
  exact decoded_copyMatch h ⟨rfl, rfl, rfl, rfl, rfl, le_rfl, fun _ _ => rfl⟩
    ⟨hstate, hp.prop⟩ rfl
    { h.toInDic with
      rep0 := hrep0
      rep1 := hrep1
      rep2 := hrep2
      rep3 := hrep3
      matched := fun _ => hstart } hstart

theorem sat_any {ε α β : Type} {P : Except ε β → Prop} {Q : α → List ℕ → ℕ → Prop}
    {t : BitTree ε α} {f : α → BitTree ε β} (ht : t.Sat (Ok Q))
    (hf : ∀ a, (f a).Sat fun r _ _ => P r) : (t >>= f).Sat fun r _ _ => P r :=
  Sat.bind_ok ht fun a _ _ _ => hf a

theorem symbol_sound (h : p.Ready limit) (hp : p.Indexed) :
    (p.symbol limit).Sat fun r _ _ => p.Sound limit r := by
  unfold symbol
  refine sat_bit.mpr fun matched => ?_
  cases matched with
  | false =>
      refine sat_any (literalSymbol_result h) fun symbol => ?_
      exact sound_putByte h hp (lt_of_lt_of_le (literalState_le hp.state) (by decide)) _
  | true =>
      refine sat_bit.mpr fun rep => ?_
      cases rep with
      | false =>
          refine sat_any (decodeLen_sat hp.posState_lt) fun len => ?_
          refine sat_any (decodeDistance_sat len) fun dist => ?_
          obtain ⟨distance, canEnd⟩ := dist
          dsimp only
          by_cases hend : canEnd ∧ distance = 0xffffffff
          · rw [if_pos hend]
            exact decoded_end h hp (Nat.le_add_left _ _)
          rw [if_neg hend]
          by_cases hfar :
              (if p.checkDicSize = 0 then p.processedPos else p.checkDicSize) ≤ distance
          · rw [if_pos hfar]
            rfl
          · rw [if_neg hfar]
            exact sound_distance h hp (Nat.lt_of_not_le hfar)
      | true =>
          by_cases hstart : p.checkDicSize = 0 ∧ p.processedPos = 0
          · simp only [Bool.true_eq_false, if_false, if_pos hstart]
            rfl
          simp only [Bool.true_eq_false, if_false, if_neg hstart]
          have hpos := h.started (by omega)
          refine Sat.bind_ok (decodeRep_result h.toInDic) fun r _ _ hr => ?_
          cases r with
          | none =>
              dsimp only
              rw [dicByte_result (h.repPos_lt hpos)]
              exact sound_putByte h hp (by split <;> decide) _
          | some q =>
              refine sat_any (decodeLen_sat hp.posState_lt) fun len => ?_
              exact sound_reordered h hp hpos (hr q rfl) (by split <;> decide)

end LzmaDec

end Lzma

end PongoOS
