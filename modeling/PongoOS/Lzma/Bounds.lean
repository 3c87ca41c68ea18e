import PongoOS.Lzma.Dictionary

/-!
# The input of the LZMA decoder

Twenty bytes are enough for any symbol, since the probabilities bound how much of
the range a bit takes.  Where fewer bytes are left, a symbol is decoded only if
the trial of it found enough of them.  So no byte behind the input is read.
-/

namespace PongoOS

open RangeCoder BitTree

namespace Lzma

/-! ## The trial of a symbol -/

section Parts

variable {ε ε' : Type}

theorem reverseFrom_follows (prob n i mask distance : ℕ) :
    (reverseFrom prob n i mask distance : BitTree ε ℕ).Follows (fun _ _ => True)
      (dummyReverse prob n i : BitTree ε' Unit) := by
  induction n generalizing i mask distance with
  | zero => exact ⟨(), rfl, trivial⟩
  | succ n ih => exact ⟨_, rfl, fun b => ih _ _ _⟩

theorem directFrom_follows (n distance : ℕ) :
    (directFrom n distance : BitTree ε ℕ).Follows (fun _ _ => True)
      (dummyDirect n : BitTree ε' Unit) := by
  induction n generalizing distance with
  | zero => exact ⟨(), rfl, trivial⟩
  | succ n ih => exact ⟨_, rfl, fun b => ih _⟩

theorem treeFrom_follows (base n i : ℕ) :
    (treeFrom base n i : BitTree ε ℕ).Follows Eq
      (treeFrom base n i : BitTree ε' ℕ) := by
  induction n generalizing i with
  | zero => exact ⟨i, rfl, rfl⟩
  | succ n ih => exact ⟨_, rfl, fun b => ih _⟩

theorem tree_follows (base n : ℕ) :
    (tree base n : BitTree ε ℕ).Follows Eq (tree base n : BitTree ε' ℕ) := by
  refine (treeFrom_follows base n 1).bind ?_
  rintro i _ rfl
  exact ⟨_, rfl, rfl⟩

theorem decodeDistance_follows (len : ℕ) :
    (decodeDistance len : BitTree ε (ℕ × Bool)).Follows (fun _ _ => True)
      (dummyDistance len : BitTree ε' Unit) := by
  unfold decodeDistance dummyDistance
  refine (tree_follows _ _).bind ?_
  rintro slot _ rfl
  by_cases hshort : slot < kStartPosModelIndex
  · rw [if_pos hshort, if_pos hshort]
    exact ⟨(), rfl, trivial⟩
  rw [if_neg hshort, if_neg hshort]
  dsimp only
  by_cases hspec : slot < kEndPosModelIndex
  · rw [if_pos hspec, if_pos hspec]
    exact (reverseFrom_follows _ _ _ _ _).bind_left fun _ _ _ => ⟨_, rfl, trivial⟩
  · rw [if_neg hspec, if_neg hspec]
    refine (directFrom_follows _ _).bind fun _ _ _ => ?_
    exact (reverseFrom_follows _ _ _ _ _).bind_left fun _ _ _ => ⟨_, rfl, trivial⟩

end Parts

namespace LzmaDec

variable {p : LzmaDec} {limit : ℕ}

theorem decodeRep_follows :
    p.decodeRep.Follows (fun r b => r = none ↔ b = false) p.dummyRep := by
  unfold decodeRep dummyRep
  refine (Follows.bit _).bind ?_
  rintro g0 _ rfl
  cases g0 with
  | false =>
      refine (Follows.bit _).bind_left ?_
      rintro long _ rfl
      cases long with
      | false => exact ⟨_, rfl, by simp⟩
      | true => exact ⟨_, rfl, by simp⟩
  | true =>
      refine (Follows.bit _).bind ?_
      rintro g1 _ rfl
      cases g1 with
      | false => exact ⟨_, rfl, by simp⟩
      | true =>
          refine (Follows.bit _).bind ?_
          rintro g2 _ rfl
          cases g2 with
          | false => exact ⟨_, rfl, by simp⟩
          | true => exact ⟨_, rfl, by simp⟩

/-- The symbol takes the bits that were tried, unless it is wrong. -/
theorem symbol_follows : (p.symbol limit).Follows (fun _ _ => True) p.dummy := by
  unfold symbol dummy
  refine (Follows.bit _).bind ?_
  rintro matched _ rfl
  cases matched with
  | false =>
      refine (Follows.refl p.literalSymbol).bind fun _ _ _ => ?_
      exact follows_done (Sat.bind_end (putByte_sat _) fun q => ⟨rfl, rfl⟩)
  | true =>
      refine (Follows.bit _).bind ?_
      rintro rep _ rfl
      cases rep with
      | false =>
          refine (Follows.refl (decodeLen lenCoder p.posState)).bind ?_
          rintro len _ rfl
          refine (decodeDistance_follows len).bind ?_
          rintro ⟨distance, canEnd⟩ _ -
          refine follows_done ?_
          dsimp only
          by_cases hend : canEnd ∧ distance = 0xffffffff
          · rw [if_pos hend]
            exact ⟨rfl, rfl⟩
          rw [if_neg hend]
          by_cases hfar :
              (if p.checkDicSize = 0 then p.processedPos else p.checkDicSize) ≤ distance
          · rw [if_pos hfar]
            exact ⟨rfl, rfl⟩
          · rw [if_neg hfar]
            exact Sat.bind_end (copyMatch_sat _) fun q => ⟨rfl, rfl⟩
      | true =>
          by_cases hstart : p.checkDicSize = 0 ∧ p.processedPos = 0
          · simp only [Bool.true_eq_false, if_false, if_pos hstart]
            trivial
          simp only [Bool.true_eq_false, if_false, if_neg hstart]
          refine decodeRep_follows.bind fun r b hrb => ?_
          cases r with
          | none =>
              rw [hrb.mp rfl]
              refine follows_done (Sat.bind_end (dicByte_sat _) fun b => ?_)
              exact Sat.bind_end (putByte_sat _) fun q => ⟨rfl, rfl⟩
          | some q =>
              have hb : b = true := by simpa using hrb
              rw [hb]
              refine (Follows.refl (decodeLen repLenCoder p.posState)).bind
                fun _ _ _ => ?_
              exact follows_done (Sat.bind_end (copyMatch_sat _) fun q => ⟨rfl, rfl⟩)

/-! ## One symbol -/

theorem reaches_of_affordable {c c' : Coder} {m d : ℕ} (h : Affordable m d)
    (hreaches : c.Reaches c' m d) : c.Reaches c' 22 26 ∨ c.Reaches c' 23 0 := by
  rcases h with ⟨hm, hd⟩ | ⟨hm, rfl⟩
  · exact .inl (hreaches.mono hm hd)
  · exact .inr (hreaches.mono hm le_rfl)

/-- Twenty bytes are enough from a coder that is normalized on. -/
theorem pos_le_twenty {c c' n : Coder} {m d : ℕ} (h : Affordable m d)
    (hreaches : c.Reaches c' m d) (hn : c'.Normal n) (hlower : topValue ≤ c.range) :
    n.pos ≤ c.pos + 20 := by
  unfold topValue at hlower
  rcases reaches_of_affordable h hreaches with hreaches | hreaches
  · exact hreaches.pos_le hn hlower (by norm_num)
  · exact hreaches.pos_le hn hlower (by norm_num)

theorem pos_le_twentyOne {c c' n : Coder} {m d : ℕ} (h : Affordable m d)
    (hreaches : c.Reaches c' m d) (hn : c'.Normal n) (hc : c.Valid) :
    n.pos ≤ c.pos + 21 := by
  have hlower := hc.lower
  unfold minRange at hlower
  rcases reaches_of_affordable h hreaches with hreaches | hreaches
  · exact hreaches.pos_le hn hlower (by norm_num)
  · exact hreaches.pos_le hn hlower (by norm_num)

/-- What one symbol does to the decoder and to the coder. -/
structure Round (p : LzmaDec) (src : ByteMemory) (limit : ℕ) : Prop where
  sound : p.Sound limit (p.symbolRun src limit).1
  valid : (p.symbolRun src limit).2.2.Valid
  pos_le : p.coder.pos ≤ (p.symbolRun src limit).2.2.pos
  twenty : topValue ≤ p.coder.range →
    ((p.symbolRun src limit).2.2.normalize src).pos ≤ p.coder.pos + 20
  twentyOne :
    ((p.symbolRun src limit).2.2.normalize src).pos ≤ p.coder.pos + 21

theorem symbolRun_round {src : ByteMemory} (h : p.Ready limit) (hp : p.Indexed)
    (hc : p.coder.Valid) : p.Round src limit := by
  obtain ⟨is, d, ⟨hsound, hcheap⟩, hreaches⟩ :=
    ((symbol_sound h hp).and (symbol_sat hp)).run hc src p.probs
  have hn := hreaches.valid.normalize src
  exact ⟨hsound, hreaches.valid, hreaches.pos, pos_le_twenty hcheap.2 hreaches hn,
    pos_le_twentyOne hcheap.2 hreaches hn hc⟩

/-- The bytes in front of `bound` are enough for the next symbol. -/
structure Fits (p : LzmaDec) (src : ByteMemory) (limit bound : ℕ) : Prop where
  pos_le : (p.symbolRun src limit).2.2.pos ≤ bound
  normal_le : ∀ a, (p.symbolRun src limit).1 = .ok a →
    ((p.symbolRun src limit).2.2.normalize src).pos ≤ bound

theorem Round.fits {src : ByteMemory} {bound : ℕ} (h : p.Round src limit)
    (hbound : p.coder.pos + 21 ≤ bound ∨
      topValue ≤ p.coder.range ∧ p.coder.pos + 20 ≤ bound) :
    p.Fits src limit bound := by
  have hnormal : ((p.symbolRun src limit).2.2.normalize src).pos ≤ bound := by
    rcases hbound with hbound | ⟨hlower, hbound⟩
    · exact h.twentyOne.trans hbound
    · exact (h.twenty hlower).trans hbound
  exact ⟨(h.valid.normalize src).pos.trans hnormal, fun _ _ => hnormal⟩

theorem symbol_fresh (hp : p.Indexed) : (p.symbol limit).Fresh [] := by
  refine Sat.mono ?_ (symbol_sat hp)
  intro r is d hcheap
  exact ⟨hcheap.1.nodup, fun i _ => List.not_mem_nil⟩

/-- A symbol whose trial found enough bytes is decoded with the same ones. -/
theorem symbolRun_of_tryDummy {src : ByteMemory} {bound : ℕ} (limit : ℕ)
    {r : Except SymbolStop Dummy} {c : Coder} (hp : p.Indexed)
    (hpos : p.coder.pos ≤ bound) (htry : p.tryDummy src p.coder.pos bound = .ok (r, c)) :
    (p.symbolRun src limit).2.2.pos ≤ bound ∧
      ∀ a, (p.symbolRun src limit).1 = .ok a →
        (p.symbolRun src limit).2.2.normalize src = c ∧ c.pos ≤ bound := by
  unfold tryDummy at htry
  rw [except_bind_eq_ok] at htry
  obtain ⟨⟨result, c'⟩, hcheck, htry⟩ := htry
  rw [except_bind_eq_ok] at htry
  obtain ⟨n, hn, hresult⟩ := htry
  cases hresult
  obtain ⟨hle, hsame⟩ :=
    symbol_follows.check (symbol_fresh hp) (fun _ _ => rfl) hpos hcheck
  refine ⟨hle, fun a ha => ?_⟩
  obtain ⟨b, -, -, hc⟩ := hsame a ha
  obtain ⟨rfl, hnpos⟩ := checkedNormalize_ok hn
  rw [← hc] at hnpos ⊢
  exact ⟨rfl, hnpos hle⟩

theorem fits_of_tryDummy {src : ByteMemory} {pos bound : ℕ} {r}
    (hp : p.Indexed) (hpos : p.coder.pos ≤ bound) (hcoder : p.coder.pos = pos)
    (htry : p.tryDummy src pos bound = .ok r) : p.Fits src limit bound := by
  subst hcoder
  obtain ⟨hle, hsame⟩ := symbolRun_of_tryDummy limit hp hpos htry
  refine ⟨hle, fun a ha => ?_⟩
  obtain ⟨hnormal, hbound⟩ := hsame a ha
  rw [hnormal]
  exact hbound

/-! ## Many symbols -/

/-- What decoding leaves when it succeeds. -/
structure Advanced (p : LzmaDec) (limit bound : ℕ) (q : LzmaDec) : Prop where
  continues : p.Extends q
  indexed : q.Indexed
  inDic : q.InDic
  valid : q.coder.Valid
  normal : topValue ≤ q.coder.range
  pos_le : p.coder.pos ≤ q.coder.pos
  bound : q.coder.pos ≤ bound
  le : q.dicPos ≤ max limit (p.dicPos + 1)
  moved : p.dicPos < q.dicPos ∨ kMatchSpecLenStart ≤ q.remainLen

/-- What it leaves when the data are wrong. -/
structure Failed (p : LzmaDec) (limit bound : ℕ) (q : LzmaDec) : Prop where
  continues : p.Extends q
  inDic : q.InDic
  pos_le : p.coder.pos ≤ q.coder.pos
  bound : q.coder.pos ≤ bound
  le : q.dicPos ≤ max limit (p.dicPos + 1)

/-- The results of decoding: it ends, and inside of the dictionary and the
input. -/
def Within (p : LzmaDec) (limit bound : ℕ) : Except LzmaStop LzmaDec → Prop
  | .ok q => p.Advanced limit bound q
  | .error (.data q) => p.Failed limit bound q
  | .error _ => False

section Real

variable {src : ByteMemory} {bufLimit bound fuel : ℕ}

/-- The coder is no part of what is known of the dictionary. -/
theorem InDic.withCoder {q : LzmaDec} (h : q.InDic) (probs : Model) (coder : Coder) :
    { q with probs := probs, coder := coder }.InDic :=
  ⟨h.size, h.room, h.processed, h.processed_lt, h.checked, h.checked_lt, h.rep0,
    h.rep1, h.rep2, h.rep3, h.matched, h.remain⟩

/-- The decoder is ready for the next symbol where there is room for it. -/
theorem Decoded.next {q : LzmaDec} {isEnd : Bool} (hdecoded : p.Decoded limit q isEnd)
    (h : p.Ready limit) (hfree : q.dicPos < limit) (probs : Model) (coder : Coder) :
    { q with probs := probs, coder := coder }.Ready limit ∧
      { q with probs := probs, coder := coder }.Indexed := by
  have hsize := h.le_size
  rw [← hdecoded.continues.dicBufSize] at hsize
  exact ⟨⟨hdecoded.inDic.withCoder _ _, lt_of_lt_of_le hfree hsize,
    Nat.le_of_lt hfree, hsize⟩, hdecoded.indexed.state, hdecoded.indexed.prop⟩

theorem Within.trans {q : LzmaDec} {r : Except LzmaStop LzmaDec}
    (hext : p.Extends q) (hpos : p.coder.pos ≤ q.coder.pos) (hlt : p.dicPos < q.dicPos)
    (hfree : q.dicPos < limit) (h : q.Within limit bound r) :
    p.Within limit bound r := by
  have hmax : max limit (q.dicPos + 1) ≤ max limit (p.dicPos + 1) :=
    (max_le le_rfl hfree).trans (le_max_left _ _)
  match r, h with
  | .ok _, h =>
      exact ⟨hext.trans h.continues, h.indexed, h.inDic, h.valid, h.normal,
        hpos.trans h.pos_le, h.bound, h.le.trans hmax,
        .inl (lt_of_lt_of_le hlt h.continues.dicPos)⟩
  | .error (.data _), h =>
      exact ⟨hext.trans h.continues, h.inDic, hpos.trans h.pos_le, h.bound,
        h.le.trans hmax⟩

theorem decodeReal_within (h : p.Ready limit) (hp : p.Indexed) (hc : p.coder.Valid)
    (hfuel : limit - p.dicPos < fuel)
    (hloop : bufLimit + 20 ≤ bound ∨ bufLimit ≤ p.coder.pos)
    (hfits : p.Fits src limit bound) :
    p.Within limit bound (decodeReal src limit bufLimit fuel p) := by
  induction fuel generalizing p with
  | zero => omega
  | succ fuel ih =>
      have hround : p.Round src limit := symbolRun_round h hp hc
      have hvalid := hround.valid
      have hpos := hround.pos_le
      have hsound := hround.sound
      have hle := hfits.pos_le
      have hnormal := hfits.normal_le
      have hn := hvalid.normalize src
      rw [decodeReal]
      generalize p.symbolRun src limit = run at *
      obtain ⟨result, probs, coder⟩ := run
      match result, hsound with
      | .error _, rfl =>
          exact ⟨⟨rfl, rfl, rfl, rfl, rfl, le_rfl, fun _ _ => rfl⟩,
            h.toInDic.withCoder _ _, hpos, hle,
            (Nat.le_succ _).trans (le_max_right _ _)⟩
      | .ok (q, isEnd), hdecoded =>
          have hext : p.Extends { q with probs := probs, coder := coder } :=
            ⟨hdecoded.continues.prop, hdecoded.continues.dicBufSize,
              hdecoded.continues.needFlush, hdecoded.continues.needInitState,
              hdecoded.continues.tempBuf, hdecoded.continues.dicPos,
              hdecoded.continues.dic⟩
          dsimp only
          split
          · rename_i hgo
            obtain ⟨hend, hfree, hmore⟩ := hgo
            have hlt := hdecoded.moved hend
            obtain ⟨hready, hidx⟩ := hdecoded.next h hfree probs coder
            dsimp only at hpos hmore
            have hloop' : bufLimit + 20 ≤ bound := by omega
            have hfits' : { q with probs := probs, coder := coder }.Fits src limit bound :=
              (symbolRun_round hready hidx hvalid).fits (.inl (by dsimp only; omega))
            exact (ih hready hidx hvalid (by dsimp only; omega) (.inl hloop') hfits').trans
              hext hpos hlt hfree
          · refine
              { continues := ⟨hext.prop, hext.dicBufSize, hext.needFlush,
                  hext.needInitState, hext.tempBuf, hext.dicPos, hext.dic⟩
                indexed := ⟨hdecoded.indexed.state, hdecoded.indexed.prop⟩
                inDic := hdecoded.inDic.withCoder _ _
                valid := hn.valid
                normal := hn.lower
                pos_le := hpos.trans hn.pos
                bound := hnormal _ rfl
                le := hdecoded.le
                moved := ?_ }
            cases isEnd with
            | false => exact .inl (hdecoded.moved rfl)
            | true => exact .inr (hdecoded.marked rfl).2

end Real

end LzmaDec

end Lzma

end PongoOS
