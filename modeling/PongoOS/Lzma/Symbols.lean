import PongoOS.Lzma.Decoder

/-!
# The probabilities of a symbol

On every path of the decoder of a symbol the probabilities are different ones of
those that are allocated.  There are at most 22 of them and 26 further bits, or
23 and no further bits.
-/

namespace PongoOS

open RangeCoder BitTree

namespace Lzma

/-! ## The table -/

theorem isRep_eq : isRep = 192 := rfl
theorem isRepG0_eq : isRepG0 = 204 := rfl
theorem isRepG1_eq : isRepG1 = 216 := rfl
theorem isRepG2_eq : isRepG2 = 228 := rfl
theorem isRep0Long_eq : isRep0Long = 240 := rfl
theorem specPos_eq : specPos = 688 := rfl
theorem align_eq : align = 802 := rfl
theorem lenCoder_eq : lenCoder = 818 := rfl
theorem repLenCoder_eq : repLenCoder = 1332 := rfl
theorem lenMid_eq : lenMid = 130 := rfl
theorem lenHigh_eq : lenHigh = 258 := rfl

/-- The bits of a path that a decoder may have. -/
def Affordable (m d : ℕ) : Prop := m ≤ 22 ∧ d ≤ 26 ∨ m ≤ 23 ∧ d = 0

section Parts

variable {ε : Type}

theorem decodeLen_sat {prob posState : ℕ} (hpos : posState < 16) :
    (decodeLen prob posState : BitTree ε ℕ).Sat (Ok fun _ is d =>
      Reads (fun i => prob ≤ i ∧ i < prob + 514) 10 is ∧ d = 0) := by
  have hchoice : Reads (fun i => prob ≤ i ∧ i < prob + 2) 1 [prob + lenChoice] :=
    ⟨List.nodup_singleton _, fun i hi => by
      rw [List.mem_singleton.mp hi]
      exact ⟨Nat.le_add_right _ _, Nat.add_lt_add_left (by decide) _⟩, le_rfl⟩
  have hchoices : Reads (fun i => prob ≤ i ∧ i < prob + 2) 2
      [prob + lenChoice, prob + lenChoice2] :=
    ⟨by simp [lenChoice, lenChoice2], fun i hi => by
      simp only [List.mem_cons, List.not_mem_nil, or_false, lenChoice, lenChoice2] at hi
      omega, le_rfl⟩
  have hlow : prob + lenLow = prob + 2 := rfl
  unfold decodeLen
  refine sat_bit.mpr fun choice => ?_
  cases choice with
  | false =>
      refine Sat.mono ?_ (tree_sat _ _)
      rintro r is d ⟨v, rfl, hreads, rfl, -⟩
      unfold kLenNumLowBits at hreads
      refine ⟨v, rfl, (hchoice.append_interval hreads ?_ ?_ ?_).mono ?_ ?_, rfl⟩
      all_goals omega
  | true =>
      refine sat_bit.mpr fun choice2 => ?_
      cases choice2 with
      | false =>
          refine Sat.bind_ok (tree_sat _ _) ?_
          rintro v is d ⟨hreads, rfl, -⟩
          rw [sat_pure, List.append_nil]
          rw [lenMid_eq] at hreads
          unfold kLenNumMidBits at hreads
          refine ⟨_, rfl, (hchoices.append_interval hreads ?_ ?_ ?_).mono ?_ ?_, rfl⟩
          all_goals omega
      | true =>
          refine Sat.bind_ok (tree_sat _ _) ?_
          rintro v is d ⟨hreads, rfl, -⟩
          rw [sat_pure, List.append_nil]
          rw [lenHigh_eq] at hreads
          unfold kLenNumHighBits at hreads
          refine ⟨_, rfl, (hchoices.append_interval hreads ?_ ?_ ?_).mono ?_ ?_, rfl⟩
          all_goals omega

theorem reverseFrom_sat (prob n : ℕ) {i : ℕ} (hi : 0 < i) {mask distance : ℕ} :
    (reverseFrom prob n i mask distance : BitTree ε ℕ).Sat (Ok fun _ is d =>
      Reads (fun j => prob + i ≤ j ∧ 2 * j < 2 * prob + (i + 1) * 2 ^ n) n is ∧
        d = 0) := by
  induction n generalizing i mask distance with
  | zero => exact ⟨distance, rfl, .nil, rfl⟩
  | succ n ih =>
      refine sat_bit.mpr fun b => ?_
      refine Sat.mono ?_ (ih (i := 2 * i + b.toNat) (by omega))
      rintro r is d ⟨v, rfl, hreads, rfl⟩
      exact ⟨v, rfl, hreads.tree_step hi, rfl⟩

theorem directFrom_sat (n : ℕ) {distance : ℕ} :
    (directFrom n distance : BitTree ε ℕ).Sat
      (Ok fun _ is d => is = [] ∧ d = n) := by
  induction n generalizing distance with
  | zero => exact ⟨distance, rfl, rfl, rfl⟩
  | succ n ih =>
      refine sat_directBit.mpr fun b => ?_
      refine Sat.mono ?_ ih
      rintro r is d ⟨v, rfl, rfl, rfl⟩
      exact ⟨v, rfl, rfl, rfl⟩

/-- The distances with probabilities of their own start behind their slot, and end
in front of the table's end. -/
theorem specPos_bounds : ∀ slot < 14, 4 ≤ slot →
    slot ≤ (2 + slot % 2) * 2 ^ (slot / 2 - 1) ∧
      (2 + slot % 2) * 2 ^ (slot / 2 - 1) + 2 ^ (slot / 2 - 1) ≤ slot + 115 := by
  decide

/-- The probabilities of a distance are those in front of the lengths. -/
theorem decodeDistance_sat (len : ℕ) :
    (decodeDistance len : BitTree ε (ℕ × Bool)).Sat (Ok fun _ is d =>
      Reads (fun i => 432 ≤ i ∧ i < 818) 11 is ∧
        (d = 0 ∨ is.length ≤ 10 ∧ d ≤ 26)) := by
  have hbase : posSlotProbs len = 432 + (if len < 4 then len else 3) * 64 := rfl
  have hle : (if len < 4 then len else 3) ≤ 3 := by split <;> omega
  unfold decodeDistance
  refine Sat.bind_ok (tree_sat _ _) ?_
  rintro slot is d ⟨hreads, rfl, hslot⟩
  unfold kNumPosSlotBits at hreads hslot
  have hslots : Reads (fun i => 432 ≤ i ∧ i < 688) 6 is := by
    refine hreads.mono ?_ le_rfl
    rintro i ⟨hlow, hhigh⟩
    omega
  by_cases hshort : slot < kStartPosModelIndex
  · rw [if_pos hshort, sat_pure, List.append_nil]
    exact ⟨_, rfl, hslots.mono (fun i hi => by omega) (by decide), .inl rfl⟩
  rw [if_neg hshort]
  unfold kStartPosModelIndex at hshort
  by_cases hspec : slot < kEndPosModelIndex
  · simp only [if_pos hspec]
    unfold kEndPosModelIndex at hspec
    refine Sat.bind_ok (reverseFrom_sat _ _ Nat.one_pos) ?_
    rintro distance is' d' ⟨hreads', rfl⟩
    rw [sat_pure, List.append_nil]
    have hspecs : Reads (fun i => 688 ≤ i ∧ i < 802) 5 is' := by
      have hbounds := specPos_bounds slot hspec (by omega)
      rw [specPos_eq] at hreads'
      refine hreads'.mono ?_ (by omega)
      rintro i ⟨hlow, hhigh⟩
      omega
    exact ⟨_, rfl, (hslots.append_interval hspecs (by decide) le_rfl (by decide)).mono
      (fun i hi => by omega) le_rfl, .inl rfl⟩
  · simp only [if_neg hspec]
    refine Sat.bind_ok (directFrom_sat _) ?_
    rintro distance is' d' ⟨rfl, rfl⟩
    refine Sat.bind_ok (reverseFrom_sat _ _ Nat.one_pos) ?_
    rintro distance' is' d' ⟨hreads', rfl⟩
    rw [sat_pure, List.append_nil, List.nil_append]
    unfold kNumAlignBits at hreads'
    rw [align_eq] at hreads'
    have haligns : Reads (fun i => 802 ≤ i ∧ i < 818) 4 is' :=
      hreads'.mono (fun i hi => by omega) le_rfl
    have hall := hslots.append_interval haligns (by decide) (by decide) (by decide)
    refine ⟨_, rfl, hall.mono (fun i hi => hi) (by decide), .inr ⟨hall.length, ?_⟩⟩
    unfold kNumAlignBits
    omega

end Parts

/-! ## Literals -/

theorem and_two_pow_eight (b : ℕ) :
    b &&& 2 ^ 8 = if b.testBit 8 then 2 ^ 8 else 0 := by
  refine Nat.eq_of_testBit_eq fun i => ?_
  rw [Nat.testBit_and, Nat.testBit_two_pow]
  by_cases hi : 8 = i
  · subst hi
    cases b.testBit 8 with
    | false => rfl
    | true => rfl
  · rw [decide_eq_false hi, Bool.and_false]
    split
    · rw [Nat.testBit_two_pow, decide_eq_false hi]
    · rw [Nat.zero_testBit]

theorem and_offs {offs b : ℕ} (hoffs : offs = 0 ∨ offs = 256) :
    (b &&& offs = 0 ∨ b &&& offs = 256) ∧ b &&& offs ≤ offs := by
  refine ⟨?_, Nat.and_le_right⟩
  rcases hoffs with rfl | rfl
  · exact .inl (Nat.and_zero b)
  · rw [show 256 = 2 ^ 8 from rfl, and_two_pow_eight]
    split
    · exact .inr rfl
    · exact .inl rfl

namespace LzmaDec

/-- The probabilities of a literal behind a match are told apart by the bits that
are known. -/
theorem matchedFrom_sat (prob n : ℕ) {matchByte offs symbol : ℕ}
    (hoffs : offs = 0 ∨ offs = 256) (hpos : 0 < symbol)
    (hsymbol : (symbol + 1) * 2 ^ n ≤ 512) :
    (matchedFrom prob n matchByte offs symbol).Sat (Ok fun _ is d =>
      Reads (fun j => prob ≤ j ∧ j < prob + 768 ∧ symbol ≤ (j - prob) % 256) n is ∧
        d = 0) := by
  induction n generalizing matchByte offs symbol with
  | zero => exact ⟨symbol, rfl, .nil, rfl⟩
  | succ n ih =>
      refine sat_bit.mpr fun b => ?_
      obtain ⟨hbit, hle⟩ := and_offs (b := matchByte * 2) hoffs
      have hb : b.toNat ≤ 1 := b.toNat_le
      have hpow : 1 ≤ 2 ^ n := Nat.one_le_two_pow
      have hdouble : (symbol + 1) * 2 * 2 ^ n ≤ 512 := by
        rwa [Nat.mul_assoc, ← Nat.pow_succ']
      have hsmall : (symbol + 1) * 2 ≤ 512 := by
        calc (symbol + 1) * 2 ≤ (symbol + 1) * 2 * 2 ^ n :=
              Nat.le_mul_of_pos_right _ hpow
          _ ≤ 512 := hdouble
      have hnext : (2 * symbol + b.toNat + 1) * 2 ^ n ≤ 512 :=
        (Nat.mul_le_mul_right _ (by omega)).trans hdouble
      have hoffs' : (if b then offs &&& (matchByte * 2 &&& offs)
          else offs - (matchByte * 2 &&& offs)) = 0 ∨
          (if b then offs &&& (matchByte * 2 &&& offs)
            else offs - (matchByte * 2 &&& offs)) = 256 := by
        cases b with
        | false =>
            simp only [Bool.false_eq_true, if_false]
            omega
        | true =>
            simp only [if_true]
            exact (and_offs hbit).1
      refine Sat.mono ?_ (ih hoffs'
        (by omega) hnext)
      rintro r is d ⟨v, rfl, hreads, rfl⟩
      refine ⟨v, rfl, hreads.cons ⟨by omega, by omega, by omega⟩ ?_ ?_, rfl⟩
      · rintro ⟨-, -, hsym⟩
        omega
      · rintro j ⟨hlow, hhigh, hsym⟩
        exact ⟨hlow, hhigh, by omega⟩

/-- What the decoder relies on to find its probabilities. -/
structure Indexed (p : LzmaDec) : Prop where
  state : p.state < kNumStates
  prop : ValidProps p.prop

variable {p : LzmaDec} {limit : ℕ}

theorem dicByte_sat (i : ℕ) :
    (p.dicByte i).Sat fun _ is d => is = [] ∧ d = 0 := by
  unfold dicByte
  split
  · exact ⟨rfl, rfl⟩
  · exact ⟨rfl, rfl⟩

theorem putByte_sat (b : UInt8) :
    (p.putByte b).Sat fun _ is d => is = [] ∧ d = 0 := by
  unfold putByte
  split
  · exact ⟨rfl, rfl⟩
  · exact ⟨rfl, rfl⟩

theorem copyFrom_sat (wraps : Bool) (n pos : ℕ) :
    (copyFrom wraps n pos p).Sat fun _ is d => is = [] ∧ d = 0 := by
  induction n generalizing pos p with
  | zero => exact ⟨rfl, rfl⟩
  | succ n ih =>
      unfold copyFrom
      split
      · exact Sat.bind_end (dicByte_sat pos) fun b => ih _
      · exact ⟨rfl, rfl⟩

theorem copyMatch_sat (len : ℕ) :
    (p.copyMatch limit len).Sat fun _ is d => is = [] ∧ d = 0 := by
  unfold copyMatch
  dsimp only
  split
  · exact ⟨rfl, rfl⟩
  · exact copyFrom_sat _ _ _

/-- The probabilities of a literal are a part of those behind the table. -/
theorem literalProbs_sat (hp : p.Indexed) :
    p.literalProbs.Sat fun r is d => is = [] ∧ d = 0 ∧ ∀ prob, r = .ok prob →
      1846 ≤ prob ∧ prob + 768 ≤ lzmaPropsGetNumProbs p.prop := by
  have hpow : 1 ≤ 2 ^ (p.prop.lc + p.prop.lp) := Nat.one_le_two_pow
  unfold literalProbs lzmaPropsGetNumProbs lzmaBaseSize lzmaLitSize
  rw [literal_eq]
  unfold lzmaBaseSize
  split
  · refine Sat.bind (Sat.mono ?_ (dicByte_sat _))
    rintro (e | prev) is d ⟨rfl, rfl⟩
    · exact ⟨rfl, rfl, fun prob h => by cases h⟩
    · refine ⟨rfl, rfl, fun prob h => ?_⟩
      cases h
      have hlow : p.processedPos % 2 ^ p.prop.lp < 2 ^ p.prop.lp :=
        Nat.mod_lt _ (Nat.two_pow_pos _)
      have hprev : prev.toNat / 2 ^ (8 - p.prop.lc) < 2 ^ p.prop.lc := by
        rw [Nat.div_lt_iff_lt_mul (Nat.two_pow_pos _), ← Nat.pow_add,
          Nat.add_sub_cancel' hp.prop.lc]
        exact prev.toNat_lt
      have hindex : p.processedPos % 2 ^ p.prop.lp * 2 ^ p.prop.lc +
          prev.toNat / 2 ^ (8 - p.prop.lc) < 2 ^ (p.prop.lc + p.prop.lp) := by
        calc p.processedPos % 2 ^ p.prop.lp * 2 ^ p.prop.lc +
              prev.toNat / 2 ^ (8 - p.prop.lc)
            < p.processedPos % 2 ^ p.prop.lp * 2 ^ p.prop.lc + 2 ^ p.prop.lc :=
              Nat.add_lt_add_left hprev _
          _ = (p.processedPos % 2 ^ p.prop.lp + 1) * 2 ^ p.prop.lc :=
              (Nat.succ_mul _ _).symm
          _ ≤ 2 ^ p.prop.lp * 2 ^ p.prop.lc := Nat.mul_le_mul_right _ hlow
          _ = 2 ^ (p.prop.lc + p.prop.lp) := by rw [← Nat.pow_add, Nat.add_comm]
      omega
  · refine ⟨rfl, rfl, fun prob h => ?_⟩
    cases h
    omega

theorem literalSymbol_sat (hp : p.Indexed) :
    p.literalSymbol.Sat fun _ is d =>
      Reads (fun i => 1846 ≤ i ∧ i < lzmaPropsGetNumProbs p.prop) 8 is ∧ d = 0 := by
  unfold literalSymbol
  refine Sat.bind (Sat.mono ?_ (literalProbs_sat hp))
  rintro (e | prob) is d ⟨rfl, rfl, hprob⟩
  · exact ⟨.nil, rfl⟩
  obtain ⟨hlow, hhigh⟩ := hprob prob rfl
  unfold After
  dsimp only
  split
  · refine Sat.mono ?_ (treeFrom_sat prob 8 Nat.one_pos)
    rintro r is d ⟨v, rfl, hreads, rfl, -⟩
    exact ⟨hreads.mono (fun i hi => by omega) le_rfl, rfl⟩
  · refine Sat.bind (Sat.mono ?_ (dicByte_sat _))
    rintro (e | matchByte) is d ⟨rfl, rfl⟩
    · exact ⟨.nil, rfl⟩
    · refine Sat.mono ?_ (matchedFrom_sat prob 8 (.inr rfl) Nat.one_pos (by decide))
      rintro r is d ⟨v, rfl, hreads, rfl⟩
      exact ⟨hreads.mono (fun i hi => by omega) le_rfl, rfl⟩

/-! ## Matches -/

theorem Indexed.posState_lt (hp : p.Indexed) : p.posState < 16 := by
  have hpow : 2 ^ p.prop.pb ≤ 2 ^ 4 := Nat.pow_le_pow_right (by decide) hp.prop.pb
  exact lt_of_lt_of_le (Nat.mod_lt _ (Nat.two_pow_pos _)) hpow

theorem reads_two {S : ℕ → Prop} {i j : ℕ} (hi : S i) (hj : S j) (hij : i ≠ j) :
    Reads S 2 [i, j] :=
  ⟨by simp [hij], fun k hk => by
    simp only [List.mem_cons, List.not_mem_nil, or_false] at hk
    rcases hk with rfl | rfl
    · exact hi
    · exact hj, le_rfl⟩

theorem reads_three {S : ℕ → Prop} {i j k : ℕ} (hi : S i) (hj : S j) (hk : S k)
    (hij : i < j) (hjk : j < k) : Reads S 3 [i, j, k] :=
  ⟨by
    simp only [List.nodup_cons, List.mem_cons, List.not_mem_nil, or_false, not_or,
      not_false_eq_true, List.nodup_nil, and_true]
    omega, fun l hl => by
    simp only [List.mem_cons, List.not_mem_nil, or_false] at hl
    rcases hl with rfl | rfl | rfl
    · exact hi
    · exact hj
    · exact hk, le_rfl⟩

theorem decodeRep_sat (hp : p.Indexed) :
    p.decodeRep.Sat (Ok fun _ is d =>
      Reads (fun i => 204 ≤ i ∧ i < 432) 3 is ∧ d = 0) := by
  have hstate := hp.state
  have hpos := hp.posState_lt
  unfold kNumStates at hstate
  unfold decodeRep
  rw [isRepG0_eq, isRepG1_eq, isRepG2_eq, isRep0Long_eq]
  unfold kNumPosBitsMax
  refine sat_bit.mpr fun g0 => ?_
  cases g0 with
  | false =>
      refine sat_bit.mpr fun long => ?_
      have hreads : Reads (fun i => 204 ≤ i ∧ i < 432) 3
          [204 + p.state, 240 + p.state * 2 ^ 4 + p.posState] :=
        (reads_two (by omega) (by omega) (by omega)).mono (fun _ hi => hi) (by decide)
      cases long with
      | false => exact ⟨_, rfl, hreads, rfl⟩
      | true => exact ⟨_, rfl, hreads, rfl⟩
  | true =>
      refine sat_bit.mpr fun g1 => ?_
      cases g1 with
      | false =>
          exact ⟨_, rfl, (reads_two (by omega) (by omega) (by omega)).mono
            (fun _ hi => hi) (by decide), rfl⟩
      | true =>
          refine sat_bit.mpr fun g2 => ?_
          have hreads : Reads (fun i => 204 ≤ i ∧ i < 432) 3
              [204 + p.state, 216 + p.state, 228 + p.state] :=
            reads_three (by omega) (by omega) (by omega) (by omega) (by omega)
          cases g2 with
          | false => exact ⟨_, rfl, hreads, rfl⟩
          | true => exact ⟨_, rfl, hreads, rfl⟩

/-- The probabilities of a symbol are different ones of those that are allocated,
and its bits are few. -/
def Cheap (p : LzmaDec) (is : List ℕ) (d : ℕ) : Prop :=
  Reads (fun i => i < lzmaPropsGetNumProbs p.prop) 23 is ∧ Affordable is.length d

theorem symbol_sat (hp : p.Indexed) :
    (p.symbol limit).Sat fun _ is d => p.Cheap is d := by
  have hstate := hp.state
  have hpos := hp.posState_lt
  have hnum : 1846 ≤ lzmaPropsGetNumProbs p.prop := Nat.le_add_right _ _
  unfold kNumStates at hstate
  unfold symbol
  rw [isRep_eq]
  unfold isMatch kNumPosBitsMax
  rw [Nat.zero_add]
  refine sat_bit.mpr fun matched => ?_
  cases matched with
  | false =>
      refine Sat.bind_end (Sat.mono ?_ (literalSymbol_sat hp)) fun symbol => ?_
      · rintro r is d ⟨hreads, rfl⟩
        have hall := Reads.cons (S := fun i => i < lzmaPropsGetNumProbs p.prop)
          (i := p.state * 2 ^ 4 + p.posState) (by omega) hreads (by omega)
          (fun j hj => hj.2)
        exact ⟨hall.mono (fun _ hi => hi) (by decide),
          .inl ⟨hall.length.trans (by decide), Nat.zero_le _⟩⟩
      · exact Sat.bind_end (putByte_sat _) fun q => ⟨rfl, rfl⟩
  | true =>
      refine sat_bit.mpr fun rep => ?_
      have hhead : Reads (fun i => 0 ≤ i ∧ i < 204) 2
          [p.state * 2 ^ 4 + p.posState, 192 + p.state] :=
        reads_two (by omega) (by omega) (by omega)
      cases rep with
      | false =>
          refine Sat.bind_ok (decodeLen_sat hpos) ?_
          rintro len is d ⟨hlen, rfl⟩
          rw [lenCoder_eq] at hlen
          refine Sat.bind_end (Sat.mono ?_ (decodeDistance_sat len)) ?_
          · rintro r is' d ⟨v, rfl, hdist, hcost⟩
            have htail := hlen.append hdist fun i hi hi' => by omega
            have hall := (hhead.append htail fun i hi hi' => by omega).mono
              (T := fun i => i < lzmaPropsGetNumProbs p.prop) (fun i hi => by omega)
              le_rfl
            have hlength := hlen.length
            have hlength' := hdist.length
            refine ⟨hall, ?_⟩
            unfold Affordable
            rw [List.length_cons, List.length_cons, List.length_append]
            omega
          · rintro ⟨distance, canEnd⟩
            dsimp only
            by_cases hend : canEnd ∧ distance = 0xffffffff
            · rw [if_pos hend]
              exact ⟨rfl, rfl⟩
            rw [if_neg hend]
            by_cases hfar :
                (if p.checkDicSize = 0 then p.processedPos else p.checkDicSize) ≤ distance
            · rw [if_pos hfar]
              exact ⟨rfl, rfl⟩
            · rw [if_neg hfar]
              exact Sat.bind_end (copyMatch_sat _) fun q => ⟨rfl, rfl⟩
      | true =>
          by_cases hstart : p.checkDicSize = 0 ∧ p.processedPos = 0
          · simp only [Bool.true_eq_false, if_false, if_pos hstart]
            exact ⟨hhead.mono (fun i hi => by omega) (by decide),
              .inl ⟨hhead.length.trans (by decide), by decide⟩⟩
          simp only [Bool.true_eq_false, if_false, if_neg hstart]
          refine Sat.bind_ok (decodeRep_sat hp) ?_
          rintro q is d ⟨hrep, rfl⟩
          have hfirst := hhead.append_interval hrep (by decide) le_rfl (by decide)
          cases q with
          | none =>
              have hcheap : p.Cheap
                  ((p.state * 2 ^ 4 + p.posState) :: (192 + p.state) :: is) 0 :=
                ⟨hfirst.mono (fun i hi => by omega) (by decide),
                  .inl ⟨hfirst.length.trans (by decide), by decide⟩⟩
              refine Sat.bind_end (Sat.mono ?_ (dicByte_sat _)) fun b => ?_
              · rintro r is' d' ⟨rfl, rfl⟩
                rwa [List.append_nil]
              · exact Sat.bind_end (putByte_sat _) fun q => ⟨rfl, rfl⟩
          | some q =>
              refine Sat.bind_end (Sat.mono ?_ (decodeLen_sat hpos)) fun len => ?_
              · rintro r is' d' ⟨v, rfl, hlen, rfl⟩
                rw [repLenCoder_eq] at hlen
                have hall := hfirst.append_interval hlen (by decide) (by decide)
                  (by decide)
                exact ⟨hall.mono (fun i hi => by omega) (by decide),
                  .inl ⟨hall.length.trans (by decide), by decide⟩⟩
              · exact Sat.bind_end (copyMatch_sat _) fun q => ⟨rfl, rfl⟩

end LzmaDec

end Lzma

end PongoOS
