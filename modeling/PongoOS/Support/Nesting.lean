import Mathlib.Data.List.Basic
import Mathlib.Data.Nat.Count
import Mathlib.Tactic.Common

/-!
# Matching tags by two searches

Opening and closing tags stand at certain positions.  A search for the closing
tag that belongs to an opening one goes from one closing tag to the next, and
from one opening tag to the next, in step: it is over when the opening tag is
behind the closing one.  The depth of the nesting is not counted.
-/

namespace Nesting

variable {O C P : ℕ → Prop} [DecidablePred O] [DecidablePred C]
  [DecidablePred P]

/-- The first position from `i` on with `P`. -/
def NextFrom (P : ℕ → Prop) (i : ℕ) : Option ℕ → Prop
  | some n => i ≤ n ∧ P n ∧ ∀ j, i ≤ j → j < n → ¬ P j
  | none => ∀ j, i ≤ j → ¬ P j

theorem NextFrom.of_succ {P : ℕ → Prop} {i : ℕ} (hi : ¬ P i) : ∀ {r : Option ℕ},
    NextFrom P (i + 1) r → NextFrom P i r
  | some n, ⟨hin, hn, hfirst⟩ => by
      refine ⟨by omega, hn, fun j hij hjn => ?_⟩
      rcases Nat.eq_or_lt_of_le hij with rfl | hlt
      · exact hi
      · exact hfirst j hlt hjn
  | none, hnone => by
      intro j hij
      rcases Nat.eq_or_lt_of_le hij with rfl | hlt
      · exact hi
      · exact hnone j hlt

theorem count_eq_of_none {i j : ℕ} (hij : i ≤ j)
    (h : ∀ k, i ≤ k → k < j → ¬ P k) : Nat.count P j = Nat.count P i := by
  induction j, hij using Nat.le_induction with
  | base => rfl
  | succ j hij ih =>
      rw [Nat.count_succ, if_neg (h j hij (Nat.lt_succ_self j)),
        ih fun k hik hkj => h k hik (Nat.lt_succ_of_lt hkj)]
      rfl

theorem count_succ_of {i : ℕ} (h : P i) :
    Nat.count P (i + 1) = Nat.count P i + 1 := by
  rw [Nat.count_succ, if_pos h]

theorem exists_of_count_lt {i j : ℕ} (hij : i ≤ j)
    (h : Nat.count P i < Nat.count P j) : ∃ k, i ≤ k ∧ k < j ∧ P k := by
  by_contra hnone
  push Not at hnone
  exact absurd (count_eq_of_none hij hnone) (Nat.ne_of_gt h)

/-- How many tags are open before `i`, up to a constant. -/
def level (O C : ℕ → Prop) [DecidablePred O] [DecidablePred C] (i : ℕ) : ℤ :=
  Nat.count O i - Nat.count C i

/-- Between `a` and `z` every closing tag has an opening one before it, and every
opening tag is closed. -/
structure Balanced (O C : ℕ → Prop) [DecidablePred O] [DecidablePred C]
    (a z : ℕ) : Prop where
  disjoint : ∀ i, O i → ¬ C i
  ge : ∀ i, a ≤ i → i ≤ z → level O C a ≤ level O C i
  closed : level O C z = level O C a

/-- `j` closes what `i` opens. -/
structure Matches (O C : ℕ → Prop) [DecidablePred O] [DecidablePred C]
    (i j : ℕ) : Prop where
  lt : i < j
  close : C j
  level_eq : level O C (j + 1) = level O C i
  open_before : ∀ k, i < k → k ≤ j → level O C i < level O C k

/-- A tag has one match. -/
theorem Matches.unique {i j j' : ℕ} (h : Matches O C i j)
    (h' : Matches O C i j') : j = j' := by
  rcases Nat.lt_trichotomy j j' with hlt | rfl | hlt
  · have hopen := h'.open_before (j + 1) (Nat.lt_succ_of_lt h.lt) hlt
    exact absurd h.level_eq (ne_of_gt hopen)
  · rfl
  · have hopen := h.open_before (j' + 1) (Nat.lt_succ_of_lt h'.lt) hlt
    exact absurd h'.level_eq (ne_of_gt hopen)

/-- The search for the end of what `i` opens is at the closing tag `e`, and `n`
is the opening tag that it is compared with. -/
structure Searching (O C : ℕ → Prop) [DecidablePred O] [DecidablePred C]
    (z i : ℕ) (n : Option ℕ) (e : ℕ) : Prop where
  lt : i < e
  lt_end : e < z
  close : C e
  open_before : ∀ k, i < k → k ≤ e → level O C i < level O C k
  opens : ∀ m, n = some m → O m ∧
    (Nat.count O m : ℤ) = Nat.count O i + (Nat.count C e - Nat.count C i) + 1
  no_more : n = none → ∀ j,
    (Nat.count O j : ℤ) ≤ Nat.count O i + (Nat.count C e - Nat.count C i) + 1

section Search

variable {a z i e e' : ℕ} {n n' : Option ℕ}

/-- The search begins behind the tag. -/
theorem Searching.start (hopen : O i) (hn : NextFrom O (i + 1) n)
    (he : NextFrom C i (some e)) (hclose : ¬ C i) (hez : e < z) :
    Searching O C z i n e := by
  obtain ⟨hie, hce, hfirst⟩ := he
  have hlt : i < e := by
    refine Nat.lt_of_le_of_ne hie fun heq => ?_
    exact hclose (heq ▸ hce)
  have hcount : ∀ k, i ≤ k → k ≤ e → Nat.count C k = Nat.count C i :=
    fun k hik hke => count_eq_of_none hik fun j hij hjk =>
      hfirst j hij (Nat.lt_of_lt_of_le hjk hke)
  have hopen' := count_succ_of hopen
  have hce' := hcount e hie le_rfl
  refine ⟨hlt, hez, hce, fun k hik hke => ?_, fun m hm => ?_, fun hm j => ?_⟩
  · have hmono := Nat.count_monotone O (Nat.succ_le_of_lt hik)
    have hk := hcount k hik.le hke
    unfold level
    rw [hk]
    simp only [Nat.succ_eq_add_one] at hmono
    omega
  · subst hm
    obtain ⟨him, hom, hbetween⟩ := hn
    have heq := count_eq_of_none him hbetween
    exact ⟨hom, by omega⟩
  · subst hm
    rcases le_total j (i + 1) with hj | hj
    · have hmono := Nat.count_monotone O hj
      omega
    · have heq := count_eq_of_none hj fun k hik _ => hn k hik
      omega

/-- The opening tag is before the closing one: both searches go on. -/
theorem Searching.next {m : ℕ} {r : Option ℕ}
    (h : Searching O C z i (some m) e) (hb : Balanced O C a z) (hai : a ≤ i)
    (hme : m ≤ e) (hn : NextFrom O (m + 1) n') (hr : NextFrom C (e + 1) r) :
    ∃ e', r = some e' ∧ e < e' ∧ Searching O C z i n' e' := by
  obtain ⟨hom, hcount⟩ := h.opens m rfl
  have hm := count_succ_of hom
  have he := count_succ_of h.close
  have hopens := Nat.count_monotone O (Nat.succ_le_succ hme)
  simp only [Nat.succ_eq_add_one] at hopens
  have hez := h.lt_end
  have hle := h.lt
  -- there are more opening tags than closing ones up to `e`, so more close
  have hlevel := hb.ge i hai (by omega)
  have hclosed := hb.closed
  have hopens' := Nat.count_monotone O (Nat.succ_le_of_lt hez)
  simp only [Nat.succ_eq_add_one] at hopens'
  obtain ⟨k, hek, hkz, hck⟩ := exists_of_count_lt (P := C)
    (show e + 1 ≤ z from hez) (by unfold level at *; omega)
  cases r with
  | none => exact absurd hck (hr k hek)
  | some e' =>
      obtain ⟨hee', hce', hfirst⟩ := hr
      have he'k : e' ≤ k := by
        by_contra hlt
        exact hfirst k hek (by omega) hck
      have hkept : ∀ j, e + 1 ≤ j → j ≤ e' →
          Nat.count C j = Nat.count C (e + 1) := fun j hej hje =>
        count_eq_of_none hej fun x hx hxj => hfirst x hx (by omega)
      have hce := hkept e' hee' le_rfl
      refine ⟨e', rfl, hee', by omega, by omega, hce', fun j hij hje => ?_,
        fun m' hm' => ?_, fun hm' j => ?_⟩
      · rcases Nat.lt_or_ge e j with hej | hje'
        · have hj := hkept j hej hje
          have hmono := Nat.count_monotone O (Nat.succ_le_of_lt hej)
          simp only [Nat.succ_eq_add_one] at hmono
          unfold level
          omega
        · exact h.open_before j hij hje'
      · subst hm'
        obtain ⟨hmm', hom', hbetween⟩ := hn
        have heq := count_eq_of_none hmm' hbetween
        exact ⟨hom', by omega⟩
      · subst hm'
        rcases le_total j (m + 1) with hj | hj
        · have hmono := Nat.count_monotone O hj
          omega
        · have heq := count_eq_of_none hj fun x hx _ => hn x hx
          omega

/-- The opening tag is behind the closing one: the closing tag is found. -/
theorem Searching.found (h : Searching O C z i n e)
    (hafter : ∀ m, n = some m → e < m) : Matches O C i e := by
  refine ⟨h.lt, h.close, ?_, h.open_before⟩
  have he := count_succ_of h.close
  have hopen := h.open_before e h.lt le_rfl
  have hmono := Nat.count_monotone O (Nat.le_add_right e 1)
  have hbound : (Nat.count O (e + 1) : ℤ) ≤
      Nat.count O i + (Nat.count C e - Nat.count C i) + 1 := by
    cases n with
    | none => exact h.no_more rfl (e + 1)
    | some m =>
        have hm := Nat.count_monotone O (Nat.succ_le_of_lt (hafter m rfl))
        simp only [Nat.succ_eq_add_one] at hm
        have hcount := (h.opens m rfl).2
        omega
  unfold level at *
  omega

/-! ## What is opened outermost -/

/-- Nothing is open where `i` opens. -/
def Outermost (O C : ℕ → Prop) [DecidablePred O] [DecidablePred C]
    (a i : ℕ) : Prop := O i ∧ level O C i = level O C a

instance (a : ℕ) : DecidablePred (Outermost O C a) :=
  fun _ => inferInstanceAs (Decidable (_ ∧ _))

/-- There is a closing tag behind an outermost one. -/
theorem Balanced.exists_close (hb : Balanced O C a z)
    (hi : Outermost O C a i) (hiz : i < z) :
    ∃ k, i ≤ k ∧ k < z ∧ C k := by
  have hopen := count_succ_of hi.1
  have hmono := Nat.count_monotone O (Nat.succ_le_of_lt hiz)
  simp only [Nat.succ_eq_add_one] at hmono
  have hlevel := hi.2
  have hclosed := hb.closed
  exact exists_of_count_lt hiz.le (by unfold level at *; omega)

/-- Behind what matches an outermost tag the next opening tag is outermost, and
it is the next such tag. -/
theorem Matches.next_outermost {m : ℕ} (h : Matches O C i e)
    (hb : Balanced O C a z) (hai : a ≤ i) (hi : level O C i = level O C a)
    (hm : NextFrom O e (some m)) (hmz : m < z) :
    Outermost O C a m ∧ ∀ j, i < j → j < m → ¬ Outermost O C a j := by
  obtain ⟨hem, hom, hfirst⟩ := hm
  have hlt : e < m := by
    refine Nat.lt_of_le_of_ne hem fun heq => ?_
    exact hb.disjoint m hom (heq ▸ h.close)
  have hopens := count_eq_of_none (P := O) (Nat.succ_le_of_lt hlt)
    fun k hk hkm => hfirst k (by omega) hkm
  have hcloses := Nat.count_monotone C (Nat.succ_le_of_lt hlt)
  simp only [Nat.succ_eq_add_one] at hopens hcloses
  have hie := h.lt
  have hge := hb.ge m (by omega) hmz.le
  have hclose := h.level_eq
  refine ⟨⟨hom, ?_⟩, fun j hij hjm hj => ?_⟩
  · unfold level at *
    omega
  · rcases Nat.lt_or_ge j e with hje | hje
    · have hbefore := h.open_before j hij hje.le
      rw [hj.2, hi] at hbefore
      exact absurd hbefore (lt_irrefl _)
    · exact hfirst j hje hjm hj.1

/-- No outermost tag follows if no tag opens behind the match. -/
theorem Matches.no_more_outermost (h : Matches O C i e)
    (hi : level O C i = level O C a) (hm : NextFrom O e none) :
    ∀ j, i < j → ¬ Outermost O C a j := by
  intro j hij hj
  rcases Nat.lt_or_ge j e with hje | hje
  · have hbefore := h.open_before j hij hje.le
    rw [hj.2, hi] at hbefore
    exact absurd hbefore (lt_irrefl _)
  · exact hm j hje hj.1

/-- The outermost tags from `i` on and before `z`. -/
def outermostFrom (O C : ℕ → Prop) [DecidablePred O] [DecidablePred C]
    (a z i : ℕ) : List ℕ :=
  (List.range' i (z - i)).filter (Outermost O C a)

theorem outermostFrom_skip {m : ℕ} (him : i ≤ m) (hmz : m ≤ z)
    (h : ∀ j, i ≤ j → j < m → ¬ Outermost O C a j) :
    outermostFrom O C a z i = outermostFrom O C a z m := by
  have hsplit : List.range' i (z - i) =
      List.range' i (m - i) ++ List.range' m (z - m) := by
    have happend : List.range' i (m - i) ++ List.range' (i + (m - i)) (z - m) =
        List.range' i (m - i + (z - m)) := List.range'_append_1
    rw [show i + (m - i) = m by omega, show m - i + (z - m) = z - i by omega]
      at happend
    exact happend.symm
  have hnone : (List.range' i (m - i)).filter (Outermost O C a) = [] := by
    refine List.filter_eq_nil_iff.2 fun j hj => ?_
    have hrange := List.mem_range'_1.1 hj
    simpa using h j hrange.1 (by omega)
  unfold outermostFrom
  rw [hsplit, List.filter_append, hnone, List.nil_append]

theorem outermostFrom_cons (hi : Outermost O C a i) (hiz : i < z) :
    outermostFrom O C a z i = i :: outermostFrom O C a z (i + 1) := by
  unfold outermostFrom
  rw [show z - i = (z - (i + 1)) + 1 by omega, List.range'_succ,
    List.filter_cons_of_pos (by simpa using hi)]

theorem outermostFrom_nil (h : ∀ j, i ≤ j → ¬ Outermost O C a j) :
    outermostFrom O C a z i = [] := by
  refine List.filter_eq_nil_iff.2 fun j hj => ?_
  simpa using h j (List.mem_range'_1.1 hj).1

theorem outermostFrom_sorted (O C : ℕ → Prop) [DecidablePred O]
    [DecidablePred C] (a z i : ℕ) :
    (outermostFrom O C a z i).Pairwise (· < ·) :=
  List.Pairwise.filter _ List.pairwise_lt_range'

end Search

/-! ## Counting the depth -/

theorem level_succ (i : ℕ) : level O C (i + 1) =
    level O C i + (if O i then 1 else 0) - (if C i then 1 else 0) := by
  unfold level
  rw [Nat.count_succ, Nat.count_succ]
  split <;> split <;> push_cast <;> omega

/-- Counts the depth over the `n` positions from `i` on. -/
def balancedFrom (O C : ℕ → Prop) [DecidablePred O] [DecidablePred C] :
    ℕ → ℕ → ℤ → Bool
  | 0, _, d => d == 0
  | n + 1, i, d => decide (0 ≤ d) && balancedFrom O C n (i + 1)
      (d + (if O i then 1 else 0) - (if C i then 1 else 0))

theorem balancedFrom_spec {a : ℕ} : ∀ {n i : ℕ},
    balancedFrom O C n i (level O C i - level O C a) = true →
    (∀ j, i ≤ j → j ≤ i + n → level O C a ≤ level O C j) ∧
      level O C (i + n) = level O C a
  | 0, i, h => by
      have hzero : level O C i - level O C a = 0 := by
        simpa [balancedFrom] using h
      refine ⟨fun j hij hji => ?_, by rw [Nat.add_zero]; omega⟩
      obtain rfl : i = j := by omega
      omega
  | n + 1, i, h => by
      rw [balancedFrom, Bool.and_eq_true, decide_eq_true_eq] at h
      have hnext : level O C i - level O C a + (if O i then 1 else 0) -
          (if C i then 1 else 0) = level O C (i + 1) - level O C a := by
        rw [level_succ]
        omega
      rw [hnext] at h
      obtain ⟨hge, hclosed⟩ := balancedFrom_spec h.2
      rw [show i + (n + 1) = i + 1 + n by omega]
      refine ⟨fun j hij hji => ?_, hclosed⟩
      rcases Nat.eq_or_lt_of_le hij with rfl | hlt
      · omega
      · exact hge j hlt hji

theorem Balanced.of_check {a z : ℕ} (haz : a ≤ z)
    (hdisjoint : ∀ i, O i → ¬ C i)
    (h : balancedFrom O C (z - a) a 0 = true) : Balanced O C a z := by
  have hcheck : balancedFrom O C (z - a) a (level O C a - level O C a) =
      true := by
    rw [Int.sub_self]
    exact h
  have hspec := balancedFrom_spec hcheck
  rw [show a + (z - a) = z by omega] at hspec
  exact ⟨hdisjoint, hspec.1, hspec.2⟩

end Nesting
