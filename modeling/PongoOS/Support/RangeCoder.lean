import Mathlib.Data.List.Nodup
import Mathlib.Logic.Function.Basic
import Mathlib.Tactic.Common
import Mathlib.Tactic.Linarith
import Mathlib.Tactic.NormNum
import Mathlib.Tactic.Ring
import PongoOS.Support.ByteMemory

/-!
# Adaptive binary range decoding

A decoder asks for bits, one after the other.  Most of them have a probability of
their own, which is adapted to the bits it was used for, and the others are as
likely as not.  Such a decoder is a tree that branches on the bits, and the range
coder walks through it.

The range shrinks with every bit, by no more than the probabilities allow, and it
grows by a byte of the input when it is small.  So the path through the tree says
how many bytes it can take.
-/

namespace RangeCoder

open PongoOS

/-! ## Probabilities -/

/-- The probability of a zero bit in units of `1 / 2048`.  Adaptation never leaves
these bounds. -/
structure Prob where
  val : ℕ
  lower : 31 ≤ val
  upper : val ≤ 2017

namespace Prob

/-- As likely as not. -/
def half : Prob := ⟨1024, by decide, by decide⟩

/-- The probability after it was used for a bit. -/
def after (p : Prob) : Bool → Prob
  | false => ⟨p.val + (2048 - p.val) / 32, by
      have hlower := p.lower
      omega, by
      have hupper := p.upper
      omega⟩
  | true => ⟨p.val - p.val / 32, by
      have hlower := p.lower
      omega, by
      have hupper := p.upper
      omega⟩

end Prob

abbrev Model := ℕ → Prob

/-! ## The coder -/

/-- The interval, the place in it, and how many bytes were taken. -/
structure Coder where
  range : ℕ
  code : ℕ
  pos : ℕ
deriving DecidableEq, Repr

def topValue : ℕ := 2 ^ 24

/-- The smallest range that a bit leaves. -/
def minRange : ℕ := 31 * 2 ^ 13

namespace Coder

variable {src : ByteMemory} {c : Coder} {p : Prob}

def normalize (src : ByteMemory) (c : Coder) : Coder :=
  if c.range < topValue then
    { range := c.range * 256 % 2 ^ 32
      code := (c.code * 256 + (src c.pos).toNat) % 2 ^ 32
      pos := c.pos + 1 }
  else c

theorem normalize_pos :
    (c.normalize src).pos = if c.range < topValue then c.pos + 1 else c.pos := by
  unfold Coder.normalize
  split <;> rfl

/-- The part of the range that belongs to the zero bit. -/
def bound (c : Coder) (p : Prob) : ℕ := c.range / 2048 * p.val

def decode (c : Coder) (p : Prob) : Bool × Coder :=
  if c.code < c.bound p then (false, { c with range := c.bound p })
  else
    (true, { c with range := c.range - c.bound p, code := c.code - c.bound p })

/-- The code when half of the range is taken off. -/
def reduced (c : Coder) : ℕ := sub32 c.code (c.range / 2)

/-- A bit without a probability.  The code is reduced first, and restored if that
was too much. -/
def direct (c : Coder) : Bool × Coder :=
  if c.reduced / 2 ^ 31 = 1 then
    (false, { c with
      range := c.range / 2
      code := (c.reduced + c.range / 2) % 2 ^ 32 })
  else (true, { c with range := c.range / 2, code := c.reduced })

/-- The coder between two bits. -/
structure Valid (c : Coder) : Prop where
  lower : minRange ≤ c.range
  upper : c.range < 2 ^ 32
  code : c.code < 2 ^ 32

/-- `c'` is what `m` bits with a probability and `d` other ones made of `c`. -/
structure Reaches (c c' : Coder) (m d : ℕ) : Prop where
  valid : c'.Valid
  pos : c.pos ≤ c'.pos
  taken : 256 ^ (c'.pos - c.pos) * c.range * ((31 * 8192) ^ m * 8192 ^ d) ≤
    c'.range * ((2048 * 8193) ^ m * (2 * 8193) ^ d)

theorem Valid.reaches_self (hc : c.Valid) : c.Reaches c 0 0 :=
  ⟨hc, le_rfl, by simp⟩

/-- What the normalization leaves in front of a bit. -/
structure Normal (c n : Coder) : Prop where
  lower : topValue ≤ n.range
  upper : n.range < 2 ^ 32
  code : n.code < 2 ^ 32
  pos : c.pos ≤ n.pos
  range : n.range = 256 ^ (n.pos - c.pos) * c.range

theorem Valid.normalize (hc : c.Valid) (src : ByteMemory) :
    c.Normal (c.normalize src) := by
  have hlower := hc.lower
  unfold minRange at hlower
  unfold Coder.normalize
  by_cases hsmall : c.range < topValue
  · rw [if_pos hsmall]
    unfold topValue at hsmall
    have hlarge : c.range * 256 < 2 ^ 32 := by omega
    have hrange : c.range * 256 % 2 ^ 32 = c.range * 256 := Nat.mod_eq_of_lt hlarge
    refine ⟨?_, Nat.mod_lt _ (by decide), Nat.mod_lt _ (by decide), Nat.le_succ _, ?_⟩
    · dsimp only
      rw [hrange]
      unfold topValue
      omega
    · dsimp only
      rw [hrange, Nat.add_sub_cancel_left, Nat.pow_one, Nat.mul_comm]
  · rw [if_neg hsmall]
    exact ⟨Nat.le_of_not_lt hsmall, hc.upper, hc.code, le_rfl, by simp⟩

theorem Normal.valid {n : Coder} (h : c.Normal n) : n.Valid := by
  have hlower := h.lower
  unfold topValue at hlower
  exact ⟨by unfold minRange; omega, h.upper, h.code⟩

theorem Normal.pos_le {n : Coder} (hc : c.Valid) (h : c.Normal n) :
    n.pos ≤ c.pos + 1 := by
  by_contra hlarge
  have hlower := hc.lower
  have hupper := h.upper
  have hrange := h.range
  obtain ⟨k, hk⟩ : ∃ k, n.pos - c.pos = k + 2 := ⟨n.pos - c.pos - 2, by omega⟩
  have hpow : 256 ^ 2 ≤ 256 ^ (n.pos - c.pos) := by
    rw [hk]
    exact Nat.pow_le_pow_right (by decide) (by omega)
  have hmul := Nat.mul_le_mul hpow hlower
  rw [← hrange] at hmul
  unfold minRange at hmul
  omega

/-- Bits that are not decoded cost nothing either. -/
theorem Reaches.mono {c' : Coder} {m d m' d' : ℕ} (h : c.Reaches c' m d)
    (hm : m ≤ m') (hd : d ≤ d') : c.Reaches c' m' d' := by
  refine ⟨h.valid, h.pos, ?_⟩
  have hmodel : (31 * 8192) ^ (m' - m) ≤ (2048 * 8193) ^ (m' - m) :=
    Nat.pow_le_pow_left (by decide) _
  have hdirect : 8192 ^ (d' - d) ≤ (2 * 8193) ^ (d' - d) :=
    Nat.pow_le_pow_left (by decide) _
  have hmul := Nat.mul_le_mul h.taken (Nat.mul_le_mul hmodel hdirect)
  obtain ⟨m', rfl⟩ := Nat.exists_eq_add_of_le hm
  obtain ⟨d', rfl⟩ := Nat.exists_eq_add_of_le hd
  simp only [Nat.add_sub_cancel_left] at hmul
  simp only [Nat.pow_add]
  calc 256 ^ (c'.pos - c.pos) * c.range *
        ((31 * 8192) ^ m * (31 * 8192) ^ m' * (8192 ^ d * 8192 ^ d'))
      = 256 ^ (c'.pos - c.pos) * c.range * ((31 * 8192) ^ m * 8192 ^ d) *
          ((31 * 8192) ^ m' * 8192 ^ d') := by ac_rfl
    _ ≤ c'.range * ((2048 * 8193) ^ m * (2 * 8193) ^ d) *
          ((2048 * 8193) ^ m' * (2 * 8193) ^ d') := hmul
    _ = c'.range * ((2048 * 8193) ^ m * (2048 * 8193) ^ m' *
          ((2 * 8193) ^ d * (2 * 8193) ^ d')) := by ac_rfl

/-- The bytes that were taken when the coder is normalized once more. -/
theorem Reaches.pos_le {c' n : Coder} {m d k lo : ℕ} (h : c.Reaches c' m d)
    (hn : c'.Normal n) (hlo : lo ≤ c.range)
    (hk : 2 ^ 32 * ((2048 * 8193) ^ m * (2 * 8193) ^ d) ≤
      256 ^ (k + 1) * lo * ((31 * 8192) ^ m * 8192 ^ d)) : n.pos ≤ c.pos + k := by
  by_contra hlarge
  have hfirst := h.pos
  have hlast := hn.pos
  have hsplit : n.pos - c.pos = n.pos - c'.pos + (c'.pos - c.pos) := by omega
  have hpow : 256 ^ (k + 1) ≤ 256 ^ (n.pos - c.pos) :=
    Nat.pow_le_pow_right (by decide) (by omega)
  have hpos : 0 < (2048 * 8193) ^ m * (2 * 8193) ^ d :=
    Nat.mul_pos (Nat.pow_pos (by decide)) (Nat.pow_pos (by decide))
  have htaken : 256 ^ (n.pos - c.pos) * c.range * ((31 * 8192) ^ m * 8192 ^ d) ≤
      n.range * ((2048 * 8193) ^ m * (2 * 8193) ^ d) := by
    calc 256 ^ (n.pos - c.pos) * c.range * ((31 * 8192) ^ m * 8192 ^ d)
        = 256 ^ (n.pos - c'.pos) *
            (256 ^ (c'.pos - c.pos) * c.range * ((31 * 8192) ^ m * 8192 ^ d)) := by
          rw [hsplit, pow_add]
          ring
      _ ≤ 256 ^ (n.pos - c'.pos) * (c'.range * ((2048 * 8193) ^ m * (2 * 8193) ^ d)) :=
          Nat.mul_le_mul_left _ h.taken
      _ = n.range * ((2048 * 8193) ^ m * (2 * 8193) ^ d) := by
          rw [hn.range]
          ring
  have hupper : n.range * ((2048 * 8193) ^ m * (2 * 8193) ^ d) <
      2 ^ 32 * ((2048 * 8193) ^ m * (2 * 8193) ^ d) :=
    Nat.mul_lt_mul_of_pos_right hn.upper hpos
  have hlower : 256 ^ (k + 1) * lo * ((31 * 8192) ^ m * 8192 ^ d) ≤
      256 ^ (n.pos - c.pos) * c.range * ((31 * 8192) ^ m * 8192 ^ d) :=
    Nat.mul_le_mul_right _ (Nat.mul_le_mul hpow hlo)
  exact absurd (hlower.trans_lt (htaken.trans_lt hupper)) (Nat.not_lt_of_le hk)

/-! ### One bit -/

/-- Rounding to a multiple of `2048` costs at most one part in `8193`. -/
theorem mul_le_of_quotient {r q b : ℕ} (hq : 2 ^ 13 ≤ q) (hr : r < 2048 * (q + 1))
    (hb : 31 * q ≤ b) : r * (31 * 8192) ≤ b * (2048 * 8193) := by
  have hr' : r ≤ 2048 * q + 2047 := by omega
  calc r * (31 * 8192) ≤ (2048 * q + 2047) * (31 * 8192) :=
        Nat.mul_le_mul_right _ hr'
    _ ≤ 31 * q * (2048 * 8193) := by
        norm_num at hq ⊢
        linarith
    _ ≤ b * (2048 * 8193) := Nat.mul_le_mul_right _ hb

theorem decode_range (hlower : topValue ≤ c.range) (p : Prob) :
    c.range * (31 * 8192) ≤ (c.decode p).2.range * (2048 * 8193) ∧
      minRange ≤ (c.decode p).2.range ∧ (c.decode p).2.range ≤ c.range := by
  have hpl := p.lower
  have hpu := p.upper
  have hr : c.range < 2048 * (c.range / 2048 + 1) := Nat.lt_mul_div_succ _ (by decide)
  have hle : 2048 * (c.range / 2048) ≤ c.range := Nat.mul_div_le _ _
  have hq : 2 ^ 13 ≤ c.range / 2048 := by
    rw [Nat.le_div_iff_mul_le (by decide)]
    exact hlower
  have hboundl : 31 * (c.range / 2048) ≤ c.bound p := by
    rw [Coder.bound, Nat.mul_comm]
    exact Nat.mul_le_mul_left _ hpl
  have hboundu : c.bound p ≤ 2017 * (c.range / 2048) := by
    rw [Coder.bound, Nat.mul_comm]
    exact Nat.mul_le_mul_right _ hpu
  have hmin : minRange ≤ 31 * (c.range / 2048) := Nat.mul_le_mul_left 31 hq
  generalize c.range / 2048 = q at *
  unfold decode
  split
  · exact ⟨mul_le_of_quotient hq hr hboundl, hmin.trans hboundl, by dsimp only; omega⟩
  · have hrest : 31 * q ≤ c.range - c.bound p := by omega
    exact ⟨mul_le_of_quotient hq hr hrest, hmin.trans hrest, Nat.sub_le _ _⟩

theorem decode_code (hcode : c.code < 2 ^ 32) (p : Prob) :
    (c.decode p).2.code < 2 ^ 32 := by
  unfold decode
  split
  · exact hcode
  · dsimp only
    omega

@[simp] theorem decode_pos (p : Prob) : (c.decode p).2.pos = c.pos := by
  unfold decode
  split <;> rfl

@[simp] theorem direct_range : c.direct.2.range = c.range / 2 := by
  unfold direct
  split <;> rfl

@[simp] theorem direct_pos : c.direct.2.pos = c.pos := by
  unfold direct
  split <;> rfl

theorem direct_code : c.direct.2.code < 2 ^ 32 := by
  unfold direct
  split
  · exact Nat.mod_lt _ (Nat.two_pow_pos 32)
  · exact Nat.mod_lt _ (Nat.two_pow_pos 32)

theorem mul_step {x y r n r' r'' a b p q : ℕ} (hn : n = x * r)
    (hbit : n * a ≤ r' * b) (hrest : y * r' * p ≤ r'' * q) :
    y * x * r * (a * p) ≤ r'' * (b * q) := by
  calc y * x * r * (a * p) = y * p * (n * a) := by
        rw [hn]
        ring
    _ ≤ y * p * (r' * b) := Nat.mul_le_mul_left _ hbit
    _ = y * r' * p * b := by ring
    _ ≤ r'' * q * b := Nat.mul_le_mul_right _ hrest
    _ = r'' * (b * q) := by ring

/-- What a path costs is known from what its first bit and the rest of it cost. -/
theorem Normal.reaches {n c' c'' : Coder} {m d m' d' a b : ℕ} (hn : c.Normal n)
    (hpos : c'.pos = n.pos) (hbit : n.range * a ≤ c'.range * b)
    (ha : (31 * 8192) ^ m' * 8192 ^ d' = a * ((31 * 8192) ^ m * 8192 ^ d))
    (hb : (2048 * 8193) ^ m' * (2 * 8193) ^ d' =
      b * ((2048 * 8193) ^ m * (2 * 8193) ^ d))
    (hrest : c'.Reaches c'' m d) : c.Reaches c'' m' d' := by
  have hfirst := hn.pos
  have hlast := hrest.pos
  rw [hpos] at hlast
  refine ⟨hrest.valid, hfirst.trans hlast, ?_⟩
  have hsplit : c''.pos - c.pos = c''.pos - c'.pos + (n.pos - c.pos) := by
    rw [hpos]
    omega
  simp only [hsplit, Nat.pow_add, ha, hb]
  exact mul_step hn.range hbit hrest.taken

theorem Normal.decode_valid {n : Coder} (hn : c.Normal n) (p : Prob) :
    (n.decode p).2.Valid :=
  have hrange := decode_range hn.lower p
  ⟨hrange.2.1, lt_of_le_of_lt hrange.2.2 hn.upper, decode_code hn.code p⟩

theorem Normal.direct_valid {n : Coder} (hn : c.Normal n) : n.direct.2.Valid := by
  have hlower := hn.lower
  have hupper := hn.upper
  unfold topValue at hlower
  refine ⟨?_, ?_, direct_code⟩
  · rw [direct_range]
    unfold minRange
    omega
  · rw [direct_range]
    omega

theorem Normal.decode_reaches {n c'' : Coder} {m d : ℕ} (hn : c.Normal n)
    (hrest : (n.decode p).2.Reaches c'' m d) : c.Reaches c'' (m + 1) d :=
  hn.reaches (decode_pos p) (decode_range hn.lower p).1
    (by rw [Nat.pow_succ]; ring) (by rw [Nat.pow_succ]; ring) hrest

theorem Normal.direct_reaches {n c'' : Coder} {m d : ℕ} (hn : c.Normal n)
    (hrest : n.direct.2.Reaches c'' m d) : c.Reaches c'' m (d + 1) := by
  have hlower := hn.lower
  unfold topValue at hlower
  have hhalf : n.range * 8192 ≤ n.direct.2.range * (2 * 8193) := by
    rw [direct_range]
    omega
  exact hn.reaches direct_pos hhalf (by rw [Nat.pow_succ]; ring)
    (by rw [Nat.pow_succ]; ring) hrest

attribute [irreducible] normalize decode direct

end Coder

/-! ## Decoders -/

/-- A decoder that ends with a result of type `α`, or stops with an `ε`. -/
inductive BitTree (ε α : Type) where
  | done (a : α)
  | stop (e : ε)
  | model (i : ℕ) (next : Bool → BitTree ε α)
  | direct (next : Bool → BitTree ε α)

namespace BitTree

variable {ε ε' α β γ : Type}

def bind (f : α → BitTree ε β) : BitTree ε α → BitTree ε β
  | .done a => f a
  | .stop e => .stop e
  | .model i next => .model i fun b => bind f (next b)
  | .direct next => .direct fun b => bind f (next b)

instance : Monad (BitTree ε) where
  pure := .done
  bind t f := t.bind f

/-- A bit with the probability of this index. -/
def bit (i : ℕ) : BitTree ε Bool := .model i .done

def directBit : BitTree ε Bool := .direct .done

/-- The bits of a number are decoded, the highest one first.  The bits that are
known select the probability of the next one. -/
def treeFrom (base : ℕ) : ℕ → ℕ → BitTree ε ℕ
  | 0, i => pure i
  | n + 1, i => do
      let b ← bit (base + i)
      treeFrom base n (2 * i + b.toNat)

/-- A number of `n` bits. -/
def tree (base n : ℕ) : BitTree ε ℕ := do
  let i ← treeFrom base n 1
  pure (i - 2 ^ n)

/-! ### What holds on all paths -/

/-- `P` holds of every end of the tree, of the indices on the way to it, and of
the number of bits without a probability. -/
def Sat (P : Except ε α → List ℕ → ℕ → Prop) : BitTree ε α → Prop
  | .done a => P (.ok a) [] 0
  | .stop e => P (.error e) [] 0
  | .model i next => ∀ b, Sat (fun r is d => P r (i :: is) d) (next b)
  | .direct next => ∀ b, Sat (fun r is d => P r is (d + 1)) (next b)

theorem Sat.mono {P Q : Except ε α → List ℕ → ℕ → Prop} {t : BitTree ε α}
    (hPQ : ∀ r is d, P r is d → Q r is d) (ht : t.Sat P) : t.Sat Q := by
  induction t generalizing P Q with
  | done a => exact hPQ _ _ _ ht
  | stop e => exact hPQ _ _ _ ht
  | model i next ih => exact fun b => ih b (fun r is d => hPQ r (i :: is) d) (ht b)
  | direct next ih => exact fun b => ih b (fun r is d => hPQ r is (d + 1)) (ht b)

theorem sat_true (t : BitTree ε α) : t.Sat fun _ _ _ => True := by
  induction t with
  | done a => trivial
  | stop e => trivial
  | model i next ih => exact ih
  | direct next ih => exact ih

theorem Sat.and {P Q : Except ε α → List ℕ → ℕ → Prop} {t : BitTree ε α}
    (hP : t.Sat P) (hQ : t.Sat Q) : t.Sat fun r is d => P r is d ∧ Q r is d := by
  induction t generalizing P Q with
  | done a => exact ⟨hP, hQ⟩
  | stop e => exact ⟨hP, hQ⟩
  | model i next ih => exact fun b => ih b (hP b) (hQ b)
  | direct next ih => exact fun b => ih b (hP b) (hQ b)

/-- What holds when `f` follows. -/
def After (P : Except ε β → List ℕ → ℕ → Prop) (f : α → BitTree ε β) :
    Except ε α → List ℕ → ℕ → Prop
  | .ok a, is, d => (f a).Sat fun r is' d' => P r (is ++ is') (d + d')
  | .error e, is, d => P (.error e) is d

theorem Sat.bind {P : Except ε β → List ℕ → ℕ → Prop} {t : BitTree ε α}
    {f : α → BitTree ε β} (ht : t.Sat (After P f)) : (t >>= f).Sat P := by
  induction t generalizing P with
  | done a => exact Sat.mono (by simp) (show (f a).Sat _ from ht)
  | stop e => exact ht
  | model i next ih =>
      intro b
      refine ih b (Sat.mono ?_ (ht b))
      rintro (e | a) is d h
      · exact h
      · exact h
  | direct next ih =>
      intro b
      refine ih b (Sat.mono ?_ (ht b))
      rintro (e | a) is d h
      · exact h
      · refine Sat.mono ?_ (show (f a).Sat _ from h)
        intro r is' d' h
        rwa [Nat.add_right_comm] at h

/-- The tree ends with a result, of which `Q` holds. -/
def Ok (Q : α → List ℕ → ℕ → Prop) (r : Except ε α) (is : List ℕ) (d : ℕ) : Prop :=
  ∃ a, r = .ok a ∧ Q a is d

theorem Sat.bind_ok {Q : α → List ℕ → ℕ → Prop}
    {P : Except ε β → List ℕ → ℕ → Prop} {t : BitTree ε α} {f : α → BitTree ε β}
    (ht : t.Sat (Ok Q))
    (hf : ∀ a is d, Q a is d → (f a).Sat fun r is' d' => P r (is ++ is') (d + d')) :
    (t >>= f).Sat P := by
  refine Sat.bind (Sat.mono ?_ ht)
  rintro r is d ⟨a, rfl, hQ⟩
  exact hf a is d hQ

theorem sat_bit {i : ℕ} {P : Except ε β → List ℕ → ℕ → Prop}
    {f : Bool → BitTree ε β} :
    (bit i >>= f).Sat P ↔ ∀ b, (f b).Sat fun r is d => P r (i :: is) d :=
  Iff.rfl

theorem sat_directBit {P : Except ε β → List ℕ → ℕ → Prop}
    {f : Bool → BitTree ε β} :
    (directBit >>= f).Sat P ↔ ∀ b, (f b).Sat fun r is d => P r is (d + 1) :=
  Iff.rfl

/-- What follows without a bit costs nothing. -/
theorem Sat.bind_end {P : List ℕ → ℕ → Prop} {t : BitTree ε α} {f : α → BitTree ε β}
    (ht : t.Sat fun _ => P) (hf : ∀ a, (f a).Sat fun _ is d => is = [] ∧ d = 0) :
    (t >>= f).Sat fun _ => P := by
  refine Sat.bind (Sat.mono ?_ ht)
  rintro (e | a) is d hP
  · exact hP
  · refine Sat.mono ?_ (hf a)
    rintro r is' d' ⟨rfl, rfl⟩
    rwa [List.append_nil]

theorem sat_pure {a : α} {P : Except ε α → List ℕ → ℕ → Prop} :
    (pure a : BitTree ε α).Sat P ↔ P (.ok a) [] 0 :=
  Iff.rfl

/-- The indices on a path are at most `n` different ones, all of them in `S`. -/
structure Reads (S : ℕ → Prop) (n : ℕ) (is : List ℕ) : Prop where
  nodup : is.Nodup
  mem : ∀ i ∈ is, S i
  length : is.length ≤ n

namespace Reads

variable {S T : ℕ → Prop} {n k : ℕ} {is js : List ℕ}

theorem nil : Reads S n [] :=
  ⟨List.nodup_nil, fun _ hi => absurd hi List.not_mem_nil, Nat.zero_le n⟩

theorem mono (h : Reads S n is) (hST : ∀ i, S i → T i) (hnk : n ≤ k) :
    Reads T k is :=
  ⟨h.nodup, fun i hi => hST i (h.mem i hi), h.length.trans hnk⟩

theorem append (h : Reads S n is) (h' : Reads T k js) (hST : ∀ i, S i → ¬ T i) :
    Reads (fun i => S i ∨ T i) (n + k) (is ++ js) where
  nodup := List.nodup_append.mpr ⟨h.nodup, h'.nodup, fun i hi j hj hij =>
    hST i (h.mem i hi) (hij ▸ h'.mem j hj)⟩
  mem i hi := by
    rcases List.mem_append.mp hi with hi | hi
    · exact .inl (h.mem i hi)
    · exact .inr (h'.mem i hi)
  length := by
    have hfirst := h.length
    have hrest := h'.length
    rw [List.length_append]
    omega

theorem append_interval {a b c e : ℕ} (h : Reads (fun i => a ≤ i ∧ i < b) n is)
    (h' : Reads (fun i => c ≤ i ∧ i < e) k js) (hac : a ≤ c) (hbc : b ≤ c)
    (hbe : b ≤ e) : Reads (fun i => a ≤ i ∧ i < e) (n + k) (is ++ js) := by
  refine (h.append h' ?_).mono ?_ le_rfl
  · rintro i ⟨_, hi⟩ ⟨hi', _⟩
    omega
  · rintro i (⟨h, h'⟩ | ⟨h, h'⟩)
    · exact ⟨h, by omega⟩
    · exact ⟨by omega, h'⟩

theorem cons {i : ℕ} (hi : S i) (h : Reads T n is) (hST : ¬ T i)
    (hTS : ∀ j, T j → S j) : Reads S (n + 1) (i :: is) where
  nodup := List.nodup_cons.mpr ⟨fun hmem => hST (h.mem i hmem), h.nodup⟩
  mem j hj := by
    rcases List.mem_cons.mp hj with rfl | hj
    · exact hi
    · exact hTS j (h.mem j hj)
  length := Nat.succ_le_succ h.length

end Reads

/-- The probabilities of a number are those from its first one to the last one of
its leftmost path. -/
theorem Reads.tree_step {base n i : ℕ} {b : Bool} {is : List ℕ} (hi : 0 < i)
    (h : Reads (fun j => base + (2 * i + b.toNat) ≤ j ∧
      2 * j < 2 * base + (2 * i + b.toNat + 1) * 2 ^ n) n is) :
    Reads (fun j => base + i ≤ j ∧ 2 * j < 2 * base + (i + 1) * 2 ^ (n + 1)) (n + 1)
      ((base + i) :: is) := by
  have hb : b.toNat ≤ 1 := b.toNat_le
  have hpow : 1 ≤ 2 ^ n := Nat.one_le_two_pow
  have hle : (2 * i + b.toNat + 1) * 2 ^ n ≤ (i + 1) * 2 ^ (n + 1) := by
    rw [Nat.pow_succ, Nat.mul_comm (2 ^ n) 2, ← Nat.mul_assoc]
    exact Nat.mul_le_mul_right _ (by omega)
  have hfirst : 2 * i < (i + 1) * 2 ^ (n + 1) := by
    calc 2 * i < (i + 1) * 2 := by omega
      _ ≤ (i + 1) * 2 ^ (n + 1) :=
        Nat.mul_le_mul_left _ (by rw [Nat.pow_succ]; omega)
  refine h.cons ⟨le_rfl, by omega⟩ (by omega) ?_
  rintro j ⟨hlow, hhigh⟩
  omega

theorem treeFrom_sat (base n : ℕ) {i : ℕ} (hi : 0 < i) :
    (treeFrom base n i : BitTree ε ℕ).Sat (Ok fun v is d =>
      Reads (fun j => base + i ≤ j ∧ 2 * j < 2 * base + (i + 1) * 2 ^ n) n is ∧
        d = 0 ∧ i * 2 ^ n ≤ v ∧ v < (i + 1) * 2 ^ n) := by
  induction n generalizing i with
  | zero => exact ⟨i, rfl, .nil, rfl, by omega, by omega⟩
  | succ n ih =>
      refine sat_bit.mpr fun b => ?_
      have hb : b.toNat ≤ 1 := b.toNat_le
      have hle : (2 * i + b.toNat + 1) * 2 ^ n ≤ (i + 1) * 2 ^ (n + 1) := by
        rw [Nat.pow_succ, Nat.mul_comm (2 ^ n) 2, ← Nat.mul_assoc]
        exact Nat.mul_le_mul_right _ (by omega)
      have hge : i * 2 ^ (n + 1) ≤ (2 * i + b.toNat) * 2 ^ n := by
        rw [Nat.pow_succ, Nat.mul_comm (2 ^ n) 2, ← Nat.mul_assoc]
        exact Nat.mul_le_mul_right _ (by omega)
      refine Sat.mono ?_ (ih (i := 2 * i + b.toNat) (by omega))
      rintro r is d ⟨v, rfl, hreads, rfl, hlower, hupper⟩
      exact ⟨v, rfl, hreads.tree_step hi, rfl, by omega, by omega⟩

theorem tree_sat (base n : ℕ) :
    (tree base n : BitTree ε ℕ).Sat (Ok fun v is d =>
      Reads (fun j => base + 1 ≤ j ∧ j < base + 2 ^ n) n is ∧ d = 0 ∧ v < 2 ^ n) := by
  refine Sat.bind_ok (treeFrom_sat base n Nat.one_pos) ?_
  rintro v is d ⟨hreads, rfl, hlower, hupper⟩
  rw [sat_pure, List.append_nil]
  refine ⟨_, rfl, hreads.mono ?_ le_rfl, rfl, by omega⟩
  rintro j ⟨hlow, hhigh⟩
  omega

/-! ### Decoding -/

/-- The tree is walked through with the bits of the coder, and the probabilities
are adapted. -/
def run (src : ByteMemory) : BitTree ε α → Model → Coder → Except ε α × Model × Coder
  | .done a => fun m c => (.ok a, m, c)
  | .stop e => fun m c => (.error e, m, c)
  | .model i next => fun m c =>
      let bit := (c.normalize src).decode (m i)
      run src (next bit.1) (Function.update m i ((m i).after bit.1)) bit.2
  | .direct next => fun m c =>
      let bit := (c.normalize src).direct
      run src (next bit.1) m bit.2

/-- The normalization in front of a bit, where no byte from `limit` on may be
taken. -/
def checkedNormalize (src : ByteMemory) (limit : ℕ) (c : Coder) :
    Except Coder Coder :=
  if c.range < topValue ∧ limit ≤ c.pos then .error c else .ok (c.normalize src)

/-- The same without an adaptation, and without a byte from `limit` on.  The
coder is returned where such a byte would be needed. -/
def check (src : ByteMemory) (limit : ℕ) (m : Model) :
    BitTree ε α → Coder → Except Coder (Except ε α × Coder)
  | .done a => fun c => .ok (.ok a, c)
  | .stop e => fun c => .ok (.error e, c)
  | .model i next => fun c => do
      let n ← checkedNormalize src limit c
      check src limit m (next (n.decode (m i)).1) (n.decode (m i)).2
  | .direct next => fun c => do
      let n ← checkedNormalize src limit c
      check src limit m (next n.direct.1) n.direct.2

section Run

variable {src : ByteMemory} {limit : ℕ} {m : Model} {c : Coder}

theorem run_model {i : ℕ} {next : Bool → BitTree ε α} :
    (BitTree.model i next).run src m c =
      (next ((c.normalize src).decode (m i)).1).run src
        (Function.update m i ((m i).after ((c.normalize src).decode (m i)).1))
        ((c.normalize src).decode (m i)).2 := by
  rw [BitTree.run]

theorem run_direct {next : Bool → BitTree ε α} :
    (BitTree.direct next).run src m c =
      (next (c.normalize src).direct.1).run src m (c.normalize src).direct.2 := by
  rw [BitTree.run]

/-- What a run costs is what its path through the tree costs. -/
theorem Sat.run {P : Except ε α → List ℕ → ℕ → Prop} {t : BitTree ε α}
    (ht : t.Sat P) (hc : c.Valid) (src : ByteMemory) (m : Model) :
    ∃ is d, P (t.run src m c).1 is d ∧
      c.Reaches (t.run src m c).2.2 is.length d := by
  induction t generalizing P m c with
  | done a => exact ⟨[], 0, ht, hc.reaches_self⟩
  | stop e => exact ⟨[], 0, ht, hc.reaches_self⟩
  | model i next ih =>
      have hn := hc.normalize src
      rw [run_model]
      obtain ⟨is, d, hP, hrest⟩ := ih ((c.normalize src).decode (m i)).1 (ht _)
        (hn.decode_valid (m i))
        (Function.update m i ((m i).after ((c.normalize src).decode (m i)).1))
      exact ⟨i :: is, d, hP, hn.decode_reaches hrest⟩
  | direct next ih =>
      have hn := hc.normalize src
      rw [run_direct]
      obtain ⟨is, d, hP, hrest⟩ := ih (c.normalize src).direct.1 (ht _)
        hn.direct_valid m
      exact ⟨is, d + 1, hP, hn.direct_reaches hrest⟩

theorem checkedNormalize_ok {n : Coder}
    (h : checkedNormalize src limit c = .ok n) :
    n = c.normalize src ∧ (c.pos ≤ limit → n.pos ≤ limit) := by
  unfold checkedNormalize at h
  by_cases hshort : c.range < topValue ∧ limit ≤ c.pos
  · rw [if_pos hshort] at h
    cases h
  · rw [if_neg hshort] at h
    refine ⟨(Except.ok.inj h).symm, fun hpos => ?_⟩
    rw [← Except.ok.inj h, Coder.normalize_pos]
    split
    · rename_i hsmall
      exact Nat.lt_of_not_le fun hle => hshort ⟨hsmall, hle⟩
    · exact hpos

end Run

/-! ### One decoder that follows another one -/

/-- The decoder `t` takes the same bits as `t'`, with results that are related,
except that it may stop earlier. -/
def Follows (R : α → β → Prop) : BitTree ε α → BitTree ε' β → Prop
  | .done a, t' => ∃ b, t' = .done b ∧ R a b
  | .stop _, _ => True
  | .model i next, t' =>
      ∃ next', t' = .model i next' ∧ ∀ b, Follows R (next b) (next' b)
  | .direct next, t' =>
      ∃ next', t' = .direct next' ∧ ∀ b, Follows R (next b) (next' b)

theorem Follows.mono {R S : α → β → Prop} {t : BitTree ε α} {t' : BitTree ε' β}
    (hRS : ∀ a b, R a b → S a b) (h : t.Follows R t') : t.Follows S t' := by
  induction t generalizing t' with
  | done a =>
      obtain ⟨b, rfl, hR⟩ := h
      exact ⟨b, rfl, hRS a b hR⟩
  | stop e => exact h
  | model i next ih =>
      obtain ⟨next', rfl, hnext⟩ := h
      exact ⟨next', rfl, fun b => ih b (hnext b)⟩
  | direct next ih =>
      obtain ⟨next', rfl, hnext⟩ := h
      exact ⟨next', rfl, fun b => ih b (hnext b)⟩

theorem Follows.refl (t : BitTree ε α) : t.Follows Eq t := by
  induction t with
  | done a => exact ⟨a, rfl, rfl⟩
  | stop e => trivial
  | model i next ih => exact ⟨next, rfl, ih⟩
  | direct next ih => exact ⟨next, rfl, ih⟩

theorem Follows.bind {R : α → β → Prop} {α' β' : Type} {S : α' → β' → Prop}
    {t : BitTree ε α} {t' : BitTree ε' β} {f : α → BitTree ε α'}
    {f' : β → BitTree ε' β'} (h : t.Follows R t')
    (hf : ∀ a b, R a b → (f a).Follows S (f' b)) :
    (t >>= f).Follows S (t' >>= f') := by
  induction t generalizing t' with
  | done a =>
      obtain ⟨b, rfl, hR⟩ := h
      exact hf a b hR
  | stop e => trivial
  | model i next ih =>
      obtain ⟨next', rfl, hnext⟩ := h
      exact ⟨fun b => (next' b).bind f', rfl, fun b => ih b (hnext b)⟩
  | direct next ih =>
      obtain ⟨next', rfl, hnext⟩ := h
      exact ⟨fun b => (next' b).bind f', rfl, fun b => ih b (hnext b)⟩

theorem Follows.bind_left {R : α → β → Prop} {α' : Type} {S : α' → β → Prop}
    {t : BitTree ε α} {t' : BitTree ε' β} {f : α → BitTree ε α'}
    (h : t.Follows R t')
    (hf : ∀ a b, R a b → (f a).Follows S (.done b : BitTree ε' β)) :
    (t >>= f).Follows S t' := by
  induction t generalizing t' with
  | done a =>
      obtain ⟨b, rfl, hR⟩ := h
      exact hf a b hR
  | stop e => trivial
  | model i next ih =>
      obtain ⟨next', rfl, hnext⟩ := h
      exact ⟨next', rfl, fun b => ih b (hnext b)⟩
  | direct next ih =>
      obtain ⟨next', rfl, hnext⟩ := h
      exact ⟨next', rfl, fun b => ih b (hnext b)⟩

theorem Follows.bit (i : ℕ) :
    (BitTree.bit i : BitTree ε Bool).Follows Eq (BitTree.bit i : BitTree ε' Bool) :=
  ⟨.done, rfl, fun b => ⟨b, rfl, rfl⟩⟩

theorem Follows.directBit :
    (BitTree.directBit : BitTree ε Bool).Follows Eq
      (BitTree.directBit : BitTree ε' Bool) :=
  ⟨.done, rfl, fun b => ⟨b, rfl, rfl⟩⟩

/-- No index is read twice on a path, and none that was read before. -/
def Fresh (seen : List ℕ) (t : BitTree ε α) : Prop :=
  t.Sat fun _ is _ => is.Nodup ∧ ∀ i ∈ is, i ∉ seen

theorem exists_path {P : Except ε α → List ℕ → ℕ → Prop} {t : BitTree ε α}
    (ht : t.Sat P) : ∃ r is d, P r is d := by
  induction t generalizing P with
  | done a => exact ⟨_, _, _, ht⟩
  | stop e => exact ⟨_, _, _, ht⟩
  | model i next ih =>
      obtain ⟨r, is, d, h⟩ := ih true (ht true)
      exact ⟨r, i :: is, d, h⟩
  | direct next ih =>
      obtain ⟨r, is, d, h⟩ := ih true (ht true)
      exact ⟨r, is, d + 1, h⟩

section Fresh

variable {seen : List ℕ} {i : ℕ} {next : Bool → BitTree ε α}

theorem Fresh.head (h : (BitTree.model i next).Fresh seen) : i ∉ seen := by
  obtain ⟨_, is, _, -, hseen⟩ := exists_path (h true)
  exact hseen i List.mem_cons_self

theorem Fresh.tail (h : (BitTree.model i next).Fresh seen) (b : Bool) :
    (next b).Fresh (i :: seen) := by
  refine Sat.mono ?_ (h b)
  rintro r is d ⟨hnodup, hseen⟩
  have hcons := List.nodup_cons.mp hnodup
  refine ⟨hcons.2, fun j hj => ?_⟩
  rw [List.mem_cons, not_or]
  refine ⟨?_, hseen j (List.mem_cons_of_mem _ hj)⟩
  rintro rfl
  exact hcons.1 hj

theorem Fresh.direct (h : (BitTree.direct next).Fresh seen) (b : Bool) :
    (next b).Fresh seen :=
  Sat.mono (fun _ _ _ hP => hP) (h b)

end Fresh

/-- A decoder without bits follows one that is done. -/
theorem follows_done {b : β} {t : BitTree ε α}
    (ht : t.Sat fun _ is d => is = [] ∧ d = 0) :
    t.Follows (fun _ _ => True) (.done b : BitTree ε' β) := by
  cases t with
  | done a => exact ⟨b, rfl, trivial⟩
  | stop e => trivial
  | model i next =>
      obtain ⟨_, _, _, hnil, _⟩ := exists_path (ht true)
      cases hnil
  | direct next =>
      obtain ⟨_, _, _, _, hzero⟩ := exists_path (ht true)
      cases hzero

theorem check_model {src : ByteMemory} {limit i : ℕ} {next : Bool → BitTree ε α}
    {m : Model} {c : Coder} {r : Except ε α × Coder} :
    (BitTree.model i next).check src limit m c = .ok r ↔
      checkedNormalize src limit c = .ok (c.normalize src) ∧
        (next ((c.normalize src).decode (m i)).1).check src limit m
          ((c.normalize src).decode (m i)).2 = .ok r := by
  rw [BitTree.check, except_bind_eq_ok]
  constructor
  · rintro ⟨n, hn, hrest⟩
    obtain ⟨rfl, -⟩ := checkedNormalize_ok hn
    exact ⟨hn, hrest⟩
  · rintro ⟨hn, hrest⟩
    exact ⟨_, hn, hrest⟩

theorem check_direct {src : ByteMemory} {limit : ℕ} {next : Bool → BitTree ε α}
    {m : Model} {c : Coder} {r : Except ε α × Coder} :
    (BitTree.direct next).check src limit m c = .ok r ↔
      checkedNormalize src limit c = .ok (c.normalize src) ∧
        (next (c.normalize src).direct.1).check src limit m
          (c.normalize src).direct.2 = .ok r := by
  rw [BitTree.check, except_bind_eq_ok]
  constructor
  · rintro ⟨n, hn, hrest⟩
    obtain ⟨rfl, -⟩ := checkedNormalize_ok hn
    exact ⟨hn, hrest⟩
  · rintro ⟨hn, hrest⟩
    exact ⟨_, hn, hrest⟩

/-- A checked walk that does not run out of bytes is a path through the tree. -/
theorem Sat.check {src : ByteMemory} {limit : ℕ} {P : Except ε α → List ℕ → ℕ → Prop}
    {t : BitTree ε α} {m : Model} {c c' : Coder} {r : Except ε α} (ht : t.Sat P)
    (hpos : c.pos ≤ limit) (hcheck : t.check src limit m c = .ok (r, c')) :
    c'.pos ≤ limit ∧ ∃ is d, P r is d := by
  induction t generalizing P c with
  | done a =>
      cases hcheck
      exact ⟨hpos, _, _, ht⟩
  | stop e =>
      cases hcheck
      exact ⟨hpos, _, _, ht⟩
  | model i next ih =>
      obtain ⟨hn, hrest⟩ := check_model.mp hcheck
      have hpos' := (checkedNormalize_ok hn).2 hpos
      rw [← Coder.decode_pos (m i)] at hpos'
      obtain ⟨hle, is, d, hP⟩ := ih _ (ht _) hpos' hrest
      exact ⟨hle, i :: is, d, hP⟩
  | direct next ih =>
      obtain ⟨hn, hrest⟩ := check_direct.mp hcheck
      have hpos' := (checkedNormalize_ok hn).2 hpos
      rw [← Coder.direct_pos] at hpos'
      obtain ⟨hle, is, d, hP⟩ := ih _ (ht _) hpos' hrest
      exact ⟨hle, is, d + 1, hP⟩

/-- Where the checked walk does not run out of bytes, the decoder that follows
does not take more of them. -/
theorem Follows.check {src : ByteMemory} {limit : ℕ} {R : α → β → Prop}
    {t : BitTree ε α} {t' : BitTree ε' β} {seen : List ℕ} {m m' : Model}
    {c c' : Coder} {r : Except ε' β} (h : t.Follows R t') (hfresh : t.Fresh seen)
    (hmodel : ∀ i, i ∉ seen → m' i = m i) (hpos : c.pos ≤ limit)
    (hcheck : t'.check src limit m c = .ok (r, c')) :
    (t.run src m' c).2.2.pos ≤ limit ∧
      ∀ a, (t.run src m' c).1 = .ok a →
        ∃ b, r = .ok b ∧ R a b ∧ (t.run src m' c).2.2 = c' := by
  induction t generalizing t' seen m' c with
  | done a =>
      obtain ⟨b, rfl, hR⟩ := h
      cases hcheck
      refine ⟨hpos, fun a' ha => ?_⟩
      cases ha
      exact ⟨b, rfl, hR, rfl⟩
  | stop e => exact ⟨hpos, fun a ha => by cases ha⟩
  | model i next ih =>
      obtain ⟨next', rfl, hnext⟩ := h
      obtain ⟨hn, hrest⟩ := check_model.mp hcheck
      have hi : i ∉ seen := hfresh.head
      rw [run_model, hmodel i hi]
      refine ih _ (hnext _) (hfresh.tail _) ?_ ?_ hrest
      · intro j hj
        rw [List.mem_cons, not_or] at hj
        rw [Function.update_of_ne hj.1]
        exact hmodel j hj.2
      · rw [Coder.decode_pos]
        exact (checkedNormalize_ok hn).2 hpos
  | direct next ih =>
      obtain ⟨next', rfl, hnext⟩ := h
      obtain ⟨hn, hrest⟩ := check_direct.mp hcheck
      rw [run_direct]
      refine ih _ (hnext _) (hfresh.direct _) hmodel ?_ hrest
      rw [Coder.direct_pos]
      exact (checkedNormalize_ok hn).2 hpos

/-! ### Decoders of one shape -/

/-- The decoders take the same bits, and they end with results that are
related. -/
def Alike (R : α → β → Prop) : BitTree ε α → BitTree ε β → Prop
  | .done a, t' => ∃ b, t' = .done b ∧ R a b
  | .stop e, t' => t' = .stop e
  | .model i next, t' =>
      ∃ next', t' = .model i next' ∧ ∀ b, Alike R (next b) (next' b)
  | .direct next, t' =>
      ∃ next', t' = .direct next' ∧ ∀ b, Alike R (next b) (next' b)

theorem Alike.refl (t : BitTree ε α) : t.Alike Eq t := by
  induction t with
  | done a => exact ⟨a, rfl, rfl⟩
  | stop e => rfl
  | model i next ih => exact ⟨next, rfl, ih⟩
  | direct next ih => exact ⟨next, rfl, ih⟩

theorem Alike.bind {R : α → β → Prop} {α' β' : Type} {S : α' → β' → Prop}
    {t : BitTree ε α} {t' : BitTree ε β} {f : α → BitTree ε α'} {f' : β → BitTree ε β'}
    (h : t.Alike R t') (hf : ∀ a b, R a b → (f a).Alike S (f' b)) :
    (t >>= f).Alike S (t' >>= f') := by
  induction t generalizing t' with
  | done a =>
      obtain ⟨b, rfl, hR⟩ := h
      exact hf a b hR
  | stop e =>
      cases h
      rfl
  | model i next ih =>
      obtain ⟨next', rfl, hnext⟩ := h
      exact ⟨fun b => (next' b).bind f', rfl, fun b => ih b (hnext b)⟩
  | direct next ih =>
      obtain ⟨next', rfl, hnext⟩ := h
      exact ⟨fun b => (next' b).bind f', rfl, fun b => ih b (hnext b)⟩

/-- The same decoder goes first. -/
theorem Alike.bind_same {α' β' : Type} {S : α' → β' → Prop} {t : BitTree ε α}
    {f : α → BitTree ε α'} {f' : α → BitTree ε β'} (hf : ∀ a, (f a).Alike S (f' a)) :
    (t >>= f).Alike S (t >>= f') := by
  refine (Alike.refl t).bind ?_
  rintro a _ rfl
  exact hf a

/-- The results of decoders of one shape. -/
def SameResult (R : α → β → Prop) : Except ε α → Except ε β → Prop
  | .ok a, .ok b => R a b
  | .error e, .error e' => e = e'
  | _, _ => False

section Bytes

variable {src src' : ByteMemory} {limit : ℕ} {m : Model} {c : Coder}

theorem le_normalize_pos : c.pos ≤ (c.normalize src).pos := by
  rw [Coder.normalize_pos]
  split <;> omega

theorem pos_le_run {t : BitTree ε α} : c.pos ≤ (t.run src m c).2.2.pos := by
  induction t generalizing m c with
  | done a => exact le_rfl
  | stop e => exact le_rfl
  | model i next ih =>
      rw [run_model]
      calc c.pos ≤ (c.normalize src).pos := le_normalize_pos
        _ = ((c.normalize src).decode (m i)).2.pos := (Coder.decode_pos _).symm
        _ ≤ _ := ih _
  | direct next ih =>
      rw [run_direct]
      calc c.pos ≤ (c.normalize src).pos := le_normalize_pos
        _ = (c.normalize src).direct.2.pos := Coder.direct_pos.symm
        _ ≤ _ := ih _

/-- Of the bytes, only those in front of the new position matter. -/
theorem normalize_congr (hagree : ∀ i < limit, src' i = src i)
    (hpos : (c.normalize src).pos ≤ limit) : c.normalize src' = c.normalize src := by
  rw [Coder.normalize_pos] at hpos
  unfold Coder.normalize
  by_cases hsmall : c.range < topValue
  · rw [if_pos hsmall] at hpos
    rw [if_pos hsmall, if_pos hsmall, hagree _ hpos]
  · rw [if_neg hsmall, if_neg hsmall]

theorem Alike.run {R : α → β → Prop} {t : BitTree ε α} {t' : BitTree ε β}
    (h : t.Alike R t') (hagree : ∀ i < limit, src' i = src i)
    (hpos : (t.run src m c).2.2.pos ≤ limit) :
    SameResult R (t.run src m c).1 (t'.run src' m c).1 ∧
      (t'.run src' m c).2 = (t.run src m c).2 := by
  induction t generalizing t' m c with
  | done a =>
      obtain ⟨b, rfl, hR⟩ := h
      exact ⟨hR, rfl⟩
  | stop e =>
      cases h
      exact ⟨rfl, rfl⟩
  | model i next ih =>
      obtain ⟨next', rfl, hnext⟩ := h
      rw [run_model] at hpos ⊢
      have hle := pos_le_run.trans hpos
      rw [Coder.decode_pos] at hle
      rw [run_model, normalize_congr hagree hle]
      exact ih _ (hnext _) hpos
  | direct next ih =>
      obtain ⟨next', rfl, hnext⟩ := h
      rw [run_direct] at hpos ⊢
      have hle := pos_le_run.trans hpos
      rw [Coder.direct_pos] at hle
      rw [run_direct, normalize_congr hagree hle]
      exact ih _ (hnext _) hpos

theorem checkedNormalize_of_le (hpos : (c.normalize src).pos ≤ limit) :
    checkedNormalize src limit c = .ok (c.normalize src) := by
  rw [Coder.normalize_pos] at hpos
  unfold checkedNormalize
  refine if_neg ?_
  rintro ⟨hsmall, hle⟩
  rw [if_pos hsmall] at hpos
  omega

/-- The checked walk finds enough bytes where the decoder that follows takes no
others. -/
theorem Follows.check_of_le {R : α → β → Prop} {t : BitTree ε α} {t' : BitTree ε' β}
    {seen : List ℕ} {m' : Model} {a : α} (h : t.Follows R t') (hfresh : t.Fresh seen)
    (hmodel : ∀ i, i ∉ seen → m' i = m i) (hok : (t.run src m' c).1 = .ok a)
    (hpos : (t.run src m' c).2.2.pos ≤ limit) :
    ∃ b, t'.check src limit m c = .ok (.ok b, (t.run src m' c).2.2) := by
  induction t generalizing t' seen m' c with
  | done a =>
      obtain ⟨b, rfl, -⟩ := h
      exact ⟨b, rfl⟩
  | stop e => cases hok
  | model i next ih =>
      obtain ⟨next', rfl, hnext⟩ := h
      have hi : i ∉ seen := hfresh.head
      rw [run_model, hmodel i hi] at hok hpos ⊢
      have hle := pos_le_run.trans hpos
      rw [Coder.decode_pos] at hle
      have hmodel' : ∀ j, j ∉ i :: seen → Function.update m' i
          ((m i).after ((c.normalize src).decode (m i)).1) j = m j := by
        intro j hj
        rw [List.mem_cons, not_or] at hj
        rw [Function.update_of_ne hj.1]
        exact hmodel j hj.2
      obtain ⟨b, hrest⟩ := ih _ (hnext _) (hfresh.tail _) hmodel' hok hpos
      exact ⟨b, check_model.mpr ⟨checkedNormalize_of_le hle, hrest⟩⟩
  | direct next ih =>
      obtain ⟨next', rfl, hnext⟩ := h
      rw [run_direct] at hok hpos ⊢
      have hle := pos_le_run.trans hpos
      rw [Coder.direct_pos] at hle
      obtain ⟨b, hrest⟩ := ih _ (hnext _) (hfresh.direct _) hmodel hok hpos
      exact ⟨b, check_direct.mpr ⟨checkedNormalize_of_le hle, hrest⟩⟩

theorem checkedNormalize_congr (hagree : ∀ i < limit, src' i = src i)
    (hpos : c.pos ≤ limit) :
    checkedNormalize src' limit c = checkedNormalize src limit c := by
  cases hn : checkedNormalize src limit c with
  | error n =>
      unfold checkedNormalize at hn ⊢
      split at hn
      · rename_i hshort
        rw [if_pos hshort, hn]
      · cases hn
  | ok n =>
      obtain ⟨rfl, hle⟩ := checkedNormalize_ok hn
      unfold checkedNormalize at hn ⊢
      split at hn
      · cases hn
      · rename_i henough
        rw [if_neg henough, normalize_congr hagree (hle hpos)]

theorem check_congr {t : BitTree ε α} (hagree : ∀ i < limit, src' i = src i)
    (hpos : c.pos ≤ limit) : t.check src' limit m c = t.check src limit m c := by
  induction t generalizing c with
  | done a => rfl
  | stop e => rfl
  | model i next ih =>
      rw [BitTree.check, BitTree.check]
      dsimp only
      rw [checkedNormalize_congr hagree hpos]
      cases hn : checkedNormalize src limit c with
      | error n => rfl
      | ok n =>
          have hle := (checkedNormalize_ok hn).2 hpos
          rw [← Coder.decode_pos (m i)] at hle
          exact ih _ hle
  | direct next ih =>
      rw [BitTree.check, BitTree.check]
      dsimp only
      rw [checkedNormalize_congr hagree hpos]
      cases hn : checkedNormalize src limit c with
      | error n => rfl
      | ok n =>
          have hle := (checkedNormalize_ok hn).2 hpos
          rw [← Coder.direct_pos] at hle
          exact ih _ hle

end Bytes

end BitTree

end RangeCoder
