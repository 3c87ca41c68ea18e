import Mathlib.Algebra.GroupWithZero.Nat
import Mathlib.Data.Nat.Basic
import Mathlib.Tactic.Common

/-!
# Arithmetic on machine words

Words are natural numbers, and a difference that wraps is written out.
-/

namespace PongoOS

/-- `x - y` on 32-bit words. -/
def sub32 (x y : ℕ) : ℕ := (x + 2 ^ 32 - y) % 2 ^ 32

theorem sub32_of_le {x y : ℕ} (hyx : y ≤ x) (hx : x < 2 ^ 32) :
    sub32 x y = x - y := by
  unfold sub32
  omega

/-- `a - b` on 64-bit words. -/
def sub64 (a b : ℕ) : ℕ := (a + 2 ^ 64 - b) % 2 ^ 64

def inc64 (a : ℕ) : ℕ := (a + 1) % 2 ^ 64

def dec64 (a : ℕ) : ℕ := (a + 2 ^ 64 - 1) % 2 ^ 64

theorem sub64_of_le {a b : ℕ} (hba : b ≤ a) (ha : a < 2 ^ 64) :
    sub64 a b = a - b := by
  unfold sub64
  rw [show a + 2 ^ 64 - b = a - b + 2 ^ 64 by omega, Nat.add_mod_right]
  exact Nat.mod_eq_of_lt (by omega)

theorem inc64_of_lt {a : ℕ} (ha : a + 1 < 2 ^ 64) : inc64 a = a + 1 :=
  Nat.mod_eq_of_lt ha

theorem dec64_of_pos {a : ℕ} (h0 : 0 < a) (ha : a < 2 ^ 64) :
    dec64 a = a - 1 :=
  sub64_of_le h0 ha

theorem dec64_sub64 {a b : ℕ} (ha : a < 2 ^ 64) (hb : b < 2 ^ 64) :
    dec64 (sub64 a b) = sub64 a (b + 1) := by
  unfold dec64 sub64
  omega

@[simp] theorem sub64_self (a : ℕ) : sub64 a a = 0 := by
  unfold sub64
  rw [Nat.add_sub_cancel_left, Nat.mod_self]

theorem sub64_lt {a b : ℕ} : sub64 a b < 2 ^ 64 := by
  unfold sub64
  exact Nat.mod_lt _ (by decide)

theorem sub64_add_left {a b : ℕ} (hb : b < 2 ^ 64) : sub64 (a + b) a = b := by
  unfold sub64
  rw [show a + b + 2 ^ 64 - a = b + 2 ^ 64 by omega, Nat.add_mod_right]
  exact Nat.mod_eq_of_lt hb

theorem sub64_zero {a : ℕ} (ha : a < 2 ^ 64) : sub64 a 0 = a :=
  sub64_of_le (Nat.zero_le a) ha

theorem sub64_eq_self {a b : ℕ} (ha : a < 2 ^ 64) (hb : b < 2 ^ 64)
    (heq : sub64 a b = a) : b = 0 := by
  unfold sub64 at heq
  omega

attribute [irreducible] sub64 inc64 dec64

end PongoOS
