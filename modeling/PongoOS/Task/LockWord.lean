import Mathlib.Data.BitVec
import Mathlib.Tactic.Common

/-!
# The lock word

A lock is one 64-bit word: the pointer to the task that last took or released
it, and below it the busy and the held bit.  The operations are those of
`locks.c`, one store each.
-/

namespace PongoOS

namespace LockWord

/-- `IS_LOCK_HELD`. -/
def isHeld (w : BitVec 64) : Prop := w &&& 1#64 ≠ 0#64

/-- `IS_LOCK_BUSY`. -/
def isBusy (w : BitVec 64) : Prop := w &&& 2#64 ≠ 0#64

/-- `GET_LOCK_LAST_OWNER`. -/
def lastOwner (w : BitVec 64) : BitVec 64 := w &&& ~~~3#64

/-- `SET_LOCK_HELD`. -/
def setHeld (w : BitVec 64) : BitVec 64 := w ||| 1#64

/-- `SET_LOCK_BUSY`. -/
def setBusy (w : BitVec 64) : BitVec 64 := w ||| 2#64

/-- `SET_LOCK_NOT_HELD`. -/
def setNotHeld (w : BitVec 64) : BitVec 64 := w &&& ~~~1#64

/-- `SET_LOCK_NOT_BUSY`. -/
def setNotBusy (w : BitVec 64) : BitVec 64 := w &&& ~~~2#64

/-- The first store of `SET_LOCK_LAST_OWNER`. -/
def maskOwner (w : BitVec 64) : BitVec 64 := w &&& 3#64

/-- The second store of `SET_LOCK_LAST_OWNER`. -/
def orOwner (w t : BitVec 64) : BitVec 64 := w ||| (t &&& ~~~3#64)

instance (w : BitVec 64) : Decidable (isHeld w) :=
  inferInstanceAs (Decidable (_ ≠ _))

instance (w : BitVec 64) : Decidable (isBusy w) :=
  inferInstanceAs (Decidable (_ ≠ _))

section Stores

variable (w t : BitVec 64)

/-! ## What each store does to the held bit -/

@[simp] theorem isHeld_setHeld : isHeld (setHeld w) := by
  rw [isHeld, setHeld, BitVec.and_or_distrib_right]
  intro h
  exact absurd (BitVec.or_eq_zero_iff.mp h).2 (by decide)

@[simp] theorem not_isHeld_setNotHeld : ¬ isHeld (setNotHeld w) := by
  simp [isHeld, setNotHeld, BitVec.and_assoc]

@[simp] theorem isHeld_setBusy : isHeld (setBusy w) ↔ isHeld w := by
  simp [isHeld, setBusy, BitVec.and_or_distrib_right]

@[simp] theorem isHeld_setNotBusy : isHeld (setNotBusy w) ↔ isHeld w := by
  simp [isHeld, setNotBusy, BitVec.and_assoc]

@[simp] theorem isHeld_maskOwner : isHeld (maskOwner w) ↔ isHeld w := by
  simp [isHeld, maskOwner, BitVec.and_assoc]

@[simp] theorem isHeld_orOwner : isHeld (orOwner w t) ↔ isHeld w := by
  simp [isHeld, orOwner, BitVec.and_or_distrib_right, BitVec.and_assoc]

/-! ## What each store does to the owner -/

@[simp] theorem lastOwner_setHeld : lastOwner (setHeld w) = lastOwner w := by
  simp [lastOwner, setHeld, BitVec.and_or_distrib_right]

@[simp] theorem lastOwner_setNotHeld :
    lastOwner (setNotHeld w) = lastOwner w := by
  simp [lastOwner, setNotHeld, BitVec.and_assoc]

@[simp] theorem lastOwner_setBusy : lastOwner (setBusy w) = lastOwner w := by
  simp [lastOwner, setBusy, BitVec.and_or_distrib_right]

@[simp] theorem lastOwner_setNotBusy :
    lastOwner (setNotBusy w) = lastOwner w := by
  simp [lastOwner, setNotBusy, BitVec.and_assoc]

@[simp] theorem lastOwner_maskOwner : lastOwner (maskOwner w) = 0#64 := by
  simp [lastOwner, maskOwner, BitVec.and_assoc]

/-- The pointer is stored without its two low bits. -/
theorem lastOwner_orOwner (howner : lastOwner w = 0#64)
    (ht : lastOwner t = t) : lastOwner (orOwner w t) = t := by
  unfold lastOwner at howner ht
  rw [lastOwner, orOwner, BitVec.and_or_distrib_right, howner,
    BitVec.and_assoc, BitVec.and_self, ht, BitVec.zero_or]

end Stores

end LockWord

end PongoOS
