import PongoOS.Support.Run
import PongoOS.Task.LockWord
import Mathlib.Logic.Function.Basic

/-!
# Taking and releasing a lock

The tasks of one core run `lock_take`, `lock_take_spin` and `lock_release` on
one lock, statement by statement.  While interrupts are enabled any task may be
switched to.  Every store to the word is made with interrupts masked, so the
task that makes it is not interrupted before the word is complete again.

A lock is only taken with interrupts enabled: `preemption_over` is zero from the
start of the scheduler to its end, and `lock_take` panics otherwise.
-/

namespace PongoOS

open LockWord

/-! ## State -/

/-- The next statement of a task.  `spin` says whether it is in
`lock_take_spin`. -/
inductive LockPc where
  | out
  | testHeld (spin : Bool)
  | disable (spin : Bool)
  | retestHeld (spin : Bool)
  | testOwner
  | testOwnerBusy
  | dropMask
  | dropOr
  | yieldAsserted
  | setHeld
  | setNotBusy
  | takeMask
  | takeOr
  | takeEnable
  | retryEnable (spin : Bool)
  | testBusy (spin : Bool)
  | busyDisable (spin : Bool)
  | setBusy (spin : Bool)
  | busyEnable (spin : Bool)
  | yield
  | inside
  | releaseDisable
  | setNotHeld
  | releaseMask
  | releaseOr
  | releaseEnable
deriving DecidableEq, Repr

/-- The lock and the core.  `lastUser` is the task whose `lock_take` or
`lock_release` returned last. -/
structure LockState where
  word : BitVec 64
  disIntCount : ℕ
  current : BitVec 64
  pc : BitVec 64 → LockPc
  lastUser : BitVec 64

namespace LockState

/-- The current task goes on at `p`. -/
@[simps]
def goto (s : LockState) (p : LockPc) : LockState :=
  { s with pc := Function.update s.pc s.current p }

@[simps]
def store (s : LockState) (w : BitVec 64) : LockState := { s with word := w }

/-- `disable_interrupts`. -/
@[simps]
def disableInterrupts (s : LockState) : LockState :=
  { s with disIntCount := s.disIntCount + 1 }

/-- `enable_interrupts`. -/
@[simps]
def enableInterrupts (s : LockState) : LockState :=
  { s with disIntCount := s.disIntCount - 1 }

@[simps]
def setLastUser (s : LockState) (t : BitVec 64) : LockState :=
  { s with lastUser := t }

/-- `_task_switch_asserted`, which ends with `enable_interrupts`. -/
@[simps]
def switchTo (s : LockState) (u : BitVec 64) : LockState :=
  { s with current := u, disIntCount := s.disIntCount - 1 }

/-! ## Statements -/

/-- Where the loop goes on after a failed try. -/
def again (spin : Bool) : LockPc := if spin then .testHeld spin else .yield

/-- One statement of the current task. -/
def exec (s : LockState) : LockState :=
  match s.pc s.current with
  | .testHeld spin =>
      s.goto (if isHeld s.word then .testBusy spin else .disable spin)
  | .disable spin => s.disableInterrupts.goto (.retestHeld spin)
  | .retestHeld spin =>
      s.goto
        (if isHeld s.word then .retryEnable spin
        else if spin then .setHeld else .testOwner)
  | .testOwner =>
      s.goto
        (if lastOwner s.word = s.current then .testOwnerBusy else .setHeld)
  | .testOwnerBusy => s.goto (if isBusy s.word then .dropMask else .setHeld)
  | .dropMask => (s.store (maskOwner s.word)).goto .dropOr
  | .dropOr => (s.store (orOwner s.word 0#64)).goto .yieldAsserted
  | .setHeld => (s.store (setHeld s.word)).goto .setNotBusy
  | .setNotBusy => (s.store (setNotBusy s.word)).goto .takeMask
  | .takeMask => (s.store (maskOwner s.word)).goto .takeOr
  | .takeOr => (s.store (orOwner s.word s.current)).goto .takeEnable
  | .takeEnable => (s.enableInterrupts.setLastUser s.current).goto .inside
  | .retryEnable spin => s.enableInterrupts.goto (again spin)
  | .testBusy spin =>
      s.goto (if isBusy s.word then again spin else .busyDisable spin)
  | .busyDisable spin => s.disableInterrupts.goto (.setBusy spin)
  | .setBusy spin => (s.store (setBusy s.word)).goto (.busyEnable spin)
  | .busyEnable spin => s.enableInterrupts.goto (again spin)
  | .releaseDisable => s.disableInterrupts.goto .setNotHeld
  | .setNotHeld => (s.store (setNotHeld s.word)).goto .releaseMask
  | .releaseMask => (s.store (maskOwner s.word)).goto .releaseOr
  | .releaseOr => (s.store (orOwner s.word s.current)).goto .releaseEnable
  | .releaseEnable => (s.enableInterrupts.setLastUser s.current).goto .out
  -- `task_yield` returns at once when interrupts are masked
  | .yield => if s.disIntCount ≠ 0 then s.goto (.testHeld false) else s
  | .yieldAsserted | .out | .inside => s

end LockState

/-! ## Steps -/

/-- What the core does next.  A task outside of the lock code may mask
interrupts, and may give up the core while they are masked. -/
inductive LockEvent where
  | take (spin : Bool)
  | release
  | exec
  | disable
  | enable
  | preempt (u : BitVec 64)
  | yield (u : BitVec 64)
  | giveUp (u : BitVec 64)

open LockState

/-- A task structure is aligned to four bytes at least. -/
def Aligned (t : BitVec 64) : Prop := lastOwner t = t

instance (t : BitVec 64) : Decidable (Aligned t) :=
  inferInstanceAs (Decidable (_ = _))

def LockStep (s : LockState) (e : LockEvent) (s' : LockState) : Prop :=
  match e with
  | .take spin =>
      s.pc s.current = .out ∧ s.disIntCount = 0 ∧ s' = s.goto (.testHeld spin)
  | .release => s.pc s.current = .inside ∧ s' = s.goto .releaseDisable
  | .exec => s' = s.exec
  | .disable =>
      (s.pc s.current = .out ∨ s.pc s.current = .inside) ∧
        s' = s.disableInterrupts
  | .enable =>
      (s.pc s.current = .out ∨ s.pc s.current = .inside) ∧
        s.disIntCount ≠ 0 ∧ s' = s.enableInterrupts
  | .preempt u => Aligned u ∧ s.disIntCount = 0 ∧ s' = s.switchTo u
  | .yield u =>
      Aligned u ∧ (s.pc s.current = .yield ∧ s.disIntCount = 0 ∨
        s.pc s.current = .yieldAsserted) ∧
        s' = (s.goto (.testHeld false)).switchTo u
  | .giveUp u =>
      Aligned u ∧ (s.pc s.current = .out ∨ s.pc s.current = .inside) ∧
        s.disIntCount ≠ 0 ∧ s' = s.switchTo u

/-! ## Invariant -/

namespace LockPc

/-- The task has masked interrupts in the lock code and not unmasked them. -/
def masked : LockPc → Bool
  | .retestHeld _ | .testOwner | .testOwnerBusy | .dropMask | .dropOr
  | .yieldAsserted | .setHeld | .setNotBusy | .takeMask | .takeOr
  | .takeEnable | .retryEnable _ | .setBusy _ | .busyEnable _ | .setNotHeld
  | .releaseMask | .releaseOr | .releaseEnable => true
  | _ => false

/-- The task is between its take and its release: it has set the held bit and
not cleared it. -/
def owns : LockPc → Bool
  | .setNotBusy | .takeMask | .takeOr | .takeEnable | .inside
  | .releaseDisable | .setNotHeld => true
  | _ => false

/-- The task has found the lock free with interrupts masked. -/
def knowsFree : LockPc → Bool
  | .testOwner | .testOwnerBusy | .dropMask | .dropOr | .setHeld => true
  | _ => false

/-- What the word says about its owner when the current task is here. -/
def OwnerOk (w current lastUser : BitVec 64) : LockPc → Prop
  | .dropOr | .takeOr | .releaseOr => lastOwner w = 0#64
  | .takeEnable | .releaseEnable => lastOwner w = current
  | _ => lastOwner w = 0#64 ∨ lastOwner w = lastUser

end LockPc

structure LockInv (s : LockState) : Prop where
  masked : ∀ t, (s.pc t).masked = true → t = s.current
  count : (s.pc s.current).masked = true → 0 < s.disIntCount
  unique : ∀ t u, (s.pc t).owns = true → (s.pc u).owns = true → t = u
  held : isHeld s.word ↔ ∃ t, (s.pc t).owns = true
  free : (s.pc s.current).knowsFree = true → ¬ isHeld s.word
  owner : (s.pc s.current).OwnerOk s.word s.current s.lastUser
  aligned : Aligned s.current

namespace LockInv

variable {s s' : LockState} {p : LockPc}

/-- Moving the current task to `p`, whatever it stored. -/
theorem move (h : LockInv s) (hpc : s'.pc = Function.update s.pc s.current p)
    (hcur : s'.current = s.current)
    (hcount : p.masked = true → 0 < s'.disIntCount)
    (hunique : ∀ t, t ≠ s.current → (s.pc t).owns = true → p.owns = false)
    (hheld : isHeld s'.word ↔
      p.owns = true ∨ ∃ t, t ≠ s.current ∧ (s.pc t).owns = true)
    (hfree : p.knowsFree = true → ¬ isHeld s'.word)
    (howner : p.OwnerOk s'.word s.current s'.lastUser) : LockInv s' := by
  have hself : s'.pc s.current = p := by rw [hpc, Function.update_self]
  have hother : ∀ t, t ≠ s.current → s'.pc t = s.pc t := by
    intro t ht
    rw [hpc, Function.update_of_ne ht]
  constructor
  · intro t ht
    rw [hcur]
    by_contra hne
    rw [hother t hne] at ht
    exact hne (h.masked t ht)
  · rw [hcur, hself]
    exact hcount
  · intro t u ht hu
    by_cases hts : t = s.current
    · by_cases hus : u = s.current
      · rw [hts, hus]
      · rw [hts, hself] at ht
        rw [hother u hus] at hu
        rw [hunique u hus hu] at ht
        cases ht
    · by_cases hus : u = s.current
      · rw [hus, hself] at hu
        rw [hother t hts] at ht
        rw [hunique t hts ht] at hu
        cases hu
      · rw [hother t hts] at ht
        rw [hother u hus] at hu
        exact h.unique t u ht hu
  · rw [hheld]
    constructor
    · rintro (hp | ⟨t, hts, ht⟩)
      · exact ⟨s.current, by rw [hself]; exact hp⟩
      · exact ⟨t, by rw [hother t hts]; exact ht⟩
    · rintro ⟨t, ht⟩
      by_cases hts : t = s.current
      · rw [hts, hself] at ht
        exact Or.inl ht
      · rw [hother t hts] at ht
        exact Or.inr ⟨t, hts, ht⟩
  · rw [hcur, hself]
    exact hfree
  · rw [hcur, hself]
    exact howner
  · rw [hcur]
    exact h.aligned

/-- The current task keeps the lock, or stays without it. -/
theorem keep (h : LockInv s) (hpc : s'.pc = Function.update s.pc s.current p)
    (hcur : s'.current = s.current)
    (hcount : p.masked = true → 0 < s'.disIntCount)
    (howns : p.owns = (s.pc s.current).owns)
    (hheld : isHeld s'.word ↔ isHeld s.word)
    (hfree : p.knowsFree = true → ¬ isHeld s'.word)
    (howner : p.OwnerOk s'.word s.current s'.lastUser) : LockInv s' := by
  apply h.move hpc hcur hcount _ _ hfree howner
  · intro t hts ht
    rw [howns]
    by_contra howned
    exact hts (h.unique t _ ht (Bool.eq_true_of_not_eq_false howned))
  · rw [hheld, h.held, howns]
    constructor
    · rintro ⟨t, ht⟩
      by_cases hts : t = s.current
      · exact Or.inl (hts ▸ ht)
      · exact Or.inr ⟨t, hts, ht⟩
    · rintro (hp | ⟨t, -, ht⟩)
      · exact ⟨_, hp⟩
      · exact ⟨t, ht⟩

/-- The current task takes the free lock. -/
theorem enter (h : LockInv s) (hpc : s'.pc = Function.update s.pc s.current p)
    (hcur : s'.current = s.current)
    (hcount : p.masked = true → 0 < s'.disIntCount)
    (hbefore : ¬ isHeld s.word) (hafter : isHeld s'.word)
    (howns : p.owns = true) (hfree : p.knowsFree = false)
    (howner : p.OwnerOk s'.word s.current s'.lastUser) : LockInv s' := by
  have hnone : ∀ t, (s.pc t).owns ≠ true := by
    intro t ht
    exact hbefore (h.held.mpr ⟨t, ht⟩)
  apply h.move hpc hcur hcount _ _ _ howner
  · intro t _ ht
    exact absurd ht (hnone t)
  · simp [hafter, howns]
  · intro hp
    rw [hfree] at hp
    cases hp

/-- The current task gives the lock back. -/
theorem leave (h : LockInv s) (hpc : s'.pc = Function.update s.pc s.current p)
    (hcur : s'.current = s.current)
    (hcount : p.masked = true → 0 < s'.disIntCount)
    (hbefore : (s.pc s.current).owns = true) (hafter : ¬ isHeld s'.word)
    (howns : p.owns = false)
    (howner : p.OwnerOk s'.word s.current s'.lastUser) : LockInv s' := by
  have hnone : ¬ ∃ t, t ≠ s.current ∧ (s.pc t).owns = true := by
    rintro ⟨t, hts, ht⟩
    exact hts (h.unique t _ ht hbefore)
  apply h.move hpc hcur hcount _ _ _ howner
  · intro t _ _
    exact howns
  · simp [hafter, howns, hnone]
  · intro _
    exact hafter

/-! ### Statements keep the invariant -/

theorem lastOwner_null (w : BitVec 64) (hw : lastOwner w = 0#64) :
    lastOwner (orOwner w 0#64) = 0#64 := lastOwner_orOwner w 0#64 hw (by decide)

/-- A statement that reads the word. -/
theorem branch (h : LockInv s)
    (hmasked : p.masked = true → (s.pc s.current).masked = true)
    (howns : p.owns = (s.pc s.current).owns)
    (hfree : p.knowsFree = true → ¬ isHeld s.word)
    (howner : p.OwnerOk s.word s.current s.lastUser) :
    LockInv (s.goto p) :=
  h.keep rfl rfl (fun hp => h.count (hmasked hp)) howns Iff.rfl hfree howner

theorem maskInterrupts (h : LockInv s) (howns : p.owns = (s.pc s.current).owns)
    (hfree : p.knowsFree = false)
    (howner : p.OwnerOk s.word s.current s.lastUser) :
    LockInv (s.disableInterrupts.goto p) :=
  h.keep rfl rfl (fun _ => Nat.succ_pos _) howns Iff.rfl
    (fun hp => absurd hp (Bool.eq_false_iff.mp hfree)) howner

theorem unmaskInterrupts (h : LockInv s) (hmasked : p.masked = false)
    (howns : p.owns = (s.pc s.current).owns) (hfree : p.knowsFree = false)
    (howner : p.OwnerOk s.word s.current s.lastUser) :
    LockInv (s.enableInterrupts.goto p) :=
  h.keep rfl rfl (fun hp => absurd hp (Bool.eq_false_iff.mp hmasked)) howns
    Iff.rfl (fun hp => absurd hp (Bool.eq_false_iff.mp hfree)) howner

/-- The end of `lock_take` and of `lock_release`. -/
theorem finish (h : LockInv s) (hmasked : p.masked = false)
    (howns : p.owns = (s.pc s.current).owns) (hfree : p.knowsFree = false)
    (howner : p.OwnerOk s.word s.current s.current) :
    LockInv ((s.enableInterrupts.setLastUser s.current).goto p) :=
  h.keep rfl rfl (fun hp => absurd hp (Bool.eq_false_iff.mp hmasked)) howns
    Iff.rfl (fun hp => absurd hp (Bool.eq_false_iff.mp hfree)) howner

/-- A store that leaves the held bit as it is. -/
theorem storeWord {w : BitVec 64} (h : LockInv s)
    (hmasked : (s.pc s.current).masked = true)
    (howns : p.owns = (s.pc s.current).owns)
    (hheld : isHeld w ↔ isHeld s.word)
    (hfree : p.knowsFree = true → (s.pc s.current).knowsFree = true)
    (howner : p.OwnerOk w s.current s.lastUser) :
    LockInv ((s.store w).goto p) :=
  h.keep rfl rfl (fun _ => h.count hmasked) howns hheld
    (fun hp => mt hheld.mp (h.free (hfree hp))) howner

theorem exec (h : LockInv s) : LockInv s.exec := by
  have howner := h.owner
  unfold LockState.exec
  cases hpc : s.pc s.current with
  | testHeld spin =>
      rw [hpc] at howner
      dsimp only
      split
      · exact h.branch nofun (by rw [hpc]; rfl) nofun howner
      · exact h.branch nofun (by rw [hpc]; rfl) nofun howner
  | disable spin =>
      rw [hpc] at howner
      exact h.maskInterrupts (by rw [hpc]; rfl) rfl howner
  | retestHeld spin =>
      rw [hpc] at howner
      have hmasked : (s.pc s.current).masked = true := by rw [hpc]; rfl
      dsimp only
      split
      · exact h.branch (fun _ => hmasked) (by rw [hpc]; rfl) nofun howner
      · rename_i hheld
        cases spin with
        | true =>
            exact h.branch (fun _ => hmasked) (by rw [hpc]; rfl)
              (fun _ => hheld) howner
        | false =>
            exact h.branch (fun _ => hmasked) (by rw [hpc]; rfl)
              (fun _ => hheld) howner
  | testOwner =>
      rw [hpc] at howner
      have hmasked : (s.pc s.current).masked = true := by rw [hpc]; rfl
      have hfree := h.free (by rw [hpc]; rfl)
      dsimp only
      split
      · exact h.branch (fun _ => hmasked) (by rw [hpc]; rfl) (fun _ => hfree)
          howner
      · exact h.branch (fun _ => hmasked) (by rw [hpc]; rfl) (fun _ => hfree)
          howner
  | testOwnerBusy =>
      rw [hpc] at howner
      have hmasked : (s.pc s.current).masked = true := by rw [hpc]; rfl
      have hfree := h.free (by rw [hpc]; rfl)
      dsimp only
      split
      · exact h.branch (fun _ => hmasked) (by rw [hpc]; rfl) (fun _ => hfree)
          howner
      · exact h.branch (fun _ => hmasked) (by rw [hpc]; rfl) (fun _ => hfree)
          howner
  | dropMask =>
      exact h.storeWord (by rw [hpc]; rfl) (by rw [hpc]; rfl)
        (isHeld_maskOwner _) (fun _ => by rw [hpc]; rfl)
        (lastOwner_maskOwner _)
  | dropOr =>
      rw [hpc] at howner
      exact h.storeWord (by rw [hpc]; rfl) (by rw [hpc]; rfl)
        (isHeld_orOwner _ _) nofun (Or.inl (lastOwner_null _ howner))
  | setHeld =>
      rw [hpc] at howner
      have hsame := lastOwner_setHeld s.word
      exact h.enter rfl rfl (fun _ => h.count (by rw [hpc]; rfl))
        (h.free (by rw [hpc]; rfl)) (isHeld_setHeld _) rfl rfl
        (howner.imp hsame.trans hsame.trans)
  | setNotBusy =>
      rw [hpc] at howner
      have hsame := lastOwner_setNotBusy s.word
      exact h.storeWord (by rw [hpc]; rfl) (by rw [hpc]; rfl)
        (isHeld_setNotBusy _) nofun (howner.imp hsame.trans hsame.trans)
  | takeMask =>
      exact h.storeWord (by rw [hpc]; rfl) (by rw [hpc]; rfl)
        (isHeld_maskOwner _) nofun (lastOwner_maskOwner _)
  | takeOr =>
      rw [hpc] at howner
      exact h.storeWord (by rw [hpc]; rfl) (by rw [hpc]; rfl)
        (isHeld_orOwner _ _) nofun (lastOwner_orOwner _ _ howner h.aligned)
  | takeEnable =>
      rw [hpc] at howner
      exact h.finish rfl (by rw [hpc]; rfl) rfl (Or.inr howner)
  | retryEnable spin =>
      rw [hpc] at howner
      cases spin with
      | true => exact h.unmaskInterrupts rfl (by rw [hpc]; rfl) rfl howner
      | false => exact h.unmaskInterrupts rfl (by rw [hpc]; rfl) rfl howner
  | testBusy spin =>
      rw [hpc] at howner
      dsimp only
      split
      · cases spin with
        | true => exact h.branch nofun (by rw [hpc]; rfl) nofun howner
        | false => exact h.branch nofun (by rw [hpc]; rfl) nofun howner
      · exact h.branch nofun (by rw [hpc]; rfl) nofun howner
  | busyDisable spin =>
      rw [hpc] at howner
      exact h.maskInterrupts (by rw [hpc]; rfl) rfl howner
  | setBusy spin =>
      rw [hpc] at howner
      have hsame := lastOwner_setBusy s.word
      exact h.storeWord (by rw [hpc]; rfl) (by rw [hpc]; rfl)
        (isHeld_setBusy _) nofun (howner.imp hsame.trans hsame.trans)
  | busyEnable spin =>
      rw [hpc] at howner
      cases spin with
      | true => exact h.unmaskInterrupts rfl (by rw [hpc]; rfl) rfl howner
      | false => exact h.unmaskInterrupts rfl (by rw [hpc]; rfl) rfl howner
  | releaseDisable =>
      rw [hpc] at howner
      exact h.maskInterrupts (by rw [hpc]; rfl) rfl howner
  | setNotHeld =>
      rw [hpc] at howner
      have hsame := lastOwner_setNotHeld s.word
      exact h.leave rfl rfl (fun _ => h.count (by rw [hpc]; rfl))
        (by rw [hpc]; rfl) (not_isHeld_setNotHeld _) rfl
        (howner.imp hsame.trans hsame.trans)
  | releaseMask =>
      exact h.storeWord (by rw [hpc]; rfl) (by rw [hpc]; rfl)
        (isHeld_maskOwner _) nofun (lastOwner_maskOwner _)
  | releaseOr =>
      rw [hpc] at howner
      exact h.storeWord (by rw [hpc]; rfl) (by rw [hpc]; rfl)
        (isHeld_orOwner _ _) nofun (lastOwner_orOwner _ _ howner h.aligned)
  | releaseEnable =>
      rw [hpc] at howner
      exact h.finish rfl (by rw [hpc]; rfl) rfl (Or.inr howner)
  | yield =>
      rw [hpc] at howner
      dsimp only
      split
      · exact h.branch nofun (by rw [hpc]; rfl) nofun howner
      · exact h
  | yieldAsserted => exact h
  | out => exact h
  | inside => exact h

/-! ### Steps keep the invariant -/

theorem ownerOk_of_not_masked {w t u : BitVec 64} {p : LockPc}
    (hp : p.masked = false) :
    p.OwnerOk w t u ↔ lastOwner w = 0#64 ∨ lastOwner w = u := by
  cases p <;> first | exact Iff.rfl | cases hp

theorem masked_of_knowsFree {p : LockPc} (hp : p.knowsFree = true) :
    p.masked = true := by
  cases p <;> first | rfl | cases hp

/-- Outside of the masked sections the core may run any task. -/
theorem switchTo {u : BitVec 64} (h : LockInv s) (hu : Aligned u)
    (hp : (s.pc s.current).masked = false) : LockInv (s.switchTo u) := by
  have hnone : ∀ t, (s.pc t).masked = false := by
    intro t
    by_contra ht
    have hmasked := Bool.eq_true_of_not_eq_false ht
    rw [h.masked t hmasked, hp] at hmasked
    cases hmasked
  have howner := (ownerOk_of_not_masked hp).mp h.owner
  constructor
  · intro t ht
    exact absurd ((hnone t).symm.trans ht) (by decide)
  · intro ht
    exact absurd ((hnone u).symm.trans ht) (by decide)
  · exact h.unique
  · exact h.held
  · intro hfree
    exact absurd ((hnone u).symm.trans (masked_of_knowsFree hfree)) (by decide)
  · exact (ownerOk_of_not_masked (hnone u)).mpr howner
  · exact hu

/-- The count changes outside of the lock code. -/
theorem setCount {s' : LockState} (h : LockInv s)
    (hp : (s.pc s.current).masked = false) (hpc : s'.pc = s.pc)
    (hcur : s'.current = s.current) (hword : s'.word = s.word)
    (hlast : s'.lastUser = s.lastUser) : LockInv s' := by
  constructor
  · rw [hpc, hcur]
    exact h.masked
  · rw [hpc, hcur, hp]
    nofun
  · rw [hpc]
    exact h.unique
  · rw [hpc, hword]
    exact h.held
  · rw [hpc, hcur, hword]
    exact h.free
  · rw [hpc, hcur, hword, hlast]
    exact h.owner
  · rw [hcur]
    exact h.aligned

theorem outside {s : LockState}
    (hpc : s.pc s.current = .out ∨ s.pc s.current = .inside) :
    (s.pc s.current).masked = false := by
  rcases hpc with hpc | hpc <;> rw [hpc] <;> rfl

theorem step {e : LockEvent} (h : LockInv s) (hstep : LockStep s e s') :
    LockInv s' := by
  have howner := h.owner
  cases e with
  | take spin =>
      obtain ⟨hpc, -, rfl⟩ := hstep
      rw [hpc] at howner
      exact h.keep rfl rfl nofun (by rw [hpc]; rfl) Iff.rfl nofun howner
  | release =>
      obtain ⟨hpc, rfl⟩ := hstep
      rw [hpc] at howner
      exact h.keep rfl rfl nofun (by rw [hpc]; rfl) Iff.rfl nofun howner
  | exec =>
      cases hstep
      exact h.exec
  | disable =>
      obtain ⟨hpc, rfl⟩ := hstep
      exact h.setCount (outside hpc) rfl rfl rfl rfl
  | enable =>
      obtain ⟨hpc, -, rfl⟩ := hstep
      exact h.setCount (outside hpc) rfl rfl rfl rfl
  | preempt u =>
      obtain ⟨hu, hzero, rfl⟩ := hstep
      refine h.switchTo hu ?_
      by_contra hmasked
      have hpos := h.count (Bool.eq_true_of_not_eq_false hmasked)
      omega
  | yield u =>
      obtain ⟨hu, hpc, rfl⟩ := hstep
      have hlooped : LockInv (s.goto (.testHeld false)) := by
        rcases hpc with ⟨hpc, -⟩ | hpc <;>
        · rw [hpc] at howner
          exact h.keep rfl rfl nofun (by rw [hpc]; rfl) Iff.rfl nofun howner
      refine hlooped.switchTo hu ?_
      simp [LockPc.masked]
  | giveUp u =>
      obtain ⟨hu, hpc, -, rfl⟩ := hstep
      exact h.switchTo hu (outside hpc)

end LockInv

/-! ## Safety -/

/-- No task is in the lock code and the word is zero. -/
structure LockInitial (s : LockState) : Prop where
  word : s.word = 0#64
  pc : ∀ t, s.pc t = .out
  aligned : Aligned s.current

theorem LockInitial.inv {s : LockState} (h : LockInitial s) : LockInv s := by
  have howns : ∀ t, (s.pc t).owns = false := fun t => by rw [h.pc t]; rfl
  have hmasked : ∀ t, (s.pc t).masked = false := fun t => by rw [h.pc t]; rfl
  constructor
  · intro t ht
    exact absurd ((hmasked t).symm.trans ht) (by decide)
  · intro ht
    exact absurd ((hmasked _).symm.trans ht) (by decide)
  · intro t u ht
    exact absurd ((howns t).symm.trans ht) (by decide)
  · rw [h.word]
    constructor
    · intro hheld
      exact absurd hheld (by decide)
    · rintro ⟨t, ht⟩
      exact absurd ((howns t).symm.trans ht) (by decide)
  · rw [h.pc]
    nofun
  · rw [h.pc, h.word]
    exact Or.inl (by decide)
  · exact h.aligned

/-- At most one task is between its take and its release, the held bit is set
exactly when there is one, and with interrupts enabled the word names no owner
or the task that took or released the lock last. -/
theorem lock_safe {s s' : LockState} {es : List LockEvent}
    (h : LockInitial s) (hrun : Run LockStep s es s') :
    (∀ t u, (s'.pc t).owns = true → (s'.pc u).owns = true → t = u) ∧
    (isHeld s'.word ↔ ∃ t, (s'.pc t).owns = true) ∧
    (s'.disIntCount = 0 →
      lastOwner s'.word = 0#64 ∨ lastOwner s'.word = s'.lastUser) := by
  have hinv : LockInv s' :=
    hrun.invariant (fun _ _ _ h hstep => h.step hstep) h.inv
  refine ⟨hinv.unique, hinv.held, fun hzero => ?_⟩
  refine (LockInv.ownerOk_of_not_masked ?_).mp hinv.owner
  by_contra hmasked
  have hpos := hinv.count (Bool.eq_true_of_not_eq_false hmasked)
  omega

/-- A free lock, with the task at address 8 running. -/
def freeLock : LockState where
  word := 0#64
  disIntCount := 0
  current := 8#64
  pc := fun _ => .out
  lastUser := 0#64

/-- The theorem on a run in which a task is preempted while it holds the
lock. -/
theorem lock_safe_freeLock :
    ∃ s' : LockState, s'.current = 16#64 ∧ (s'.pc 8#64).owns = true ∧
      isHeld s'.word ∧ lastOwner s'.word = 8#64 := by
  have hrun : Run LockStep freeLock
      [.take false, .exec, .exec, .exec, .exec, .exec, .exec, .exec, .exec,
        .exec, .preempt 16#64] _ :=
    .cons ⟨rfl, rfl, rfl⟩ (.cons rfl (.cons rfl (.cons rfl (.cons rfl
      (.cons rfl (.cons rfl (.cons rfl (.cons rfl (.cons rfl
        (.single ⟨by decide, by decide, rfl⟩))))))))))
  obtain ⟨-, hheld, howner⟩ :=
    lock_safe ⟨rfl, fun _ => rfl, by decide⟩ hrun
  refine ⟨_, rfl, by decide, hheld.mpr ⟨8#64, by decide⟩, ?_⟩
  exact (howner (by decide)).resolve_left (by decide)

end PongoOS
