import PongoOS.Support.Run
import PongoOS.Support.SinglyLinked
import PongoOS.Task.Ring

/-!
# Event queues

A waiting task is queued on its event through its only `eq_next` field.  As
long as no task waits while it is still queued, every queue holds the tasks
that began to wait since the last fire, and firing links exactly these.  A task
that is linked by something else than its event and then waits again closes a
cycle, on which `event_fire` does not end.
-/

namespace PongoOS

open SinglyLinked

namespace Kern

/-! ## Firing -/

def eqNexts (s : Kern) (t : ℕ) : ℕ := (s.task t).eqNext

/-- Link all tasks of a list, in order. -/
def linkAll (l : List ℕ) (s : Kern) : Kern :=
  l.foldl (fun s t => s.taskLink t) s

@[simp] theorem linkAll_rest (l : List ℕ) (s : Kern) :
    (s.linkAll l).rest = s.rest := by
  induction l generalizing s with
  | nil => rfl
  | cons t l ih => exact (ih _).trans (taskLink_rest t)

theorem eqNexts_of_rest {s s' : Kern} (h : s'.rest = s.rest) :
    s'.eqNexts = s.eqNexts :=
  funext fun t => eqNext_of_rest h t

/-- The loop returns when the queue has an end, and links what is queued. -/
theorem eventFireLoop_ok {fuel t : ℕ} {s s' : Kern} :
    eventFireLoop fuel t s = .ok s' ↔
      ∃ l, Path s.eqNexts 0 t l ∧ l.length < fuel ∧ s' = s.linkAll l := by
  induction fuel generalizing t s with
  | zero => simp [eventFireLoop]
  | succ fuel ih =>
      unfold eventFireLoop
      by_cases h0 : t = 0
      · rw [if_pos h0]
        constructor
        · rintro ⟨⟩
          exact ⟨[], h0, Nat.succ_pos _, rfl⟩
        · rintro ⟨l, hl, -, rfl⟩
          cases l with
          | nil => rfl
          | cons x l => exact absurd (hl.1.symm.trans h0) hl.2.1
      · have hrest := eqNexts_of_rest (taskLink_rest (s := s) t)
        rw [if_neg h0, ih, hrest, eqNext_of_rest (taskLink_rest t)]
        constructor
        · rintro ⟨l, hl, hlen, rfl⟩
          exact ⟨t :: l, ⟨rfl, h0, hl⟩, Nat.succ_lt_succ hlen, rfl⟩
        · rintro ⟨l, hl, hlen, rfl⟩
          cases l with
          | nil => exact absurd hl h0
          | cons x l =>
              obtain ⟨rfl, -, hl⟩ := hl
              exact ⟨l, hl, Nat.lt_of_succ_lt_succ hlen, rfl⟩

theorem eventFire_ok {fuel ev : ℕ} {s s' : Kern} :
    s.eventFire fuel ev = .ok s' ↔
      ∃ l, Path s.eqNexts 0 (s.taskHead ev) l ∧ l.length < fuel ∧
        s' = (s.linkAll l).setTaskHead ev 0 := by
  unfold eventFire
  simp only [Outcome.bind_eq_ok, Outcome.pure_eq_ok, eventFireLoop_ok]
  constructor
  · rintro ⟨_, ⟨l, hl, hlen, rfl⟩, rfl⟩
    exact ⟨l, hl, hlen, rfl⟩
  · rintro ⟨l, hl, hlen, rfl⟩
    exact ⟨_, ⟨l, hl, hlen, rfl⟩, rfl⟩

/-- `t` is in the queue of some event. -/
def Queued (s : Kern) (t : ℕ) : Prop :=
  ∃ ev l, Path s.eqNexts 0 (s.taskHead ev) l ∧ t ∈ l

end Kern

/-! ## Runs -/

open Kern

/-- What can happen to the event queues.  The scheduler may run any task. -/
inductive EventCall where
  | dispatch (t : ℕ)
  | wait (t ev : ℕ)
  | waitAsserted (t ev : ℕ)
  | fire (ev : ℕ)
  | link (t : ℕ)
  | switchIrq (t : ℕ)

def EventStep (s : Kern) (c : EventCall) (s' : Kern) : Prop :=
  match c with
  | .dispatch t => t ≠ 0 ∧ s' = s.setTaskCurrent t
  | .wait t ev => t = s.taskCurrent ∧ s' = s.eventWait ev
  | .waitAsserted t ev => t = s.taskCurrent ∧ s' = s.eventWaitAsserted ev
  | .fire ev => ∃ fuel, s.eventFire fuel ev = .ok s'
  | .link t => s' = s.taskLink t
  | .switchIrq t =>
      (s.task t).flags.preempt = true ∧ s.taskSwitchIrq t = .ok s'

/-- The tasks that began to wait on each event since it was last fired, the
latest first. -/
def EventCall.waiters (w : ℕ → List ℕ) : EventCall → ℕ → List ℕ
  | .wait t ev | .waitAsserted t ev => Function.update w ev (t :: w ev)
  | .fire ev => Function.update w ev []
  | .dispatch _ | .link _ | .switchIrq _ => w

/-- A wait is made by a task that is in no queue. -/
def EventCall.Unqueued (s : Kern) : EventCall → Prop
  | .wait t _ | .waitAsserted t _ => ¬ s.Queued t
  | _ => True

def UnqueuedEventStep (s : Kern) (c : EventCall) (s' : Kern) : Prop :=
  EventStep s c s' ∧ c.Unqueued s

/-- Every queue ends, holds the waiters, and shares no task with another. -/
structure QueueInv (s : Kern) (w : ℕ → List ℕ) : Prop where
  path : ∀ ev, Path s.eqNexts 0 (s.taskHead ev) (w ev)
  nodup : ∀ ev, (w ev).Nodup
  once : ∀ ev ev' t, t ∈ w ev → t ∈ w ev' → ev = ev'
  current : s.taskCurrent ≠ 0

namespace QueueInv

variable {s s' : Kern} {w : ℕ → List ℕ} {ev t : ℕ}

theorem congr (h : QueueInv s w) (hnext : s'.eqNexts = s.eqNexts)
    (hhead : s'.taskHead = s.taskHead) (hcur : s'.taskCurrent ≠ 0) :
    QueueInv s' w :=
  ⟨fun ev => by rw [hnext, hhead]; exact h.path ev, h.nodup, h.once, hcur⟩

theorem of_rest (h : QueueInv s w) (hrest : s'.rest = s.rest) :
    QueueInv s' w :=
  h.congr (eqNexts_of_rest hrest) (taskHead_of_rest hrest)
    (taskCurrent_of_rest hrest ▸ h.current)

theorem queued_iff (h : QueueInv s w) :
    s.Queued t ↔ ∃ ev, t ∈ w ev := by
  constructor
  · rintro ⟨ev, l, hl, ht⟩
    exact ⟨ev, hl.unique (h.path ev) ▸ ht⟩
  · rintro ⟨ev, ht⟩
    exact ⟨ev, w ev, h.path ev, ht⟩

theorem eventWaitAsserted (h : QueueInv s w) (hout : ¬ s.Queued s.taskCurrent) :
    QueueInv (s.eventWaitAsserted ev)
      (Function.update w ev (s.taskCurrent :: w ev)) := by
  have hnone : ∀ ev', s.taskCurrent ∉ w ev' :=
    fun ev' hmem => hout (h.queued_iff.mpr ⟨ev', hmem⟩)
  have hnext : (s.eventWaitAsserted ev).eqNexts =
      Function.update s.eqNexts s.taskCurrent (s.taskHead ev) := by
    funext u
    by_cases hu : u = s.taskCurrent
    · subst hu
      simp [eqNexts, Kern.eventWaitAsserted, taskUnlink, modFlags, setEqNext]
    · simp [eqNexts, Kern.eventWaitAsserted, taskUnlink, modFlags, setEqNext,
        hu]
  have hhead : (s.eventWaitAsserted ev).taskHead =
      Function.update s.taskHead ev s.taskCurrent := rfl
  have hcur : (s.eventWaitAsserted ev).taskCurrent = schedTask := rfl
  refine ⟨fun ev' => ?_, fun ev' => ?_, fun ev₁ ev₂ t h₁ h₂ => ?_,
    by rw [hcur]; decide⟩
  · rw [hnext, hhead]
    by_cases hev : ev' = ev
    · subst hev
      rw [Function.update_self, Function.update_self]
      exact (h.path ev').push (hnone ev') h.current
    · rw [Function.update_of_ne hev, Function.update_of_ne hev]
      refine (h.path ev').congr fun x hx => Function.update_of_ne ?_ _ _
      exact fun heq => hnone ev' (heq ▸ hx)
  · by_cases hev : ev' = ev
    · subst hev
      rw [Function.update_self]
      exact List.nodup_cons.mpr ⟨hnone ev', h.nodup ev'⟩
    · rw [Function.update_of_ne hev]
      exact h.nodup ev'
  · by_cases hev₁ : ev₁ = ev <;> by_cases hev₂ : ev₂ = ev
    · exact hev₁.trans hev₂.symm
    · subst hev₁
      rw [Function.update_self] at h₁
      rw [Function.update_of_ne hev₂] at h₂
      rcases List.mem_cons.mp h₁ with rfl | h₁
      · exact absurd h₂ (hnone ev₂)
      · exact h.once ev₁ ev₂ t h₁ h₂
    · subst hev₂
      rw [Function.update_of_ne hev₁] at h₁
      rw [Function.update_self] at h₂
      rcases List.mem_cons.mp h₂ with rfl | h₂
      · exact absurd h₁ (hnone ev₁)
      · exact h.once ev₁ ev₂ t h₁ h₂
    · rw [Function.update_of_ne hev₁] at h₁
      rw [Function.update_of_ne hev₂] at h₂
      exact h.once ev₁ ev₂ t h₁ h₂

/-- The fire returns and links the waiters. -/
theorem eventFire (h : QueueInv s w) :
    s.eventFire ((w ev).length + 1) ev =
      .ok ((s.linkAll (w ev)).setTaskHead ev 0) :=
  eventFire_ok.mpr ⟨w ev, h.path ev, Nat.lt_succ_self _, rfl⟩

theorem fired (h : QueueInv s w) :
    QueueInv ((s.linkAll (w ev)).setTaskHead ev 0) (Function.update w ev []) := by
  have hlinked := h.of_rest (linkAll_rest (w ev) s)
  refine ⟨fun ev' => ?_, fun ev' => ?_, fun ev₁ ev₂ t h₁ h₂ => ?_,
    hlinked.current⟩
  · by_cases hev : ev' = ev
    · subst hev
      simp [SinglyLinked.Path]
    · have hpath := hlinked.path ev'
      rw [Function.update_of_ne hev, setTaskHead_taskHead,
        Function.update_of_ne hev]
      exact hpath
  · by_cases hev : ev' = ev
    · simp [hev]
    · simpa [hev] using h.nodup ev'
  · by_cases hev₁ : ev₁ = ev
    · simp [hev₁] at h₁
    · by_cases hev₂ : ev₂ = ev
      · simp [hev₂] at h₂
      · simp only [Function.update_of_ne hev₁] at h₁
        simp only [Function.update_of_ne hev₂] at h₂
        exact h.once ev₁ ev₂ t h₁ h₂

theorem step (h : QueueInv s w) {c : EventCall}
    (hstep : UnqueuedEventStep s c s') : QueueInv s' (c.waiters w) := by
  obtain ⟨hrun, hclean⟩ := hstep
  cases c with
  | dispatch t =>
      obtain ⟨ht, rfl⟩ := hrun
      exact h.congr rfl rfl ht
  | wait t ev =>
      obtain ⟨rfl, rfl⟩ := hrun
      exact h.eventWaitAsserted hclean
  | waitAsserted t ev =>
      obtain ⟨rfl, rfl⟩ := hrun
      exact h.eventWaitAsserted hclean
  | fire ev =>
      obtain ⟨fuel, hfire⟩ := hrun
      obtain ⟨l, hl, -, rfl⟩ := eventFire_ok.mp hfire
      rw [hl.unique (h.path ev)]
      exact h.fired
  | link t =>
      cases hrun
      exact h.of_rest (taskLink_rest t)
  | switchIrq t =>
      obtain ⟨hpreempt, hswitch⟩ := hrun
      unfold taskSwitchIrq at hswitch
      simp only [Outcome.bind_eq_ok, panicIf_eq_ok, hpreempt, if_true,
        taskSetSchedHead, Outcome.pure_eq_ok] at hswitch
      obtain ⟨-, -, _, ⟨-, -, rfl⟩, rfl⟩ := hswitch
      have hcount : QueueInv (s.modTask t fun x =>
          { x with irqCount := (x.irqCount + 1) % 2 ^ 64 }) w := by
        refine h.congr (funext fun u => ?_) rfl h.current
        by_cases hu : u = t
        · subst hu
          simp [eqNexts]
        · simp [eqNexts, hu]
      have hlink := hcount.of_rest (taskLink_rest t)
      exact hlink.congr rfl rfl hlink.current

end QueueInv

/-- In a run in which no task waits while it is queued, every queue is a finite
chain of distinct tasks, no task is in two, and firing an event returns and
links exactly the tasks that began to wait on it since its last fire, each
once. -/
theorem eventQueues_of_run {s s' : Kern} {cs : List EventCall}
    (hempty : ∀ ev, s.taskHead ev = 0) (hcur : s.taskCurrent ≠ 0)
    (hrun : Run UnqueuedEventStep s cs s') :
    (∀ ev, Path s'.eqNexts 0 (s'.taskHead ev)
        (cs.foldl EventCall.waiters (fun _ => []) ev) ∧
      (cs.foldl EventCall.waiters (fun _ => []) ev).Nodup) ∧
    (∀ ev ev' t, t ∈ cs.foldl EventCall.waiters (fun _ => []) ev →
      t ∈ cs.foldl EventCall.waiters (fun _ => []) ev' → ev = ev') ∧
    ∀ ev, ∃ fuel, s'.eventFire fuel ev =
      .ok ((s'.linkAll (cs.foldl EventCall.waiters (fun _ => []) ev)).setTaskHead
        ev 0) := by
  have hstart : QueueInv s (fun _ => []) :=
    ⟨hempty, fun _ => List.nodup_nil, fun _ _ _ h => absurd h (by simp), hcur⟩
  have hend := hrun.history (fun _ _ _ _ h hstep => h.step hstep) hstart
  exact ⟨fun ev => ⟨hend.path ev, hend.nodup ev⟩, hend.once,
    fun ev => ⟨_, hend.eventFire⟩⟩

/-- The theorem on a run in which one task waits. -/
theorem eventQueues_of_bootKern :
    ∃ s' : Kern, Path s'.eqNexts 0 (s'.taskHead 0x5000) [0x1000] ∧
      ∃ fuel, s'.eventFire fuel 0x5000 =
        .ok ((s'.linkAll [0x1000]).setTaskHead 0x5000 0) := by
  have hqueued : ¬ (bootKern.setTaskCurrent 0x1000).Queued 0x1000 := by
    rintro ⟨ev, l, hl, ht⟩
    have hnil : l = [] := hl.unique (m := []) rfl
    rw [hnil] at ht
    cases ht
  have hrun : Run UnqueuedEventStep bootKern
      [.dispatch 0x1000, .wait 0x1000 0x5000] _ :=
    .cons ⟨⟨by decide, rfl⟩, trivial⟩ (.single ⟨⟨rfl, rfl⟩, hqueued⟩)
  obtain ⟨hpath, -, hfire⟩ :=
    eventQueues_of_run (fun _ => rfl) (by decide) hrun
  exact ⟨_, (hpath 0x5000).1, hfire 0x5000⟩

/-! ## Waiting twice -/

theorem eventFireLoop_cycle {s : Kern} {t : ℕ} (h0 : t ≠ 0)
    (hself : s.eqNexts t = t) (fuel : ℕ) :
    eventFireLoop fuel t s = .error .outOfFuel := by
  induction fuel generalizing s with
  | zero => rfl
  | succ fuel ih =>
      have hnext : ((s.taskLink t).task t).eqNext = t :=
        (eqNext_of_rest (taskLink_rest t) t).trans hself
      have hself' : (s.taskLink t).eqNexts t = t := hnext
      unfold eventFireLoop
      dsimp only
      rw [if_neg h0, hnext]
      exact ih hself'

/-- A task waits, is linked by something else and waits again: firing its event
does not end. -/
theorem second_wait_closes_cycle :
    ∃ s', Run EventStep bootKern
        [.dispatch 0x1000, .wait 0x1000 0x5000, .link 0x1000,
          .dispatch 0x1000, .wait 0x1000 0x5000] s' ∧
      ∀ fuel, s'.eventFire fuel 0x5000 = .error .outOfFuel := by
  refine ⟨_, .cons ⟨by decide, rfl⟩ (.cons ⟨rfl, rfl⟩ (.cons rfl
    (.cons ⟨by decide, rfl⟩ (.single ⟨rfl, rfl⟩)))), fun fuel => ?_⟩
  have hloop := fun s (h : s.eqNexts 0x1000 = 0x1000) =>
    eventFireLoop_cycle (s := s) (t := 0x1000) (by decide) h fuel
  unfold eventFire
  refine Outcome.bind_eq_error.mpr (Or.inl (hloop _ ?_))
  decide

end PongoOS
