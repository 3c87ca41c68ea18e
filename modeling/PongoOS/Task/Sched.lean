import PongoOS.Task.State

/-!
# Linking tasks and waiting for events

The functions of `task.c` that put tasks in the scheduler's ring, mark them as
runnable, and queue them on events.  A context switch sets `taskCurrent`.
-/

namespace PongoOS

namespace Kern

/-! ## The ring -/

/-- The new task goes behind the head and becomes the head. -/
def ringInsert (t : ℕ) (s : Kern) : Kern :=
  let s₁ :=
    if s.pongoSchedHead ≠ 0 then
      let s₁ := s.setPrev t s.pongoSchedHead
      let s₂ := s₁.setNext t (s₁.task s.pongoSchedHead).next
      let s₃ := s₂.setNext (s₂.task t).prev t
      s₃.setPrev (s₃.task t).next t
    else (s.setPrev t t).setNext t t
  (s₁.setPongoSchedHead t).modFlags t fun f => { f with wasLinked := true }

/-- `task_link`. -/
def taskLink (t : ℕ) (s : Kern) : Kern :=
  let s₁ := s.modFlags t fun f => { f with hasExited := false }
  let s₂ := if (s₁.task t).flags.wasLinked then s₁ else s₁.ringInsert t
  s₂.modFlags t fun f => { f with linked := true }

/-- `task_real_unlink`. -/
def taskRealUnlink (t : ℕ) (s : Kern) : Kern :=
  if (s.task t).flags.wasLinked then
    let s₁ :=
      if t = s.pongoSchedHead then
        if t = (s.task t).next then s.setPongoSchedHead 0
        else s.setPongoSchedHead (s.task t).next
      else s
    let s₂ := s₁.setNext (s₁.task t).prev (s₁.task t).next
    let s₃ := s₂.setPrev (s₂.task t).next (s₂.task t).prev
    s₃.modFlags t fun f => { f with wasLinked := false, linked := false }
  else s

/-- `task_set_sched_head`. -/
def taskSetSchedHead (t : ℕ) (s : Kern) : Outcome Kern := do
  panicIf (¬ (s.task t).flags.linked) "task was not linked but was asked to move to head of schedqueue"
  pure (s.setPongoSchedHead t)

/-- `task_unlink`. -/
def taskUnlink (t : ℕ) (s : Kern) : Kern :=
  s.modFlags t fun f => { f with linked := false }

/-! ## Events -/

/-- `event_wait_asserted`, up to the switch to the scheduler. -/
def eventWaitAsserted (ev : ℕ) (s : Kern) : Kern :=
  let t := s.taskCurrent
  let s₁ := (s.setEqNext t (s.taskHead ev)).setTaskHead ev t
  (s₁.taskUnlink t).setTaskCurrent schedTask

/-- `event_wait` differs in masking interrupts first. -/
def eventWait (ev : ℕ) (s : Kern) : Kern := s.eventWaitAsserted ev

/-- The loop of `event_fire` from the task `toLink` on. -/
def eventFireLoop : ℕ → ℕ → Kern → Outcome Kern
  | 0, _, _ => .error .outOfFuel
  | fuel + 1, toLink, s =>
      if toLink = 0 then .ok s
      else
        let s₁ := s.taskLink toLink
        eventFireLoop fuel (s₁.task toLink).eqNext s₁

/-- `event_fire`. -/
def eventFire (fuel ev : ℕ) (s : Kern) : Outcome Kern := do
  let s₁ ← eventFireLoop fuel (s.taskHead ev) s
  pure (s₁.setTaskHead ev 0)

/-! ## Interrupts -/

/-- `task_switch_irq`, up to the switch to a handler that does not preempt.
A preempting handler is not entered but left to the scheduler. -/
def taskSwitchIrq (new : ℕ) (s : Kern) : Outcome Kern := do
  panicIf (¬ (s.task new).flags.irqHandler) "we are not entering an irq task"
  if (s.task new).flags.preempt then do
    let s₁ := s.modTask new fun x =>
      { x with irqCount := (x.irqCount + 1) % 2 ^ 64 }
    let s₂ ← (s₁.taskLink new).taskSetSchedHead new
    pure (s₂.setServedIrqs ((s₂.servedIrqs + 1) % 2 ^ 64))
  else do
    panicIf ((s.task new).irqRet ≠ 0) "the irq handler wasn't exited correctly?!"
    let s₁ := s.modTask new fun x =>
      { x with
        irqRet := s.taskCurrent
        irqCount := (x.irqCount + 1) % 2 ^ 64 }
    pure (s₁.setTaskCurrent new)

/-- `task_irq_dispatch`. -/
def taskIrqDispatch (intr : ℕ) (s : Kern) : Outcome Kern :=
  let handler := s.irqvecs (intr % 0x200)
  if handler ≠ 0 then
    (s.modTask handler fun x => { x with irqType := intr % 0x200 }).taskSwitchIrq
      handler
  else .error (.panic "task_irq_dispatch")

/-- `task_exit_irq` of a preempting handler, up to the switch to the
scheduler. -/
def taskExitIrqPreempt (s : Kern) : Outcome Kern := do
  let t := s.taskCurrent
  panicIf (¬ (s.task t).flags.linked) "task_exit_irq on unlinked preempt irq handler?"
  let s₁ := (s.taskUnlink t).modFlags t fun f => { f with maskNextIrq := false }
  pure (s₁.setTaskCurrent schedTask)

end Kern

end PongoOS
