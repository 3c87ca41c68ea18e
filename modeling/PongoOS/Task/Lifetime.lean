import PongoOS.Mm.Boot
import PongoOS.Task.Sched

/-!
# Creating and releasing tasks and processes

A task holds its address space and its process; a process holds its address
space; an interrupt vector holds its handler.  Each holder owns one reference.
The last release of a task or a process frees it and releases what it held, so
`task_release` and `proc_release` call each other.  The functions that allocate
take the addresses that `malloc` returns as arguments.
-/

namespace PongoOS

namespace Kern

/-! ## References -/

/-- `proc_reference`. -/
def procReference (p : ℕ) (s : Kern) : Kern :=
  if p = 0 then s
  else s.modProc p fun x => { x with refcount := (x.refcount + 1) % 2 ^ 32 }

/-- `task_reference`. -/
def taskReference (t : ℕ) (s : Kern) : Kern :=
  if t = 0 then s
  else if (s.task t).refcount = refcountGlobal then s
  else s.modTask t fun x => { x with refcount := (x.refcount + 1) % 2 ^ 32 }

/-! ## Release -/

/-- `__atomic_fetch_sub(&task->refcount, 1, __ATOMIC_SEQ_CST)`. -/
def dropTask (t : ℕ) (s : Kern) : Kern :=
  s.modTask t fun x => { x with refcount := (x.refcount + 0xffffffff) % 2 ^ 32 }

/-- `__atomic_fetch_sub(&proc->refcount, 1, __ATOMIC_SEQ_CST)`. -/
def dropProc (p : ℕ) (s : Kern) : Kern :=
  s.modProc p fun x => { x with refcount := (x.refcount + 0xffffffff) % 2 ^ 32 }

@[simp] theorem dropTask_vm (t : ℕ) (s : Kern) : (s.dropTask t).vm = s.vm := rfl

@[simp] theorem dropTask_proc (t : ℕ) (s : Kern) :
    (s.dropTask t).proc = s.proc := rfl

@[simp] theorem dropTask_taskCurrent (t : ℕ) (s : Kern) :
    (s.dropTask t).taskCurrent = s.taskCurrent := rfl

@[simp] theorem dropTask_task_proc (t u : ℕ) (s : Kern) :
    ((s.dropTask t).task u).proc = (s.task u).proc := by
  by_cases hu : u = t <;> simp [dropTask, modTask, hu]

@[simp] theorem dropProc_taskList (p : ℕ) (s : Kern) :
    ((s.dropProc p).proc p).taskList = (s.proc p).taskList := by
  simp [dropProc, modProc]

/-- The walk of `task_release` over the list of its process, from `el` on.
`prev` is the task whose `proc_task_list_next` points to `el`, or zero at the
head of the list. -/
def procListRemove (p t : ℕ) : ℕ → ℕ → ℕ → Kern → Outcome Kern
  | 0, _, _, _ => .error .outOfFuel
  | fuel + 1, prev, el, s =>
      if el = 0 then .ok s
      else if el = t then
        let next := (s.task t).procTaskListNext
        if prev = 0 then
          .ok (s.modProc p fun x => { x with taskList := next })
        else
          .ok (s.modTask prev fun x => { x with procTaskListNext := next })
      else procListRemove p t fuel el (s.task el).procTaskListNext s

/-- `task_release`.  `procRelease` is the call for the task's process. -/
def taskReleaseWith (procRelease : ℕ → Kern → Outcome Kern) (fuel t : ℕ)
    (s : Kern) : Outcome Kern :=
  if t = 0 then .ok s
  else if (s.task t).refcount = refcountGlobal then .ok s
  else do
    let refcount := (s.task t).refcount
    let s₁ := s.dropTask t
    if refcount = 1 then do
      panicIf (s₁.taskCurrent = t) "trying to free the current task"
      let p := (s₁.task t).proc
      let s₂ ←
        (if p ≠ 0 then s₁.procListRemove p t fuel 0 (s₁.proc p).taskList
        else pure s₁ : Outcome Kern)
      let (_, vm) ← s₂.vm.vmDeallocate (s₂.task t).vmSpace
        (s₂.task t).userStack 0x40000
      let s₃ := (s₂.setVm vm).taskRealUnlink t
      let vm ← s₃.vm.vmRelease fuel (s₃.task t).vmSpace
      let s₄ ← procRelease (s₃.task t).proc (s₃.setVm vm)
      pure (s₄.setLiveTasks (s₄.liveTasks.erase t))
    else pure s₁

/-- The loop of `proc_release` over the task list from `toFree` on. -/
def releaseTasks (taskRelease : ℕ → Kern → Outcome Kern) :
    ℕ → ℕ → Kern → Outcome Kern
  | 0, _, _ => .error .outOfFuel
  | fuel + 1, toFree, s =>
      if toFree = 0 then .ok s
      else do
        let next := (s.task toFree).procTaskListNext
        let s₁ ← taskRelease toFree
          (s.modTask toFree fun x => { x with procTaskListNext := 0 })
        releaseTasks taskRelease fuel next s₁

/-- `proc_release`.  `taskRelease` is the call for the tasks of the list. -/
def procReleaseWith (taskRelease : ℕ → Kern → Outcome Kern) (fuel p : ℕ)
    (s : Kern) : Outcome Kern :=
  if p = 0 then .ok s
  else do
    let refcount := (s.proc p).refcount
    let s₁ := s.dropProc p
    if refcount = 1 then do
      let s₂ ← releaseTasks taskRelease fuel (s₁.proc p).taskList s₁
      let vm ← s₂.vm.vmRelease fuel (s₂.proc p).vmSpace
      pure ((s₂.setVm vm).setLiveProcs (s₂.liveProcs.erase p))
    else pure s₁

/-- `task_release` with a bound on the depth of the calls. -/
def taskRelease : ℕ → ℕ → Kern → Outcome Kern
  | 0, _, _ => .error .outOfFuel
  | fuel + 1, t, s =>
      taskReleaseWith (procReleaseWith (taskRelease fuel) fuel) fuel t s

/-- `proc_release` with a bound on the depth of the calls. -/
def procRelease (fuel p : ℕ) (s : Kern) : Outcome Kern :=
  procReleaseWith (taskRelease fuel) fuel p s

/-! ### What a release does -/

/-- The last release of a task, step by step. -/
structure FreesTask (procRelease : ℕ → Kern → Outcome Kern) (fuel t : ℕ)
    (s s₂ s₃ s₄ s' : Kern) : Prop where
  notCurrent : s.taskCurrent ≠ t
  remove : (if (s.task t).proc ≠ 0 then
      (s.dropTask t).procListRemove (s.task t).proc t fuel 0
        (s.proc (s.task t).proc).taskList
    else .ok (s.dropTask t) : Outcome Kern) = .ok s₂
  deallocate : ∃ r vm, s₂.vm.vmDeallocate (s₂.task t).vmSpace
    (s₂.task t).userStack 0x40000 = .ok (r, vm) ∧
      s₃ = (s₂.setVm vm).taskRealUnlink t
  release : ∃ vm, s₃.vm.vmRelease fuel (s₃.task t).vmSpace = .ok vm ∧
    procRelease (s₃.task t).proc (s₃.setVm vm) = .ok s₄
  free : s' = s₄.setLiveTasks (s₄.liveTasks.erase t)

theorem taskReleaseWith_ok {procRelease : ℕ → Kern → Outcome Kern}
    {fuel t : ℕ} {s s' : Kern}
    (hok : taskReleaseWith procRelease fuel t s = .ok s') :
    ((t = 0 ∨ (s.task t).refcount = refcountGlobal) ∧ s' = s) ∨
    (t ≠ 0 ∧ (s.task t).refcount ≠ refcountGlobal ∧
      (s.task t).refcount ≠ 1 ∧ s' = s.dropTask t) ∨
    (t ≠ 0 ∧ (s.task t).refcount = 1 ∧
      ∃ s₂ s₃ s₄, FreesTask procRelease fuel t s s₂ s₃ s₄ s') := by
  unfold taskReleaseWith at hok
  by_cases h0 : t = 0
  · rw [if_pos h0] at hok
    cases hok
    exact Or.inl ⟨Or.inl h0, rfl⟩
  rw [if_neg h0] at hok
  by_cases hglobal : (s.task t).refcount = refcountGlobal
  · rw [if_pos hglobal] at hok
    cases hok
    exact Or.inl ⟨Or.inr hglobal, rfl⟩
  rw [if_neg hglobal] at hok
  by_cases hone : (s.task t).refcount = 1
  · simp only [if_pos hone, Outcome.bind_eq_ok, panicIf_eq_ok,
      Outcome.pure_eq_ok, Prod.exists, dropTask_task_proc,
      dropTask_proc] at hok
    obtain ⟨-, hcur, s₂, hremove, r, vm, hdealloc, vm', hvm, s₄, hproc,
      rfl⟩ := hok
    exact Or.inr (Or.inr ⟨h0, hone, s₂, _, s₄, hcur, hremove,
      ⟨r, vm, hdealloc, rfl⟩, ⟨vm', hvm, hproc⟩, rfl⟩)
  · simp only [if_neg hone, Outcome.pure_eq_ok] at hok
    exact Or.inr (Or.inl ⟨h0, hglobal, hone, hok.symm⟩)

theorem procReleaseWith_ok {taskRelease : ℕ → Kern → Outcome Kern}
    {fuel p : ℕ} {s s' : Kern}
    (hok : procReleaseWith taskRelease fuel p s = .ok s') :
    (p = 0 ∧ s' = s) ∨
    (p ≠ 0 ∧ (s.proc p).refcount ≠ 1 ∧ s' = s.dropProc p) ∨
    (p ≠ 0 ∧ (s.proc p).refcount = 1 ∧ ∃ s₂ vm,
      releaseTasks taskRelease fuel (s.proc p).taskList (s.dropProc p) =
        .ok s₂ ∧
      s₂.vm.vmRelease fuel (s₂.proc p).vmSpace = .ok vm ∧
      s' = (s₂.setVm vm).setLiveProcs (s₂.liveProcs.erase p)) := by
  unfold procReleaseWith at hok
  by_cases h0 : p = 0
  · rw [if_pos h0] at hok
    cases hok
    exact Or.inl ⟨h0, rfl⟩
  rw [if_neg h0] at hok
  by_cases hone : (s.proc p).refcount = 1
  · simp only [if_pos hone, Outcome.bind_eq_ok, Outcome.pure_eq_ok,
      dropProc_taskList] at hok
    obtain ⟨s₂, htasks, vm, hvm, rfl⟩ := hok
    exact Or.inr (Or.inr ⟨h0, hone, s₂, vm, htasks, hvm, rfl⟩)
  · simp only [if_neg hone, Outcome.pure_eq_ok] at hok
    exact Or.inr (Or.inl ⟨h0, hone, hok.symm⟩)

/-! ## Interrupt vectors -/

/-- `register_irq_handler`. -/
def registerIrqHandler (fuel v t : ℕ) (s : Kern) : Outcome Kern := do
  let v := v % 2 ^ 16
  panicIf (0x1ff ≤ v) "invalid irq"
  let s₁ ←
    (if s.irqvecs v ≠ 0 then s.taskRelease fuel (s.irqvecs v)
    else pure s : Outcome Kern)
  pure ((s₁.taskReference t).setIrqvec v t)

/-- `task_bind_to_irq`. -/
def taskBindToIrq (fuel t irq : ℕ) (s : Kern) : Outcome Kern :=
  s.registerIrqHandler fuel irq t

/-! ## Creation -/

/-- The fields of a task that come before `anchor`. -/
def clearAnchor (x : Task) : Task :=
  { x with irqRet := 0, irqCount := 0, irqType := 0, eqNext := 0 }

/-- `task->vm_space = vm_reference(a)`. -/
def takeVmSpace (t a : ℕ) (s : Kern) : Kern :=
  (s.setVm (s.vm.vmReference a)).modTask t fun x => { x with vmSpace := a }

/-- The references with which `task_register_unlinked` begins: a task without
a process gets the one of the current task. -/
def taskInherit (t : ℕ) (s : Kern) : Kern :=
  let p := (s.task t).proc
  if p ≠ 0 then
    if (s.task t).vmSpace = 0 then s.takeVmSpace t (s.proc p).vmSpace else s
  else
    let cur := s.task s.taskCurrent
    let s₁ :=
      if (s.task t).vmSpace = 0 then s.takeVmSpace t cur.vmSpace else s
    (s₁.modTask t fun x => { x with proc := cur.proc }).procReference cur.proc

/-- `task_register_unlinked`.  Without an address space `task_set_entry` reads
through a null pointer. -/
def taskRegisterUnlinked (t : ℕ) (s : Kern) : Outcome Kern := do
  let s₁ := (s.modTask t clearAnchor).taskInherit t
  panicIf ((s₁.task t).vmSpace = 0) "caught sync exception!"
  let s₂ := s₁.modTask t fun x =>
    { x with
      refcount := refcountGlobal
      flags :=
        { wasLinked := x.flags.wasLinked
          hasExited := x.flags.hasExited
          preempt := true }
      gencount := 0
      pid := s₁.gPid }
  pure (s₂.setGPid ((s₁.gPid + 1) % 2 ^ 32))

/-- `task_register` of a task that no other structure knows yet. -/
def taskRegister (t : ℕ) (s : Kern) : Outcome Kern := do
  let s₁ ← s.taskRegisterUnlinked t
  pure ((s₁.modFlags t fun f =>
    { f with preempt := true, canExit := true }).taskLink t)

/-- The zeroed structure at the address `a`. -/
def newTask (a : ℕ) (s : Kern) : Kern :=
  (s.setLiveTasks (insert a s.liveTasks)).modTask a fun _ => {}

/-- `task_create`. -/
def taskCreate (a : ℕ) (s : Kern) : Outcome Kern := do
  let s₁ ← (s.newTask a).taskRegister a
  pure (s₁.modTask a fun x => { x with refcount := 1 })

/-- `task_spawn`.  `b` is the address of the new address space. -/
def taskSpawn (t b : ℕ) (s : Kern) : Outcome Kern := do
  let vm ← s.vm.vmCreate (s.task t).vmSpace b
  pure ((s.setVm vm).modTask t fun x =>
    { x with vmSpace := b, userStack := 0 })

/-- `task_type & TASK_TYPE_MASK`. -/
def taskTypeMask (f : TaskFlags) : TaskFlags :=
  { canExit := f.canExit
    linked := f.linked
    irqHandler := f.irqHandler
    preempt := f.preempt
    restartOnExit := f.restartOnExit
    spawn := f.spawn }

/-- `task->flags |= task_type & ~TASK_LINKED`, then `TASK_PREEMPT` as the type
has it. -/
def applyType (type f : TaskFlags) : TaskFlags :=
  { f with
    canExit := f.canExit || type.canExit
    irqHandler := f.irqHandler || type.irqHandler
    preempt := type.preempt
    restartOnExit := f.restartOnExit || type.restartOnExit
    spawn := f.spawn || type.spawn }

/-- `task_create_extended`.  `b` is the address of the address space that a
spawned task gets. -/
def taskCreateExtended (fuel : ℕ) (taskType : TaskFlags) (arg a b : ℕ)
    (s : Kern) : Outcome Kern := do
  let p := if taskType.fromProc then arg else (s.task s.taskCurrent).proc
  let arg := if taskType.fromProc then 0 else arg
  let type := taskTypeMask taskType
  let s₁ := ((s.newTask a).procReference p).modTask a
    fun x => { x with proc := p }
  let s₂ ← s₁.taskRegisterUnlinked a
  let s₃ := s₂.modTask a fun x =>
    { x with flags := applyType type x.flags, refcount := 1 }
  let s₄ ←
    (if type.spawn then do
      panicIf type.irqHandler "irq handlers must be bound to the kernel vmspace"
      s₃.taskSpawn a b
    else pure s₃ : Outcome Kern)
  if type.irqHandler ∧ arg ≠ 0 then s₄.registerIrqHandler fuel arg a
  else if type.linked then pure (s₄.taskLink a)
  else pure s₄

/-- `proc_create_task`. -/
def procCreateTask (fuel p a b : ℕ) (s : Kern) : Outcome Kern := do
  let s₁ ← s.taskCreateExtended fuel
    { preempt := true, canExit := true, fromProc := true } p a b
  pure ((s₁.modTask a fun x =>
    { x with procTaskListNext := (s₁.proc p).taskList }).modProc p
      fun x => { x with taskList := a })

/-- `proc_create`.  `b` is the address of the new address space. -/
def procCreate (parent : ℕ) (noVm : Bool) (p b : ℕ) (s : Kern) :
    Outcome Kern := do
  let s₁ := (s.setLiveProcs (insert p s.liveProcs)).modProc p fun _ => {}
  let s₂ ←
    (if parent ≠ 0 ∨ noVm = false then do
      let vm ← s₁.vm.vmCreate
        (if parent ≠ 0 then (s₁.proc parent).vmSpace else 0) b
      pure ((s₁.setVm vm).modProc p fun x => { x with vmSpace := b })
    else pure s₁ : Outcome Kern)
  pure (s₂.modProc p fun x => { x with refcount := 1 })

/-! ## Exit -/

/-- `task_restart_and_link`. -/
def taskRestartAndLink (t : ℕ) (s : Kern) : Kern :=
  (s.modTask t fun x =>
    { clearAnchor x with
      gencount := (x.gencount + 1) % 2 ^ 32
      flags := { x.flags with hasExited := false, hasCrashed := false } })
    |>.taskLink t

/-- `task_exit_asserted`, up to the switch to the scheduler.  No exit callback
is installed. -/
def taskExitAsserted (s : Kern) : Outcome Kern := do
  let t := s.taskCurrent
  panicIf (s.task t).flags.irqHandler "irq handler exited! please use task_irq_exit!"
  let s₁ := s.modFlags t fun f => { f with hasExited := true }
  panicIf ((s₁.task t).criticalCount ≠ 0) "crashed in critical section"
  panicIf (¬ (s₁.task t).flags.canExit) "required task exited!"
  let s₂ := s₁.taskUnlink t
  let s₃ :=
    if (s₂.task t).flags.restartOnExit then s₂.taskRestartAndLink t
    else s₂.modFlags t fun f => { f with pleaseDeref := true }
  pure (s₃.setTaskCurrent schedTask)

/-! ## The scheduler -/

/-- What `pongo_sched_tick` did with the head of the ring. -/
inductive Tick where
  | looped
  | dispatched (t : ℕ)
  | released (t : ℕ)
  | skipped (t : ℕ)
deriving DecidableEq, Repr

/-- `pongo_sched_tick`, up to the switch to the task it dispatches.  After the
switch back it only looks at `preempt_ctr`. -/
def pongoSchedTick (fuel : ℕ) (s : Kern) : Outcome (Tick × Kern) := do
  panicIf (s.pongoSchedHead = 0) "no tasks to schedule"
  let tsk := s.pongoSchedHead
  let s₁ := s.setPongoSchedHead (s.task tsk).next
  if tsk = schedTask then pure (.looped, s₁)
  else if (s.task tsk).flags.pleaseDeref then do
    let s₂ ← (s₁.modFlags tsk fun f => { f with pleaseDeref := false }).taskRelease
      fuel tsk
    pure (.released tsk, s₂)
  else if (s.task tsk).flags.linked then
    pure (.dispatched tsk, s₁.setTaskCurrent tsk)
  else pure (.skipped tsk, s₁)

/-! ## Boot -/

/-- The address of the kernel process. -/
def kernelProc : ℕ := 0xe00000010

/-- The state in which the scheduler loop starts, with `sched_task` alone in
the ring. -/
def bootKern : Kern :=
  Kern.taskLink schedTask
    { vm :=
        { mm := Mm.bootExample
          asidTable := fun i => i == 0
          space := fun _ =>
            { ttbr0 := 0x817ff8000
              ttbr1 := 0x817ff4000
              vmSpaceTable := fun _ => false
              refcount := refcountGlobal
              parent := 0
              asid := 0 }
          live := {Vm.kernel} }
      task := fun t =>
        if t = schedTask then
          { refcount := refcountGlobal
            vmSpace := Vm.kernel
            proc := kernelProc }
        else {}
      proc := fun _ => { refcount := 1, vmSpace := Vm.kernel }
      liveTasks := {schedTask}
      liveProcs := {kernelProc}
      irqvecs := fun _ => 0
      taskHead := fun _ => 0
      pongoSchedHead := 0
      taskCurrent := schedTask
      gPid := 1
      servedIrqs := 0 }

end Kern

end PongoOS
