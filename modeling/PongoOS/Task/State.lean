import PongoOS.Mm.VmSpace

/-!
# Tasks and processes

The state of the task subsystem: the task and process structures at their
addresses, the interrupt vectors, the heads of the event queues, and the
scheduler's head.  A null pointer is zero.  `liveTasks` and `liveProcs` are the
addresses where a structure exists, static or from `malloc`.

Register contexts, stacks, names and open files are left out.  Every function
below runs with interrupts masked.
-/

namespace PongoOS

/-- The bits of `task->flags`. -/
structure TaskFlags where
  canExit : Bool := false
  linked : Bool := false
  irqHandler : Bool := false
  preempt : Bool := false
  maskNextIrq : Bool := false
  hasExited : Bool := false
  wasLinked : Bool := false
  hasCrashed : Bool := false
  restartOnExit : Bool := false
  spawn : Bool := false
  fromProc : Bool := false
  pleaseDeref : Bool := false
deriving DecidableEq, Repr

/-- `struct task`. -/
structure Task where
  flags : TaskFlags := {}
  irqRet : ℕ := 0
  irqCount : ℕ := 0
  irqType : ℕ := 0
  eqNext : ℕ := 0
  next : ℕ := 0
  prev : ℕ := 0
  refcount : ℕ := 0
  criticalCount : ℕ := 0
  vmSpace : ℕ := 0
  userStack : ℕ := 0
  pid : ℕ := 0
  gencount : ℕ := 0
  proc : ℕ := 0
  procTaskListNext : ℕ := 0
deriving DecidableEq, Repr

/-- `struct proc`. -/
structure Proc where
  refcount : ℕ := 0
  vmSpace : ℕ := 0
  taskList : ℕ := 0
deriving DecidableEq, Repr

structure Kern where
  vm : Vm
  task : ℕ → Task
  proc : ℕ → Proc
  liveTasks : Finset ℕ
  liveProcs : Finset ℕ
  irqvecs : ℕ → ℕ
  taskHead : ℕ → ℕ
  pongoSchedHead : ℕ
  taskCurrent : ℕ
  gPid : ℕ
  servedIrqs : ℕ

namespace Kern

/-- The address of `sched_task`. -/
def schedTask : ℕ := 0x100001000

@[simps]
def setVm (s : Kern) (vm : Vm) : Kern := { s with vm := vm }

@[simps]
def modTask (s : Kern) (t : ℕ) (f : Task → Task) : Kern :=
  { s with task := Function.update s.task t (f (s.task t)) }

@[simps]
def modProc (s : Kern) (p : ℕ) (f : Proc → Proc) : Kern :=
  { s with proc := Function.update s.proc p (f (s.proc p)) }

@[simps]
def setLiveTasks (s : Kern) (l : Finset ℕ) : Kern := { s with liveTasks := l }

@[simps]
def setLiveProcs (s : Kern) (l : Finset ℕ) : Kern := { s with liveProcs := l }

@[simps]
def setIrqvec (s : Kern) (i t : ℕ) : Kern :=
  { s with irqvecs := Function.update s.irqvecs i t }

@[simps]
def setTaskHead (s : Kern) (ev t : ℕ) : Kern :=
  { s with taskHead := Function.update s.taskHead ev t }

@[simps]
def setPongoSchedHead (s : Kern) (t : ℕ) : Kern :=
  { s with pongoSchedHead := t }

@[simps]
def setTaskCurrent (s : Kern) (t : ℕ) : Kern := { s with taskCurrent := t }

@[simps]
def setGPid (s : Kern) (n : ℕ) : Kern := { s with gPid := n }

@[simps]
def setServedIrqs (s : Kern) (n : ℕ) : Kern := { s with servedIrqs := n }

/-! ## Updating one field of a task -/

def modFlags (s : Kern) (t : ℕ) (f : TaskFlags → TaskFlags) : Kern :=
  s.modTask t fun x => { x with flags := f x.flags }

def setNext (s : Kern) (t n : ℕ) : Kern :=
  s.modTask t fun x => { x with next := n }

def setPrev (s : Kern) (t n : ℕ) : Kern :=
  s.modTask t fun x => { x with prev := n }

def setEqNext (s : Kern) (t n : ℕ) : Kern :=
  s.modTask t fun x => { x with eqNext := n }

end Kern

end PongoOS
