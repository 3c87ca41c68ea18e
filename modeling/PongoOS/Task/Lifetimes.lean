import PongoOS.Support.Run
import PongoOS.Task.Creation

/-!
# Runs of calls that own tasks and processes

Callers only release what they hold a reference to and only pass what exists.
A task that exits gives up a reference of its creator, which the scheduler
releases later.

`register_irq_handler` releases the old handler of a vector before it takes a
reference to the new one.  When both are the same task and the vector is its
last owner, the task is freed and stays in the vector.
-/

namespace PongoOS

open Holders SinglyLinked

/-! ## Steps -/

/-- The kernel and, not in the code, the references that callers hold. -/
structure Owned where
  kern : Kern
  held : Held

/-- The calls that create, reference and release, and the scheduler.  The
addresses `t`, `p`, `a` and `b` of new objects come from `malloc`. -/
inductive OwnCall where
  | create (t : ℕ)
  | createExtended (type : TaskFlags) (arg t b : ℕ)
  | procCreateTask (p t b : ℕ)
  | procCreate (parent : ℕ) (noVm : Bool) (p b : ℕ)
  | bind (v t : ℕ)
  | reference (t : ℕ)
  | release (t : ℕ)
  | procRelease (p : ℕ)
  | vmCreate (parent a : ℕ)
  | vmReference (a : ℕ)
  | vmRelease (a : ℕ)
  | link (t : ℕ)
  | exit
  | yield
  | tick (r : Kern.Tick)

namespace OwnCall

def Runs (s : Kern) (s' : Kern) : OwnCall → Prop
  | .create t => s.taskCreate t = .ok s'
  | .createExtended type arg t b =>
      ∃ fuel, s.taskCreateExtended fuel type arg t b = .ok s'
  | .procCreateTask p t b => ∃ fuel, s.procCreateTask fuel p t b = .ok s'
  | .procCreate parent noVm p b => s.procCreate parent noVm p b = .ok s'
  | .bind v t => ∃ fuel, s.taskBindToIrq fuel t v = .ok s'
  | .reference t => s' = s.taskReference t
  | .release t => ∃ fuel, s.taskRelease fuel t = .ok s'
  | .procRelease p => ∃ fuel, s.procRelease fuel p = .ok s'
  | .vmCreate parent a => ∃ vm, s.vm.vmCreate parent a = .ok vm ∧ s' = s.setVm vm
  | .vmReference a => s' = s.setVm (s.vm.vmReference a)
  | .vmRelease a => ∃ fuel vm, s.vm.vmRelease fuel a = .ok vm ∧ s' = s.setVm vm
  | .link t => s' = s.taskLink t
  | .exit => s.taskExitAsserted = .ok s'
  | .yield => s' = s.setTaskCurrent Kern.schedTask
  | .tick r => ∃ fuel, s.pongoSchedTick fuel = .ok (r, s')

/-- What is passed exists, what is made is new, and what is released is held. -/
def Allowed (s : Owned) : OwnCall → Prop
  | .create t => t ≠ 0 ∧ t ∉ s.kern.liveTasks
  | .createExtended type arg t b =>
      (t ≠ 0 ∧ t ∉ s.kern.liveTasks) ∧ (b ≠ 0 ∧ b ∉ s.kern.vm.live) ∧
        (type.fromProc = true → arg = 0 ∨ arg ∈ s.kern.liveProcs)
  | .procCreateTask p t b =>
      (t ≠ 0 ∧ t ∉ s.kern.liveTasks) ∧ (b ≠ 0 ∧ b ∉ s.kern.vm.live) ∧
        p ∈ s.kern.liveProcs
  | .procCreate parent _ p b =>
      (p ≠ 0 ∧ p ∉ s.kern.liveProcs) ∧ (b ≠ 0 ∧ b ∉ s.kern.vm.live) ∧
        (parent = 0 ∨ parent ∈ s.kern.liveProcs)
  | .bind _ t => t = 0 ∨ t ∈ s.kern.liveTasks
  | .reference t => t ∈ s.kern.liveTasks
  | .release t => 0 < s.held.tasks t
  | .procRelease p => 0 < s.held.procs p
  | .vmCreate parent a =>
      (a ≠ 0 ∧ a ∉ s.kern.vm.live) ∧ (parent = 0 ∨ parent ∈ s.kern.vm.live)
  | .vmReference a => a ∈ s.kern.vm.live
  | .vmRelease a => 0 < s.held.spaces a
  | .link t => s.kern.Valid t
  | _ => True

/-- What callers hold after the call. -/
def held (s : Kern) (g : Held) : OwnCall → Held
  | .create t | .createExtended _ _ t _ | .procCreateTask _ t _ => g.addTask t
  | .procCreate _ _ p _ => g.addProc p
  | .reference t => g.addTask t
  | .release t => g.dropTask t
  | .procRelease p => g.dropProc p
  | .vmCreate _ a | .vmReference a => g.addSpace a
  | .vmRelease a => g.dropSpace a
  | .exit =>
      if (s.task s.taskCurrent).flags.restartOnExit then g
      else g.dropTask s.taskCurrent
  | _ => g

/-- No vector is given the task again that it alone owns, no task exits whose
creator has no reference left, and no count overflows. -/
def Kept (s : Owned) : OwnCall → Prop
  | .create _ => s.kern.Joinable 0
  | .createExtended type arg _ _ => s.kern.Joinable (s.kern.typeProc type arg)
  | .procCreateTask p _ _ => s.kern.Joinable p
  | .bind v t => s.kern.Bindable v t
  | .reference t => (s.kern.task t).refcount + 1 ≠ refcountGlobal
  | .exit =>
      (s.kern.task s.kern.taskCurrent).flags.restartOnExit = true ∨
        0 < s.held.tasks s.kern.taskCurrent
  | _ => True

end OwnCall

def OwnStep (s : Owned) (c : OwnCall) (s' : Owned) : Prop :=
  c.Allowed s ∧ c.Runs s.kern s'.kern ∧ s'.held = c.held s.kern s.held

def KeptOwnStep (s : Owned) (c : OwnCall) (s' : Owned) : Prop :=
  OwnStep s c s' ∧ c.Kept s

/-! ## The scheduler -/

namespace Kern

section Sched

variable {s s' : Kern} {t fuel : ℕ} {g : Held}

/-- The owners of what is allocated in `s`. -/
def Owners (g : Held) (s : Kern) : Prop :=
  OwnInv g (s.ownership s.liveTasks s.irqvecs)

theorem Owners.of_rest (h : s.Owners g) (hrest : s'.rest = s.rest) :
    s'.Owners g := by
  have hvecs := congrArg Kern.irqvecs hrest
  have hvecs' : s'.irqvecs = s.irqvecs := hvecs
  unfold Owners
  rw [liveTasks_of_rest hrest, hvecs', ownership_of_rest hrest]
  exact h

theorem typeProc_mem {type : TaskFlags} {arg : ℕ} (h : s.Owners g)
    (harg : type.fromProc = true → arg = 0 ∨ arg ∈ s.liveProcs) :
    s.typeProc type arg = 0 ∨ s.typeProc type arg ∈ s.liveProcs := by
  unfold typeProc
  split_ifs with hfrom
  · exact harg hfrom
  · exact or_iff_not_imp_left.mpr (h.member _ h.current)

/-- A task that restarts keeps its owners. -/
theorem taskRestartAndLink_owners (h : s.Owners g) :
    (s.taskRestartAndLink t).Owners g := by
  unfold taskRestartAndLink
  refine Owners.of_rest (s := s.modTask t _) ?_ (taskLink_rest t)
  unfold Owners
  rw [modTask_ownership_eq rfl rfl rfl rfl]
  exact h

theorem taskExitAsserted_owners (h : s.Owners g)
    (hkept : (s.task s.taskCurrent).flags.restartOnExit = true ∨
      0 < g.tasks s.taskCurrent) (hok : s.taskExitAsserted = .ok s') :
    s'.Owners (OwnCall.exit.held s g) := by
  simp only [taskExitAsserted, Outcome.bind_eq_ok, Outcome.pure_eq_ok] at hok
  obtain ⟨-, -, -, -, -, -, rfl⟩ := hok
  generalize hs₂ : (s.modFlags s.taskCurrent fun f =>
    { f with hasExited := true }).taskUnlink s.taskCurrent = s₂
  have hrest : s₂.rest = s.rest := by
    rw [← hs₂, taskUnlink_rest]
    exact modTask_rest (by simp [rest])
  have h₂ := h.of_rest hrest
  have hcur := taskCurrent_of_rest hrest
  have hrestart : (s₂.task s.taskCurrent).flags.restartOnExit =
      (s.task s.taskCurrent).flags.restartOnExit :=
    congrArg (fun k => (k.task s.taskCurrent).flags.restartOnExit) hrest
  unfold OwnCall.held
  rw [hrestart]
  by_cases hagain : (s.task s.taskCurrent).flags.restartOnExit = true
  · rw [if_pos hagain, if_pos hagain]
    have h₃ := taskRestartAndLink_owners (t := s.taskCurrent) h₂
    exact h₃.setCurrent h₃.sched.1 fun hheap => absurd h₃.sched.2 hheap
  · rw [if_neg hagain, if_neg hagain]
    have hheld := hkept.resolve_left hagain
    rw [← hcur] at hheld ⊢
    have hexit : OwnInv ((g.dropTask s₂.taskCurrent).addTask s₂.taskCurrent)
        (s₂.ownership s₂.liveTasks s₂.irqvecs) := by
      rw [Held.dropTask_addTask hheld]
      exact h₂
    have hflag : ((s₂.modFlags s₂.taskCurrent fun f =>
        { f with pleaseDeref := true }).setTaskCurrent schedTask).ownership
          s₂.liveTasks s₂.irqvecs =
        ((s₂.ownership s₂.liveTasks s₂.irqvecs).setCurrent schedTask).setDue
          s₂.taskCurrent true := by
      have hdue := modTask_ownership_due (s := s₂) (T := s₂.liveTasks)
        (V := s₂.irqvecs) (t := s₂.taskCurrent) (b := true)
        (f := fun x => { x with flags := { x.flags with pleaseDeref := true } })
        rfl rfl rfl rfl
      exact congrArg (fun o => o.setCurrent schedTask) hdue
    have hafter := hexit.exit rfl
    rw [← hflag] at hafter
    exact hafter

/-- The reference that the flag of an exited task owns. -/
theorem takeDue_owners (h : s.Owners g)
    (hring : ∃ l, RingInv s.ring s.liveTasks l) (h0 : s.pongoSchedHead ≠ 0)
    (hdue : (s.task s.pongoSchedHead).flags.pleaseDeref = true) :
    ((s.setPongoSchedHead (s.task s.pongoSchedHead).next).modFlags
      s.pongoSchedHead fun f => { f with pleaseDeref := false }).Owners
        (g.addTask s.pongoSchedHead) := by
  have hlive : s.pongoSchedHead ∈ s.liveTasks := by
    obtain ⟨l, hl⟩ := hring
    obtain ⟨m, rfl⟩ := hl.head_mem h0
    exact hl.live _ List.mem_cons_self
  have hflag : ((s.setPongoSchedHead
      (s.task s.pongoSchedHead).next).modFlags s.pongoSchedHead fun f =>
        { f with pleaseDeref := false }).ownership s.liveTasks s.irqvecs =
      (s.ownership s.liveTasks s.irqvecs).setDue s.pongoSchedHead false :=
    modTask_ownership_due rfl rfl rfl rfl
  have htake := h.takeDue hlive hdue
  rw [← hflag] at htake
  exact htake

theorem pongoSchedTick_owners {r : Tick} (h : s.Owners g)
    (hring : ∃ l, RingInv s.ring s.liveTasks l)
    (hok : s.pongoSchedTick fuel = .ok (r, s')) : s'.Owners g := by
  simp only [pongoSchedTick, Outcome.bind_eq_ok, panicIf_eq_ok] at hok
  obtain ⟨-, h0, hok⟩ := hok
  have hlive : s.pongoSchedHead ∈ s.liveTasks := by
    obtain ⟨l, hl⟩ := hring
    obtain ⟨m, rfl⟩ := hl.head_mem h0
    exact hl.live _ List.mem_cons_self
  split_ifs at hok with hsched hderef hlinked
  · cases hok
    exact h
  · simp only [Outcome.bind_eq_ok, Outcome.pure_eq_ok, Prod.mk.injEq] at hok
    obtain ⟨s₂, hrelease, -, rfl⟩ := hok
    obtain ⟨hinv, hrel⟩ := taskRelease_owners
      (takeDue_owners h hring h0 hderef) hrelease
    have hvecs : s₂.irqvecs = s.irqvecs := hrel.irqvecs
    unfold Owners
    rw [hvecs]
    exact hinv
  · cases hok
    refine h.setCurrent hlive fun _ => ?_
    exact Bool.eq_false_of_not_eq_true hderef
  · cases hok
    exact h

end Sched

end Kern

/-! ## Runs -/

open Kern

/-- The owners of every task and every process are its references, what they
own exists, and so does every task in the ring. -/
structure Lifetimes (s : Owned) : Prop where
  owners : s.kern.Owners s.held
  ring : ∃ l, RingInv s.kern.ring s.kern.liveTasks l

section Step

variable {s s' : Kern} {g : Held} {c : OwnCall}

theorem owners_of_step {s s' : Owned} (h : Lifetimes s)
    (hstep : KeptOwnStep s c s') : s'.kern.Owners s'.held := by
  obtain ⟨⟨hallowed, hruns, hheld⟩, hkept⟩ := hstep
  rw [hheld]
  cases c with
  | create t =>
      exact taskCreate_owners h.owners hallowed.1 hallowed.2 hkept hruns
  | createExtended type arg t b =>
      obtain ⟨⟨h0, ht⟩, -, hp⟩ := hallowed
      obtain ⟨fuel, hok⟩ := hruns
      exact taskCreateExtended_owners h.owners h0 ht (typeProc_mem h.owners hp)
        hkept hok
  | procCreateTask p t b =>
      obtain ⟨⟨h0, ht⟩, -, hp⟩ := hallowed
      obtain ⟨fuel, hok⟩ := hruns
      exact procCreateTask_owners h.owners h0 ht hp hkept hok
  | procCreate parent noVm p b =>
      obtain ⟨⟨h0, hp⟩, -⟩ := hallowed
      exact procCreate_owners h.owners h0 hp hruns
  | bind v t =>
      obtain ⟨fuel, hok⟩ := hruns
      exact registerIrqHandler_owners h.owners hallowed hkept hok
  | reference t =>
      have heq : s'.kern = s.kern.taskReference t := hruns
      have hown := taskReference_owners h.owners hallowed hkept
      rw [heq]
      unfold Owners
      rw [taskReference_liveTasks, taskReference_irqvecs]
      exact hown
  | release t =>
      obtain ⟨fuel, hok⟩ := hruns
      have howners := h.owners
      rw [← Held.dropTask_addTask hallowed] at howners
      obtain ⟨hown, hrel⟩ := taskRelease_owners howners hok
      unfold Owners
      rw [hrel.irqvecs]
      exact hown
  | procRelease p =>
      obtain ⟨fuel, hok⟩ := hruns
      have howners := h.owners
      rw [← Held.dropProc_addProc hallowed] at howners
      obtain ⟨hown, hrel⟩ := procRelease_owners howners hok
      unfold Owners
      rw [hrel.irqvecs, hrel.liveTasks]
      exact hown
  | vmCreate parent a =>
      obtain ⟨vm, -, heq⟩ := hruns
      rw [heq]
      exact h.owners.spaces _
  | vmReference a =>
      have heq : s'.kern = s.kern.setVm (s.kern.vm.vmReference a) := hruns
      rw [heq]
      exact h.owners.spaces _
  | vmRelease a =>
      obtain ⟨fuel, vm, -, heq⟩ := hruns
      rw [heq]
      exact h.owners.spaces _
  | link t =>
      have heq : s'.kern = s.kern.taskLink t := hruns
      rw [heq]
      exact taskLink_owners h.owners
  | exit => exact taskExitAsserted_owners h.owners hkept hruns
  | yield =>
      have heq : s'.kern = s.kern.setTaskCurrent schedTask := hruns
      rw [heq]
      exact h.owners.setCurrent h.owners.sched.1
        fun hheap => absurd h.owners.sched.2 hheap
  | tick r =>
      obtain ⟨fuel, hok⟩ := hruns
      exact pongoSchedTick_owners h.owners h.ring hok

theorem procCreateTask_ring {p t b fuel : ℕ} {l : List ℕ}
    (h : RingInv s.ring s.liveTasks l) (h0 : t ≠ 0) (ht : t ∉ s.liveTasks)
    (hok : s.procCreateTask fuel p t b = .ok s') :
    ∃ l', RingInv s'.ring s'.liveTasks l' := by
  simp only [procCreateTask, Outcome.bind_eq_ok, Outcome.pure_eq_ok] at hok
  obtain ⟨s₁, hcreate, rfl⟩ := hok
  obtain ⟨l', hl'⟩ := taskCreateExtended_ringInv h h0 ht hcreate
  have hring : (s₁.modTask t fun x =>
      { x with procTaskListNext := (s₁.proc p).taskList }).ring = s₁.ring :=
    modTask_ring_eq _ _ rfl rfl rfl rfl
  exact ⟨l', hring ▸ hl'⟩

theorem procCreate_ring {parent p b : ℕ} {noVm : Bool}
    (hok : s.procCreate parent noVm p b = .ok s') :
    s'.ring = s.ring ∧ s'.liveTasks = s.liveTasks := by
  simp only [procCreate, Outcome.bind_eq_ok, Outcome.pure_eq_ok] at hok
  obtain ⟨s₂, hvm, rfl⟩ := hok
  by_cases hspace : parent ≠ 0 ∨ noVm = false
  · simp only [if_pos hspace, Outcome.bind_eq_ok, Outcome.pure_eq_ok] at hvm
    obtain ⟨vm, -, rfl⟩ := hvm
    exact ⟨rfl, rfl⟩
  · rw [if_neg hspace] at hvm
    cases hvm
    exact ⟨rfl, rfl⟩

theorem ring_of_own_step {s s' : Owned} (h : Lifetimes s)
    (hstep : KeptOwnStep s c s') :
    ∃ l, RingInv s'.kern.ring s'.kern.liveTasks l := by
  obtain ⟨⟨hallowed, hruns, -⟩, -⟩ := hstep
  obtain ⟨l, hl⟩ := h.ring
  have hshrinks {k : Kern} (hk : RingShrinks s.kern k) :
      ∃ l, RingInv k.ring k.liveTasks l := by
    obtain ⟨l', hl', -⟩ := hk.ring l hl
    exact ⟨l', hl'⟩
  cases c with
  | create t =>
      exact ⟨_, taskCreate_ringInv hl hallowed.1 hallowed.2 hruns⟩
  | createExtended type arg t b =>
      obtain ⟨fuel, hok⟩ := hruns
      exact taskCreateExtended_ringInv hl hallowed.1.1 hallowed.1.2 hok
  | procCreateTask p t b =>
      obtain ⟨fuel, hok⟩ := hruns
      exact procCreateTask_ring hl hallowed.1.1 hallowed.1.2 hok
  | procCreate parent noVm p b =>
      obtain ⟨hring, hlive⟩ := procCreate_ring hruns
      exact ⟨l, hring ▸ hlive ▸ hl⟩
  | bind v t =>
      obtain ⟨fuel, hok⟩ := hruns
      exact hshrinks (registerIrqHandler_ring hok)
  | reference t =>
      have heq : s'.kern = s.kern.taskReference t := hruns
      rw [heq]
      exact hshrinks (taskReference_ring t)
  | release t =>
      obtain ⟨fuel, hok⟩ := hruns
      exact hshrinks (taskRelease_ring hok)
  | procRelease p =>
      obtain ⟨fuel, hok⟩ := hruns
      exact hshrinks (procReleaseWith_ring
        (fun _ _ _ hrelease => taskRelease_ring hrelease) hok)
  | vmCreate parent a =>
      obtain ⟨vm, -, heq⟩ := hruns
      rw [heq]
      exact ⟨l, hl⟩
  | vmReference a =>
      have heq : s'.kern = s.kern.setVm (s.kern.vm.vmReference a) := hruns
      rw [heq]
      exact ⟨l, hl⟩
  | vmRelease a =>
      obtain ⟨fuel, vm, -, heq⟩ := hruns
      rw [heq]
      exact ⟨l, hl⟩
  | link t =>
      have heq : s'.kern = s.kern.taskLink t := hruns
      rw [heq]
      exact ⟨_, taskLink_ringInv hl hallowed.2 hallowed.1⟩
  | exit =>
      have hcur : s.kern.Valid s.kern.taskCurrent :=
        ⟨h.owners.ne_null h.owners.current, h.owners.current⟩
      obtain ⟨l', hl', -⟩ := taskExitAsserted_ringInv hl hcur hruns
      exact ⟨l', hl'⟩
  | yield =>
      have heq : s'.kern = s.kern.setTaskCurrent schedTask := hruns
      rw [heq]
      exact ⟨l, hl⟩
  | tick r =>
      obtain ⟨fuel, hok⟩ := hruns
      exact pongoSchedTick_ringInv hl hok

theorem Lifetimes.step {s s' : Owned} (h : Lifetimes s)
    (hstep : KeptOwnStep s c s') : Lifetimes s' :=
  ⟨owners_of_step h hstep, ring_of_own_step h hstep⟩

end Step

/-! ## Lifetimes -/

namespace Owned

variable (s : Owned)

/-- The creators, the vectors and the flag that own `t`. -/
def taskOwners (t : ℕ) : ℕ :=
  s.held.tasks t + holders (Finset.range 0x1ff) s.kern.irqvecs t +
    if t ∈ s.kern.liveTasks ∧ (s.kern.task t).flags.pleaseDeref = true then 1
    else 0

/-- The creators and the tasks that own `p`. -/
def procOwners (p : ℕ) : ℕ :=
  s.held.procs p + holders s.kern.liveTasks (fun t => (s.kern.task t).proc) p

/-- A task or a process is allocated exactly as long as somebody owns it, and
nothing leads to a task that is not. -/
structure LivesWhileOwned : Prop where
  task : ∀ t ≠ 0, (s.kern.task t).refcount ≠ refcountGlobal →
    (t ∈ s.kern.liveTasks ↔ 0 < s.taskOwners t)
  proc : ∀ p ≠ 0, p ∈ s.kern.liveProcs ↔ 0 < s.procOwners p
  irqvecs : ∀ v, s.kern.irqvecs v ≠ 0 → s.kern.irqvecs v ∈ s.kern.liveTasks
  ring : ∃ l, RingInv s.kern.ring s.kern.liveTasks l
  taskLists : ∀ p ∈ s.kern.liveProcs, ∃ l,
    Path s.kern.listNexts 0 (s.kern.proc p).taskList l ∧
      ∀ t ∈ l, t ∈ s.kern.liveTasks

end Owned

theorem Lifetimes.livesWhileOwned {s : Owned} (h : Lifetimes s) :
    s.LivesWhileOwned where
  task t h0 hheap := by
    unfold Owned.taskOwners
    constructor
    · intro ht
      obtain ⟨hcount, hpos, -⟩ := h.owners.count t ht hheap
      have hdue : (t ∈ s.kern.liveTasks ∧
          (s.kern.task t).flags.pleaseDeref = true) ↔
          (s.kern.task t).flags.pleaseDeref = true := and_iff_right ht
      simp only [hdue]
      exact hcount ▸ hpos
    · intro hpos
      by_contra ht
      have hheld := h.owners.tasks_eq_zero ht
      have hslots : holders (Finset.range 0x1ff) s.kern.irqvecs t = 0 :=
        h.owners.slots_eq_zero h0 ht
      rw [hheld, hslots, if_neg (fun hdue => ht hdue.1)] at hpos
      exact absurd hpos (lt_irrefl 0)
  proc p h0 := by
    unfold Owned.procOwners
    constructor
    · intro hp
      obtain ⟨hcount, hpos, -⟩ := h.owners.procCount p hp
      exact hcount ▸ hpos
    · intro hpos
      by_contra hp
      have hheld : s.held.procs p = 0 := by
        by_contra hne
        exact hp (h.owners.heldProc p (Nat.pos_of_ne_zero hne))
      have hnone : holders s.kern.liveTasks
          (fun t => (s.kern.task t).proc) p = 0 := by
        apply holders_eq_zero
        intro t ht heq
        have hproc : (s.kern.task t).proc ≠ 0 := heq ▸ h0
        exact hp (heq ▸ h.owners.member t ht hproc)
      omega
  irqvecs v hv := (h.owners.bound v hv).2
  ring := h.ring
  taskLists p hp := by
    obtain ⟨l, hpath, hl⟩ := h.owners.lists p hp
    exact ⟨l, hpath, fun t ht => (hl t ht).1⟩

/-- In every run in which no vector is given the task again that it alone owns,
no task exits after its creator gave up its references, and no count overflows,
tasks and processes are freed when their last owner goes and not before, and
nothing leads to a freed task. -/
theorem lifetimes_of_run {s s' : Owned} {cs : List OwnCall} (h : Lifetimes s)
    (hrun : Run KeptOwnStep s cs s') : s'.LivesWhileOwned := by
  have hinv : Lifetimes s' :=
    hrun.invariant (fun _ _ _ h hstep => h.step hstep) h
  exact hinv.livesWhileOwned

/-! ## The start -/

/-- The state after boot: the scheduler's task is the member of the kernel
process. -/
def bootOwned : Owned := ⟨bootKern, ⟨fun _ => 0, fun _ => 0, fun _ => 0⟩⟩

theorem bootOwned_lifetimes : Lifetimes bootOwned := by
  refine ⟨?_, _, bootKern_ringInv⟩
  have hlive : ∀ t ∈ bootKern.liveTasks, t = schedTask := by decide
  have hstatic : (bootKern.task schedTask).refcount = refcountGlobal := by
    decide
  have hproc : (bootKern.task schedTask).proc = kernelProc := by decide
  have hprocs : ∀ p ∈ bootKern.liveProcs, p = kernelProc := by decide
  have hvecs : ∀ v, bootKern.irqvecs v = 0 := fun _ => rfl
  constructor
  · intro t ht hheap
    exact absurd (hlive t ht ▸ hstatic) hheap
  · intro t ht
    exact absurd ht (lt_irrefl 0)
  · intro v hv
    exact absurd (hvecs v) hv
  · intro p hp
    obtain rfl := hprocs p hp
    decide
  · intro p hp
    exact absurd hp (lt_irrefl 0)
  · intro t ht _
    obtain rfl := hlive t ht
    have hmem : (bootKern.task schedTask).proc ∈ bootKern.liveProcs := by
      rw [hproc]
      decide
    exact hmem
  · intro p _
    exact ⟨[], rfl, fun t ht => absurd ht List.not_mem_nil⟩
  · exact ⟨by decide, by decide⟩
  · decide
  · intro hheap
    exact absurd hstatic hheap
  · exact ⟨by decide, hstatic⟩

/-- The theorem on a run in which a task is bound to two vectors, loses one of
them, runs, and exits. -/
theorem lifetimes_of_bootOwned :
    ∃ s', Run KeptOwnStep bootOwned
        [.create 0x1000, .bind 5 0x1000, .bind 6 0x1000, .bind 5 0,
          .tick (.dispatched 0x1000), .exit, .tick .looped,
          .tick (.released 0x1000)] s' ∧
      s'.LivesWhileOwned := by
  have hcalls : (do
      let s₁ ← bootKern.taskCreate 0x1000
      let s₂ ← s₁.taskBindToIrq 3 0x1000 5
      let s₃ ← s₂.taskBindToIrq 3 0x1000 6
      let s₄ ← s₃.taskBindToIrq 3 0 5
      let (r₅, s₅) ← s₄.pongoSchedTick 3
      let s₆ ← s₅.taskExitAsserted
      let (r₇, s₇) ← s₆.pongoSchedTick 3
      let (r₈, s₈) ← s₇.pongoSchedTick 3
      pure ([r₅, r₇, r₈], s₁, s₂, s₅, s₈) :
        Outcome (List Tick × Kern × Kern × Kern × Kern)).toOption.map
        (fun (l, s₁, s₂, s₅, _) =>
          (l = [.dispatched 0x1000, .looped, .released 0x1000] ∧
          0x1000 ∈ s₁.liveTasks ∧ 0x1000 ∈ s₂.liveTasks ∧
          s₁.Bindable 5 0x1000 ∧ s₂.Bindable 6 0x1000 ∧
          s₅.taskCurrent = 0x1000 ∧
          (s₅.task 0x1000).flags.restartOnExit = false : Bool)) =
      some true := by
    decide +kernel
  obtain ⟨⟨l, s₁, s₂, s₅, s₈⟩, hok, hfacts⟩ := Outcome.ok_of_map hcalls
  simp only [Outcome.bind_eq_ok, Outcome.pure_eq_ok, Prod.exists,
    Prod.mk.injEq] at hok
  obtain ⟨s₁, hcreate, s₂, hbind, s₃, hbind', s₄, hfree, r₅, s₅, htick, s₆,
    hexit, r₇, s₇, hloop, r₈, s₈, hrelease, rfl, rfl, rfl, rfl, rfl⟩ := hok
  simp only [decide_eq_true_eq, List.cons.injEq, and_true] at hfacts
  obtain ⟨⟨rfl, rfl, rfl⟩, hlive₁, hlive₂, hkept₁, hkept₂, hcur, hrestart⟩ :=
    hfacts
  generalize hg : bootOwned.held.addTask 0x1000 = g
  have hheld : 0 < g.tasks s₅.taskCurrent := by
    rw [hcur, ← hg, Held.addTask_tasks, Function.update_self]
    exact Nat.succ_pos _
  have hjoin : bootKern.Joinable 0 := by
    intro _
    decide
  have hcreated : KeptOwnStep bootOwned (.create 0x1000) ⟨s₁, g⟩ :=
    ⟨⟨⟨by decide, by decide⟩, hcreate, hg.symm⟩, hjoin⟩
  have hboundOnce : KeptOwnStep ⟨s₁, g⟩ (.bind 5 0x1000) ⟨s₂, g⟩ :=
    ⟨⟨Or.inr hlive₁, ⟨3, hbind⟩, rfl⟩, hkept₁⟩
  have hboundTwice : KeptOwnStep ⟨s₂, g⟩ (.bind 6 0x1000) ⟨s₃, g⟩ :=
    ⟨⟨Or.inr hlive₂, ⟨3, hbind'⟩, rfl⟩, hkept₂⟩
  have hunbound : KeptOwnStep ⟨s₃, g⟩ (.bind 5 0) ⟨s₄, g⟩ :=
    ⟨⟨Or.inl rfl, ⟨3, hfree⟩, rfl⟩, fun h => absurd rfl h⟩
  have hticked : KeptOwnStep ⟨s₄, g⟩ (.tick (.dispatched 0x1000)) ⟨s₅, g⟩ :=
    ⟨⟨trivial, ⟨3, htick⟩, rfl⟩, trivial⟩
  have hexited : KeptOwnStep ⟨s₅, g⟩ .exit ⟨s₆, OwnCall.exit.held s₅ g⟩ :=
    ⟨⟨trivial, hexit, rfl⟩, Or.inr hheld⟩
  have hlooped : KeptOwnStep ⟨s₆, OwnCall.exit.held s₅ g⟩ (.tick .looped)
      ⟨s₇, OwnCall.exit.held s₅ g⟩ :=
    ⟨⟨trivial, ⟨3, hloop⟩, rfl⟩, trivial⟩
  have hreleased : KeptOwnStep ⟨s₇, OwnCall.exit.held s₅ g⟩
      (.tick (.released 0x1000)) ⟨s₈, OwnCall.exit.held s₅ g⟩ :=
    ⟨⟨trivial, ⟨3, hrelease⟩, rfl⟩, trivial⟩
  have hrun : Run KeptOwnStep bootOwned
      [.create 0x1000, .bind 5 0x1000, .bind 6 0x1000, .bind 5 0,
        .tick (.dispatched 0x1000), .exit, .tick .looped,
        .tick (.released 0x1000)] ⟨s₈, OwnCall.exit.held s₅ g⟩ :=
    .cons hcreated (.cons hboundOnce (.cons hboundTwice (.cons hunbound
      (.cons hticked (.cons hexited (.cons hlooped (.single hreleased)))))))
  exact ⟨_, hrun, lifetimes_of_run bootOwned_lifetimes hrun⟩

/-- The vector 5 is the last owner of the task when it is bound to 5 again. -/
theorem rebound_handler_freed :
    ∃ s', Run OwnStep bootOwned
        [.create 0x1000, .bind 5 0x1000, .release 0x1000, .bind 5 0x1000] s' ∧
      ¬ s'.LivesWhileOwned := by
  have hcalls : (do
      let s₁ ← bootKern.taskCreate 0x1000
      let s₂ ← s₁.taskBindToIrq 3 0x1000 5
      let s₃ ← s₂.taskRelease 3 0x1000
      let s₄ ← s₃.taskBindToIrq 3 0x1000 5
      pure (s₁, s₃, s₄) : Outcome (Kern × Kern × Kern)).toOption.map
        (fun (s₁, s₃, s₄) => (0x1000 ∈ s₁.liveTasks ∧ 0x1000 ∈ s₃.liveTasks ∧
          s₄.irqvecs 5 = 0x1000 ∧ 0x1000 ∉ s₄.liveTasks : Bool)) =
      some true := by
    decide +kernel
  obtain ⟨⟨s₁, s₃, s₄⟩, hok, hfacts⟩ := Outcome.ok_of_map hcalls
  simp only [Outcome.bind_eq_ok, Outcome.pure_eq_ok, Prod.mk.injEq] at hok
  obtain ⟨s₁, hcreate, s₂, hbind, s₃, hrelease, s₄, hagain, rfl, rfl, rfl⟩ :=
    hok
  simp only [decide_eq_true_eq] at hfacts
  obtain ⟨hlive₁, hlive₃, hbound, hfreed⟩ := hfacts
  generalize hg : bootOwned.held.addTask 0x1000 = g
  have hheld : 0 < g.tasks 0x1000 := by
    rw [← hg, Held.addTask_tasks, Function.update_self]
    exact Nat.succ_pos _
  have hcreated : OwnStep bootOwned (.create 0x1000) ⟨s₁, g⟩ :=
    ⟨⟨by decide, by decide⟩, hcreate, hg.symm⟩
  have hboundOnce : OwnStep ⟨s₁, g⟩ (.bind 5 0x1000) ⟨s₂, g⟩ :=
    ⟨Or.inr hlive₁, ⟨3, hbind⟩, rfl⟩
  have hreleased : OwnStep ⟨s₂, g⟩ (.release 0x1000) ⟨s₃, g.dropTask 0x1000⟩ :=
    ⟨hheld, ⟨3, hrelease⟩, rfl⟩
  have hboundAgain : OwnStep ⟨s₃, g.dropTask 0x1000⟩ (.bind 5 0x1000)
      ⟨s₄, g.dropTask 0x1000⟩ := ⟨Or.inr hlive₃, ⟨3, hagain⟩, rfl⟩
  refine ⟨_, .cons hcreated (.cons hboundOnce (.cons hreleased
    (.single hboundAgain))), ?_⟩
  intro hlives
  have hset : s₄.irqvecs 5 ≠ 0 := by
    rw [hbound]
    decide
  have hmem : s₄.irqvecs 5 ∈ s₄.liveTasks := hlives.irqvecs 5 hset
  rw [hbound] at hmem
  exact hfreed hmem

end PongoOS
