import PongoOS.Task.OwnershipSteps

/-!
# New tasks and processes

`task_create`, `task_create_extended`, `proc_create_task` and `proc_create` add
a task or a process that its creator owns.
-/

namespace PongoOS

open SinglyLinked

namespace Kern

/-! ## Joining a process -/

section Creation

variable {s s' : Kern} {T : Finset ℕ} {V : ℕ → ℕ} {t p : ℕ} {g : Held}

theorem newTask_ownership (t : ℕ) :
    (s.newTask t).ownership T V =
      { s.ownership T V with
        refcount := Function.update (s.ownership T V).refcount t 0
        proc := Function.update (s.ownership T V).proc t 0
        listNext := Function.update (s.ownership T V).listNext t 0
        due := Function.update (s.ownership T V).due t false } :=
  modTask_ownership _

theorem takeVmSpace_ownership (a : ℕ) :
    (s.takeVmSpace t a).ownership T V = s.ownership T V := by
  unfold takeVmSpace
  exact modTask_ownership_eq rfl rfl rfl rfl

/-- The process `p` counts `t`. -/
def join (t p : ℕ) (o : Ownership) : Ownership :=
  { o with
    proc := Function.update o.proc t p
    procRefcount :=
      if p = 0 then o.procRefcount
      else Function.update o.procRefcount p (o.procRefcount p + 1) }

theorem procReference_ownership
    (hlt : p ≠ 0 → (s.proc p).refcount + 1 < 2 ^ 32) :
    (s.procReference p).ownership T V =
      { s.ownership T V with
        procRefcount :=
          if p = 0 then (s.ownership T V).procRefcount
          else Function.update (s.ownership T V).procRefcount p
            ((s.ownership T V).procRefcount p + 1) } := by
  unfold procReference
  by_cases h0 : p = 0
  · rw [if_pos h0, if_pos h0]
  · rw [if_neg h0, if_neg h0]
    exact modProc_ownership_refcount (Nat.mod_eq_of_lt (hlt h0)) rfl

theorem setProc_ownership :
    (s.modTask t fun x => { x with proc := p }).ownership T V =
      { s.ownership T V with
        proc := Function.update (s.ownership T V).proc t p } := by
  rw [modTask_ownership]
  exact Ownership.ext rfl rfl (update_same rfl) rfl (update_same rfl)
    (update_same rfl) rfl rfl rfl rfl

/-- A task without a process joins the one of the current task. -/
theorem taskInherit_ownership
    (hlt : (s.task t).proc = 0 → (s.task s.taskCurrent).proc ≠ 0 →
      (s.proc (s.task s.taskCurrent).proc).refcount + 1 < 2 ^ 32) :
    (s.taskInherit t).ownership T V =
      if (s.task t).proc ≠ 0 then s.ownership T V
      else join t (s.task s.taskCurrent).proc (s.ownership T V) := by
  unfold taskInherit
  by_cases hp : (s.task t).proc = 0
  · simp only [hp, ne_eq, not_true_eq_false, if_false]
    have hspace (k : Kern) (hk : k.ownership T V = s.ownership T V)
        (hproc : k.proc = s.proc) :
        ((k.modTask t fun x =>
          { x with proc := (s.task s.taskCurrent).proc }).procReference
            (s.task s.taskCurrent).proc).ownership T V =
          join t (s.task s.taskCurrent).proc (s.ownership T V) := by
      rw [procReference_ownership, setProc_ownership, hk]
      · rfl
      · intro h0
        rw [modTask_proc, hproc]
        exact hlt hp h0
    split_ifs
    · exact hspace _ (takeVmSpace_ownership _) rfl
    · exact hspace s rfl rfl
  · rw [if_pos hp, if_pos hp]
    split_ifs
    · exact takeVmSpace_ownership _
    · rfl

/-- What `task_register_unlinked` leaves of a zeroed task that may have a
process already. -/
theorem taskRegisterUnlinked_ownership (hcur : s.taskCurrent ≠ t)
    (hlt : (s.task t).proc = 0 → (s.task s.taskCurrent).proc ≠ 0 →
      (s.proc (s.task s.taskCurrent).proc).refcount + 1 < 2 ^ 32)
    (hok : s.taskRegisterUnlinked t = .ok s') :
    ∃ o, (o = if (s.task t).proc ≠ 0 then s.ownership T V
      else join t (s.task s.taskCurrent).proc (s.ownership T V)) ∧
      s'.ownership T V =
        (o.setRefcount t refcountGlobal).setDue t false := by
  simp only [taskRegisterUnlinked, Outcome.bind_eq_ok, panicIf_eq_ok,
    Outcome.pure_eq_ok] at hok
  obtain ⟨-, -, rfl⟩ := hok
  have hclear : (s.modTask t clearAnchor).ownership T V =
      s.ownership T V := modTask_ownership_eq rfl rfl rfl rfl
  have hproc : ((s.modTask t clearAnchor).task t).proc = (s.task t).proc := by
    simp [clearAnchor]
  have hcurProc : ((s.modTask t clearAnchor).task s.taskCurrent).proc =
      (s.task s.taskCurrent).proc := by
    rw [modTask_task_of_ne _ _ hcur]
  have hinherit := taskInherit_ownership (s := s.modTask t clearAnchor)
    (T := T) (V := V)
    (by rw [hproc, modTask_taskCurrent, hcurProc]; exact hlt)
  rw [hproc, hclear, modTask_taskCurrent, hcurProc] at hinherit
  refine ⟨_, rfl, ?_⟩
  rw [← hinherit]
  have hpid (k : Kern) (n : ℕ) :
      (k.setGPid n).ownership T V = k.ownership T V := rfl
  rw [hpid, modTask_ownership]
  exact Ownership.ext rfl rfl rfl (update_same rfl) (update_same rfl) rfl rfl
    rfl rfl rfl

/-- The process that a new task joins when it is created with `p`. -/
def procOf (p : ℕ) (s : Kern) : ℕ :=
  if p ≠ 0 then p else (s.task s.taskCurrent).proc

/-- `task_register_unlinked` of a new task, whose creator then owns it. -/
theorem createUnlinked_ownership {s₁ : Kern} (hcur : s.taskCurrent ≠ t)
    (hlt : s.procOf p ≠ 0 → (s.proc (s.procOf p)).refcount + 1 < 2 ^ 32)
    (hok : (((s.newTask t).procReference p).modTask t
      fun x => { x with proc := p }).taskRegisterUnlinked t = .ok s₁) :
    ∀ V, (s₁.ownership (insert t s.liveTasks) V).setRefcount t 1 =
      (s.ownership s.liveTasks V).newTask t (s.procOf p) := by
  intro V
  generalize hs₀ : (((s.newTask t).procReference p).modTask t
    fun x => { x with proc := p }) = s₀ at hok
  have hprocs : (s.newTask t).proc = s.proc := rfl
  have hcur₀ : s₀.taskCurrent = s.taskCurrent := by
    rw [← hs₀, modTask_taskCurrent]
    exact (OnlyTask.procReference (t := t) p).current
  have htask : (s₀.task t).proc = p := by
    rw [← hs₀]
    simp
  have hcurTask : (s₀.task s.taskCurrent).proc =
      (s.task s.taskCurrent).proc := by
    rw [← hs₀, modTask_task_of_ne _ _ hcur,
      (OnlyTask.procReference (t := t) p).others _ hcur]
    exact congrArg Task.proc (modTask_task_of_ne _ _ hcur)
  have hcount (q : ℕ) (hq : q ≠ p ∨ p = 0) : s₀.proc q = s.proc q := by
    rw [← hs₀, modTask_proc, ← hprocs]
    unfold procReference
    split_ifs with h0
    · rfl
    · rw [modProc_proc, Function.update_of_ne (hq.resolve_right h0)]
  have hown : s₀.ownership (insert t s.liveTasks) V =
      join t p ((s.newTask t).ownership (insert t s.liveTasks) V) := by
    rw [← hs₀, setProc_ownership, procReference_ownership]
    · rfl
    · intro h0
      have hp : s.procOf p = p := if_pos h0
      rw [hp] at hlt
      exact hlt h0
  obtain ⟨o, ho, hs₁⟩ := taskRegisterUnlinked_ownership
    (T := insert t s.liveTasks) (V := V) (hcur₀ ▸ hcur)
    (by
      rw [htask, hcur₀, hcurTask]
      intro h0 hcurProc
      have hp : s.procOf p = (s.task s.taskCurrent).proc :=
        if_neg (not_not.mpr h0)
      rw [hcount _ (Or.inr h0)]
      rw [hp] at hlt
      exact hlt hcurProc) hok
  rw [htask, hcur₀, hcurTask, hown, newTask_ownership] at ho
  rw [hs₁, ho]
  unfold procOf
  by_cases h0 : p = 0
  · rw [if_neg (not_not.mpr h0), if_neg (not_not.mpr h0)]
    refine Ownership.ext rfl rfl ?_ ?_ rfl ?_ ?_ rfl rfl rfl <;>
      · funext u
        by_cases hu : u = t <;> simp [join, ownership, hu, h0]
  · rw [if_pos h0, if_pos h0]
    refine Ownership.ext rfl rfl ?_ ?_ rfl ?_ ?_ rfl rfl rfl <;>
      · funext u
        by_cases hu : u = t <;> simp [join, ownership, hu, h0]

theorem procReference_irqvecs (p : ℕ) :
    (s.procReference p).irqvecs = s.irqvecs := by
  unfold procReference
  split_ifs <;> rfl

theorem taskRegisterUnlinked_irqvecs (hok : s.taskRegisterUnlinked t = .ok s') :
    s'.irqvecs = s.irqvecs := by
  simp only [taskRegisterUnlinked, Outcome.bind_eq_ok, panicIf_eq_ok,
    Outcome.pure_eq_ok] at hok
  obtain ⟨-, -, rfl⟩ := hok
  have hinherit (k : Kern) : (k.taskInherit t).irqvecs = k.irqvecs := by
    unfold taskInherit
    dsimp only
    split_ifs
    · rfl
    · rfl
    · exact procReference_irqvecs _
    · exact procReference_irqvecs _
  exact hinherit (s.modTask t clearAnchor)

/-- The process that the new task joins can count it. -/
def Joinable (p : ℕ) (s : Kern) : Prop :=
  s.procOf p ≠ 0 → (s.proc (s.procOf p)).refcount + 1 < 2 ^ 32

instance (p : ℕ) (s : Kern) : Decidable (s.Joinable p) :=
  inferInstanceAs (Decidable (s.procOf p ≠ 0 →
    (s.proc (s.procOf p)).refcount + 1 < 2 ^ 32))

/-- From `s` to `s'` the task `t` was made for the process `p`. -/
structure Makes (t p : ℕ) (s s' : Kern) : Prop where
  liveTasks : s'.liveTasks = insert t s.liveTasks
  irqvecs : s'.irqvecs = s.irqvecs
  ownership : ∀ V, s'.ownership s'.liveTasks V =
    (s.ownership s.liveTasks V).newTask t (s.procOf p)

theorem createUnlinked_makes {s₁ : Kern} (hcur : s.taskCurrent ≠ t)
    (hjoin : s.Joinable p)
    (hok : (((s.newTask t).procReference p).modTask t
      fun x => { x with proc := p }).taskRegisterUnlinked t = .ok s₁)
    (hlive : s'.liveTasks = s₁.liveTasks) (hvecs : s'.irqvecs = s₁.irqvecs)
    (hown : ∀ T V, s'.ownership T V =
      (s₁.ownership T V).setRefcount t 1) : Makes t p s s' := by
  have honly : OnlyTask t (s.newTask t) s₁ :=
    ((OnlyTask.procReference p).trans (.modTask _)).trans
      (OnlyTask.taskRegisterUnlinked hok).1
  have hlive' : s'.liveTasks = insert t s.liveTasks := hlive.trans honly.live
  refine ⟨hlive', ?_, ?_⟩
  · have hprocs := procReference_irqvecs (s := s.newTask t) p
    exact hvecs.trans ((taskRegisterUnlinked_irqvecs hok).trans hprocs)
  · intro V
    rw [hlive', hown]
    exact createUnlinked_ownership hcur hjoin hok V

/-- `malloc` and `bzero` leave no process in a new task. -/
theorem newTask_no_proc (t : ℕ) :
    (((s.newTask t).procReference 0).modTask t fun x => { x with proc := 0 }) =
      s.newTask t := by
  unfold procReference newTask
  simp [modTask]

theorem Makes.owners (h : Makes t p s s')
    (hinv : OwnInv g (s.ownership s.liveTasks s.irqvecs)) (h0 : t ≠ 0)
    (ht : t ∉ s.liveTasks) (hp : p = 0 ∨ p ∈ s.liveProcs)
    (hjoin : s.Joinable p) :
    OwnInv (g.addTask t) (s'.ownership s'.liveTasks s'.irqvecs) := by
  have hmem : s.procOf p = 0 ∨ s.procOf p ∈ s.liveProcs := by
    unfold procOf
    by_cases hp0 : p = 0
    · rw [if_neg (not_not.mpr hp0)]
      by_cases hcur : (s.task s.taskCurrent).proc = 0
      · exact Or.inl hcur
      · exact Or.inr (hinv.member _ hinv.current hcur)
    · rw [if_pos hp0]
      exact hp
  rw [h.irqvecs, h.ownership]
  exact hinv.newTask h0 ht hmem hjoin

theorem taskCreate_makes (hcur : s.taskCurrent ≠ t) (hjoin : s.Joinable 0)
    (hok : s.taskCreate t = .ok s') : Makes t 0 s s' := by
  simp only [taskCreate, taskRegister, Outcome.bind_eq_ok,
    Outcome.pure_eq_ok] at hok
  obtain ⟨_, ⟨s₁, hregister, rfl⟩, rfl⟩ := hok
  rw [← newTask_no_proc] at hregister
  have hrest := taskLink_rest (s := s₁.modFlags t fun f =>
    { f with preempt := true, canExit := true }) t
  have hflags (T : Finset ℕ) (V : ℕ → ℕ) :
      (s₁.modFlags t fun f =>
        { f with preempt := true, canExit := true }).ownership T V =
        s₁.ownership T V := modTask_ownership_eq rfl rfl rfl rfl
  apply createUnlinked_makes hcur hjoin hregister
  · have hlive := liveTasks_of_rest hrest
    exact hlive
  · have hvecs := congrArg Kern.irqvecs hrest
    exact hvecs
  · intro T V
    rw [modTask_ownership_refcount rfl rfl rfl rfl, ownership_of_rest hrest,
      hflags]

/-- The process that `task_create_extended` is told. -/
def typeProc (type : TaskFlags) (arg : ℕ) (s : Kern) : ℕ :=
  if type.fromProc then arg else (s.task s.taskCurrent).proc

/-- The vector that `task_create_extended` is told. -/
def typeIrq (type : TaskFlags) (arg : ℕ) : ℕ :=
  if type.fromProc then 0 else arg

theorem taskSpawn_makes {b : ℕ} {s₁ : Kern} (h : Makes t p s s₁)
    (hok : s₁.taskSpawn t b = .ok s') : Makes t p s s' := by
  simp only [taskSpawn, Outcome.bind_eq_ok, Outcome.pure_eq_ok] at hok
  obtain ⟨vm, -, rfl⟩ := hok
  refine ⟨h.liveTasks, h.irqvecs, fun V => ?_⟩
  rw [← h.ownership V]
  exact modTask_ownership_eq rfl rfl rfl rfl

/-- The task after `task_create_extended` gave it its type. -/
def setType (type : TaskFlags) (t : ℕ) (s : Kern) : Kern :=
  s.modTask t fun x =>
    { x with
      flags := applyType (taskTypeMask type) x.flags
      refcount := 1 }

/-- `task_create_extended` registers the task, moves it to an address space of
its own if it is told so, and then binds or links it. -/
theorem taskCreateExtended_steps {type : TaskFlags} {arg b fuel : ℕ}
    (hok : s.taskCreateExtended fuel type arg t b = .ok s') :
    ∃ s₁ s₃, (((s.newTask t).procReference (s.typeProc type arg)).modTask t
        fun x => { x with proc := s.typeProc type arg }).taskRegisterUnlinked
          t = .ok s₁ ∧
      (type.spawn = false ∧ s₃ = s₁.setType type t ∨
        type.spawn = true ∧ (s₁.setType type t).taskSpawn t b = .ok s₃) ∧
      (if type.irqHandler ∧ typeIrq type arg ≠ 0 then
          s₃.registerIrqHandler fuel (typeIrq type arg) t
        else if type.linked then pure (s₃.taskLink t)
        else pure s₃ : Outcome Kern) = .ok s' := by
  simp only [taskCreateExtended, Outcome.bind_eq_ok] at hok
  obtain ⟨s₁, hregister, s₃, hspawn, hlast⟩ := hok
  refine ⟨s₁, s₃, hregister, ?_, hlast⟩
  split_ifs at hspawn with htype
  · simp only [Outcome.bind_eq_ok] at hspawn
    obtain ⟨-, -, hspawn⟩ := hspawn
    exact Or.inr ⟨htype, hspawn⟩
  · cases hspawn
    exact Or.inl ⟨Bool.eq_false_of_not_eq_true htype, rfl⟩

theorem createExtended_makes {type : TaskFlags} {b : ℕ} {s₁ s₃ : Kern}
    (hcur : s.taskCurrent ≠ t) (hjoin : s.Joinable p)
    (hregister : (((s.newTask t).procReference p).modTask t
      fun x => { x with proc := p }).taskRegisterUnlinked t = .ok s₁)
    (hspawn : type.spawn = false ∧ s₃ = s₁.setType type t ∨
      type.spawn = true ∧ (s₁.setType type t).taskSpawn t b = .ok s₃) :
    Makes t p s s₃ := by
  have hmakes : Makes t p s (s₁.setType type t) :=
    createUnlinked_makes hcur hjoin hregister rfl rfl
      fun _ _ => modTask_ownership_refcount rfl rfl rfl rfl
  rcases hspawn with ⟨-, rfl⟩ | ⟨-, hspawn⟩
  · exact hmakes
  · exact taskSpawn_makes hmakes hspawn

theorem taskLink_owners (h : OwnInv g (s.ownership s.liveTasks s.irqvecs)) :
    OwnInv g ((s.taskLink t).ownership (s.taskLink t).liveTasks
      (s.taskLink t).irqvecs) := by
  have hrest := taskLink_rest (s := s) t
  have hvecs := congrArg Kern.irqvecs hrest
  have hvecs' : (s.taskLink t).irqvecs = s.irqvecs := hvecs
  rw [liveTasks_of_rest hrest, hvecs', ownership_of_rest hrest]
  exact h

theorem taskCreateExtended_owners {type : TaskFlags} {arg b fuel : ℕ}
    (h : OwnInv g (s.ownership s.liveTasks s.irqvecs)) (h0 : t ≠ 0)
    (ht : t ∉ s.liveTasks)
    (hp : s.typeProc type arg = 0 ∨ s.typeProc type arg ∈ s.liveProcs)
    (hjoin : s.Joinable (s.typeProc type arg))
    (hok : s.taskCreateExtended fuel type arg t b = .ok s') :
    OwnInv (g.addTask t) (s'.ownership s'.liveTasks s'.irqvecs) := by
  have hcur : s.taskCurrent ≠ t := by
    rintro rfl
    exact ht h.current
  obtain ⟨_, s₁, hregister, hspawn, hlast⟩ := taskCreateExtended_steps hok
  have hmakes := createExtended_makes hcur hjoin hregister hspawn
  have h₁ := hmakes.owners h h0 ht hp hjoin
  have hmem : t ∈ s₁.liveTasks := by
    rw [hmakes.liveTasks]
    exact Finset.mem_insert_self t _
  have hcount : (s₁.task t).refcount = 1 := by
    have hown := congrArg (fun o => o.refcount t) (hmakes.ownership s.irqvecs)
    exact hown.trans (Function.update_self _ _ _)
  split_ifs at hlast
  · apply registerIrqHandler_owners h₁ (Or.inr hmem) _ hlast
    intro _
    rw [hmakes.irqvecs, hcount, if_neg]
    · decide
    · intro hbound
      have hset : s.irqvecs (typeIrq type arg % 2 ^ 16) ≠ 0 := hbound ▸ h0
      exact ht (hbound ▸ (h.bound _ hset).2)
  · cases hlast
    exact taskLink_owners h₁
  · cases hlast
    exact h₁

theorem taskCreate_owners (h : OwnInv g (s.ownership s.liveTasks s.irqvecs))
    (h0 : t ≠ 0) (ht : t ∉ s.liveTasks) (hjoin : s.Joinable 0)
    (hok : s.taskCreate t = .ok s') :
    OwnInv (g.addTask t) (s'.ownership s'.liveTasks s'.irqvecs) := by
  have hcur : s.taskCurrent ≠ t := by
    rintro rfl
    exact ht h.current
  exact (taskCreate_makes hcur hjoin hok).owners h h0 ht (Or.inl rfl) hjoin

theorem procCreateTask_owners {b fuel : ℕ}
    (h : OwnInv g (s.ownership s.liveTasks s.irqvecs)) (h0 : t ≠ 0)
    (ht : t ∉ s.liveTasks) (hp : p ∈ s.liveProcs) (hjoin : s.Joinable p)
    (hok : s.procCreateTask fuel p t b = .ok s') :
    OwnInv (g.addTask t) (s'.ownership s'.liveTasks s'.irqvecs) := by
  simp only [procCreateTask, Outcome.bind_eq_ok, Outcome.pure_eq_ok] at hok
  obtain ⟨s₁, hcreate, rfl⟩ := hok
  have hcur : s.taskCurrent ≠ t := by
    rintro rfl
    exact ht h.current
  obtain ⟨_, s₂, hregister, hspawn, hlast⟩ := taskCreateExtended_steps hcreate
  have hmakes : Makes t p s s₂ :=
    createExtended_makes hcur hjoin hregister hspawn
  cases hlast
  have h₁ := hmakes.owners h h0 ht (Or.inr hp) hjoin
  have hp0 : p ≠ 0 := by
    rintro rfl
    exact h.notNull.2 hp
  have hproc : s.procOf p = p := if_pos hp0
  have hown : s₁.ownership s₁.liveTasks s.irqvecs =
      (s.ownership s.liveTasks s.irqvecs).newTask t (s.procOf p) :=
    hmakes.ownership s.irqvecs
  rw [hproc] at hown
  have hmem : t ∈ s₁.liveTasks := by
    rw [hmakes.liveTasks]
    exact Finset.mem_insert_self t _
  have htask : (s₁.task t).proc = p := by
    have heq := congrArg (fun o => o.proc t) hown
    exact heq.trans (Function.update_self _ _ _)
  have hout : ∀ l, Path s₁.listNexts 0 (s₁.proc p).taskList l → t ∉ l := by
    intro l hl
    obtain ⟨m, hm, hm'⟩ := h.lists p hp
    have hlist : (s₁.proc p).taskList = (s.proc p).taskList :=
      congrArg (fun o => o.taskList p) hown
    have hnext : s₁.listNexts = Function.update s.listNexts t 0 :=
      congrArg Ownership.listNext hown
    have hm₁ : Path s₁.listNexts 0 (s₁.proc p).taskList m := by
      rw [hlist, hnext]
      apply hm.congr
      intro u hu
      apply Function.update_of_ne
      rintro rfl
      exact ht (hm' u hu).1
    rw [hl.unique hm₁]
    intro hmt
    exact ht (hm' t hmt).1
  have hpush : ((s₁.modTask t fun x =>
      { x with procTaskListNext := (s₁.proc p).taskList }).modProc p
        fun x => { x with taskList := t }).ownership s₁.liveTasks s₁.irqvecs =
      (s₁.ownership s₁.liveTasks s₁.irqvecs).push p t := by
    rw [modProc_ownership, modTask_ownership]
    exact Ownership.ext rfl rfl (update_same rfl) (update_same rfl) rfl
      (update_same rfl) (update_same rfl) rfl rfl rfl
  exact hpush ▸ h₁.push hmem htask hout

theorem newProc_ownership {k : Kern} (htask : k.task = s.task)
    (hlive : k.liveTasks = s.liveTasks) (hvecs : k.irqvecs = s.irqvecs)
    (hcur : k.taskCurrent = s.taskCurrent)
    (hprocs : k.liveProcs = insert p s.liveProcs)
    (hothers : ∀ q ≠ p, k.proc q = s.proc q)
    (hlist : (k.proc p).taskList = 0) :
    (k.modProc p fun x => { x with refcount := 1 }).ownership k.liveTasks
      k.irqvecs = (s.ownership s.liveTasks s.irqvecs).newProc p := by
  rw [modProc_ownership]
  apply Ownership.ext
  · exact hlive
  · exact hprocs
  · exact congrArg (fun f t => (f t).refcount) htask
  · exact congrArg (fun f t => (f t).proc) htask
  · exact congrArg (fun f t => (f t).procTaskListNext) htask
  · exact congrArg (fun f t => (f t).flags.pleaseDeref) htask
  · funext q
    by_cases hq : q = p
    · simp [hq]
    · simp [hq, ownership, hothers q hq]
  · funext q
    by_cases hq : q = p
    · simp [hq, hlist]
    · simp [hq, ownership, hothers q hq]
  · exact hvecs
  · exact hcur

theorem procCreate_owners {parent b : ℕ} {noVm : Bool}
    (h : OwnInv g (s.ownership s.liveTasks s.irqvecs)) (h0 : p ≠ 0)
    (hp : p ∉ s.liveProcs) (hok : s.procCreate parent noVm p b = .ok s') :
    OwnInv (g.addProc p) (s'.ownership s'.liveTasks s'.irqvecs) := by
  simp only [procCreate, Outcome.bind_eq_ok, Outcome.pure_eq_ok] at hok
  obtain ⟨s₂, hvm, rfl⟩ := hok
  have hown : (s₂.modProc p fun x => { x with refcount := 1 }).ownership
      s₂.liveTasks s₂.irqvecs =
        (s.ownership s.liveTasks s.irqvecs).newProc p := by
    by_cases hspace : parent ≠ 0 ∨ noVm = false
    · simp only [if_pos hspace, Outcome.bind_eq_ok, Outcome.pure_eq_ok] at hvm
      obtain ⟨vm, -, rfl⟩ := hvm
      refine newProc_ownership (s := s) rfl rfl rfl rfl rfl ?_ ?_
      · intro q hq
        simp [hq]
      · simp
    · rw [if_neg hspace] at hvm
      cases hvm
      refine newProc_ownership (s := s) rfl rfl rfl rfl rfl ?_ ?_
      · intro q hq
        simp [hq]
      · simp
  exact hown ▸ h.newProc h0 hp

end Creation

end Kern

end PongoOS
