import PongoOS.Task.Events

/-!
# The ring over runs

Every function of the task subsystem either leaves the ring alone, acts on it
as its name says, or takes tasks out of it.  The one exception is an event fire
that meets a task which has been freed while it was queued: it puts a task that
does not exist any more back into the ring.
-/

namespace PongoOS

open Ring SinglyLinked

namespace Kern

/-! ## Releases only take freed tasks out -/

/-- From `s` to `s'` the ring loses exactly the tasks that were freed. -/
structure RingShrinks (s s' : Kern) : Prop where
  ring : ∀ l, RingInv s.ring s.liveTasks l →
    ∃ l', RingInv s'.ring s'.liveTasks l' ∧ l'.Sublist l ∧
      ∀ t ∈ l, t ∈ s'.liveTasks → t ∈ l'
  live : s'.liveTasks ⊆ s.liveTasks
  static : ∀ t ∈ s.liveTasks, (s.task t).refcount = refcountGlobal →
    t ∈ s'.liveTasks ∧ (s'.task t).refcount = refcountGlobal
  pleaseDeref : ∀ t,
    (s'.task t).flags.pleaseDeref = (s.task t).flags.pleaseDeref
  current : s'.taskCurrent = s.taskCurrent
  currentLive : s.taskCurrent ∈ s.liveTasks → s'.taskCurrent ∈ s'.liveTasks

section Release

variable {s s' s₁ s₂ : Kern} {t p fuel : ℕ} {l : List ℕ}

namespace RingShrinks

theorem of_task (htask : s'.task = s.task)
    (hhead : s'.pongoSchedHead = s.pongoSchedHead)
    (hlive : s'.liveTasks = s.liveTasks) (hcur : s'.taskCurrent = s.taskCurrent) :
    RingShrinks s s' where
  ring l h := by
    have hring : s'.ring = s.ring := by
      unfold Kern.ring
      rw [htask, hhead]
    rw [hring, hlive]
    exact ⟨l, h, List.Sublist.refl l, fun _ ht _ => ht⟩
  live := hlive ▸ Finset.Subset.refl _
  static t ht hglobal := by
    rw [hlive, htask]
    exact ⟨ht, hglobal⟩
  pleaseDeref t := by rw [htask]
  current := hcur
  currentLive h := by rwa [hcur, hlive]

theorem refl (s : Kern) : RingShrinks s s := .of_task rfl rfl rfl rfl

theorem modTask {f : Task → Task}
    (hnext : (f (s.task t)).next = (s.task t).next)
    (hprev : (f (s.task t)).prev = (s.task t).prev)
    (hflags : (f (s.task t)).flags = (s.task t).flags)
    (hglobal : (s.task t).refcount = refcountGlobal →
      (f (s.task t)).refcount = refcountGlobal) :
    RingShrinks s (s.modTask t f) where
  ring l h := by
    rw [modTask_ring_eq _ _ hnext hprev (congrArg TaskFlags.linked hflags)
      (congrArg TaskFlags.wasLinked hflags)]
    exact ⟨l, h, List.Sublist.refl l, fun _ ht _ => ht⟩
  live := Finset.Subset.refl _
  static u hu hstatic := by
    refine ⟨hu, ?_⟩
    by_cases hut : u = t
    · subst hut
      simpa using hglobal hstatic
    · rwa [modTask_task_of_ne _ _ hut]
  pleaseDeref u := by
    by_cases hut : u = t
    · subst hut
      simp [hflags]
    · rw [modTask_task_of_ne _ _ hut]
  current := rfl
  currentLive := id

theorem trans (h₁ : RingShrinks s s₁) (h₂ : RingShrinks s₁ s₂) :
    RingShrinks s s₂ where
  ring l h := by
    obtain ⟨l₁, hl₁, hsub₁, hkeep₁⟩ := h₁.ring l h
    obtain ⟨l₂, hl₂, hsub₂, hkeep₂⟩ := h₂.ring l₁ hl₁
    exact ⟨l₂, hl₂, hsub₂.trans hsub₁, fun t ht hlive =>
      hkeep₂ t (hkeep₁ t ht (h₂.live hlive)) hlive⟩
  live := h₂.live.trans h₁.live
  static t ht hglobal := by
    obtain ⟨ht₁, hglobal₁⟩ := h₁.static t ht hglobal
    exact h₂.static t ht₁ hglobal₁
  pleaseDeref t := (h₂.pleaseDeref t).trans (h₁.pleaseDeref t)
  current := h₂.current.trans h₁.current
  currentLive h := h₂.currentLive (h₁.currentLive h)

end RingShrinks

theorem procListRemove_ring {prev el : ℕ}
    (hok : procListRemove p t fuel prev el s = .ok s') :
    RingShrinks s s' ∧ ∀ u, (s'.task u).refcount = (s.task u).refcount := by
  induction fuel generalizing prev el with
  | zero => cases hok
  | succ fuel ih =>
      unfold procListRemove at hok
      split_ifs at hok
      · cases hok
        exact ⟨.refl s, fun _ => rfl⟩
      · cases hok
        exact ⟨.of_task rfl rfl rfl rfl, fun _ => rfl⟩
      · cases hok
        refine ⟨.modTask rfl rfl rfl id, fun u => ?_⟩
        by_cases hu : u = prev <;> simp [hu]
      · exact ih hok

/-- Taking `t` out of the ring, releasing what it holds and freeing it. -/
theorem RingShrinks.unlink_free {vm : Vm}
    (hstatic : (s.task t).refcount ≠ refcountGlobal) (hcur : s.taskCurrent ≠ t)
    (hrelease : RingShrinks ((s.taskRealUnlink t).setVm vm) s₁) :
    RingShrinks s (s₁.setLiveTasks (s₁.liveTasks.erase t)) := by
  have hrest := taskRealUnlink_rest (s := s) t
  have hlive := liveTasks_of_rest hrest
  have hsame := taskCurrent_of_rest hrest
  have hcurrent : s₁.taskCurrent = s.taskCurrent := hrelease.current.trans hsame
  refine ⟨fun l h => ?_, ?_, fun u hu hglobal => ?_, fun u => ?_, hcurrent,
    fun hu => ?_⟩
  · have hunlinked := taskRealUnlink_ringInv (t := t) h
    obtain ⟨l₁, hl₁, hsub, hkeep⟩ := hrelease.ring _ hunlinked
    have hout : ∀ u ∈ l₁, u ≠ t := by
      rintro u hu rfl
      exact h.circular.nodup.not_mem_erase (hsub.subset hu)
    refine ⟨l₁, hl₁.mono fun u hu =>
      Finset.mem_erase.mpr ⟨hout u hu, hl₁.live u hu⟩,
      hsub.trans List.erase_sublist, fun u hu hu' => ?_⟩
    obtain ⟨hut, hu'⟩ := Finset.mem_erase.mp hu'
    exact hkeep u ((List.mem_erase_of_ne hut).mpr hu) hu'
  · rw [← hlive]
    exact (Finset.erase_subset _ _).trans hrelease.live
  · have hut : u ≠ t := by
      rintro rfl
      exact hstatic hglobal
    rw [← hlive] at hu
    obtain ⟨hu₁, hglobal₁⟩ := hrelease.static u hu
      ((refcount_of_rest hrest u).trans hglobal)
    exact ⟨Finset.mem_erase.mpr ⟨hut, hu₁⟩, hglobal₁⟩
  · exact (hrelease.pleaseDeref u).trans (pleaseDeref_of_rest hrest u)
  · rw [← hlive, ← hsame] at hu
    exact Finset.mem_erase.mpr ⟨hcurrent.trans_ne hcur, hrelease.currentLive hu⟩

theorem taskReleaseWith_ring {procRelease : ℕ → Kern → Outcome Kern}
    (hproc : ∀ p s s', procRelease p s = .ok s' → RingShrinks s s')
    (hok : taskReleaseWith procRelease fuel t s = .ok s') :
    RingShrinks s s' := by
  rcases taskReleaseWith_ok hok with ⟨-, rfl⟩ | ⟨-, hstatic, -, rfl⟩ |
    ⟨-, hone, s₂, s₃, s₄, hfree⟩
  · exact .refl _
  · exact .modTask rfl rfl rfl fun h => absurd h hstatic
  obtain ⟨hcur, hremove, ⟨r, vm, -, rfl⟩, ⟨vm', -, hrelease⟩, rfl⟩ := hfree
  have hstatic : (s.task t).refcount ≠ refcountGlobal := by
    rw [hone]
    decide
  have hdrop : RingShrinks s (s.dropTask t) :=
    .modTask rfl rfl rfl fun h => absurd h hstatic
  have hlist : RingShrinks (s.dropTask t) s₂ ∧
      (s₂.task t).refcount ≠ refcountGlobal := by
    have hzero : ((s.dropTask t).task t).refcount ≠ refcountGlobal := by
      have hcount : ((s.dropTask t).task t).refcount =
          ((s.task t).refcount + 0xffffffff) % 2 ^ 32 := by
        simp [dropTask]
      rw [hcount, hone]
      decide
    split_ifs at hremove
    · obtain ⟨hshrink, hcount⟩ := procListRemove_ring hremove
      exact ⟨hshrink, hcount t ▸ hzero⟩
    · cases hremove
      exact ⟨.refl _, hzero⟩
  have hvm : RingShrinks s₂ (s₂.setVm vm) := .of_task rfl rfl rfl rfl
  exact ((hdrop.trans hlist.1).trans hvm).trans
    (.unlink_free hlist.2 (hlist.1.current.trans_ne hcur)
      (hproc _ _ _ hrelease))

theorem releaseTasks_ring {release : ℕ → Kern → Outcome Kern}
    (htask : ∀ t s s', release t s = .ok s' → RingShrinks s s')
    (hok : releaseTasks release fuel t s = .ok s') : RingShrinks s s' := by
  induction fuel generalizing t s with
  | zero => cases hok
  | succ fuel ih =>
      unfold releaseTasks at hok
      split_ifs at hok
      · cases hok
        exact .refl _
      · simp only [Outcome.bind_eq_ok] at hok
        obtain ⟨s₁, hfirst, hrest⟩ := hok
        have hclear : RingShrinks s
            (s.modTask t fun x => { x with procTaskListNext := 0 }) :=
          .modTask rfl rfl rfl id
        exact (hclear.trans (htask _ _ _ hfirst)).trans (ih hrest)

theorem procReleaseWith_ring {release : ℕ → Kern → Outcome Kern}
    (htask : ∀ t s s', release t s = .ok s' → RingShrinks s s')
    (hok : procReleaseWith release fuel p s = .ok s') : RingShrinks s s' := by
  rcases procReleaseWith_ok hok with ⟨-, rfl⟩ | ⟨-, -, rfl⟩ |
    ⟨-, -, s₂, vm, htasks, -, rfl⟩
  · exact .refl _
  · exact .of_task rfl rfl rfl rfl
  · have hcount : RingShrinks s (s.dropProc p) := .of_task rfl rfl rfl rfl
    exact (hcount.trans (releaseTasks_ring htask htasks)).trans
      (.of_task rfl rfl rfl rfl)

theorem taskRelease_ring (hok : taskRelease fuel t s = .ok s') :
    RingShrinks s s' := by
  induction fuel generalizing t s s' with
  | zero => cases hok
  | succ fuel ih =>
      exact taskReleaseWith_ring
        (fun _ _ _ h => procReleaseWith_ring (fun _ _ _ h' => ih h') h) hok

theorem taskReference_ring (t : ℕ) : RingShrinks s (s.taskReference t) := by
  unfold taskReference
  split_ifs with h0 hstatic
  · exact .refl _
  · exact .refl _
  · exact .modTask rfl rfl rfl fun h => absurd h hstatic

theorem registerIrqHandler_ring {v : ℕ}
    (hok : registerIrqHandler fuel v t s = .ok s') : RingShrinks s s' := by
  unfold registerIrqHandler at hok
  simp only [Outcome.bind_eq_ok, panicIf_eq_ok, Outcome.pure_eq_ok] at hok
  obtain ⟨-, -, s₁, hrelease, rfl⟩ := hok
  have hfirst : RingShrinks s s₁ := by
    split_ifs at hrelease
    · exact taskRelease_ring hrelease
    · cases hrelease
      exact .refl _
  exact (hfirst.trans (taskReference_ring t)).trans
    (.of_task rfl rfl rfl rfl)

end Release

/-! ## New tasks -/

/-- From `s` to `s'` no task but `t` changed, and the scheduler is where it
was. -/
structure OnlyTask (t : ℕ) (s s' : Kern) : Prop where
  others : ∀ u ≠ t, s'.task u = s.task u
  live : s'.liveTasks = s.liveTasks
  head : s'.pongoSchedHead = s.pongoSchedHead
  current : s'.taskCurrent = s.taskCurrent

namespace OnlyTask

variable {s s₁ s₂ : Kern} {t : ℕ}

theorem refl : OnlyTask t s s := ⟨fun _ _ => rfl, rfl, rfl, rfl⟩

theorem trans (h₁ : OnlyTask t s s₁) (h₂ : OnlyTask t s₁ s₂) :
    OnlyTask t s s₂ :=
  ⟨fun u hu => (h₂.others u hu).trans (h₁.others u hu),
    h₂.live.trans h₁.live, h₂.head.trans h₁.head, h₂.current.trans h₁.current⟩

theorem modTask (f : Task → Task) : OnlyTask t s (s.modTask t f) :=
  ⟨fun _ hu => modTask_task_of_ne _ _ hu, rfl, rfl, rfl⟩

theorem of_task (htask : s₁.task = s.task) (hlive : s₁.liveTasks = s.liveTasks)
    (hhead : s₁.pongoSchedHead = s.pongoSchedHead)
    (hcur : s₁.taskCurrent = s.taskCurrent) : OnlyTask t s s₁ :=
  ⟨fun u _ => congrFun htask u, hlive, hhead, hcur⟩

theorem procReference (p : ℕ) : OnlyTask t s (s.procReference p) := by
  unfold Kern.procReference
  split_ifs
  · exact refl
  · exact .of_task rfl rfl rfl rfl

theorem takeVmSpace (a : ℕ) : OnlyTask t s (s.takeVmSpace t a) := by
  have hvm : OnlyTask t s (s.setVm (s.vm.vmReference a)) :=
    .of_task rfl rfl rfl rfl
  exact hvm.trans (.modTask _)

theorem taskInherit : OnlyTask t s (s.taskInherit t) := by
  unfold Kern.taskInherit
  dsimp only
  split_ifs
  · exact .takeVmSpace _
  · exact refl
  · exact ((OnlyTask.takeVmSpace _).trans (.modTask _)).trans
      (.procReference _)
  · exact (OnlyTask.modTask _).trans (.procReference _)

theorem taskRegisterUnlinked (hok : s.taskRegisterUnlinked t = .ok s₁) :
    OnlyTask t s s₁ ∧ (s₁.task t).flags.pleaseDeref = false := by
  simp only [Kern.taskRegisterUnlinked, Outcome.bind_eq_ok, panicIf_eq_ok,
    Outcome.pure_eq_ok] at hok
  obtain ⟨-, -, rfl⟩ := hok
  have hinherit : OnlyTask t s
      ((s.modTask t clearAnchor).taskInherit t) :=
    (OnlyTask.modTask _).trans .taskInherit
  have hpid : ∀ k n, OnlyTask t k (setGPid k n) :=
    fun _ _ => .of_task rfl rfl rfl rfl
  exact ⟨(hinherit.trans (.modTask _)).trans (hpid _ _), by simp⟩

end OnlyTask

/-- From `s` to `s'` the task `t` is new.  The others keep their count, and
none is about to be released that was not before. -/
structure Creates (t : ℕ) (s s' : Kern) : Prop where
  live : s'.liveTasks = insert t s.liveTasks
  current : s'.taskCurrent = s.taskCurrent
  refcount : ∀ u ≠ t, (s'.task u).refcount = (s.task u).refcount
  pleaseDeref : ∀ u ≠ t,
    (s'.task u).flags.pleaseDeref = (s.task u).flags.pleaseDeref
  fresh : (s'.task t).flags.pleaseDeref = false

namespace Creates

variable {s s₁ : Kern} {t : ℕ}

theorem of_only (h : OnlyTask t (s.newTask t) s₁)
    (hfresh : (s₁.task t).flags.pleaseDeref = false) : Creates t s s₁ := by
  have hother : ∀ u ≠ t, s₁.task u = s.task u := fun u hu =>
    (h.others u hu).trans (modTask_task_of_ne _ _ hu)
  exact ⟨h.live, h.current, fun u hu => by rw [hother u hu],
    fun u hu => by rw [hother u hu], hfresh⟩

theorem modTask {f : Task → Task} (h : Creates t s s₁)
    (hf : (f (s₁.task t)).flags.pleaseDeref =
      (s₁.task t).flags.pleaseDeref) : Creates t s (s₁.modTask t f) where
  live := h.live
  current := h.current
  refcount u hu := by
    rw [modTask_task_of_ne _ _ hu]
    exact h.refcount u hu
  pleaseDeref u hu := by
    rw [modTask_task_of_ne _ _ hu]
    exact h.pleaseDeref u hu
  fresh := by
    rw [modTask_task_self, hf]
    exact h.fresh

theorem taskLink (h : Creates t s s₁) : Creates t s (s₁.taskLink t) := by
  have hrest := taskLink_rest (s := s₁) t
  refine ⟨(liveTasks_of_rest hrest).trans h.live,
    (taskCurrent_of_rest hrest).trans h.current, fun u hu => ?_,
    fun u hu => ?_, (pleaseDeref_of_rest hrest t).trans h.fresh⟩
  · exact (refcount_of_rest hrest u).trans (h.refcount u hu)
  · exact (pleaseDeref_of_rest hrest u).trans (h.pleaseDeref u hu)

theorem taskRegisterUnlinked
    (hok : (s.newTask t).taskRegisterUnlinked t = .ok s₁) :
    Creates t s s₁ := by
  obtain ⟨honly, hfresh⟩ := OnlyTask.taskRegisterUnlinked hok
  exact .of_only honly hfresh

theorem taskRegister (hok : (s.newTask t).taskRegister t = .ok s₁) :
    Creates t s s₁ := by
  simp only [Kern.taskRegister, Outcome.bind_eq_ok, Outcome.pure_eq_ok] at hok
  obtain ⟨s₂, hunlinked, rfl⟩ := hok
  exact ((taskRegisterUnlinked hunlinked).modTask rfl).taskLink

theorem taskCreate (hok : s.taskCreate t = .ok s₁) : Creates t s s₁ := by
  simp only [Kern.taskCreate, Outcome.bind_eq_ok, Outcome.pure_eq_ok] at hok
  obtain ⟨s₂, hregister, rfl⟩ := hok
  exact (taskRegister hregister).modTask rfl

theorem taskSpawn {b : ℕ} {s₂ : Kern} (h : Creates t s s₁)
    (hok : s₁.taskSpawn t b = .ok s₂) : Creates t s s₂ := by
  simp only [Kern.taskSpawn, Outcome.bind_eq_ok, Outcome.pure_eq_ok] at hok
  obtain ⟨vm, -, rfl⟩ := hok
  have hvm : Creates t s (s₁.setVm vm) :=
    ⟨h.live, h.current, h.refcount, h.pleaseDeref, h.fresh⟩
  exact hvm.modTask rfl

end Creates

section Creation

variable {s s' : Kern} {t p fuel : ℕ} {l : List ℕ}

theorem newTask_ringInv (h : RingInv s.ring s.liveTasks l)
    (ht : t ∉ s.liveTasks) :
    RingInv (s.newTask t).ring (s.newTask t).liveTasks l := by
  have hfresh := h.fresh (fun hmem => ht (h.live t hmem)) 0 0
  unfold newTask
  rw [modTask_ring]
  exact hfresh.mono fun u hu =>
    Finset.mem_insert_of_mem (h.live u hu)

theorem procReference_ring (p : ℕ) : (s.procReference p).ring = s.ring := by
  unfold procReference
  split_ifs <;> rfl

theorem procReference_liveTasks (p : ℕ) :
    (s.procReference p).liveTasks = s.liveTasks := by
  unfold procReference
  split_ifs <;> rfl

theorem takeVmSpace_ring (a : ℕ) : (s.takeVmSpace t a).ring = s.ring :=
  modTask_ring_eq _ _ rfl rfl rfl rfl

theorem taskInherit_ring : (s.taskInherit t).ring = s.ring ∧
    (s.taskInherit t).liveTasks = s.liveTasks := by
  unfold taskInherit
  dsimp only
  split_ifs
  · exact ⟨takeVmSpace_ring _, rfl⟩
  · exact ⟨rfl, rfl⟩
  all_goals
    rw [procReference_ring, procReference_liveTasks,
      modTask_ring_eq _ _ rfl rfl rfl rfl]
  · exact ⟨takeVmSpace_ring _, rfl⟩
  · exact ⟨rfl, rfl⟩

theorem taskRegisterUnlinked_ring
    (hok : s.taskRegisterUnlinked t = .ok s') :
    s'.ring =
        { s.ring with linked := Function.update s.ring.linked t false } ∧
      s'.liveTasks = s.liveTasks := by
  simp only [taskRegisterUnlinked, Outcome.bind_eq_ok, panicIf_eq_ok,
    Outcome.pure_eq_ok] at hok
  obtain ⟨-, -, rfl⟩ := hok
  have hclear : (s.modTask t clearAnchor).ring = s.ring :=
    modTask_ring_eq _ _ rfl rfl rfl rfl
  obtain ⟨hring, hlive⟩ := taskInherit_ring (s := s.modTask t clearAnchor)
    (t := t)
  refine ⟨?_, hlive⟩
  rw [hclear] at hring
  rw [← hring]
  have hpid : ∀ k n, (setGPid k n).ring = k.ring := fun _ _ => rfl
  rw [hpid, modTask_ring]
  simp [ring]

theorem taskRegisterUnlinked_ringInv (h : RingInv s.ring s.liveTasks l)
    (hok : s.taskRegisterUnlinked t = .ok s') :
    RingInv s'.ring s'.liveTasks l := by
  obtain ⟨hring, hlive⟩ := taskRegisterUnlinked_ring hok
  rw [hring, hlive]
  exact h.setLinked fun hb => Bool.noConfusion hb

/-- A task that exists. -/
def Valid (s : Kern) (t : ℕ) : Prop := t ≠ 0 ∧ t ∈ s.liveTasks

theorem taskRegister_ringInv (h : RingInv s.ring s.liveTasks l)
    (ht : s.Valid t) (hok : s.taskRegister t = .ok s') :
    RingInv s'.ring s'.liveTasks (linkList t l) := by
  simp only [taskRegister, Outcome.bind_eq_ok, Outcome.pure_eq_ok] at hok
  obtain ⟨s₁, hunlinked, rfl⟩ := hok
  have hlive := (taskRegisterUnlinked_ring hunlinked).2
  have h₁ := taskRegisterUnlinked_ringInv h hunlinked
  refine taskLink_ringInv ?_ (hlive ▸ ht.2) ht.1
  unfold modFlags
  rw [modTask_ring_eq _ _ rfl rfl rfl rfl]
  exact h₁

theorem taskCreate_ringInv (h : RingInv s.ring s.liveTasks l)
    (h0 : t ≠ 0) (ht : t ∉ s.liveTasks) (hok : s.taskCreate t = .ok s') :
    RingInv s'.ring s'.liveTasks (linkList t l) := by
  simp only [taskCreate, Outcome.bind_eq_ok, Outcome.pure_eq_ok] at hok
  obtain ⟨s₁, hregister, rfl⟩ := hok
  rw [modTask_ring_eq _ _ rfl rfl rfl rfl]
  exact taskRegister_ringInv (newTask_ringInv h ht)
    ⟨h0, Finset.mem_insert_self t _⟩ hregister

theorem taskSpawn_ring {b : ℕ} (hok : s.taskSpawn t b = .ok s') :
    s'.ring = s.ring ∧ s'.liveTasks = s.liveTasks := by
  simp only [taskSpawn, Outcome.bind_eq_ok, Outcome.pure_eq_ok] at hok
  obtain ⟨vm, -, rfl⟩ := hok
  exact ⟨modTask_ring_eq _ _ rfl rfl rfl rfl, rfl⟩

/-- What remains of `task_create_extended` when the task has its address
space: it becomes a handler or is linked. -/
theorem taskCreateExtended_ok {type : TaskFlags} {arg b : ℕ}
    (ht : t ∉ s.liveTasks)
    (hok : s.taskCreateExtended fuel type arg t b = .ok s') :
    ∃ s₁, Creates t s s₁ ∧
      (∀ l, RingInv s.ring s.liveTasks l → RingInv s₁.ring s₁.liveTasks l) ∧
      (if type.irqHandler ∧ (if type.fromProc then 0 else arg) ≠ 0 then
          s₁.registerIrqHandler fuel (if type.fromProc then 0 else arg) t
        else if type.linked then pure (s₁.taskLink t)
        else pure s₁ : Outcome Kern) = .ok s' := by
  simp only [taskCreateExtended, Outcome.bind_eq_ok] at hok
  obtain ⟨s₁, hregister, s₃, hspawn, hlast⟩ := hok
  generalize (if type.fromProc then arg
    else (s.task s.taskCurrent).proc) = p at hregister
  generalize hs₂ : (s₁.modTask t fun x =>
    { x with flags := applyType (taskTypeMask type) x.flags, refcount := 1 }) =
      s₂ at hspawn
  have hproc : OnlyTask t (s.newTask t)
      (((s.newTask t).procReference p).modTask t
        fun x => { x with proc := p }) :=
    (OnlyTask.procReference _).trans (.modTask _)
  obtain ⟨honly, hfresh⟩ := OnlyTask.taskRegisterUnlinked hregister
  have hcreates₂ : Creates t s s₂ := by
    rw [← hs₂]
    exact (Creates.of_only (hproc.trans honly) hfresh).modTask rfl
  have hspawned : Creates t s s₃ ∧ s₃.ring = s₂.ring ∧
      s₃.liveTasks = s₂.liveTasks := by
    split_ifs at hspawn
    · simp only [Outcome.bind_eq_ok] at hspawn
      obtain ⟨-, -, hspawn⟩ := hspawn
      exact ⟨hcreates₂.taskSpawn hspawn, taskSpawn_ring hspawn⟩
    · cases hspawn
      exact ⟨hcreates₂, rfl, rfl⟩
  refine ⟨s₃, hspawned.1, fun l h => ?_, hlast⟩
  have hnew : RingInv (((s.newTask t).procReference p).modTask t
      fun x => { x with proc := p }).ring
      (((s.newTask t).procReference p).modTask t
        fun x => { x with proc := p }).liveTasks l := by
    rw [modTask_ring_eq _ _ rfl rfl rfl rfl, procReference_ring,
      modTask_liveTasks, procReference_liveTasks]
    exact newTask_ringInv h ht
  have h₁ := taskRegisterUnlinked_ringInv hnew hregister
  have hring₂ : s₂.ring = s₁.ring ∧ s₂.liveTasks = s₁.liveTasks := by
    rw [← hs₂]
    exact ⟨modTask_ring_eq _ _ rfl rfl rfl rfl, rfl⟩
  rw [hspawned.2.1, hspawned.2.2, hring₂.1, hring₂.2]
  exact h₁

/-- The new task is linked or not. -/
theorem taskCreateExtended_ringInv {type : TaskFlags} {arg b : ℕ}
    (h : RingInv s.ring s.liveTasks l) (h0 : t ≠ 0) (ht : t ∉ s.liveTasks)
    (hok : s.taskCreateExtended fuel type arg t b = .ok s') :
    ∃ l', RingInv s'.ring s'.liveTasks l' := by
  obtain ⟨s₁, hcreates, hring, hlast⟩ := taskCreateExtended_ok ht hok
  have hvalid : t ∈ s₁.liveTasks := by
    rw [hcreates.live]
    exact Finset.mem_insert_self t _
  generalize (if type.fromProc then 0 else arg) = vector at hlast
  split_ifs at hlast
  · obtain ⟨l', hl', -⟩ := (registerIrqHandler_ring hlast).ring l (hring l h)
    exact ⟨l', hl'⟩
  · cases hlast
    exact ⟨_, taskLink_ringInv (hring l h) hvalid h0⟩
  · cases hlast
    exact ⟨l, hring l h⟩

end Creation

/-! ## Steps -/

section Steps

variable {s s' : Kern} {t fuel ev : ℕ} {l : List ℕ}

theorem taskSetSchedHead_ringInv (h : RingInv s.ring s.liveTasks l)
    (hok : s.taskSetSchedHead t = .ok s') :
    ∃ l', RingInv s'.ring s'.liveTasks l' := by
  simp only [taskSetSchedHead, Outcome.bind_eq_ok, panicIf_eq_ok,
    Outcome.pure_eq_ok, not_not] at hok
  obtain ⟨-, hlinked, rfl⟩ := hok
  have hmem : t ∈ l := (h.mem t).mp (h.linked t hlinked)
  obtain ⟨l₁, l₂, rfl⟩ := List.append_of_mem hmem
  exact ⟨_, h.setHead⟩

theorem linkAll_ringInv {ts : List ℕ} (h : RingInv s.ring s.liveTasks l)
    (hts : ∀ t ∈ ts, s.Valid t) :
    ∃ l', RingInv (s.linkAll ts).ring (s.linkAll ts).liveTasks l' := by
  induction ts generalizing s l with
  | nil => exact ⟨l, h⟩
  | cons t ts ih =>
      have ht := hts t List.mem_cons_self
      refine ih (taskLink_ringInv h ht.2 ht.1) fun u hu => ?_
      have hvalid := hts u (List.mem_cons_of_mem _ hu)
      exact ⟨hvalid.1, by rw [taskLink_liveTasks]; exact hvalid.2⟩

/-- Every task that waits for `ev` exists. -/
def LiveQueue (s : Kern) (ev : ℕ) : Prop :=
  ∀ l, Path s.eqNexts 0 (s.taskHead ev) l → ∀ t ∈ l, t ∈ s.liveTasks

theorem eventFire_ringInv (h : RingInv s.ring s.liveTasks l)
    (hlive : s.LiveQueue ev) (hok : s.eventFire fuel ev = .ok s') :
    ∃ l', RingInv s'.ring s'.liveTasks l' := by
  obtain ⟨ts, hpath, -, rfl⟩ := eventFire_ok.mp hok
  exact linkAll_ringInv h fun t ht => ⟨hpath.ne_null ht, hlive ts hpath t ht⟩

theorem eventWait_ringInv (h : RingInv s.ring s.liveTasks l) :
    RingInv (s.eventWait ev).ring (s.eventWait ev).liveTasks l := by
  refine taskUnlink_ringInv (s := (s.setEqNext s.taskCurrent
    (s.taskHead ev)).setTaskHead ev s.taskCurrent) ?_
  have hring : (s.setEqNext s.taskCurrent (s.taskHead ev)).ring = s.ring :=
    modTask_ring_eq _ _ rfl rfl rfl rfl
  rw [← hring] at h
  exact h

/-- A task in the ring keeps its place when it exits. -/
theorem taskExitAsserted_ringInv (h : RingInv s.ring s.liveTasks l)
    (hcur : s.Valid s.taskCurrent) (hok : s.taskExitAsserted = .ok s') :
    ∃ l', RingInv s'.ring s'.liveTasks l' ∧ (s.taskCurrent ∈ l → l' = l) := by
  simp only [taskExitAsserted, Outcome.bind_eq_ok, panicIf_eq_ok,
    Outcome.pure_eq_ok] at hok
  obtain ⟨-, -, -, -, -, -, rfl⟩ := hok
  have hexited : RingInv (s.modFlags s.taskCurrent fun f =>
      { f with hasExited := true }).ring s.liveTasks l := by
    unfold modFlags
    rw [modTask_ring_eq _ _ rfl rfl rfl rfl]
    exact h
  have hunlinked := taskUnlink_ringInv (t := s.taskCurrent)
    (s := s.modFlags s.taskCurrent fun f => { f with hasExited := true })
    hexited
  generalize hs₂ : (s.modFlags s.taskCurrent fun f =>
    { f with hasExited := true }).taskUnlink s.taskCurrent = s₂ at hunlinked ⊢
  have hlive : s₂.liveTasks = s.liveTasks := by
    rw [← hs₂]
    rfl
  split_ifs
  · refine ⟨_, taskLink_ringInv (l := l) ?_ (hlive ▸ hcur.2) hcur.1,
      linkList_of_mem⟩
    rw [modTask_ring_eq _ _ rfl rfl rfl rfl]
    exact hunlinked
  · refine ⟨l, ?_, fun _ => rfl⟩
    have hderef : (s₂.modFlags s.taskCurrent fun f =>
        { f with pleaseDeref := true }).ring = s₂.ring :=
      modTask_ring_eq _ _ rfl rfl rfl rfl
    rw [← hderef] at hunlinked
    exact hunlinked

theorem pongoSchedTick_ringInv {r : Tick} (h : RingInv s.ring s.liveTasks l)
    (hok : s.pongoSchedTick fuel = .ok (r, s')) :
    ∃ l', RingInv s'.ring s'.liveTasks l' := by
  simp only [pongoSchedTick, Outcome.bind_eq_ok, panicIf_eq_ok] at hok
  obtain ⟨-, h0, hok⟩ := hok
  obtain ⟨m, rfl⟩ := h.head_mem h0
  have hadvance := h.advance
  split_ifs at hok with hsched hderef hlinked
  · cases hok
    exact ⟨_, hadvance⟩
  · simp only [Outcome.bind_eq_ok, Outcome.pure_eq_ok, Prod.mk.injEq] at hok
    obtain ⟨s₂, hrelease, -, rfl⟩ := hok
    obtain ⟨l', hl', -⟩ := (taskRelease_ring hrelease).ring _ (by
      unfold modFlags
      rw [modTask_ring_eq _ _ rfl rfl rfl rfl]
      exact hadvance)
    exact ⟨l', hl'⟩
  · cases hok
    exact ⟨_, hadvance⟩
  · cases hok
    exact ⟨_, hadvance⟩

end Steps

end Kern

/-! ## Runs -/

open Kern

/-- The calls that act on the ring or free tasks.  New tasks come from
`task_create` and `task_create_extended`, or are registered by hand. -/
inductive SchedCall where
  | link (t : ℕ)
  | unlink (t : ℕ)
  | realUnlink (t : ℕ)
  | setSchedHead (t : ℕ)
  | registerUnlinked (t : ℕ)
  | register (t : ℕ)
  | create (t : ℕ)
  | createExtended (type : TaskFlags) (arg t b : ℕ)
  | release (t : ℕ)
  | wait (ev : ℕ)
  | fire (ev : ℕ)
  | exit
  | yield
  | tick (r : Tick)
deriving DecidableEq

def SchedStep (s : Kern) (c : SchedCall) (s' : Kern) : Prop :=
  match c with
  | .link t => s.Valid t ∧ s' = s.taskLink t
  | .unlink t => s.Valid t ∧ s' = s.taskUnlink t
  | .realUnlink t => s.Valid t ∧ s' = s.taskRealUnlink t
  | .setSchedHead t => s.Valid t ∧ s.taskSetSchedHead t = .ok s'
  | .registerUnlinked t =>
      t ≠ 0 ∧ t ∉ s.liveTasks ∧ (s.newTask t).taskRegisterUnlinked t = .ok s'
  | .register t =>
      t ≠ 0 ∧ t ∉ s.liveTasks ∧ (s.newTask t).taskRegister t = .ok s'
  | .create t => t ≠ 0 ∧ t ∉ s.liveTasks ∧ s.taskCreate t = .ok s'
  | .createExtended type arg t b =>
      t ≠ 0 ∧ t ∉ s.liveTasks ∧
        ∃ fuel, s.taskCreateExtended fuel type arg t b = .ok s'
  | .release t => s.Valid t ∧ ∃ fuel, s.taskRelease fuel t = .ok s'
  | .wait ev => s' = s.eventWait ev
  | .fire ev => ∃ fuel, s.eventFire fuel ev = .ok s'
  | .exit => s.Valid s.taskCurrent ∧ s.taskExitAsserted = .ok s'
  | .yield => s' = s.setTaskCurrent schedTask
  | .tick r => ∃ fuel, s.pongoSchedTick fuel = .ok (r, s')

/-- Whoever waits for the event that is fired exists. -/
def SchedCall.FiresLive (s : Kern) : SchedCall → Prop
  | .fire ev => s.LiveQueue ev
  | _ => True

def LiveSchedStep (s : Kern) (c : SchedCall) (s' : Kern) : Prop :=
  SchedStep s c s' ∧ c.FiresLive s

theorem ring_of_step {s s' : Kern} {c : SchedCall}
    (h : ∃ l, RingInv s.ring s.liveTasks l) (hstep : LiveSchedStep s c s') :
    ∃ l, RingInv s'.ring s'.liveTasks l := by
  obtain ⟨l, h⟩ := h
  obtain ⟨hrun, hlive⟩ := hstep
  cases c with
  | link t =>
      obtain ⟨ht, rfl⟩ := hrun
      exact ⟨_, taskLink_ringInv h ht.2 ht.1⟩
  | unlink t =>
      obtain ⟨-, rfl⟩ := hrun
      exact ⟨l, taskUnlink_ringInv h⟩
  | realUnlink t =>
      obtain ⟨-, rfl⟩ := hrun
      exact ⟨_, taskRealUnlink_ringInv h⟩
  | setSchedHead t => exact taskSetSchedHead_ringInv h hrun.2
  | registerUnlinked t =>
      obtain ⟨-, ht, hok⟩ := hrun
      exact ⟨l, taskRegisterUnlinked_ringInv (newTask_ringInv h ht) hok⟩
  | register t =>
      obtain ⟨h0, ht, hok⟩ := hrun
      exact ⟨_, taskRegister_ringInv (newTask_ringInv h ht)
        ⟨h0, Finset.mem_insert_self t _⟩ hok⟩
  | create t =>
      obtain ⟨h0, ht, hok⟩ := hrun
      exact ⟨_, taskCreate_ringInv h h0 ht hok⟩
  | createExtended type arg t b =>
      obtain ⟨h0, ht, fuel, hok⟩ := hrun
      exact taskCreateExtended_ringInv h h0 ht hok
  | release t =>
      obtain ⟨-, fuel, hok⟩ := hrun
      obtain ⟨l', hl', -⟩ := (taskRelease_ring hok).ring l h
      exact ⟨l', hl'⟩
  | wait ev =>
      cases hrun
      exact ⟨l, eventWait_ringInv h⟩
  | fire ev =>
      obtain ⟨fuel, hok⟩ := hrun
      exact eventFire_ringInv h hlive hok
  | exit =>
      obtain ⟨l', hl', -⟩ := taskExitAsserted_ringInv h hrun.1 hrun.2
      exact ⟨l', hl'⟩
  | yield =>
      cases hrun
      exact ⟨l, h⟩
  | tick r =>
      obtain ⟨fuel, hok⟩ := hrun
      exact pongoSchedTick_ringInv h hok

/-- As long as no event is fired for which a freed task waits, the tasks with
`TASK_WAS_LINKED` form one ring, the head is in it or null when it is empty,
and a linked task is in it. -/
theorem schedRing_of_run {s s' : Kern} {cs : List SchedCall}
    (h : ∃ l, RingInv s.ring s.liveTasks l) (hrun : Run LiveSchedStep s cs s') :
    ∃ l, RingInv s'.ring s'.liveTasks l :=
  hrun.invariant (I := fun s => ∃ l, RingInv s.ring s.liveTasks l)
    (fun _ _ _ h hstep => ring_of_step h hstep) h

theorem bootKern_ringInv :
    RingInv bootKern.ring bootKern.liveTasks [schedTask] := by
  refine taskLink_ringInv (l := []) ?_ (Finset.mem_singleton_self _) (by decide)
  refine ⟨Circular.nil, fun t => ?_, fun _ h => absurd h (by simp), by simp,
    rfl, fun t ht => ?_⟩
  · by_cases hsched : t = schedTask <;> simp [ring, hsched]
  · by_cases hsched : t = schedTask <;> simp [ring, hsched] at ht

/-- The theorem on a run in which a task waits and is linked again. -/
theorem schedRing_of_bootKern :
    ∃ s', Run LiveSchedStep bootKern
        [.create 0x1000, .tick (.dispatched 0x1000), .wait 0x5000,
          .fire 0x5000] s' ∧
      ∃ l, RingInv s'.ring s'.liveTasks l := by
  have hcalls : (do
      let s₁ ← bootKern.taskCreate 0x1000
      let (r, s₂) ← s₁.pongoSchedTick 3
      let s₃ := s₂.eventWait 0x5000
      let s₄ ← s₃.eventFire 3 0x5000
      pure (r, s₃, s₄) : Outcome (Tick × Kern × Kern)).toOption.map
        (fun (r, s₃, _) => (r = .dispatched 0x1000 ∧
          s₃.taskHead 0x5000 = 0x1000 ∧ s₃.eqNexts 0x1000 = 0 ∧
          0x1000 ∈ s₃.liveTasks : Bool)) =
      some true := by
    decide +kernel
  obtain ⟨⟨r, s₃, s₄⟩, hok, hfacts⟩ := Outcome.ok_of_map hcalls
  simp only [Outcome.bind_eq_ok, Outcome.pure_eq_ok, Prod.exists,
    Prod.mk.injEq] at hok
  obtain ⟨s₁, hcreate, _, s₂, htick, _, hfire, rfl, rfl, rfl⟩ := hok
  simp only [decide_eq_true_eq] at hfacts
  obtain ⟨rfl, hhead, hnext, hlive⟩ := hfacts
  have hqueue : (s₂.eventWait 0x5000).LiveQueue 0x5000 := by
    intro l hl t ht
    have hone : Path (s₂.eventWait 0x5000).eqNexts 0
        ((s₂.eventWait 0x5000).taskHead 0x5000) [0x1000] := by
      rw [hhead]
      exact ⟨rfl, by decide, hnext⟩
    rw [hl.unique hone, List.mem_singleton] at ht
    exact ht ▸ hlive
  have hrun : Run LiveSchedStep bootKern
      [.create 0x1000, .tick (.dispatched 0x1000), .wait 0x5000,
        .fire 0x5000] _ :=
    .cons ⟨⟨by decide, by decide, hcreate⟩, trivial⟩
      (.cons ⟨⟨3, htick⟩, trivial⟩ (.cons ⟨rfl, trivial⟩
        (.single ⟨⟨3, hfire⟩, hqueue⟩)))
  exact ⟨_, hrun, schedRing_of_run ⟨_, bootKern_ringInv⟩ hrun⟩

/-! ## Firing for a freed task -/

/-- A task waits, its last reference is released, its event is fired, and the
memory is used for a new task: `sched_task` is not in the ring any more. -/
theorem freed_waiter_breaks_ring :
    ∃ s', Run SchedStep bootKern
        [.create 0x1000, .tick (.dispatched 0x1000), .wait 0x5000,
          .release 0x1000, .fire 0x5000, .create 0x1000] s' ∧
      ¬ ∃ l, RingInv s'.ring s'.liveTasks l := by
  have hcalls : (do
      let s₁ ← bootKern.taskCreate 0x1000
      let (r, s₂) ← s₁.pongoSchedTick 3
      let s₃ := s₂.eventWait 0x5000
      let s₄ ← s₃.taskRelease 3 0x1000
      let s₅ ← s₄.eventFire 3 0x5000
      let s₆ ← s₅.taskCreate 0x1000
      pure (r, s₃, s₅, s₆) : Outcome (Tick × Kern × Kern × Kern)).toOption.map
        (fun (r, s₃, s₅, s₆) => (r = .dispatched 0x1000 ∧
          0x1000 ∈ s₃.liveTasks ∧ 0x1000 ∉ s₅.liveTasks ∧
          s₆.pongoSchedHead = 0x1000 ∧ (s₆.task 0x1000).next = 0x1000 ∧
          (s₆.task schedTask).flags.wasLinked = true : Bool)) =
      some true := by
    decide +kernel
  obtain ⟨⟨r, s₃, s₅, s₆⟩, hok, hfacts⟩ := Outcome.ok_of_map hcalls
  simp only [Outcome.bind_eq_ok, Outcome.pure_eq_ok, Prod.exists,
    Prod.mk.injEq] at hok
  obtain ⟨s₁, hcreate, _, s₂, htick, s₄, hrelease, _, hfire, _, hagain, rfl, rfl,
    rfl, rfl⟩ := hok
  simp only [decide_eq_true_eq] at hfacts
  obtain ⟨rfl, hlive, hfreed, hhead, hnext, hsched⟩ := hfacts
  refine ⟨_, .cons ⟨by decide, by decide, hcreate⟩ (.cons ⟨3, htick⟩
    (.cons rfl (.cons ⟨⟨by decide, hlive⟩, 3, hrelease⟩ (.cons ⟨3, hfire⟩
    (.single ⟨by decide, hfreed, hagain⟩))))), ?_⟩
  rintro ⟨l, hl⟩
  rw [pongoSchedHead_eq] at hhead
  rw [next_eq] at hnext
  have halone := hl.eq_singleton (by rw [hhead]; decide) (by rw [hhead, hnext])
  have hmem := (hl.mem schedTask).mp hsched
  rw [halone, List.mem_singleton] at hmem
  exact absurd (hmem.trans hhead) (by decide)

end PongoOS
