import PongoOS.Task.Ownership
import PongoOS.Task.SchedRuns

/-!
# References and releases

What `task_reference`, `register_irq_handler`, `task_release` and `proc_release`
do to the owners.
-/

namespace PongoOS

open Holders SinglyLinked

namespace Kern

/-! ## The view -/

/-- The owners in `s`, where the tasks are `T` and the vectors `irqvecs`. -/
def ownership (T : Finset ℕ) (irqvecs : ℕ → ℕ) (s : Kern) : Ownership where
  tasks := T
  procs := s.liveProcs
  refcount t := (s.task t).refcount
  proc t := (s.task t).proc
  listNext t := (s.task t).procTaskListNext
  due t := (s.task t).flags.pleaseDeref
  procRefcount p := (s.proc p).refcount
  taskList p := (s.proc p).taskList
  irqvecs := irqvecs
  current := s.taskCurrent

section View

variable {s s' : Kern} {T : Finset ℕ} {V : ℕ → ℕ} {t p n : ℕ}

theorem ownership_of_rest (h : s'.rest = s.rest) :
    s'.ownership T V = s.ownership T V := by
  have heq := congrArg (fun k => k.ownership T V) h
  exact heq

theorem modTask_ownership (f : Task → Task) :
    (s.modTask t f).ownership T V =
      { s.ownership T V with
        refcount := Function.update (s.ownership T V).refcount t
          (f (s.task t)).refcount
        proc := Function.update (s.ownership T V).proc t (f (s.task t)).proc
        listNext := Function.update (s.ownership T V).listNext t
          (f (s.task t)).procTaskListNext
        due := Function.update (s.ownership T V).due t
          (f (s.task t)).flags.pleaseDeref } := by
  refine Ownership.ext rfl rfl ?_ ?_ ?_ ?_ rfl rfl rfl rfl <;>
    · funext u
      by_cases hu : u = t <;> simp [ownership, hu]

theorem update_same {α : Type} {f : ℕ → α} {b : α} (h : b = f t) :
    Function.update f t b = f := by
  rw [h, Function.update_eq_self]

theorem modTask_ownership_eq {f : Task → Task}
    (href : (f (s.task t)).refcount = (s.task t).refcount)
    (hproc : (f (s.task t)).proc = (s.task t).proc)
    (hnext : (f (s.task t)).procTaskListNext = (s.task t).procTaskListNext)
    (hdue : (f (s.task t)).flags.pleaseDeref = (s.task t).flags.pleaseDeref) :
    (s.modTask t f).ownership T V = s.ownership T V := by
  rw [modTask_ownership, href, hproc, hnext, hdue]
  exact Ownership.ext rfl rfl (update_same rfl) (update_same rfl)
    (update_same rfl) (update_same rfl) rfl rfl rfl rfl

theorem modTask_ownership_refcount {f : Task → Task}
    (href : (f (s.task t)).refcount = n)
    (hproc : (f (s.task t)).proc = (s.task t).proc)
    (hnext : (f (s.task t)).procTaskListNext = (s.task t).procTaskListNext)
    (hdue : (f (s.task t)).flags.pleaseDeref = (s.task t).flags.pleaseDeref) :
    (s.modTask t f).ownership T V =
      (s.ownership T V).setRefcount t n := by
  rw [modTask_ownership, href, hproc, hnext, hdue]
  exact Ownership.ext rfl rfl rfl (update_same rfl) (update_same rfl)
    (update_same rfl) rfl rfl rfl rfl

theorem modTask_ownership_due {f : Task → Task} {b : Bool}
    (href : (f (s.task t)).refcount = (s.task t).refcount)
    (hproc : (f (s.task t)).proc = (s.task t).proc)
    (hnext : (f (s.task t)).procTaskListNext = (s.task t).procTaskListNext)
    (hdue : (f (s.task t)).flags.pleaseDeref = b) :
    (s.modTask t f).ownership T V = (s.ownership T V).setDue t b := by
  rw [modTask_ownership, href, hproc, hnext, hdue]
  exact Ownership.ext rfl rfl (update_same rfl) (update_same rfl)
    (update_same rfl) rfl rfl rfl rfl rfl

theorem modProc_ownership (f : Proc → Proc) :
    (s.modProc p f).ownership T V =
      { s.ownership T V with
        procRefcount := Function.update (s.ownership T V).procRefcount p
          (f (s.proc p)).refcount
        taskList := Function.update (s.ownership T V).taskList p
          (f (s.proc p)).taskList } := by
  refine Ownership.ext rfl rfl rfl rfl rfl rfl ?_ ?_ rfl rfl <;>
    · funext u
      by_cases hu : u = p <;> simp [ownership, hu]

theorem modProc_ownership_refcount {f : Proc → Proc}
    (href : (f (s.proc p)).refcount = n)
    (hlist : (f (s.proc p)).taskList = (s.proc p).taskList) :
    (s.modProc p f).ownership T V =
      (s.ownership T V).setProcRefcount p n := by
  rw [modProc_ownership, href, hlist]
  exact Ownership.ext rfl rfl rfl rfl rfl rfl rfl (update_same rfl) rfl rfl

theorem pred_mod (h0 : 0 < n) (hlt : n < 2 ^ 32) :
    (n + 0xffffffff) % 2 ^ 32 = n - 1 := by
  omega

theorem dropTask_ownership (h0 : 0 < (s.task t).refcount)
    (hlt : (s.task t).refcount < 2 ^ 32) :
    (s.dropTask t).ownership T V =
      (s.ownership T V).setRefcount t ((s.task t).refcount - 1) :=
  modTask_ownership_refcount (pred_mod h0 hlt) rfl rfl rfl

theorem dropProc_ownership (h0 : 0 < (s.proc p).refcount)
    (hlt : (s.proc p).refcount < 2 ^ 32) :
    (s.dropProc p).ownership T V =
      (s.ownership T V).setProcRefcount p ((s.proc p).refcount - 1) :=
  modProc_ownership_refcount (pred_mod h0 hlt) rfl

end View

/-! ## Releasing a process -/

/-- What a release of `p` leaves alone, and what it does to address spaces. -/
structure ProcReleased (p : ℕ) (s s' : Kern) : Prop where
  task : s'.task = s.task
  liveTasks : s'.liveTasks = s.liveTasks
  irqvecs : s'.irqvecs = s.irqvecs
  current : s'.taskCurrent = s.taskCurrent
  space : ∀ q, (s'.proc q).vmSpace = (s.proc q).vmSpace
  vm : (s'.liveProcs = s.liveProcs ∧ s'.vm = s.vm) ∨
    (p ∈ s.liveProcs ∧ s'.liveProcs = s.liveProcs.erase p ∧
      ∃ fuel, s.vm.vmRelease fuel (s.proc p).vmSpace = .ok s'.vm)

section Release

variable {s s' : Kern} {T : Finset ℕ} {V : ℕ → ℕ} {t p fuel : ℕ} {g : Held}

theorem dropProc_space (q : ℕ) :
    ((s.dropProc p).proc q).vmSpace = (s.proc q).vmSpace := by
  by_cases hq : q = p <;> simp [dropProc, hq]

theorem releaseTasks_nil {release : ℕ → Kern → Outcome Kern}
    (hok : releaseTasks release fuel 0 s = .ok s') : s' = s := by
  cases fuel with
  | zero => cases hok
  | succ fuel =>
      cases hok
      rfl

theorem procReleaseWith_owners {release : ℕ → Kern → Outcome Kern}
    (h : OwnInv (g.addProc p) (s.ownership T V))
    (hok : procReleaseWith release fuel p s = .ok s') :
    OwnInv g (s'.ownership T V) ∧ ProcReleased p s s' := by
  have hmem : p ∈ s.liveProcs := h.proc_mem
  obtain ⟨-, hpos, hlt⟩ := h.procCount p hmem
  rcases procReleaseWith_ok hok with ⟨rfl, -⟩ | ⟨-, hlast, rfl⟩ |
    ⟨-, hone, s₂, vm, htasks, hvm, rfl⟩
  · exact absurd hmem h.notNull.2
  · refine ⟨?_, ⟨rfl, rfl, rfl, rfl, dropProc_space, Or.inl ⟨rfl, rfl⟩⟩⟩
    rw [dropProc_ownership hpos hlt]
    exact h.releaseProc hlast
  · have hempty : (s.proc p).taskList = 0 := (h.lastProc hone).2.2
    rw [hempty] at htasks
    obtain rfl := releaseTasks_nil htasks
    rw [dropProc_space] at hvm
    refine ⟨?_, ⟨rfl, rfl, rfl, rfl, dropProc_space,
      Or.inr ⟨hmem, rfl, fuel, hvm⟩⟩⟩
    have hdrop : (s.dropProc p).ownership T V =
        (s.ownership T V).setProcRefcount p 0 :=
      modProc_ownership_refcount (by simp [hone]) rfl
    have hfree : (((s.dropProc p).setVm vm).setLiveProcs
        (s.liveProcs.erase p)).ownership T V =
        { (s.dropProc p).ownership T V with
          procs := s.liveProcs.erase p } := rfl
    rw [hdrop] at hfree
    have hgone := h.freeProc hone
    exact hfree ▸ hgone

/-! ## Taking a task off the list of its process -/

def listNexts (s : Kern) (t : ℕ) : ℕ := (s.task t).procTaskListNext

/-- `*el = next`, where `el` is in the task `prev` or is the list's head. -/
def setLink (p prev next : ℕ) (s : Kern) : Kern :=
  if prev = 0 then s.modProc p fun x => { x with taskList := next }
  else s.modTask prev fun x => { x with procTaskListNext := next }

theorem procListRemove_ok {prev el : ℕ} {l : List ℕ}
    (hpath : Path s.listNexts 0 el l)
    (hok : procListRemove p t fuel prev el s = .ok s') :
    (t ∉ l ∧ s' = s) ∨ ∃ l₁ l₂, l = l₁ ++ t :: l₂ ∧
      s' = s.setLink p (l₁.getLastD prev) (s.listNexts t) := by
  induction l generalizing prev el fuel with
  | nil =>
      cases fuel with
      | zero => cases hok
      | succ fuel =>
          have hnull : el = 0 := hpath
          rw [procListRemove, if_pos hnull] at hok
          cases hok
          exact Or.inl ⟨List.not_mem_nil, rfl⟩
  | cons x l ih =>
      obtain ⟨rfl, h0, hrest⟩ := hpath
      cases fuel with
      | zero => cases hok
      | succ fuel =>
          rw [procListRemove, if_neg h0] at hok
          by_cases hel : el = t
          · subst hel
            refine Or.inr ⟨[], l, rfl, ?_⟩
            unfold setLink
            rw [if_pos rfl] at hok
            split_ifs at hok <;> cases hok
            · rw [List.getLastD_nil, if_pos ‹_›]
              rfl
            · rw [List.getLastD_nil, if_neg ‹_›]
              rfl
          · rw [if_neg hel] at hok
            rcases ih hrest hok with ⟨hout, rfl⟩ | ⟨l₁, l₂, rfl, rfl⟩
            · refine Or.inl ⟨?_, rfl⟩
              rw [List.mem_cons]
              exact not_or.mpr ⟨Ne.symm hel, hout⟩
            · refine Or.inr ⟨el :: l₁, l₂, rfl, ?_⟩
              rw [List.getLastD_cons]

/-- What the walk leaves alone. -/
structure SameButList (s s' : Kern) : Prop where
  vm : s'.vm = s.vm
  liveTasks : s'.liveTasks = s.liveTasks
  irqvecs : s'.irqvecs = s.irqvecs
  refcount : ∀ u, (s'.task u).refcount = (s.task u).refcount
  taskSpace : ∀ u, (s'.task u).vmSpace = (s.task u).vmSpace
  taskProc : ∀ u, (s'.task u).proc = (s.task u).proc
  procSpace : ∀ q, (s'.proc q).vmSpace = (s.proc q).vmSpace
  current : s'.taskCurrent = s.taskCurrent
  liveProcs : s'.liveProcs = s.liveProcs

theorem SameButList.of_rest (h : s'.rest = s.rest) : SameButList s s' where
  vm := by
    have heq := congrArg Kern.vm h
    exact heq
  liveTasks := liveTasks_of_rest h
  irqvecs := by
    have heq := congrArg Kern.irqvecs h
    exact heq
  refcount := refcount_of_rest h
  taskSpace u := congrArg (fun k => (k.task u).vmSpace) h
  taskProc u := congrArg (fun k => (k.task u).proc) h
  procSpace q := congrArg (fun k => (k.proc q).vmSpace) h
  current := taskCurrent_of_rest h
  liveProcs := by
    have heq := congrArg Kern.liveProcs h
    exact heq

theorem setLink_same {prev next : ℕ} :
    SameButList s (s.setLink p prev next) := by
  unfold setLink
  split_ifs
  · refine ⟨rfl, rfl, rfl, fun _ => rfl, fun _ => rfl, fun _ => rfl, ?_, rfl,
      rfl⟩
    intro q
    by_cases hq : q = p <;> simp [hq]
  · refine ⟨rfl, rfl, rfl, ?_, ?_, ?_, fun _ => rfl, rfl, rfl⟩ <;>
      · intro u
        by_cases hu : u = prev <;> simp [hu]

theorem setLink_ownership {prev next : ℕ} :
    (s.setLink p prev next).ownership T V =
      if prev = 0 then
        { s.ownership T V with
          taskList := Function.update (s.ownership T V).taskList p next }
      else
        { s.ownership T V with
          listNext := Function.update (s.ownership T V).listNext prev next } := by
  unfold setLink
  split_ifs
  · rw [modProc_ownership]
    exact Ownership.ext rfl rfl rfl rfl rfl rfl (update_same rfl) rfl rfl rfl
  · rw [modTask_ownership]
    exact Ownership.ext rfl rfl (update_same rfl) (update_same rfl) rfl
      (update_same rfl) rfl rfl rfl rfl

/-- After the walk no list leads through `t`. -/
theorem procListRemove_lists
    (h : (s.ownership T V).Lists T) (hp : p ∈ s.liveProcs)
    (hproc : (s.task t).proc = p) (hnull : 0 ∉ T)
    (hok : procListRemove p t fuel 0 (s.proc p).taskList s = .ok s') :
    SameButList s s' ∧ ∃ listNext taskList, s'.ownership T V =
      { s.ownership T V with listNext := listNext, taskList := taskList } ∧
      ((s.ownership T V).freeTask t listNext taskList).Lists (T.erase t) := by
  obtain ⟨l, hpath, hl⟩ := h p hp
  have hothers : ∀ q ∈ s.liveProcs, q ≠ p → ∃ l,
      Path s.listNexts 0 (s.proc q).taskList l ∧
        ∀ u ∈ l, u ∈ T.erase t ∧ (s.task u).proc = q := by
    intro q hq hqp
    obtain ⟨m, hm, hmem⟩ := h q hq
    refine ⟨m, hm, fun u hu => ⟨Finset.mem_erase.mpr ⟨?_, (hmem u hu).1⟩,
      (hmem u hu).2⟩⟩
    rintro rfl
    exact hqp ((hmem u hu).2.symm.trans hproc)
  rcases procListRemove_ok hpath hok with ⟨hout, rfl⟩ | ⟨l₁, l₂, rfl, rfl⟩
  · refine ⟨.of_rest rfl, _, _, rfl, fun q hq => ?_⟩
    by_cases hqp : q = p
    · subst hqp
      refine ⟨l, hpath, fun u hu => ⟨Finset.mem_erase.mpr ⟨?_, (hl u hu).1⟩,
        (hl u hu).2⟩⟩
      rintro rfl
      exact hout hu
    · exact hothers q hq hqp
  · have hnodup := hpath.nodup
    rw [setLink_ownership]
    refine ⟨setLink_same, ?_⟩
    have hrest : ∀ u ∈ l₁ ++ l₂, u ∈ T.erase t ∧ (s.task u).proc = p := by
      intro u hu
      have hu' : u ∈ l₁ ++ t :: l₂ := by
        rcases List.mem_append.mp hu with hu | hu
        · exact List.mem_append_left _ hu
        · exact List.mem_append_right _ (List.mem_cons_of_mem _ hu)
      refine ⟨Finset.mem_erase.mpr ⟨?_, (hl u hu').1⟩, (hl u hu').2⟩
      rintro rfl
      exact (List.nodup_middle.mp hnodup).notMem hu
    rcases List.eq_nil_or_concat l₁ with rfl | ⟨l₃, x, rfl⟩
    · rw [List.getLastD_nil, if_pos rfl]
      refine ⟨_, _, rfl, fun q hq => ?_⟩
      by_cases hqp : q = p
      · subst hqp
        refine ⟨l₂, ?_, hrest⟩
        rw [Ownership.freeTask_taskList, Function.update_self]
        exact hpath.2.2
      · obtain ⟨m, hm, hmem⟩ := hothers q hq hqp
        refine ⟨m, ?_, hmem⟩
        rw [Ownership.freeTask_taskList, Function.update_of_ne hqp]
        exact hm
    · rw [List.concat_eq_append] at *
      have hx : x ∈ T ∧ (s.task x).proc = p := hl x (by simp)
      have hx0 : x ≠ 0 := by
        rintro rfl
        exact hnull hx.1
      rw [List.getLastD_concat, if_neg hx0]
      refine ⟨_, _, rfl, fun q hq => ?_⟩
      by_cases hqp : q = p
      · subst hqp
        refine ⟨l₃ ++ x :: l₂, ?_, ?_⟩
        · rw [List.append_assoc, List.singleton_append] at hpath
          exact hpath.remove
        · intro u hu
          apply hrest u
          simpa using hu
      · obtain ⟨m, hm, hmem⟩ := hothers q hq hqp
        refine ⟨m, ?_, hmem⟩
        apply hm.congr
        intro u hu
        apply Function.update_of_ne
        rintro rfl
        exact hqp ((hmem u hu).2.symm.trans hx.2)

/-! ## Releasing a task -/

/-- The last release of `t`, and which address spaces it gives up. -/
structure TaskFreed (t : ℕ) (s s' : Kern) : Prop where
  mem : t ∈ s.liveTasks
  liveTasks : s'.liveTasks = s.liveTasks.erase t
  vm : ∃ r vm₁ vm₂, (∃ addr, s.vm.vmDeallocate (s.task t).vmSpace addr
      0x40000 = .ok (r, vm₁)) ∧
    (∃ fuel, vm₁.vmRelease fuel (s.task t).vmSpace = .ok vm₂) ∧
    ((s'.liveProcs = s.liveProcs ∧ s'.vm = vm₂) ∨
      ∃ p ∈ s.liveProcs, s'.liveProcs = s.liveProcs.erase p ∧
        ∃ fuel, vm₂.vmRelease fuel (s.proc p).vmSpace = .ok s'.vm)

structure TaskReleased (t : ℕ) (s s' : Kern) : Prop where
  irqvecs : s'.irqvecs = s.irqvecs
  current : s'.taskCurrent = s.taskCurrent
  refcount : ∀ u ≠ t, (s'.task u).refcount = (s.task u).refcount
  taskSpace : ∀ u, (s'.task u).vmSpace = (s.task u).vmSpace
  procSpace : ∀ q, (s'.proc q).vmSpace = (s.proc q).vmSpace
  kept : (s.task t).refcount ≠ 1 → s'.liveTasks = s.liveTasks ∧
    s'.liveProcs = s.liveProcs ∧ s'.vm = s.vm ∧
    ((s.task t).refcount = refcountGlobal ∧ s' = s ∨
      (s.task t).refcount ≠ refcountGlobal ∧
        (s'.task t).refcount + 1 = (s.task t).refcount)
  freed : (s.task t).refcount = 1 → TaskFreed t s s'

theorem dropTask_space (u : ℕ) :
    ((s.dropTask t).task u).vmSpace = (s.task u).vmSpace := by
  by_cases hu : u = t <;> simp [dropTask, hu]

theorem dropTask_refcount {u : ℕ} (hu : u ≠ t) :
    ((s.dropTask t).task u).refcount = (s.task u).refcount := by
  simp [dropTask, hu]

/-- The task's process is told that one member is gone. -/
theorem procReleaseWith_heir {release : ℕ → Kern → Outcome Kern}
    (h : OwnInv (OwnInv.heir g p) (s.ownership T V))
    (hok : procReleaseWith release fuel p s = .ok s') :
    OwnInv g (s'.ownership T V) ∧ ProcReleased p s s' := by
  unfold OwnInv.heir at h
  by_cases h0 : p = 0
  · rw [if_pos h0] at h
    rw [procReleaseWith, if_pos h0] at hok
    cases hok
    exact ⟨h, ⟨rfl, rfl, rfl, rfl, fun _ => rfl, Or.inl ⟨rfl, rfl⟩⟩⟩
  · rw [if_neg h0] at h
    exact procReleaseWith_owners h hok

/-- Before its process is told, the freed task is off its list and owned by
nobody. -/
theorem unlist_owners
    (h : OwnInv (g.addTask t) (s.ownership s.liveTasks V))
    (hone : (s.task t).refcount = 1) (hcur : s.taskCurrent ≠ t)
    (hremove : (if (s.task t).proc ≠ 0 then
        (s.dropTask t).procListRemove (s.task t).proc t fuel 0
          (s.proc (s.task t).proc).taskList
      else .ok (s.dropTask t) : Outcome Kern) = .ok s') :
    SameButList (s.dropTask t) s' ∧
      OwnInv (OwnInv.heir g (s.task t).proc)
        (s'.ownership (s.liveTasks.erase t) V) := by
  have hmem : t ∈ s.liveTasks := h.task_mem
  have hdrop : (s.dropTask t).ownership s.liveTasks V =
      (s.ownership s.liveTasks V).setRefcount t 0 :=
    modTask_ownership_refcount (by simp [hone]) rfl rfl rfl
  have hlists : ((s.dropTask t).ownership s.liveTasks V).Lists
      s.liveTasks := by
    rw [hdrop]
    exact h.lists
  have hview {k : Kern} {listNext taskList : ℕ → ℕ}
      (hown : k.ownership s.liveTasks V =
        { (s.dropTask t).ownership s.liveTasks V with
          listNext := listNext
          taskList := taskList }) :
      k.ownership (s.liveTasks.erase t) V =
        (s.ownership s.liveTasks V).freeTask t listNext taskList := by
    rw [hdrop] at hown
    exact congrArg (fun o : Ownership => { o with tasks := o.tasks.erase t })
      hown
  by_cases hproc : (s.task t).proc = 0
  · rw [if_neg (not_not.mpr hproc)] at hremove
    cases hremove
    refine ⟨.of_rest rfl, ?_⟩
    rw [hview rfl]
    apply h.freeTask hone hcur
    intro q hq
    obtain ⟨l, hpath, hl⟩ := hlists q hq
    refine ⟨l, hpath, fun u hu => ?_⟩
    obtain ⟨hu, hup⟩ := hl u hu
    rw [hdrop] at hup
    refine ⟨Finset.mem_erase.mpr ⟨?_, hu⟩, hup⟩
    rintro rfl
    have hq0 : q = 0 := hup.symm.trans hproc
    exact h.notNull.2 (hq0 ▸ hq)
  · rw [if_pos hproc] at hremove
    have hp : (s.task t).proc ∈ s.liveProcs := h.member t hmem hproc
    obtain ⟨hsame, listNext, taskList, hown, hnew⟩ :=
      procListRemove_lists hlists hp (dropTask_task_proc t t s) h.notNull.1
        hremove
    refine ⟨hsame, ?_⟩
    rw [hview hown]
    rw [hdrop] at hnew
    exact h.freeTask hone hcur hnew

theorem taskReleaseWith_owners {release : ℕ → Kern → Outcome Kern} {fuel' : ℕ}
    (h : OwnInv (g.addTask t) (s.ownership s.liveTasks V))
    (hok : taskReleaseWith (procReleaseWith release fuel') fuel t s = .ok s') :
    OwnInv g (s'.ownership s'.liveTasks V) ∧ TaskReleased t s s' := by
  have hmem : t ∈ s.liveTasks := h.task_mem
  rcases taskReleaseWith_ok hok with ⟨hstatic, rfl⟩ |
    ⟨-, hheap, hlast, rfl⟩ | ⟨-, hone, s₂, s₃, s₄, hfree⟩
  · have hglobal : (s'.task t).refcount = refcountGlobal :=
      hstatic.resolve_left (h.ne_null hmem)
    refine ⟨?_, ⟨rfl, rfl, fun _ _ => rfl, fun _ => rfl, fun _ => rfl,
      fun _ => ⟨rfl, rfl, rfl, Or.inl ⟨hglobal, rfl⟩⟩, fun hone => ?_⟩⟩
    · refine h.static hmem hglobal rfl fun u hu => ?_
      exact (Function.update_of_ne hu _ _).symm
    · rw [hglobal] at hone
      exact absurd hone (by decide)
  · obtain ⟨-, hpos, hlt⟩ := h.count t hmem hheap
    have hdrop := dropTask_ownership (T := s.liveTasks) (V := V) hpos
      (hlt.trans (by decide))
    refine ⟨?_, ⟨rfl, rfl, fun _ hu => dropTask_refcount hu, dropTask_space,
      fun _ => rfl, fun _ => ⟨rfl, rfl, rfl, Or.inr ?_⟩,
      fun hone => absurd hone hlast⟩⟩
    · exact hdrop ▸ h.release hheap hlast
    · have hcount := congrFun (congrArg Ownership.refcount hdrop) t
      rw [Ownership.setRefcount_refcount, Function.update_self] at hcount
      have hself : ((s.dropTask t).task t).refcount =
        (s.task t).refcount - 1 := hcount
      have hpos' : 0 < (s.task t).refcount := hpos
      exact ⟨hheap, by omega⟩
  · obtain ⟨hcur, hremove, ⟨r, vm, hdealloc, rfl⟩, ⟨vm', hvm, hrelease⟩, rfl⟩ :=
      hfree
    obtain ⟨hsame, hinv⟩ := unlist_owners h hone hcur hremove
    generalize hs₃ : (s₂.setVm vm).taskRealUnlink t = s₃ at hvm hrelease
    have h₃ : SameButList (s₂.setVm vm) s₃ :=
      .of_rest (hs₃ ▸ taskRealUnlink_rest t)
    have hproc : (s₃.task t).proc = (s.task t).proc := by
      rw [h₃.taskProc t]
      exact (hsame.taskProc t).trans (dropTask_task_proc t t s)
    rw [hproc] at hrelease
    have hown : (s₃.setVm vm').ownership (s.liveTasks.erase t) V =
        s₂.ownership (s.liveTasks.erase t) V := by
      have hrest := ownership_of_rest (T := s.liveTasks.erase t) (V := V)
        (taskRealUnlink_rest (s := s₂.setVm vm) t)
      rw [hs₃] at hrest
      exact hrest
    obtain ⟨hinv₄, h₄⟩ := procReleaseWith_heir (hown ▸ hinv) hrelease
    have hlive : s₄.liveTasks = s.liveTasks :=
      h₄.liveTasks.trans (h₃.liveTasks.trans hsame.liveTasks)
    refine ⟨?_, ?_⟩
    · rw [setLiveTasks_liveTasks, hlive]
      exact hinv₄
    · have htask (u : ℕ) : s₄.task u = s₃.task u := congrFun h₄.task u
      have hspace (q : ℕ) : (s₃.proc q).vmSpace = (s.proc q).vmSpace :=
        (h₃.procSpace q).trans (hsame.procSpace q)
      have hself (u : ℕ) : (s₃.task u).vmSpace = (s.task u).vmSpace :=
        (h₃.taskSpace u).trans ((hsame.taskSpace u).trans (dropTask_space u))
      have hvm₃ : s₃.vm = vm := h₃.vm
      have hprocs : s₃.liveProcs = s.liveProcs :=
        h₃.liveProcs.trans hsame.liveProcs
      constructor
      · exact h₄.irqvecs.trans (h₃.irqvecs.trans hsame.irqvecs)
      · exact h₄.current.trans (h₃.current.trans hsame.current)
      · intro u hu
        rw [setLiveTasks_task, htask, h₃.refcount u]
        exact (hsame.refcount u).trans (dropTask_refcount hu)
      · intro u
        rw [setLiveTasks_task, htask]
        exact hself u
      · intro q
        exact (h₄.space q).trans (hspace q)
      · intro hlast
        exact absurd hone hlast
      · intro _
        have hdealloc' : ∃ addr, s.vm.vmDeallocate (s.task t).vmSpace addr
            0x40000 = .ok (r, vm) := by
          rw [hsame.vm, hsame.taskSpace t, dropTask_space] at hdealloc
          exact ⟨_, hdealloc⟩
        rw [hvm₃, hself t] at hvm
        refine ⟨hmem, ?_, r, vm, vm', hdealloc', ⟨fuel, hvm⟩, ?_⟩
        · rw [setLiveTasks_liveTasks, hlive]
        · rcases h₄.vm with ⟨hsameProcs, hsameVm⟩ | ⟨hp, herase, fuel₄, hlast⟩
          · exact Or.inl ⟨hsameProcs.trans hprocs, hsameVm⟩
          · rw [setVm_liveProcs, hprocs] at hp herase
            rw [setVm_proc, hspace] at hlast
            exact Or.inr ⟨_, hp, herase, fuel₄, hlast⟩

/-- A release by an owner leaves the other owners. -/
theorem taskRelease_owners
    (h : OwnInv (g.addTask t) (s.ownership s.liveTasks V))
    (hok : s.taskRelease fuel t = .ok s') :
    OwnInv g (s'.ownership s'.liveTasks V) ∧ TaskReleased t s s' := by
  cases fuel with
  | zero => cases hok
  | succ fuel => exact taskReleaseWith_owners h hok

theorem procRelease_owners (h : OwnInv (g.addProc p) (s.ownership T V))
    (hok : s.procRelease fuel p = .ok s') :
    OwnInv g (s'.ownership T V) ∧ ProcReleased p s s' :=
  procReleaseWith_owners h hok

end Release

/-! ## References and interrupt vectors -/

section Reference

variable {s s' : Kern} {T : Finset ℕ} {V : ℕ → ℕ} {t v fuel : ℕ} {g : Held}

theorem taskReference_owners (h : OwnInv g (s.ownership T V)) (ht : t ∈ T)
    (hlt : (s.task t).refcount + 1 ≠ refcountGlobal) :
    OwnInv (g.addTask t) ((s.taskReference t).ownership T V) := by
  unfold taskReference
  rw [if_neg (h.ne_null ht)]
  by_cases hstatic : (s.task t).refcount = refcountGlobal
  · rw [if_pos hstatic]
    apply h.static ht hstatic
    · rfl
    · intro u hu
      exact Function.update_of_ne hu _ _
  · rw [if_neg hstatic]
    obtain ⟨-, -, hbound⟩ := h.count t ht hstatic
    have hbound' : (s.task t).refcount < refcountGlobal := hbound
    have hmod : ((s.task t).refcount + 1) % 2 ^ 32 =
        (s.task t).refcount + 1 := by
      unfold refcountGlobal at hbound'
      omega
    have hown := modTask_ownership_refcount (s := s) (T := T) (V := V)
      (t := t) (f := fun x => { x with refcount := (x.refcount + 1) % 2 ^ 32 })
      hmod rfl rfl rfl
    exact hown ▸ h.reference ht hstatic hlt

/-- `t` can be put in the vector `v`: the vector does not own the last
reference to it, and the count stays below `TASK_REFCOUNT_GLOBAL`. -/
def Bindable (v t : ℕ) (s : Kern) : Prop :=
  t ≠ 0 → if s.irqvecs (v % 2 ^ 16) = t then (s.task t).refcount ≠ 1
    else (s.task t).refcount + 1 ≠ refcountGlobal

instance (v t : ℕ) (s : Kern) : Decidable (s.Bindable v t) :=
  inferInstanceAs (Decidable (t ≠ 0 →
    if s.irqvecs (v % 2 ^ 16) = t then (s.task t).refcount ≠ 1
    else (s.task t).refcount + 1 ≠ refcountGlobal))

/-- The first half of `register_irq_handler`. -/
theorem releaseHandler_owners {w : ℕ} {s₁ : Kern}
    (h : OwnInv g (s.ownership s.liveTasks s.irqvecs))
    (hok : (if s.irqvecs w ≠ 0 then s.taskRelease fuel (s.irqvecs w)
      else pure s : Outcome Kern) = .ok s₁) :
    OwnInv g (s₁.ownership s₁.liveTasks (Function.update s.irqvecs w 0)) ∧
      (s.irqvecs w = 0 ∧ s₁ = s ∨ TaskReleased (s.irqvecs w) s s₁) := by
  by_cases h0 : s.irqvecs w = 0
  · rw [if_neg (not_not.mpr h0)] at hok
    cases hok
    rw [update_same h0.symm]
    exact ⟨h, Or.inl ⟨h0, rfl⟩⟩
  · rw [if_pos h0] at hok
    obtain ⟨hinv, hrel⟩ := taskRelease_owners (h.unbind rfl h0) hok
    exact ⟨hinv, Or.inr hrel⟩

theorem taskReference_irqvecs (t : ℕ) :
    (s.taskReference t).irqvecs = s.irqvecs := by
  unfold taskReference
  split_ifs <;> rfl

theorem taskReference_liveTasks (t : ℕ) :
    (s.taskReference t).liveTasks = s.liveTasks := by
  unfold taskReference
  split_ifs <;> rfl

/-- The new handler survives the release of the old one. -/
theorem bindable_after {s₁ : Kern} {old : ℕ}
    (hrel : old = 0 ∧ s₁ = s ∨ TaskReleased old s s₁) (h0 : t ≠ 0)
    (ht : t ∈ s.liveTasks)
    (hbindable : if old = t then (s.task t).refcount ≠ 1
      else (s.task t).refcount + 1 ≠ refcountGlobal) :
    t ∈ s₁.liveTasks ∧ (s₁.task t).refcount + 1 ≠ refcountGlobal := by
  by_cases hold : old = t
  · rw [if_pos hold] at hbindable
    rcases hrel with ⟨hnull, -⟩ | hrel
    · exact absurd (hold.symm.trans hnull) h0
    · subst hold
      obtain ⟨hlive, -, -, hcount⟩ := hrel.kept hbindable
      refine ⟨hlive ▸ ht, ?_⟩
      rcases hcount with ⟨hstatic, rfl⟩ | ⟨hheap, hcount⟩
      · rw [hstatic]
        decide
      · rw [hcount]
        exact hheap
  · rw [if_neg hold] at hbindable
    rcases hrel with ⟨-, rfl⟩ | hrel
    · exact ⟨ht, hbindable⟩
    · rw [hrel.refcount t (Ne.symm hold)]
      refine ⟨?_, hbindable⟩
      by_cases hlast : (s.task old).refcount = 1
      · rw [(hrel.freed hlast).liveTasks]
        exact Finset.mem_erase.mpr ⟨Ne.symm hold, ht⟩
      · rw [(hrel.kept hlast).1]
        exact ht

theorem registerIrqHandler_owners
    (h : OwnInv g (s.ownership s.liveTasks s.irqvecs))
    (ht : t = 0 ∨ t ∈ s.liveTasks) (hbindable : s.Bindable v t)
    (hok : s.registerIrqHandler fuel v t = .ok s') :
    OwnInv g (s'.ownership s'.liveTasks s'.irqvecs) := by
  unfold registerIrqHandler at hok
  simp only [Outcome.bind_eq_ok, panicIf_eq_ok, Outcome.pure_eq_ok,
    not_le] at hok
  obtain ⟨-, hv, s₁, hrelease, rfl⟩ := hok
  generalize hw : v % 2 ^ 16 = w at hv hrelease
  obtain ⟨h₁, hrel⟩ := releaseHandler_owners h hrelease
  have hvecs : s₁.irqvecs = s.irqvecs := by
    rcases hrel with ⟨-, rfl⟩ | hrel
    · rfl
    · exact hrel.irqvecs
  have hown : ((s₁.taskReference t).setIrqvec w t).ownership
      ((s₁.taskReference t).setIrqvec w t).liveTasks
      ((s₁.taskReference t).setIrqvec w t).irqvecs =
        (s₁.taskReference t).ownership s₁.liveTasks
          (Function.update s.irqvecs w t) := by
    have hvecs' := taskReference_irqvecs (s := s₁) t
    have hlive := taskReference_liveTasks (s := s₁) t
    rw [hvecs] at hvecs'
    rw [← hvecs', ← hlive]
    rfl
  rw [hown]
  by_cases h0 : t = 0
  · subst h0
    exact h₁
  · have hlive : t ∈ s₁.liveTasks ∧
        (s₁.task t).refcount + 1 ≠ refcountGlobal :=
      bindable_after hrel h0 (ht.resolve_left h0) (hw ▸ hbindable h0)
    have h₂ := taskReference_owners h₁ hlive.1 hlive.2
    have h₃ := h₂.bind hv (Function.update_self _ _ _)
    have hvecs₃ : Function.update (Function.update s.irqvecs w 0) w t =
        Function.update s.irqvecs w t := Function.update_idem _ _ _
    rw [← hvecs₃]
    exact h₃

end Reference

end Kern

end PongoOS
