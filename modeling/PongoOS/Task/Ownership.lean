import PongoOS.Support.Holders
import PongoOS.Support.SinglyLinked
import PongoOS.Task.Ring
import PongoOS.Task.Lifetime

/-!
# Who owns a task and who owns a process

A task is owned by the callers that hold a reference to it, by the interrupt
vectors it is bound to, and, once it has exited, by its `TASK_PLEASE_DEREF` flag.
A process is owned by callers and by its tasks.  `Ownership` is what of the
state matters for this, with the operations on it; `OwnInv` says that each count
is the number of owners and that owners only own what exists.
-/

namespace PongoOS

open Holders SinglyLinked

/-! ## The abstract state -/

@[ext]
structure Ownership where
  tasks : Finset ℕ
  procs : Finset ℕ
  refcount : ℕ → ℕ
  proc : ℕ → ℕ
  listNext : ℕ → ℕ
  due : ℕ → Bool
  procRefcount : ℕ → ℕ
  taskList : ℕ → ℕ
  irqvecs : ℕ → ℕ
  current : ℕ

/-- The references that callers hold. -/
@[ext]
structure Held where
  tasks : ℕ → ℕ
  procs : ℕ → ℕ
  spaces : ℕ → ℕ

namespace Held

@[simps]
def addTask (g : Held) (t : ℕ) : Held :=
  { g with tasks := Function.update g.tasks t (g.tasks t + 1) }

@[simps]
def dropTask (g : Held) (t : ℕ) : Held :=
  { g with tasks := Function.update g.tasks t (g.tasks t - 1) }

@[simps]
def addProc (g : Held) (p : ℕ) : Held :=
  { g with procs := Function.update g.procs p (g.procs p + 1) }

@[simps]
def dropProc (g : Held) (p : ℕ) : Held :=
  { g with procs := Function.update g.procs p (g.procs p - 1) }

@[simps]
def addSpace (g : Held) (a : ℕ) : Held :=
  { g with spaces := Function.update g.spaces a (g.spaces a + 1) }

@[simps]
def dropSpace (g : Held) (a : ℕ) : Held :=
  { g with spaces := Function.update g.spaces a (g.spaces a - 1) }

theorem dropTask_addTask {g : Held} {t : ℕ} (h : 0 < g.tasks t) :
    (g.dropTask t).addTask t = g := by
  ext u
  · by_cases hu : u = t
    · subst hu
      simp only [addTask_tasks, dropTask_tasks, Function.update_self]
      omega
    · simp [hu]
  · rfl
  · rfl

theorem dropProc_addProc {g : Held} {p : ℕ} (h : 0 < g.procs p) :
    (g.dropProc p).addProc p = g := by
  ext u
  · rfl
  · by_cases hu : u = p
    · subst hu
      simp only [addProc_procs, dropProc_procs, Function.update_self]
      omega
    · simp [hu]
  · rfl

end Held

namespace Ownership

variable (o : Ownership)

/-- How many interrupt vectors own `t`. -/
def slots (t : ℕ) : ℕ := holders (Finset.range 0x1ff) o.irqvecs t

/-- How many tasks own `p`. -/
def members (p : ℕ) : ℕ := holders o.tasks o.proc p

@[simps]
def setRefcount (t n : ℕ) : Ownership :=
  { o with refcount := Function.update o.refcount t n }

@[simps]
def setProcRefcount (p n : ℕ) : Ownership :=
  { o with procRefcount := Function.update o.procRefcount p n }

@[simps]
def setDue (t : ℕ) (b : Bool) : Ownership :=
  { o with due := Function.update o.due t b }

@[simps]
def setIrqvec (v t : ℕ) : Ownership :=
  { o with irqvecs := Function.update o.irqvecs v t }

@[simps]
def setCurrent (t : ℕ) : Ownership := { o with current := t }

/-- A new task of the process `p`, which its creator owns. -/
@[simps]
def newTask (t p : ℕ) : Ownership :=
  { o with
    tasks := insert t o.tasks
    refcount := Function.update o.refcount t 1
    proc := Function.update o.proc t p
    listNext := Function.update o.listNext t 0
    due := Function.update o.due t false
    procRefcount :=
      if p = 0 then o.procRefcount
      else Function.update o.procRefcount p (o.procRefcount p + 1) }

/-- A new process, which its creator owns. -/
@[simps]
def newProc (p : ℕ) : Ownership :=
  { o with
    procs := insert p o.procs
    procRefcount := Function.update o.procRefcount p 1
    taskList := Function.update o.taskList p 0 }

/-- `t` goes on the list of `p`. -/
@[simps]
def push (p t : ℕ) : Ownership :=
  { o with
    listNext := Function.update o.listNext t (o.taskList p)
    taskList := Function.update o.taskList p t }

@[simps]
def freeProc (p : ℕ) : Ownership :=
  { o with
    procs := o.procs.erase p
    procRefcount := Function.update o.procRefcount p 0 }

/-- `t` is gone, and the lists have become `listNext` and `taskList`. -/
@[simps]
def freeTask (t : ℕ) (listNext taskList : ℕ → ℕ) : Ownership :=
  { o with
    tasks := o.tasks.erase t
    refcount := Function.update o.refcount t 0
    listNext := listNext
    taskList := taskList }

/-- The list of each process leads through tasks of `T` that belong to it. -/
def Lists (T : Finset ℕ) : Prop :=
  ∀ p ∈ o.procs, ∃ l, Path o.listNext 0 (o.taskList p) l ∧
    ∀ t ∈ l, t ∈ T ∧ o.proc t = p

end Ownership

/-! ## The invariant -/

/-- The owners of a task that `malloc` provided are its references, and none of
them is left when it is gone; likewise for processes. -/
structure OwnInv (g : Held) (o : Ownership) : Prop where
  count : ∀ t ∈ o.tasks, o.refcount t ≠ refcountGlobal →
    o.refcount t = g.tasks t + o.slots t + (if o.due t then 1 else 0) ∧
      0 < o.refcount t ∧ o.refcount t < refcountGlobal
  held : ∀ t, 0 < g.tasks t → t ∈ o.tasks
  bound : ∀ v, o.irqvecs v ≠ 0 → v < 0x1ff ∧ o.irqvecs v ∈ o.tasks
  procCount : ∀ p ∈ o.procs, o.procRefcount p = g.procs p + o.members p ∧
    0 < o.procRefcount p ∧ o.procRefcount p < 2 ^ 32
  heldProc : ∀ p, 0 < g.procs p → p ∈ o.procs
  member : ∀ t ∈ o.tasks, o.proc t ≠ 0 → o.proc t ∈ o.procs
  lists : o.Lists o.tasks
  notNull : 0 ∉ o.tasks ∧ 0 ∉ o.procs
  current : o.current ∈ o.tasks
  running : o.refcount o.current ≠ refcountGlobal → o.due o.current = false
  sched : Kern.schedTask ∈ o.tasks ∧
    o.refcount Kern.schedTask = refcountGlobal

namespace OwnInv

variable {g : Held} {o : Ownership} {t p v : ℕ}

theorem ne_null (h : OwnInv g o) (ht : t ∈ o.tasks) : t ≠ 0 := by
  rintro rfl
  exact h.notNull.1 ht

theorem tasks_eq_zero (h : OwnInv g o) (ht : t ∉ o.tasks) : g.tasks t = 0 := by
  by_contra hne
  exact ht (h.held t (Nat.pos_of_ne_zero hne))

theorem slots_eq_zero (h : OwnInv g o) (h0 : t ≠ 0) (ht : t ∉ o.tasks) :
    o.slots t = 0 := by
  apply holders_eq_zero
  rintro v - rfl
  exact ht (h.bound v h0).2

/-! ### Creation -/

theorem newTask (h : OwnInv g o) (h0 : t ≠ 0) (ht : t ∉ o.tasks)
    (hp : p = 0 ∨ p ∈ o.procs) (hlt : p ≠ 0 → o.procRefcount p + 1 < 2 ^ 32) :
    OwnInv (g.addTask t) (o.newTask t p) := by
  have hne {u : ℕ} (hu : u ∈ o.tasks) : u ≠ t := fun heq => ht (heq ▸ hu)
  have hslots (u : ℕ) : (o.newTask t p).slots u = o.slots u := rfl
  have hmembers (q : ℕ) : (o.newTask t p).members q =
      o.members q + if p = q then 1 else 0 := by
    have hinsert := holders_insert (f := Function.update o.proc t p) (a := q) ht
    rw [Function.update_self] at hinsert
    refine hinsert.trans ?_
    congr 1
    apply holders_congr
    intro u hu
    exact Function.update_of_ne (hne hu) _ _
  constructor
  · intro u hu hheap
    rw [hslots]
    rcases Finset.mem_insert.mp hu with rfl | hu
    · simp [h.tasks_eq_zero ht, h.slots_eq_zero h0 ht, refcountGlobal]
    · simp only [Ownership.newTask_refcount, Ownership.newTask_due,
        Held.addTask_tasks, Function.update_of_ne (hne hu)] at hheap ⊢
      exact h.count u hu hheap
  · intro u hu
    by_cases heq : u = t
    · exact heq ▸ Finset.mem_insert_self u _
    · rw [Held.addTask_tasks, Function.update_of_ne heq] at hu
      exact Finset.mem_insert_of_mem (h.held u hu)
  · intro v hv
    exact ⟨(h.bound v hv).1, Finset.mem_insert_of_mem (h.bound v hv).2⟩
  · intro q hq
    rw [hmembers]
    have hcount := h.procCount q hq
    have hq0 : q ≠ 0 := by
      rintro rfl
      exact h.notNull.2 hq
    by_cases hpq : p = q
    · subst hpq
      have := hlt hq0
      simp only [Ownership.newTask_procRefcount, if_neg hq0, if_true,
        Function.update_self, Held.addTask_procs]
      omega
    · have hsame : (o.newTask t p).procRefcount q = o.procRefcount q := by
        rw [Ownership.newTask_procRefcount]
        split_ifs
        · rfl
        · exact Function.update_of_ne (Ne.symm hpq) _ _
      rw [hsame, if_neg hpq]
      exact hcount
  · exact h.heldProc
  · intro u hu hproc
    rcases Finset.mem_insert.mp hu with rfl | hu
    · rw [Ownership.newTask_proc, Function.update_self] at hproc ⊢
      exact hp.resolve_left hproc
    · rw [Ownership.newTask_proc, Function.update_of_ne (hne hu)] at hproc ⊢
      exact h.member u hu hproc
  · intro q hq
    obtain ⟨l, hpath, hl⟩ := h.lists q hq
    refine ⟨l, hpath.congr fun u hu => ?_, fun u hu => ?_⟩
    · exact Function.update_of_ne (hne (hl u hu).1) _ _
    · refine ⟨Finset.mem_insert_of_mem (hl u hu).1, ?_⟩
      rw [Ownership.newTask_proc, Function.update_of_ne (hne (hl u hu).1)]
      exact (hl u hu).2
  · refine ⟨?_, h.notNull.2⟩
    intro hmem
    rcases Finset.mem_insert.mp hmem with heq | hmem
    · exact h0 heq.symm
    · exact h.notNull.1 hmem
  · exact Finset.mem_insert_of_mem h.current
  · simp only [Ownership.newTask_refcount, Ownership.newTask_due,
      Ownership.newTask_current, Function.update_of_ne (hne h.current)]
    exact h.running
  · refine ⟨Finset.mem_insert_of_mem h.sched.1, ?_⟩
    rw [Ownership.newTask_refcount, Function.update_of_ne (hne h.sched.1)]
    exact h.sched.2

theorem newProc (h : OwnInv g o) (h0 : p ≠ 0) (hp : p ∉ o.procs) :
    OwnInv (g.addProc p) (o.newProc p) := by
  have hne {q : ℕ} (hq : q ∈ o.procs) : q ≠ p := fun heq => hp (heq ▸ hq)
  have hnone : o.members p = 0 := by
    apply holders_eq_zero
    intro t ht heq
    exact hp (heq ▸ h.member t ht (heq ▸ h0))
  have hheld : g.procs p = 0 := by
    by_contra hpos
    exact hp (h.heldProc p (Nat.pos_of_ne_zero hpos))
  have hmembers (q : ℕ) : (o.newProc p).members q = o.members q := rfl
  constructor
  · exact h.count
  · exact h.held
  · exact h.bound
  · intro q hq
    rw [hmembers]
    rcases Finset.mem_insert.mp hq with rfl | hq
    · simp [hnone, hheld]
    · simp only [Ownership.newProc_procRefcount, Held.addProc_procs,
        Function.update_of_ne (hne hq)]
      exact h.procCount q hq
  · intro q hq
    by_cases heq : q = p
    · exact heq ▸ Finset.mem_insert_self q _
    · rw [Held.addProc_procs, Function.update_of_ne heq] at hq
      exact Finset.mem_insert_of_mem (h.heldProc q hq)
  · intro t ht hproc
    exact Finset.mem_insert_of_mem (h.member t ht hproc)
  · intro q hq
    rcases Finset.mem_insert.mp hq with rfl | hq
    · refine ⟨[], ?_, fun _ ht => absurd ht List.not_mem_nil⟩
      rw [Ownership.newProc_taskList, Function.update_self]
      rfl
    · obtain ⟨l, hpath, hl⟩ := h.lists q hq
      refine ⟨l, ?_, hl⟩
      rw [Ownership.newProc_taskList, Function.update_of_ne (hne hq)]
      exact hpath
  · refine ⟨h.notNull.1, ?_⟩
    intro hmem
    rcases Finset.mem_insert.mp hmem with heq | hmem
    · exact h0 heq.symm
    · exact h.notNull.2 hmem
  · exact h.current
  · exact h.running
  · exact h.sched

/-- A task that is on no list goes on the list of its process. -/
theorem push (h : OwnInv g o) (ht : t ∈ o.tasks) (hproc : o.proc t = p)
    (hout : ∀ l, Path o.listNext 0 (o.taskList p) l → t ∉ l) :
    OwnInv g (o.push p t) where
  count := h.count
  held := h.held
  bound := h.bound
  procCount := h.procCount
  heldProc := h.heldProc
  member := h.member
  lists q hq := by
    obtain ⟨l, hpath, hl⟩ := h.lists q hq
    by_cases heq : q = p
    · subst heq
      refine ⟨t :: l, ?_, ?_⟩
      · rw [Ownership.push_taskList, Function.update_self]
        exact hpath.push (hout l hpath) (h.ne_null ht)
      · intro u hu
        rcases List.mem_cons.mp hu with rfl | hu
        · exact ⟨ht, hproc⟩
        · exact hl u hu
    · refine ⟨l, ?_, hl⟩
      rw [Ownership.push_taskList, Function.update_of_ne heq]
      apply hpath.congr
      intro u hu
      apply Function.update_of_ne
      rintro rfl
      exact heq ((hl u hu).2.symm.trans hproc)
  notNull := h.notNull
  current := h.current
  running := h.running
  sched := h.sched

/-! ### References to a task -/

theorem sched_ne (h : OwnInv g o) (hheap : o.refcount t ≠ refcountGlobal) :
    Kern.schedTask ≠ t := by
  rintro rfl
  exact hheap h.sched.2

/-- A count changes together with the owners of its task. -/
theorem setRefcount {g' : Held} {n : ℕ} (h : OwnInv g o)
    (hheap : o.refcount t ≠ refcountGlobal) (hprocs : g'.procs = g.procs)
    (hothers : ∀ u ≠ t, g'.tasks u = g.tasks u)
    (hself : 0 < g'.tasks t → t ∈ o.tasks)
    (hn : t ∈ o.tasks → n = g'.tasks t + o.slots t + (if o.due t then 1 else 0) ∧
      0 < n ∧ n < refcountGlobal) : OwnInv g' (o.setRefcount t n) where
  count u hu hu' := by
    rw [Ownership.setRefcount_refcount] at hu' ⊢
    by_cases heq : u = t
    · subst heq
      rw [Function.update_self]
      exact hn hu
    · rw [Function.update_of_ne heq] at hu' ⊢
      rw [hothers u heq]
      exact h.count u hu hu'
  held u hu := by
    by_cases heq : u = t
    · exact heq ▸ hself (heq ▸ hu)
    · exact h.held u (hothers u heq ▸ hu)
  bound := h.bound
  procCount p hp := by
    rw [hprocs]
    exact h.procCount p hp
  heldProc p hp := h.heldProc p (hprocs ▸ hp)
  member := h.member
  lists := h.lists
  notNull := h.notNull
  current := h.current
  running hcur := by
    apply h.running
    intro hstatic
    rw [Ownership.setRefcount_refcount, Ownership.setRefcount_current,
      Function.update_of_ne] at hcur
    · exact hcur hstatic
    · intro heq
      exact hheap (heq ▸ hstatic)
  sched := by
    refine ⟨h.sched.1, ?_⟩
    rw [Ownership.setRefcount_refcount,
      Function.update_of_ne (h.sched_ne hheap)]
    exact h.sched.2

theorem reference (h : OwnInv g o) (ht : t ∈ o.tasks)
    (hheap : o.refcount t ≠ refcountGlobal)
    (hlt : o.refcount t + 1 ≠ refcountGlobal) :
    OwnInv (g.addTask t) (o.setRefcount t (o.refcount t + 1)) := by
  apply h.setRefcount hheap
  · rfl
  · intro u hu
    exact Function.update_of_ne hu _ _
  · intro _
    exact ht
  · intro _
    have hcount := h.count t ht hheap
    rw [Held.addTask_tasks, Function.update_self]
    omega

theorem release (h : OwnInv (g.addTask t) o)
    (hheap : o.refcount t ≠ refcountGlobal) (hlast : o.refcount t ≠ 1) :
    OwnInv g (o.setRefcount t (o.refcount t - 1)) := by
  apply h.setRefcount hheap
  · rfl
  · intro u hu
    exact (Function.update_of_ne hu _ _).symm
  · intro _
    apply h.held t
    rw [Held.addTask_tasks, Function.update_self]
    exact Nat.succ_pos _
  · intro ht
    have hcount := h.count t ht hheap
    rw [Held.addTask_tasks, Function.update_self] at hcount
    omega

/-- A static task is not counted. -/
theorem static {g' : Held} (h : OwnInv g o) (ht : t ∈ o.tasks)
    (hstatic : o.refcount t = refcountGlobal) (hprocs : g'.procs = g.procs)
    (hothers : ∀ u ≠ t, g'.tasks u = g.tasks u) : OwnInv g' o where
  count u hu hheap := by
    have heq : u ≠ t := by
      rintro rfl
      exact hheap hstatic
    rw [hothers u heq]
    exact h.count u hu hheap
  held u hu := by
    by_cases heq : u = t
    · exact heq ▸ ht
    · exact h.held u (hothers u heq ▸ hu)
  bound := h.bound
  procCount p hp := by
    rw [hprocs]
    exact h.procCount p hp
  heldProc p hp := h.heldProc p (hprocs ▸ hp)
  member := h.member
  lists := h.lists
  notNull := h.notNull
  current := h.current
  running := h.running
  sched := h.sched

/-! ### The owners that are not callers -/

theorem slots_setIrqvec (hv : v < 0x1ff) (u : ℕ) :
    (o.setIrqvec v t).slots u + (if o.irqvecs v = u then 1 else 0) =
      o.slots u + if t = u then 1 else 0 :=
  holders_update (Finset.mem_range.mpr hv)

/-- What is left when the references that a vector and the flag own are passed
around. -/
theorem pass {g' : Held} {o' : Ownership} (h : OwnInv g o)
    (hprocs : g'.procs = g.procs) (hheld : ∀ u, 0 < g'.tasks u → u ∈ o.tasks)
    (hbound : ∀ v, o'.irqvecs v ≠ 0 → v < 0x1ff ∧ o'.irqvecs v ∈ o.tasks)
    (hcount : ∀ u ∈ o.tasks, o.refcount u ≠ refcountGlobal →
      g'.tasks u + o'.slots u + (if o'.due u then 1 else 0) =
        g.tasks u + o.slots u + if o.due u then 1 else 0)
    (hrunning : o.refcount o.current ≠ refcountGlobal →
      o'.due o.current = o.due o.current)
    (hsame : o' = { o with irqvecs := o'.irqvecs, due := o'.due }) :
    OwnInv g' o' := by
  rw [hsame]
  constructor
  · intro u hu hheap
    have hold := h.count u hu hheap
    have hnew := hcount u hu hheap
    exact ⟨hold.1.trans hnew.symm, hold.2⟩
  · exact hheld
  · exact hbound
  · intro p hp
    rw [hprocs]
    exact h.procCount p hp
  · intro p hp
    exact h.heldProc p (hprocs ▸ hp)
  · exact h.member
  · exact h.lists
  · exact h.notNull
  · exact h.current
  · intro hheap
    exact (hrunning hheap).trans (h.running hheap)
  · exact h.sched

/-- A vector takes a reference. -/
theorem bind (h : OwnInv (g.addTask t) o) (hv : v < 0x1ff)
    (hfree : o.irqvecs v = 0) : OwnInv g (o.setIrqvec v t) := by
  have ht : t ∈ o.tasks := by
    apply h.held t
    rw [Held.addTask_tasks, Function.update_self]
    exact Nat.succ_pos _
  apply h.pass
  · rfl
  · intro u hu
    apply h.held u
    rw [Held.addTask_tasks]
    by_cases heq : u = t
    · subst heq
      rw [Function.update_self]
      exact Nat.succ_pos _
    · rw [Function.update_of_ne heq]
      exact hu
  · intro w hw
    rw [Ownership.setIrqvec_irqvecs] at hw ⊢
    by_cases heq : w = v
    · subst heq
      rw [Function.update_self]
      exact ⟨hv, ht⟩
    · rw [Function.update_of_ne heq] at hw ⊢
      exact h.bound w hw
  · intro u hu _
    have hslots := slots_setIrqvec (o := o) (t := t) hv u
    rw [hfree, if_neg (h.ne_null hu).symm] at hslots
    rw [Ownership.setIrqvec_due, Held.addTask_tasks]
    by_cases heq : u = t
    · subst heq
      rw [if_pos rfl] at hslots
      rw [Function.update_self]
      omega
    · rw [if_neg (Ne.symm heq)] at hslots
      rw [Function.update_of_ne heq]
      omega
  · intro _
    rfl
  · rfl

/-- A vector gives its reference up. -/
theorem unbind (h : OwnInv g o) (ht : o.irqvecs v = t) (h0 : t ≠ 0) :
    OwnInv (g.addTask t) (o.setIrqvec v 0) := by
  obtain ⟨hv, hmem⟩ := h.bound v (ht ▸ h0)
  rw [ht] at hmem
  apply h.pass
  · rfl
  · intro u hu
    by_cases heq : u = t
    · exact heq ▸ hmem
    · rw [Held.addTask_tasks, Function.update_of_ne heq] at hu
      exact h.held u hu
  · intro w hw
    rw [Ownership.setIrqvec_irqvecs] at hw ⊢
    by_cases heq : w = v
    · subst heq
      rw [Function.update_self] at hw
      exact absurd rfl hw
    · rw [Function.update_of_ne heq] at hw ⊢
      exact h.bound w hw
  · intro u hu _
    have hslots := slots_setIrqvec (o := o) (t := 0) hv u
    rw [ht, if_neg (h.ne_null hu).symm] at hslots
    rw [Ownership.setIrqvec_due, Held.addTask_tasks]
    by_cases heq : u = t
    · subst heq
      rw [if_pos rfl] at hslots
      rw [Function.update_self]
      omega
    · rw [if_neg (Ne.symm heq)] at hslots
      rw [Function.update_of_ne heq]
      omega
  · intro _
    rfl
  · rfl

/-- The flag gives its reference up. -/
theorem takeDue (h : OwnInv g o) (ht : t ∈ o.tasks) (hdue : o.due t = true) :
    OwnInv (g.addTask t) (o.setDue t false) := by
  apply h.pass
  · rfl
  · intro u hu
    by_cases heq : u = t
    · exact heq ▸ ht
    · rw [Held.addTask_tasks, Function.update_of_ne heq] at hu
      exact h.held u hu
  · exact h.bound
  · intro u _ _
    have hslots : (o.setDue t false).slots u = o.slots u := rfl
    rw [hslots, Ownership.setDue_due, Held.addTask_tasks]
    by_cases heq : u = t
    · subst heq
      rw [Function.update_self, Function.update_self, hdue]
      simp only [Bool.false_eq_true, if_false, if_true]
      omega
    · rw [Function.update_of_ne heq, Function.update_of_ne heq]
  · intro hheap
    rw [Ownership.setDue_due]
    by_cases heq : o.current = t
    · rw [heq, Function.update_self, ← heq]
      exact (h.running hheap).symm
    · exact Function.update_of_ne heq _ _
  · rfl

/-- The current task exits: the flag takes a reference, and `sched_task` runs. -/
theorem exit (h : OwnInv (g.addTask t) o) (hcur : o.current = t) :
    OwnInv g ((o.setCurrent Kern.schedTask).setDue t true) := by
  have ht : t ∈ o.tasks := hcur ▸ h.current
  constructor
  · intro u hu hheap
    have hcount := h.count u hu hheap
    have hslots : ((o.setCurrent Kern.schedTask).setDue t true).slots u =
      o.slots u := rfl
    rw [hslots, Ownership.setDue_due]
    rw [Held.addTask_tasks] at hcount
    by_cases heq : u = t
    · subst heq
      have hdue : o.due u = false := by
        rw [← hcur]
        apply h.running
        rw [hcur]
        exact hheap
      rw [Function.update_self, hdue] at hcount
      rw [Function.update_self]
      have hrefs : o.refcount u = g.tasks u + o.slots u + 1 :=
        hcount.1.trans (by simp only [Bool.false_eq_true, if_false]; omega)
      exact ⟨hrefs, hcount.2⟩
    · rw [Function.update_of_ne heq] at hcount ⊢
      exact hcount
  · intro u hu
    apply h.held u
    rw [Held.addTask_tasks]
    by_cases heq : u = t
    · subst heq
      rw [Function.update_self]
      exact Nat.succ_pos _
    · rw [Function.update_of_ne heq]
      exact hu
  · exact h.bound
  · exact h.procCount
  · exact h.heldProc
  · exact h.member
  · exact h.lists
  · exact h.notNull
  · exact h.sched.1
  · intro hheap
    exact absurd h.sched.2 hheap
  · exact h.sched

theorem setCurrent (h : OwnInv g o) (ht : t ∈ o.tasks)
    (hdue : o.refcount t ≠ refcountGlobal → o.due t = false) :
    OwnInv g (o.setCurrent t) where
  count := h.count
  held := h.held
  bound := h.bound
  procCount := h.procCount
  heldProc := h.heldProc
  member := h.member
  lists := h.lists
  notNull := h.notNull
  current := ht
  running := hdue
  sched := h.sched

/-! ### The last reference -/

theorem releaseProc (h : OwnInv (g.addProc p) o) (hlast : o.procRefcount p ≠ 1) :
    OwnInv g (o.setProcRefcount p (o.procRefcount p - 1)) where
  count := h.count
  held := h.held
  bound := h.bound
  procCount q hq := by
    have hcount := h.procCount q hq
    have hmembers : (o.setProcRefcount p (o.procRefcount p - 1)).members q =
      o.members q := rfl
    rw [hmembers, Ownership.setProcRefcount_procRefcount]
    rw [Held.addProc_procs] at hcount
    by_cases heq : q = p
    · subst heq
      rw [Function.update_self] at hcount ⊢
      omega
    · rw [Function.update_of_ne heq] at hcount ⊢
      exact hcount
  heldProc q hq := by
    apply h.heldProc q
    rw [Held.addProc_procs]
    by_cases heq : q = p
    · subst heq
      rw [Function.update_self]
      exact Nat.succ_pos _
    · rw [Function.update_of_ne heq]
      exact hq
  member := h.member
  lists := h.lists
  notNull := h.notNull
  current := h.current
  running := h.running
  sched := h.sched

theorem proc_mem (h : OwnInv (g.addProc p) o) : p ∈ o.procs := by
  apply h.heldProc p
  rw [Held.addProc_procs, Function.update_self]
  exact Nat.succ_pos _

/-- Whoever gives up the last reference to a process is its only owner. -/
theorem lastProc (h : OwnInv (g.addProc p) o) (hone : o.procRefcount p = 1) :
    g.procs p = 0 ∧ o.members p = 0 ∧ o.taskList p = 0 := by
  have hcount := (h.procCount p h.proc_mem).1
  rw [Held.addProc_procs, Function.update_self] at hcount
  have hnone : o.members p = 0 := by omega
  refine ⟨by omega, hnone, ?_⟩
  obtain ⟨l, hpath, hl⟩ := h.lists p h.proc_mem
  cases l with
  | nil => exact hpath
  | cons t l =>
      obtain ⟨ht, hproc⟩ := hl t List.mem_cons_self
      exact absurd hproc (ne_of_holders_eq_zero hnone ht)

theorem freeProc (h : OwnInv (g.addProc p) o) (hone : o.procRefcount p = 1) :
    OwnInv g (o.freeProc p) := by
  obtain ⟨hheld, hnone, -⟩ := h.lastProc hone
  constructor
  · exact h.count
  · exact h.held
  · exact h.bound
  · intro q hq
    obtain ⟨hne, hq⟩ := Finset.mem_erase.mp hq
    have hcount := h.procCount q hq
    rw [Held.addProc_procs, Function.update_of_ne hne] at hcount
    rw [Ownership.freeProc_procRefcount, Function.update_of_ne hne]
    exact hcount
  · intro q hq
    have hne : q ≠ p := by
      rintro rfl
      omega
    apply Finset.mem_erase.mpr
    refine ⟨hne, h.heldProc q ?_⟩
    rw [Held.addProc_procs, Function.update_of_ne hne]
    exact hq
  · intro t ht hproc
    exact Finset.mem_erase.mpr
      ⟨ne_of_holders_eq_zero hnone ht, h.member t ht hproc⟩
  · intro q hq
    exact h.lists q (Finset.mem_of_mem_erase hq)
  · exact ⟨h.notNull.1, fun hmem => h.notNull.2 (Finset.mem_of_mem_erase hmem)⟩
  · exact h.current
  · exact h.running
  · exact h.sched

theorem task_mem (h : OwnInv (g.addTask t) o) : t ∈ o.tasks := by
  apply h.held t
  rw [Held.addTask_tasks, Function.update_self]
  exact Nat.succ_pos _

/-- Whoever gives up the last reference to a task is its only owner. -/
theorem lastTask (h : OwnInv (g.addTask t) o) (hone : o.refcount t = 1) :
    g.tasks t = 0 ∧ o.slots t = 0 := by
  have hcount := (h.count t h.task_mem (by rw [hone]; decide)).1
  rw [Held.addTask_tasks, Function.update_self] at hcount
  omega

/-- A freed task leaves its reference to its process. -/
def heir (g : Held) (p : ℕ) : Held := if p = 0 then g else g.addProc p

theorem freeTask {listNext taskList : ℕ → ℕ} (h : OwnInv (g.addTask t) o)
    (hone : o.refcount t = 1) (hcur : o.current ≠ t)
    (hlists : (o.freeTask t listNext taskList).Lists (o.tasks.erase t)) :
    OwnInv (heir g (o.proc t)) (o.freeTask t listNext taskList) := by
  obtain ⟨hheld, hslots⟩ := h.lastTask hone
  have htasks : (heir g (o.proc t)).tasks = g.tasks := by
    unfold heir
    split_ifs <;> rfl
  have hmembers (q : ℕ) : (o.freeTask t listNext taskList).members q +
      (if o.proc t = q then 1 else 0) = o.members q := holders_erase h.task_mem
  have hprocs (q : ℕ) (hq : q ≠ 0) : (heir g (o.proc t)).procs q =
      g.procs q + if o.proc t = q then 1 else 0 := by
    unfold heir
    by_cases heq : o.proc t = q
    · rw [if_pos heq, heq, if_neg hq, Held.addProc_procs, Function.update_self]
    · rw [if_neg heq, Nat.add_zero]
      split_ifs
      · rfl
      · exact Function.update_of_ne (Ne.symm heq) _ _
  have hsched : Kern.schedTask ≠ t := h.sched_ne (by rw [hone]; decide)
  constructor
  · intro u hu hheap
    obtain ⟨hne, hu⟩ := Finset.mem_erase.mp hu
    rw [htasks]
    rw [Ownership.freeTask_refcount, Function.update_of_ne hne] at hheap ⊢
    have hcount := h.count u hu hheap
    rw [Held.addTask_tasks, Function.update_of_ne hne] at hcount
    exact hcount
  · intro u hu
    rw [htasks] at hu
    have hne : u ≠ t := by
      rintro rfl
      omega
    apply Finset.mem_erase.mpr
    refine ⟨hne, h.held u ?_⟩
    rw [Held.addTask_tasks, Function.update_of_ne hne]
    exact hu
  · intro v hv
    obtain ⟨hlt, hmem⟩ := h.bound v hv
    refine ⟨hlt, Finset.mem_erase.mpr ⟨?_, hmem⟩⟩
    exact ne_of_holders_eq_zero hslots (Finset.mem_range.mpr hlt)
  · intro q hq
    have hq0 : q ≠ 0 := by
      rintro rfl
      exact h.notNull.2 hq
    have hcount := h.procCount q hq
    have hleft := hmembers q
    rw [hprocs q hq0]
    rw [Ownership.freeTask_procRefcount]
    rw [Held.addTask_procs] at hcount
    omega
  · intro q hq
    by_cases hq0 : q = 0
    · subst hq0
      unfold heir at hq
      split_ifs at hq with h0
      · exact h.heldProc 0 hq
      · rw [Held.addProc_procs, Function.update_of_ne (Ne.symm h0)] at hq
        exact h.heldProc 0 hq
    · rw [hprocs q hq0] at hq
      by_cases heq : o.proc t = q
      · exact heq ▸ h.member t h.task_mem (heq ▸ hq0)
      · rw [if_neg heq] at hq
        exact h.heldProc q hq
  · intro u hu hproc
    exact h.member u (Finset.mem_of_mem_erase hu) hproc
  · exact hlists
  · exact ⟨fun hmem => h.notNull.1 (Finset.mem_of_mem_erase hmem), h.notNull.2⟩
  · exact Finset.mem_erase.mpr ⟨hcur, h.current⟩
  · intro hheap
    rw [Ownership.freeTask_refcount, Ownership.freeTask_current,
      Function.update_of_ne hcur] at hheap
    exact h.running hheap
  · refine ⟨Finset.mem_erase.mpr ⟨hsched, h.sched.1⟩, ?_⟩
    rw [Ownership.freeTask_refcount, Function.update_of_ne hsched]
    exact h.sched.2

/-- Address spaces are counted elsewhere. -/
theorem spaces (h : OwnInv g o) (spaces : ℕ → ℕ) :
    OwnInv { g with spaces := spaces } o :=
  ⟨h.count, h.held, h.bound, h.procCount, h.heldProc, h.member, h.lists,
    h.notNull, h.current, h.running, h.sched⟩

end OwnInv

end PongoOS
