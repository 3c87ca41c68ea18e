import PongoOS.Mm.JitMemory
import PongoOS.Support.Run
import PongoOS.Support.SinglyLinked

/-!
# Kernel stacks

A task has a kernel stack and an exception stack.  Both come from
`kernel_stack_allocate`: it takes a stack from the free list, which is linked
through the top words of the stacks, or maps a new one between two guard pages.
In any interleaving of tasks that get their stacks, write to them and are
released, while others take addresses from `linear_kvm_alloc`, no two stacks
overlap and no stack is lost.
-/

namespace PongoOS

open SinglyLinked

/-- `KERN_STACK_SIZE`. -/
def kernStackSize : ℕ := 0x8000

/-- `PROT_READ|PROT_WRITE|PROT_KERN_ONLY`. -/
def stackProt : Prot := ⟨true, true, false, false, true, false⟩

/-- A stack with its two guard pages. -/
def stackSpan : ℕ := kernStackSize + 2 * pageSize

/-- The stack fields of `struct task`. -/
structure TaskStacks where
  kernelStack : ℕ := 0
  exceptionStackTop : ℕ := 0
  exceptionStack : ℕ := 0
  el0ExceptionStack : ℕ := 0

/-- `word` is what the kernel reads at a virtual address. -/
structure KernelStacks where
  kvm : Kvm
  word : ℕ → ℕ
  stackFreelist : ℕ
  task : ℕ → TaskStacks

namespace KernelStacks

@[simps]
def setKvm (s : KernelStacks) (kvm : Kvm) : KernelStacks := { s with kvm := kvm }

@[simps]
def setWord (s : KernelStacks) (w : ℕ → ℕ) : KernelStacks := { s with word := w }

@[simps]
def setFreelist (s : KernelStacks) (a : ℕ) : KernelStacks :=
  { s with stackFreelist := a }

@[simps]
def setTask (s : KernelStacks) (t : ℕ) (k : TaskStacks) : KernelStacks :=
  { s with task := Function.update s.task t k }

/-- One of the two stacks of a task. -/
def stack (s : KernelStacks) (t : ℕ) (exception : Bool) : ℕ :=
  if exception then (s.task t).exceptionStackTop else (s.task t).kernelStack

def setStack (s : KernelStacks) (t : ℕ) (exception : Bool) (x : ℕ) :
    KernelStacks :=
  s.setTask t (if exception then { s.task t with exceptionStackTop := x }
    else { s.task t with kernelStack := x })

/-- `kernel_stack_allocate_new`. -/
def kernelStackAllocateNew (s : Kvm) : Outcome (ℕ × Kvm) := do
  let (physBacking, mm) ← s.vm.mm.allocPhys kernStackSize
  let (vmaBacking, cursor) ← linearKvmAlloc s.cursor stackSpan
  let vm ← (s.vm.setMm mm).vmSpaceMapPagePhysicalProt Vm.kernel vmaBacking 0
    Vm.noProt
  let vm ← Outcome.forRange
    (fun i vm => vm.vmSpaceMapPagePhysicalProt Vm.kernel
      (vmaBacking + pageSize + i * pageSize) (physBacking + i * pageSize)
      stackProt)
    0 (kernStackSize / pageSize) vm
  let vm ← vm.vmSpaceMapPagePhysicalProt Vm.kernel
    (vmaBacking + kernStackSize + pageSize) 0 Vm.noProt
  pure (vmaBacking + pageSize + kernStackSize - 0x400, ⟨vm, cursor⟩)

def kernelStackAllocate (s : KernelStacks) : Outcome (ℕ × KernelStacks) :=
  if s.stackFreelist ≠ 0 then
    pure (s.stackFreelist, s.setFreelist (s.word s.stackFreelist))
  else do
    let (stack, kvm) ← kernelStackAllocateNew s.kvm
    pure (stack, s.setKvm kvm)

def kernelStackFree (stack : ℕ) (s : KernelStacks) : KernelStacks :=
  (s.setWord (Function.update s.word stack s.stackFreelist)).setFreelist stack

/-- One of the two branches of `task_alloc_fast_stacks`. -/
def allocFastStack (t : ℕ) (exception : Bool) (s : KernelStacks) :
    Outcome KernelStacks :=
  if s.stack t exception = 0 then do
    let (stack, s) ← s.kernelStackAllocate
    pure (s.setStack t exception stack)
  else pure s

/-- The aligned copies, made at the end of `task_alloc_fast_stacks`. -/
def alignStacks (t : ℕ) (s : KernelStacks) : KernelStacks :=
  s.setTask t { s.task t with
    exceptionStack := (s.task t).exceptionStackTop / 16 * 16
    el0ExceptionStack := (s.task t).kernelStack / 16 * 16 }

/-- What `task_release` does with the stacks, before the task is freed. -/
def freeTaskStacks (t : ℕ) (s : KernelStacks) : KernelStacks :=
  kernelStackFree (s.task t).exceptionStackTop
    (kernelStackFree (s.task t).kernelStack s)

end KernelStacks

/-! ## The stacks of the tasks -/

namespace KernelStacks

variable {s s' : KernelStacks} {t : ℕ} {exception : Bool} {x : ℕ}

theorem stack_eq (h : s'.task = s.task) : s'.stack = s.stack := by
  funext t exception
  simp only [stack, h]

theorem stack_setTask_of_ne {k : TaskStacks} {t' : ℕ} (h : t' ≠ t) :
    (s.setTask t k).stack t' exception = s.stack t' exception := by
  simp only [stack, setTask_task, Function.update_of_ne h]

theorem stack_setTask_empty : (s.setTask t {}).stack t exception = 0 := by
  simp only [stack, setTask_task, Function.update_self, ite_self]

theorem stack_alignStacks : (s.alignStacks t).stack = s.stack := by
  funext t' exception
  by_cases ht : t' = t
  · subst ht
    simp only [stack, alignStacks, setTask_task, Function.update_self]
  · exact stack_setTask_of_ne ht

theorem stack_setStack_self : (s.setStack t exception x).stack t exception = x := by
  cases exception <;> simp [stack, setStack]

theorem stack_setStack_of_ne {o : ℕ × Bool} (h : o ≠ (t, exception)) :
    (s.setStack t exception x).stack o.1 o.2 = s.stack o.1 o.2 := by
  obtain ⟨t', exception'⟩ := o
  by_cases ht : t' = t
  · subst ht
    -- the other stack of the same task
    cases exception <;> cases exception' <;> simp [stack, setStack] at h ⊢
  · exact stack_setTask_of_ne ht

/-- The stacks of the given tasks. -/
def held (s : KernelStacks) (owners : List (ℕ × Bool)) : List ℕ :=
  owners.map fun o => s.stack o.1 o.2

theorem held_setStack {owners : List (ℕ × Bool)} (h : (t, exception) ∉ owners) :
    (s.setStack t exception x).held owners = s.held owners := by
  refine List.map_congr_left fun o ho => stack_setStack_of_ne ?_
  rintro rfl
  exact h ho

end KernelStacks

open KernelStacks

/-! ## Calls -/

/-- The eight bytes at `a` are off the stack. -/
def OffStack (x a : ℕ) : Prop := a + kernStackSize + 8 ≤ x + 0x400 ∨ x + 0x400 ≤ a

/-- Two stacks and their guard pages do not overlap. -/
def StackApart (x y : ℕ) : Prop := x + stackSpan ≤ y ∨ y + stackSpan ≤ x

/-- What happens while interrupts are disabled is one call. -/
inductive StackCall where
  /-- `task_alloc_fast_stacks` gets one of the stacks. -/
  | allocFastStack (t : ℕ) (exception : Bool)
  | alignStacks (t : ℕ)
  /-- The last reference to a task is released. -/
  | release (t : ℕ)
  /-- A task writes to its stack and outside the region of `linear_kvm_alloc`. -/
  | store (t : ℕ) (exception : Bool) (w : ℕ → ℕ)
  /-- Somebody else's `linear_kvm_alloc` moves the cursor.  It makes its test
  before it disables interrupts: the cursor may have moved in between. -/
  | reserve (n : ℕ)
  /-- The address spaces change, and what is read above the cursor. -/
  | spaces (vm : Vm) (w : ℕ → ℕ)

/-- How far the call moves the cursor of `linear_kvm_alloc` for others. -/
def StackCall.reserved : StackCall → ℕ
  | reserve n => Mm.staticReserve n
  | _ => 0

def StackStep (s : KernelStacks) : StackCall → KernelStacks → Prop
  | .allocFastStack t exception, s' => s.allocFastStack t exception = .ok s'
  | .alignStacks t, s' => s' = s.alignStacks t
  | .release t, s' => (∀ exception, s.stack t exception ≠ 0) ∧
      s' = (s.freeTaskStacks t).setTask t {}
  | .store t exception w, s' => s.stack t exception ≠ 0 ∧
      (∀ a, linearKvmBase ≤ a → a < linearKvmEnd →
        OffStack (s.stack t exception) a → w a = s.word a) ∧
      s' = s.setWord w
  | .reserve n, s' => s.kvm.cursor + Mm.staticReserve n < 2 ^ 64 ∧
      s' = s.setKvm ⟨s.kvm.vm, s.kvm.cursor + Mm.staticReserve n⟩
  | .spaces vm w, s' =>
      (∀ a, linearKvmBase ≤ a → a < s.kvm.cursor → w a = s.word a) ∧
      s' = (s.setKvm ⟨vm, s.kvm.cursor⟩).setWord w

/-- So is a call of `linear_kvm_alloc` that is not interrupted. -/
theorem linearKvmAlloc_run {s : KernelStacks} {n va cursor : ℕ}
    (h : linearKvmAlloc s.kvm.cursor n = .ok (va, cursor)) :
    Run StackStep s [.reserve n] (s.setKvm ⟨s.kvm.vm, cursor⟩) := by
  obtain ⟨-, rfl, hend⟩ := linearKvmAlloc_step h
  refine .single ⟨hend.trans_lt ?_, rfl⟩
  decide

/-! ## The pool -/

/-- `held` are the stacks in use and `free` those of the free list. -/
structure StackPool (s : KernelStacks) (held free : List ℕ) (reserved : ℕ) :
    Prop where
  path : Path s.word 0 s.stackFreelist free
  apart : (held ++ free).Pairwise StackApart
  within : ∀ x ∈ held ++ free,
    linearKvmBase + 0xbc00 ≤ x ∧ x + 0x4400 ≤ s.kvm.cursor ∧
      x + 0x4400 ≤ linearKvmEnd
  cursor_eq : s.kvm.cursor =
    linearKvmBase + reserved + stackSpan * (held.length + free.length)

theorem StackApart.symm {x y : ℕ} (h : StackApart x y) : StackApart y x :=
  Or.symm h

theorem StackApart.irrefl (x : ℕ) : ¬ StackApart x x := by
  unfold StackApart stackSpan kernStackSize pageSize
  omega

/-- The top word of a stack is off every other stack. -/
theorem StackApart.offStack {x y : ℕ} (h : StackApart x y) : OffStack x y := by
  unfold StackApart stackSpan kernStackSize pageSize at h
  unfold OffStack kernStackSize
  omega

theorem staticReserve_stackSpan : Mm.staticReserve stackSpan = stackSpan := by
  decide

theorem kernelStackAllocateNew_ok {k k' : Kvm} {x : ℕ}
    (h : kernelStackAllocateNew k = .ok (x, k')) :
    x = k.cursor + 0xbc00 ∧ k'.cursor = k.cursor + stackSpan ∧
      k'.cursor ≤ linearKvmEnd := by
  unfold kernelStackAllocateNew at h
  simp only [Outcome.bind_eq_ok, Outcome.pure_eq_ok, Prod.mk.injEq] at h
  obtain ⟨⟨phys, mm⟩, -, ⟨va, cursor⟩, halloc, -, -, -, -, vm, -, rfl, rfl⟩ := h
  obtain ⟨rfl, rfl, hend⟩ := linearKvmAlloc_step halloc
  rw [staticReserve_stackSpan] at hend ⊢
  refine ⟨?_, rfl, hend⟩
  unfold kernStackSize pageSize
  omega

namespace StackPool

variable {s s' : KernelStacks} {held held' free : List ℕ} {reserved x : ℕ}

theorem perm (h : StackPool s held free reserved) (hp : held.Perm held') :
    StackPool s held' free reserved where
  path := h.path
  apart := ((hp.append_right free).pairwise_iff StackApart.symm).mp h.apart
  within y hy := h.within y ((hp.append_right free).mem_iff.mpr hy)
  cursor_eq := hp.length_eq ▸ h.cursor_eq

/-- Only the free list, the words that link it and the cursor matter. -/
theorem congr (h : StackPool s held free reserved)
    (hlist : s'.stackFreelist = s.stackFreelist)
    (hword : ∀ y ∈ free, s'.word y = s.word y)
    (hcursor : s'.kvm.cursor = s.kvm.cursor) :
    StackPool s' held free reserved where
  path := hlist ▸ h.path.congr hword
  apart := h.apart
  within := hcursor ▸ h.within
  cursor_eq := hcursor ▸ h.cursor_eq

theorem apart_free (h : StackPool s held free reserved) (hx : x ∈ held) {y : ℕ}
    (hy : y ∈ free) : StackApart x y :=
  (List.pairwise_append.mp h.apart).2.2 x hx y hy

theorem allocateNew {k : Kvm} (h : StackPool s held [] reserved)
    (hnew : kernelStackAllocateNew s.kvm = .ok (x, k)) :
    StackPool (s.setKvm k) (x :: held) [] reserved := by
  obtain ⟨rfl, hcursor, hend⟩ := kernelStackAllocateNew_ok hnew
  have hwithin := h.within
  have heq := h.cursor_eq
  simp only [List.append_nil] at hwithin
  refine ⟨h.path, ?_, ?_, ?_⟩
  · rw [List.append_nil]
    refine List.pairwise_cons.mpr ⟨?_, by simpa using h.apart⟩
    -- what is mapped already ends below the cursor
    intro y hy
    have := hwithin y hy
    right
    unfold stackSpan kernStackSize pageSize
    omega
  · rw [List.append_nil, setKvm_kvm, hcursor]
    rw [hcursor] at hend
    intro y hy
    rcases List.mem_cons.mp hy with rfl | hy
    · unfold stackSpan kernStackSize pageSize at hend ⊢
      omega
    · have := hwithin y hy
      omega
  · rw [setKvm_kvm, hcursor, heq]
    simp only [List.length_nil, List.length_cons]
    ring

theorem allocate (h : StackPool s held free reserved)
    (halloc : s.kernelStackAllocate = .ok (x, s')) :
    ∃ free', StackPool s' (x :: held) free' reserved ∧ s'.task = s.task := by
  unfold kernelStackAllocate at halloc
  split at halloc
  · rename_i hlist
    simp only [Outcome.pure_eq_ok, Prod.mk.injEq] at halloc
    obtain ⟨rfl, rfl⟩ := halloc
    cases free with
    | nil => exact absurd h.path hlist
    | cons y free =>
        obtain ⟨hhead, -, hrest⟩ := h.path
        rw [hhead]
        have hperm : (held ++ y :: free).Perm (y :: held ++ free) :=
          List.perm_middle
        refine ⟨free, ⟨hrest, ?_, ?_, ?_⟩, rfl⟩
        · exact (hperm.pairwise_iff StackApart.symm).mp h.apart
        · intro z hz
          exact h.within z (hperm.mem_iff.mpr hz)
        · rw [setFreelist_kvm, h.cursor_eq]
          simp only [List.length_cons]
          ring
  · rename_i hlist
    simp only [Outcome.bind_eq_ok, Outcome.pure_eq_ok, Prod.exists,
      Prod.mk.injEq] at halloc
    obtain ⟨y, k, hnew, rfl, rfl⟩ := halloc
    cases free with
    | nil => exact ⟨[], h.allocateNew hnew, rfl⟩
    | cons z free =>
        obtain ⟨hhead, hz, -⟩ := h.path
        exact absurd (hhead.trans_ne hz) hlist

theorem release (h : StackPool s (x :: held) free reserved) :
    StackPool (s.kernelStackFree x) held (x :: free) reserved := by
  have hperm : (x :: held ++ free).Perm (held ++ x :: free) :=
    List.perm_middle.symm
  have hx := h.within x (List.mem_append_left _ List.mem_cons_self)
  refine ⟨h.path.push ?_ ?_, ?_, ?_, ?_⟩
  · intro hmem
    exact StackApart.irrefl x (h.apart_free List.mem_cons_self hmem)
  · rintro rfl
    exact absurd hx.1 (by decide)
  · exact (hperm.pairwise_iff StackApart.symm).mp h.apart
  · intro z hz
    exact h.within z (hperm.mem_iff.mpr hz)
  · refine h.cursor_eq.trans ?_
    simp only [List.length_cons]
    ring

theorem store (h : StackPool s held free reserved) (hx : x ∈ held) {w : ℕ → ℕ}
    (hw : ∀ a, linearKvmBase ≤ a → a < linearKvmEnd → OffStack x a →
      w a = s.word a) :
    StackPool (s.setWord w) held free reserved := by
  refine h.congr rfl ?_ rfl
  intro y hy
  have hwithin := h.within y (List.mem_append_right _ hy)
  exact hw y (by omega) (by omega) (h.apart_free hx hy).offStack

theorem spaces (h : StackPool s held free reserved) {vm : Vm} {w : ℕ → ℕ}
    (hw : ∀ a, linearKvmBase ≤ a → a < s.kvm.cursor → w a = s.word a) :
    StackPool ((s.setKvm ⟨vm, s.kvm.cursor⟩).setWord w) held free reserved := by
  refine h.congr rfl ?_ rfl
  intro y hy
  have hwithin := h.within y (List.mem_append_right _ hy)
  exact hw y (by omega) (by omega)

theorem reserve (h : StackPool s held free reserved) (n : ℕ) :
    StackPool (s.setKvm ⟨s.kvm.vm, s.kvm.cursor + n⟩) held free
      (reserved + n) := by
  refine ⟨h.path, h.apart, ?_, ?_⟩
  · intro z hz
    obtain ⟨hlow, hhigh, hend⟩ := h.within z hz
    exact ⟨hlow, hhigh.trans (Nat.le_add_right _ _), hend⟩
  · rw [setKvm_kvm, h.cursor_eq]
    ring

end StackPool

/-! ## Runs -/

/-- `owners` are the tasks that have a kernel stack, or an exception stack. -/
def OwnedPool (s : KernelStacks) (reserved : ℕ) : Prop :=
  ∃ owners free, owners.Nodup ∧
    (∀ t exception, (t, exception) ∈ owners ↔ s.stack t exception ≠ 0) ∧
    StackPool s (s.held owners) free reserved

namespace OwnedPool

variable {s s' : KernelStacks} {reserved reserved' t : ℕ} {exception : Bool}

/-- The tasks keep their stacks. -/
theorem congr (h : OwnedPool s reserved) (hstack : s'.stack = s.stack)
    (hpool : ∀ held free,
      (∀ t exception, s.stack t exception ≠ 0 → s.stack t exception ∈ held) →
      StackPool s held free reserved → StackPool s' held free reserved') :
    OwnedPool s' reserved' := by
  obtain ⟨owners, free, hnodup, howner, hs⟩ := h
  refine ⟨owners, free, hnodup, by rwa [hstack], ?_⟩
  have hheld : s'.held owners = s.held owners := by
    unfold KernelStacks.held
    rw [hstack]
  rw [hheld]
  refine hpool _ _ ?_ hs
  intro t exception hne
  exact List.mem_map.mpr ⟨(t, exception), (howner t exception).mpr hne, rfl⟩

theorem allocFastStack (h : OwnedPool s reserved)
    (halloc : s.allocFastStack t exception = .ok s') : OwnedPool s' reserved := by
  unfold KernelStacks.allocFastStack at halloc
  split at halloc
  · rename_i hnone
    simp only [Outcome.bind_eq_ok, Outcome.pure_eq_ok, Prod.exists] at halloc
    obtain ⟨x, s₁, hstack, rfl⟩ := halloc
    obtain ⟨owners, free, hnodup, howner, hs⟩ := h
    obtain ⟨free', hs₁, htask⟩ := hs.allocate hstack
    have hnew : (t, exception) ∉ owners := fun hmem =>
      (howner t exception).mp hmem hnone
    have hx : x ≠ 0 := by
      rintro rfl
      exact absurd (hs₁.within 0 (by simp)).1 (by decide)
    refine ⟨(t, exception) :: owners, free', List.nodup_cons.mpr ⟨hnew, hnodup⟩,
      ?_, ?_⟩
    · intro t' exception'
      by_cases ho : (t', exception') = (t, exception)
      · cases ho
        rw [stack_setStack_self]
        exact iff_of_true List.mem_cons_self hx
      · rw [stack_setStack_of_ne ho, stack_eq htask,
          ← howner, List.mem_cons, or_iff_right ho]
    · have hheld : (s₁.setStack t exception x).held ((t, exception) :: owners) =
          x :: s.held owners := by
        have hrest := held_setStack (s := s₁) (x := x) hnew
        unfold KernelStacks.held at hrest ⊢
        rw [List.map_cons, hrest, stack_setStack_self, stack_eq htask]
      rw [hheld]
      exact hs₁.congr rfl (fun _ _ => rfl) rfl
  · rw [Outcome.pure_eq_ok] at halloc
    exact halloc ▸ h

theorem release (h : OwnedPool s reserved)
    (hstack : ∀ exception, s.stack t exception ≠ 0) :
    OwnedPool ((s.freeTaskStacks t).setTask t {}) reserved := by
  obtain ⟨owners, free, hnodup, howner, hs⟩ := h
  have hkernel : (t, false) ∈ owners := (howner t false).mpr (hstack false)
  have hexception : (t, true) ∈ owners.erase (t, false) :=
    hnodup.mem_erase_iff.mpr ⟨by simp, (howner t true).mpr (hstack true)⟩
  have hrest := hnodup.erase (t, false)
  have hperm : owners.Perm
      ((t, false) :: (t, true) :: (owners.erase (t, false)).erase (t, true)) :=
    (List.perm_cons_erase hkernel).trans ((List.perm_cons_erase hexception).cons _)
  refine ⟨(owners.erase (t, false)).erase (t, true),
    s.stack t true :: s.stack t false :: free, hrest.erase _, ?_, ?_⟩
  · intro t' exception'
    rw [hrest.mem_erase_iff, hnodup.mem_erase_iff, howner]
    by_cases ht : t' = t
    · subst ht
      rw [stack_setTask_empty]
      cases exception' <;> simp
    · have hstack : (s.freeTaskStacks t).stack = s.stack := stack_eq rfl
      rw [stack_setTask_of_ne ht, hstack]
      simp [ht]
  · have hfree := ((hs.perm (hperm.map _)).release).release
    have hheld : ((s.freeTaskStacks t).setTask t {}).held
        ((owners.erase (t, false)).erase (t, true)) =
        s.held ((owners.erase (t, false)).erase (t, true)) := by
      refine List.map_congr_left fun o ho => stack_setTask_of_ne ?_
      rintro rfl
      rw [hrest.mem_erase_iff, hnodup.mem_erase_iff] at ho
      obtain ⟨t', exception'⟩ := o
      cases exception' <;> simp at ho
    rw [hheld]
    exact hfree.congr rfl (fun _ _ => rfl) rfl

theorem step {c : StackCall} (h : OwnedPool s reserved) (hstep : StackStep s c s') :
    OwnedPool s' (reserved + c.reserved) := by
  cases c with
  | allocFastStack t exception => exact h.allocFastStack hstep
  | alignStacks t =>
      obtain rfl := hstep
      exact h.congr stack_alignStacks fun held free _ hs =>
        hs.congr rfl (fun _ _ => rfl) rfl
  | release t =>
      obtain ⟨hstack, rfl⟩ := hstep
      exact h.release hstack
  | store t exception w =>
      obtain ⟨hstack, hw, rfl⟩ := hstep
      exact h.congr rfl fun held free hheld hs =>
        hs.store (hheld t exception hstack) hw
  | reserve n =>
      obtain ⟨-, rfl⟩ := hstep
      exact h.congr rfl fun held free _ hs => hs.reserve (Mm.staticReserve n)
  | spaces vm w =>
      obtain ⟨hw, rfl⟩ := hstep
      exact h.congr rfl fun held free _ hs => hs.spaces hw

/-- Two stacks of tasks are not the same stack. -/
theorem apart (h : OwnedPool s reserved) {t' : ℕ} {exception' : Bool}
    (hne : (t, exception) ≠ (t', exception'))
    (hstack : s.stack t exception ≠ 0) (hstack' : s.stack t' exception' ≠ 0) :
    StackApart (s.stack t exception) (s.stack t' exception') := by
  obtain ⟨owners, free, -, howner, hs⟩ := h
  have hheld : owners.Pairwise fun o o' =>
      StackApart (s.stack o.1 o.2) (s.stack o'.1 o'.2) :=
    List.pairwise_map.mp (List.pairwise_append.mp hs.apart).1
  have hsymm : Std.Symm fun o o' : ℕ × Bool =>
      StackApart (s.stack o.1 o.2) (s.stack o'.1 o'.2) :=
    ⟨fun _ _ => StackApart.symm⟩
  exact hheld.forall ((howner t exception).mpr hstack)
    ((howner t' exception').mpr hstack') hne

end OwnedPool

end PongoOS
