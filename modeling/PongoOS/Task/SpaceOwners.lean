import PongoOS.Mm.SpaceRefs
import PongoOS.Task.Lifetimes

/-!
# Who owns an address space

An address space is owned by callers, by processes, by tasks and by the spaces
that it is the parent of.

`task_spawn` moves a task to a new address space whose parent is the one it had.
The new space takes a reference to its parent, and the task's own reference is
never released.
-/

namespace PongoOS

open Holders RefForest

namespace Kern

/-! ## Counting -/

def taskSpaces (s : Kern) (t : ℕ) : ℕ := (s.task t).vmSpace

def procSpaces (s : Kern) (p : ℕ) : ℕ := (s.proc p).vmSpace

/-- The references to `a` that callers, processes and tasks hold. -/
def spaceExt (s : Kern) (g : Held) (a : ℕ) : ℕ :=
  g.spaces a + holders s.liveProcs s.procSpaces a +
    holders s.liveTasks s.taskSpaces a

/-- Every address space counts its owners. -/
def Spaces (g : Held) (s : Kern) : Prop := s.vm.Refs (s.spaceExt g) s.vm.live

section Spaces

variable {s s' : Kern} {g g' : Held} {t p a b n : ℕ}

theorem Spaces.mem (h : s.Spaces g) (h0 : a ≠ 0) (hpos : 0 < s.spaceExt g a) :
    a ∈ s.vm.live := h.counts.outside a h0 hpos

theorem Spaces.task_mem (h : s.Spaces g) (ht : t ∈ s.liveTasks) :
    (s.task t).vmSpace = 0 ∨ (s.task t).vmSpace ∈ s.vm.live := by
  by_cases h0 : (s.task t).vmSpace = 0
  · exact Or.inl h0
  · right
    apply h.mem h0
    have hpos : 0 < holders s.liveTasks s.taskSpaces (s.task t).vmSpace :=
      holders_pos ht rfl
    unfold spaceExt
    omega

theorem Spaces.proc_mem (h : s.Spaces g) (hp : p ∈ s.liveProcs) :
    (s.proc p).vmSpace = 0 ∨ (s.proc p).vmSpace ∈ s.vm.live := by
  by_cases h0 : (s.proc p).vmSpace = 0
  · exact Or.inl h0
  · right
    apply h.mem h0
    have hpos : 0 < holders s.liveProcs s.procSpaces (s.proc p).vmSpace :=
      holders_pos hp rfl
    unfold spaceExt
    omega

theorem vmRelease_spaces {vm vm' : Vm} {ext : ℕ → ℕ} {fuel : ℕ}
    (h : vm.Refs (bump ext a) vm.live)
    (hok : vm.vmRelease fuel a = .ok vm') : vm'.Refs ext vm'.live := by
  obtain ⟨F, hlive, h'⟩ := Vm.vmRelease_refs h hok
  rw [hlive]
  exact h'

/-! ## What leaves the owners alone -/

/-- The spaces and their owners are the same. -/
structure SameSpaces (s s' : Kern) : Prop where
  vm : s'.vm = s.vm
  liveTasks : s'.liveTasks = s.liveTasks
  liveProcs : s'.liveProcs = s.liveProcs
  task : ∀ t, (s'.task t).vmSpace = (s.task t).vmSpace
  proc : ∀ p, (s'.proc p).vmSpace = (s.proc p).vmSpace

theorem SameSpaces.of_rest (h : s'.rest = s.rest) : SameSpaces s s' where
  vm := (SameButList.of_rest h).vm
  liveTasks := (SameButList.of_rest h).liveTasks
  liveProcs := (SameButList.of_rest h).liveProcs
  task := (SameButList.of_rest h).taskSpace
  proc := (SameButList.of_rest h).procSpace

theorem SameSpaces.modTask {f : Task → Task}
    (hf : (f (s.task t)).vmSpace = (s.task t).vmSpace) :
    SameSpaces s (s.modTask t f) := by
  refine ⟨rfl, rfl, rfl, ?_, fun _ => rfl⟩
  intro u
  by_cases hu : u = t
  · subst hu
    rw [modTask_task, Function.update_self, hf]
  · rw [modTask_task, Function.update_of_ne hu]

theorem SameSpaces.modFlags (f : TaskFlags → TaskFlags) :
    SameSpaces s (s.modFlags t f) := .modTask rfl

theorem SameSpaces.modProc {f : Proc → Proc}
    (hf : (f (s.proc p)).vmSpace = (s.proc p).vmSpace) :
    SameSpaces s (s.modProc p f) := by
  refine ⟨rfl, rfl, rfl, fun _ => rfl, ?_⟩
  intro q
  by_cases hq : q = p
  · subst hq
    rw [modProc_proc, Function.update_self, hf]
  · rw [modProc_proc, Function.update_of_ne hq]

theorem SameSpaces.trans {s₁ : Kern} (h : SameSpaces s s₁)
    (h' : SameSpaces s₁ s') : SameSpaces s s' where
  vm := h'.vm.trans h.vm
  liveTasks := h'.liveTasks.trans h.liveTasks
  liveProcs := h'.liveProcs.trans h.liveProcs
  task t := (h'.task t).trans (h.task t)
  proc p := (h'.proc p).trans (h.proc p)

theorem SameSpaces.taskReference (t : ℕ) :
    SameSpaces s (s.taskReference t) := by
  unfold Kern.taskReference
  split_ifs
  · exact .of_rest rfl
  · exact .of_rest rfl
  · exact .modTask rfl

theorem SameSpaces.procReference (p : ℕ) :
    SameSpaces s (s.procReference p) := by
  unfold Kern.procReference
  split_ifs
  · exact .of_rest rfl
  · exact .modProc rfl

theorem SameSpaces.setGPid (n : ℕ) : SameSpaces s (s.setGPid n) :=
  ⟨rfl, rfl, rfl, fun _ => rfl, fun _ => rfl⟩

theorem spaceExt_congr (htasks : s'.liveTasks = s.liveTasks)
    (hprocs : s'.liveProcs = s.liveProcs)
    (htask : ∀ t ∈ s.liveTasks, (s'.task t).vmSpace = (s.task t).vmSpace)
    (hproc : ∀ p ∈ s.liveProcs, (s'.proc p).vmSpace = (s.proc p).vmSpace)
    (hheld : g'.spaces = g.spaces) : s'.spaceExt g' = s.spaceExt g := by
  funext a
  have htasks' := holders_congr (f := s'.taskSpaces) (g := s.taskSpaces)
    (a := a) htask
  have hprocs' := holders_congr (f := s'.procSpaces) (g := s.procSpaces)
    (a := a) hproc
  unfold spaceExt
  rw [htasks, hprocs, htasks', hprocs', hheld]

theorem Spaces.of_same (h : s.Spaces g) (hsame : SameSpaces s s')
    (hheld : g'.spaces = g.spaces) : s'.Spaces g' := by
  have hext : s'.spaceExt g' = s.spaceExt g :=
    spaceExt_congr hsame.liveTasks hsame.liveProcs (fun t _ => hsame.task t)
      (fun p _ => hsame.proc p) hheld
  unfold Spaces
  rw [hext, hsame.vm]
  exact h

/-! ## Owners that go -/

theorem spaceExt_erase_task (ht : t ∈ s.liveTasks) :
    s.spaceExt g =
      bump ((s.setLiveTasks (s.liveTasks.erase t)).spaceExt g)
        (s.task t).vmSpace := by
  funext a
  have herase := holders_erase (f := s.taskSpaces) (a := a) ht
  have hsame : (s.setLiveTasks (s.liveTasks.erase t)).spaceExt g a =
      g.spaces a + holders s.liveProcs s.procSpaces a +
        holders (s.liveTasks.erase t) s.taskSpaces a := rfl
  have hself : s.taskSpaces t = (s.task t).vmSpace := rfl
  unfold bump
  rw [hsame]
  unfold spaceExt
  rw [hself] at herase
  omega

theorem spaceExt_erase_proc (hp : p ∈ s.liveProcs) :
    s.spaceExt g =
      bump ((s.setLiveProcs (s.liveProcs.erase p)).spaceExt g)
        (s.proc p).vmSpace := by
  funext a
  have herase := holders_erase (f := s.procSpaces) (a := a) hp
  have hsame : (s.setLiveProcs (s.liveProcs.erase p)).spaceExt g a =
      g.spaces a + holders (s.liveProcs.erase p) s.procSpaces a +
        holders s.liveTasks s.taskSpaces a := rfl
  have hself : s.procSpaces p = (s.proc p).vmSpace := rfl
  unfold bump
  rw [hsame]
  unfold spaceExt
  rw [hself] at herase
  omega

theorem ProcReleased.spaces (hrel : ProcReleased p s s') (h : s.Spaces g)
    (hheld : g'.spaces = g.spaces) : s'.Spaces g' := by
  have htask (t : ℕ) : (s'.task t).vmSpace = (s.task t).vmSpace := by
    rw [hrel.task]
  rcases hrel.vm with ⟨hprocs, hvm⟩ | ⟨hp, hprocs, fuel, hvm⟩
  · exact h.of_same ⟨hvm, hrel.liveTasks, hprocs, htask, hrel.space⟩ hheld
  · have hext : s'.spaceExt g' =
        (s.setLiveProcs (s.liveProcs.erase p)).spaceExt g :=
      spaceExt_congr hrel.liveTasks hprocs (fun t _ => htask t)
        (fun q _ => hrel.space q) hheld
    unfold Spaces at h ⊢
    rw [spaceExt_erase_proc hp] at h
    rw [hext]
    exact vmRelease_spaces h hvm

theorem TaskReleased.spaces (hrel : TaskReleased t s s') (h : s.Spaces g)
    (hheld : g'.spaces = g.spaces) : s'.Spaces g' := by
  by_cases hone : (s.task t).refcount = 1
  · obtain ⟨hmem, htasks, r, vm₁, vm₂, ⟨addr, hdealloc⟩, ⟨fuel, hvm₂⟩,
      hproc⟩ := hrel.freed hone
    unfold Spaces at h ⊢
    rw [spaceExt_erase_task hmem] at h
    obtain ⟨hlive₁, h₁⟩ := Vm.vmDeallocate_refs h hdealloc
    rw [← hlive₁] at h₁
    have h₂ := vmRelease_spaces h₁ hvm₂
    rcases hproc with ⟨hprocs, hvm⟩ | ⟨p, hp, hprocs, fuel', hvm⟩
    · have hext : s'.spaceExt g' =
          (s.setLiveTasks (s.liveTasks.erase t)).spaceExt g :=
        spaceExt_congr htasks hprocs (fun u _ => hrel.taskSpace u)
          (fun q _ => hrel.procSpace q) hheld
      rw [hext, hvm]
      exact h₂
    · have hext : s'.spaceExt g' =
          ((s.setLiveTasks (s.liveTasks.erase t)).setLiveProcs
            (s.liveProcs.erase p)).spaceExt g :=
        spaceExt_congr htasks hprocs (fun u _ => hrel.taskSpace u)
          (fun q _ => hrel.procSpace q) hheld
      have hp' : p ∈ (s.setLiveTasks (s.liveTasks.erase t)).liveProcs := hp
      rw [spaceExt_erase_proc hp'] at h₂
      rw [hext]
      exact vmRelease_spaces h₂ hvm
  · obtain ⟨htasks, hprocs, hvm, -⟩ := hrel.kept hone
    exact h.of_same ⟨hvm, htasks, hprocs, hrel.taskSpace, hrel.procSpace⟩ hheld

theorem registerIrqHandler_spaces {v fuel : ℕ}
    (howners : OwnInv g (s.ownership s.liveTasks s.irqvecs))
    (h : s.Spaces g) (hok : s.registerIrqHandler fuel v t = .ok s') :
    s'.Spaces g := by
  simp only [registerIrqHandler, Outcome.bind_eq_ok, Outcome.pure_eq_ok] at hok
  obtain ⟨-, -, s₁, hrelease, rfl⟩ := hok
  obtain ⟨-, hrel⟩ := releaseHandler_owners howners hrelease
  have h₁ : s₁.Spaces g := by
    rcases hrel with ⟨-, rfl⟩ | hrel
    · exact h
    · exact hrel.spaces h rfl
  have h₂ := h₁.of_same (.taskReference t) rfl
  exact h₂.of_same ⟨rfl, rfl, rfl, fun _ => rfl, fun _ => rfl⟩ rfl

/-! ## New owners -/

/-- The address space that a new task gets when it is created with `p`. -/
def initSpace (p : ℕ) (s : Kern) : ℕ :=
  if p ≠ 0 then (s.proc p).vmSpace else (s.task s.taskCurrent).vmSpace

/-- From `s` to `s'` the task `t` came, and took a reference to `a`. -/
structure Adds (t a : ℕ) (s s' : Kern) : Prop where
  vm : s'.vm = s.vm.vmReference a
  liveTasks : s'.liveTasks = insert t s.liveTasks
  liveProcs : s'.liveProcs = s.liveProcs
  self : (s'.task t).vmSpace = a
  others : ∀ u ≠ t, (s'.task u).vmSpace = (s.task u).vmSpace
  proc : ∀ p, (s'.proc p).vmSpace = (s.proc p).vmSpace

theorem Adds.of_same {s₁ : Kern} (h : Adds t a s s₁)
    (hsame : SameSpaces s₁ s') : Adds t a s s' where
  vm := hsame.vm.trans h.vm
  liveTasks := hsame.liveTasks.trans h.liveTasks
  liveProcs := hsame.liveProcs.trans h.liveProcs
  self := (hsame.task t).trans h.self
  others u hu := (hsame.task u).trans (h.others u hu)
  proc p := (hsame.proc p).trans (h.proc p)

theorem spaceExt_insert_task (ht : t ∉ s.liveTasks)
    (htasks : s'.liveTasks = insert t s.liveTasks)
    (hprocs : s'.liveProcs = s.liveProcs)
    (hothers : ∀ u ≠ t, (s'.task u).vmSpace = (s.task u).vmSpace)
    (hproc : ∀ p, (s'.proc p).vmSpace = (s.proc p).vmSpace)
    (hheld : g'.spaces = g.spaces) :
    s'.spaceExt g' = bump (s.spaceExt g) (s'.task t).vmSpace := by
  funext a
  have hinsert := holders_insert (f := s'.taskSpaces) (a := a) ht
  have hsame : holders s.liveTasks s'.taskSpaces a =
      holders s.liveTasks s.taskSpaces a := by
    apply holders_congr
    intro u hu
    apply hothers
    rintro rfl
    exact ht hu
  have hprocs' : holders s.liveProcs s'.procSpaces a =
      holders s.liveProcs s.procSpaces a :=
    holders_congr fun q _ => hproc q
  have hself : s'.taskSpaces t = (s'.task t).vmSpace := rfl
  unfold bump spaceExt
  rw [htasks, hprocs, hheld, hinsert, hsame, hprocs', hself]
  exact (Nat.add_assoc _ _ _).symm

theorem Adds.spaces (hadds : Adds t a s s') (h : s.Spaces g)
    (ht : t ∉ s.liveTasks) (ha : a = 0 ∨ a ∈ s.vm.live)
    (href : s.vm.Referable a) (hheld : g'.spaces = g.spaces) :
    s'.Spaces g' := by
  have hext := spaceExt_insert_task ht hadds.liveTasks hadds.liveProcs
    hadds.others hadds.proc hheld
  unfold Spaces at h ⊢
  rw [hext, hadds.self, hadds.vm, Vm.vmReference_live]
  exact Vm.vmReference_refs h ha href

theorem takeVmSpace_adds {k : Kern} (hvm : k.vm = s.vm)
    (htasks : k.liveTasks = insert t s.liveTasks)
    (hprocs : k.liveProcs = s.liveProcs)
    (hothers : ∀ u ≠ t, (k.task u).vmSpace = (s.task u).vmSpace)
    (hproc : ∀ p, (k.proc p).vmSpace = (s.proc p).vmSpace) :
    Adds t a s (k.takeVmSpace t a) := by
  unfold takeVmSpace
  refine ⟨?_, htasks, hprocs, ?_, ?_, hproc⟩
  · rw [modTask_vm, setVm_vm, hvm]
  · rw [modTask_task, Function.update_self]
  · intro u hu
    rw [modTask_task, Function.update_of_ne hu]
    exact hothers u hu

/-- `task_register_unlinked` gives a new task the address space of its
process, or of the current task if it has none. -/
theorem taskInherit_adds {k : Kern} (hvm : k.vm = s.vm)
    (htasks : k.liveTasks = insert t s.liveTasks)
    (hprocs : k.liveProcs = s.liveProcs)
    (hothers : ∀ u ≠ t, (k.task u).vmSpace = (s.task u).vmSpace)
    (hproc : ∀ p, (k.proc p).vmSpace = (s.proc p).vmSpace)
    (hcurrent : k.taskCurrent = s.taskCurrent) (hcur : s.taskCurrent ≠ t)
    (hself : (k.task t).vmSpace = 0) (hp : (k.task t).proc = p) :
    Adds t (s.initSpace p) s (k.taskInherit t) := by
  have hadds (a : ℕ) : Adds t a s (k.takeVmSpace t a) :=
    takeVmSpace_adds hvm htasks hprocs hothers hproc
  unfold taskInherit
  dsimp only
  rw [hp, if_pos hself, if_pos hself]
  by_cases h0 : p = 0
  · rw [if_neg (not_not.mpr h0), hcurrent, hothers _ hcur]
    have hinit : s.initSpace p = (s.task s.taskCurrent).vmSpace :=
      if_neg (not_not.mpr h0)
    rw [hinit]
    apply (hadds _).of_same
    exact SameSpaces.trans (.modTask rfl) (.procReference _)
  · rw [if_pos h0, hproc]
    have hinit : s.initSpace p = (s.proc p).vmSpace := if_pos h0
    rw [hinit]
    exact hadds _

theorem createUnlinked_adds (hcur : s.taskCurrent ≠ t)
    (hok : (((s.newTask t).procReference p).modTask t
      fun x => { x with proc := p }).taskRegisterUnlinked t = .ok s') :
    Adds t (s.initSpace p) s s' := by
  simp only [taskRegisterUnlinked, Outcome.bind_eq_ok,
    Outcome.pure_eq_ok] at hok
  obtain ⟨-, -, rfl⟩ := hok
  have hreference := SameSpaces.procReference (s := s.newTask t) p
  have honly := OnlyTask.procReference (s := s.newTask t) (t := t) p
  generalize hk : (((s.newTask t).procReference p).modTask t
    fun x => { x with proc := p }).modTask t clearAnchor = k
  have hspace : SameSpaces (s.newTask t) k := by
    rw [← hk]
    exact (hreference.trans (.modTask rfl)).trans (.modTask rfl)
  have hadds : Adds t (s.initSpace p) s (k.taskInherit t) := by
    apply taskInherit_adds _ _ _ _ _ _ hcur
    · rw [hspace.task, newTask, modTask_task, Function.update_self]
    · rw [← hk, modTask_task, Function.update_self, modTask_task,
        Function.update_self]
      rfl
    · exact hspace.vm
    · exact hspace.liveTasks
    · exact hspace.liveProcs
    · intro u hu
      rw [hspace.task]
      exact congrArg Task.vmSpace (modTask_task_of_ne _ _ hu)
    · exact hspace.proc
    · rw [← hk]
      exact honly.current
  apply hadds.of_same
  exact SameSpaces.trans (.modTask rfl) (.setGPid _)

theorem initSpace_mem (howners : s.Owners g) (h : s.Spaces g)
    (hp : p = 0 ∨ p ∈ s.liveProcs) :
    s.initSpace p = 0 ∨ s.initSpace p ∈ s.vm.live := by
  unfold initSpace
  by_cases h0 : p = 0
  · rw [if_neg (not_not.mpr h0)]
    exact h.task_mem howners.current
  · rw [if_pos h0]
    exact h.proc_mem (hp.resolve_left h0)

theorem taskCreate_spaces (howners : s.Owners g) (h : s.Spaces g)
    (ht : t ∉ s.liveTasks) (href : s.vm.Referable (s.initSpace 0))
    (hok : s.taskCreate t = .ok s') : s'.Spaces (g.addTask t) := by
  have hcur : s.taskCurrent ≠ t := by
    rintro rfl
    exact ht howners.current
  simp only [taskCreate, taskRegister, Outcome.bind_eq_ok,
    Outcome.pure_eq_ok] at hok
  obtain ⟨_, ⟨s₁, hregister, rfl⟩, rfl⟩ := hok
  rw [← newTask_no_proc] at hregister
  have hadds := createUnlinked_adds hcur hregister
  have h₁ : s₁.Spaces (g.addTask t) :=
    hadds.spaces h ht (initSpace_mem howners h (Or.inl rfl)) href rfl
  apply h₁.of_same _ rfl
  apply SameSpaces.trans (.modFlags _)
  exact SameSpaces.trans (.of_rest (taskLink_rest t)) (.modTask rfl)

/-- A task that leaves `kernel_vm_space` for a space of its own. -/
theorem taskSpawn_spaces (h : s.Spaces g) (ht : t ∈ s.liveTasks)
    (hkernel : (s.task t).vmSpace = Vm.kernel) (h0 : b ≠ 0)
    (hb : b ∉ s.vm.live) (hok : s.taskSpawn t b = .ok s') :
    s'.Spaces g := by
  simp only [taskSpawn, Outcome.bind_eq_ok, Outcome.pure_eq_ok] at hok
  obtain ⟨vm, hcreate, rfl⟩ := hok
  rw [hkernel] at hcreate
  have href : s.vm.Referable Vm.kernel := fun _ hne => absurd rfl hne
  obtain ⟨-, hrefs⟩ := Vm.vmCreate_refs h h0 hb (Or.inr h.counts.root) href
    hcreate
  apply hrefs.congr
  intro a _ ha
  have hmoved : ∀ k : Kern, k.taskSpaces = Function.update s.taskSpaces t b →
      k.liveTasks = s.liveTasks → k.liveProcs = s.liveProcs →
      k.procSpaces = s.procSpaces →
      k.spaceExt g a = bump (s.spaceExt g) b a := by
    intro k htask htasks hprocs hproc
    have hupdate := holders_update (f := s.taskSpaces) (b := b) (a := a) ht
    have hold : s.taskSpaces t ≠ a := by
      intro heq
      exact ha (heq.symm.trans hkernel)
    rw [if_neg hold] at hupdate
    unfold bump spaceExt
    rw [htask, htasks, hprocs, hproc]
    omega
  apply hmoved
  · funext u
    by_cases hu : u = t <;> simp [taskSpaces, hu]
  · rfl
  · rfl
  · rfl

theorem taskCreateExtended_spaces {type : TaskFlags} {arg fuel : ℕ}
    (howners : s.Owners g) (h : s.Spaces g) (ht0 : t ≠ 0)
    (ht : t ∉ s.liveTasks) (hb0 : b ≠ 0) (hb : b ∉ s.vm.live)
    (hp : s.typeProc type arg = 0 ∨ s.typeProc type arg ∈ s.liveProcs)
    (hjoin : s.Joinable (s.typeProc type arg))
    (href : s.vm.Referable (s.initSpace (s.typeProc type arg)))
    (hspawned : type.spawn = true →
      s.initSpace (s.typeProc type arg) = Vm.kernel)
    (hok : s.taskCreateExtended fuel type arg t b = .ok s') :
    s'.Spaces (g.addTask t) := by
  have hcur : s.taskCurrent ≠ t := by
    rintro rfl
    exact ht howners.current
  obtain ⟨s₁, s₃, hregister, hspawn, hlast⟩ := taskCreateExtended_steps hok
  have hmakes := createExtended_makes hcur hjoin hregister hspawn
  have hadds : Adds t (s.initSpace (s.typeProc type arg)) s
      (s₁.setType type t) :=
    (createUnlinked_adds hcur hregister).of_same (.modTask rfl)
  have h₂ : (s₁.setType type t).Spaces (g.addTask t) :=
    hadds.spaces h ht (initSpace_mem howners h hp) href rfl
  have h₃ : s₃.Spaces (g.addTask t) := by
    rcases hspawn with ⟨-, rfl⟩ | ⟨htype, hspawn⟩
    · exact h₂
    · refine taskSpawn_spaces h₂ ?_ (hadds.self.trans (hspawned htype)) hb0
        ?_ hspawn
      · rw [hadds.liveTasks]
        exact Finset.mem_insert_self t _
      · rw [hadds.vm, Vm.vmReference_live]
        exact hb
  split_ifs at hlast
  · exact registerIrqHandler_spaces (hmakes.owners howners ht0 ht hp hjoin) h₃
      hlast
  · cases hlast
    exact h₃.of_same (.of_rest (taskLink_rest t)) rfl
  · cases hlast
    exact h₃

theorem procCreateTask_spaces {fuel : ℕ} (howners : s.Owners g)
    (h : s.Spaces g) (ht0 : t ≠ 0) (ht : t ∉ s.liveTasks) (hb0 : b ≠ 0)
    (hb : b ∉ s.vm.live) (hp : p ∈ s.liveProcs) (hjoin : s.Joinable p)
    (href : s.vm.Referable (s.initSpace p))
    (hok : s.procCreateTask fuel p t b = .ok s') :
    s'.Spaces (g.addTask t) := by
  simp only [procCreateTask, Outcome.bind_eq_ok, Outcome.pure_eq_ok] at hok
  obtain ⟨s₁, hcreate, rfl⟩ := hok
  have hproc : s.typeProc { preempt := true, canExit := true, fromProc := true }
      p = 0 ∨ s.typeProc { preempt := true, canExit := true, fromProc := true }
        p ∈ s.liveProcs := Or.inr hp
  have h₁ := taskCreateExtended_spaces howners h ht0 ht hb0 hb hproc hjoin href
    (fun hspawn => absurd hspawn Bool.false_ne_true) hcreate
  exact h₁.of_same (SameSpaces.trans (.modTask rfl) (.modProc rfl)) rfl

theorem spaceExt_insert_proc (hp : p ∉ s.liveProcs)
    (htask : s'.task = s.task) (htasks : s'.liveTasks = s.liveTasks)
    (hprocs : s'.liveProcs = insert p s.liveProcs)
    (hothers : ∀ q ≠ p, s'.proc q = s.proc q)
    (hheld : g'.spaces = g.spaces) :
    s'.spaceExt g' = bump (s.spaceExt g) (s'.proc p).vmSpace := by
  funext a
  have hinsert := holders_insert (f := s'.procSpaces) (a := a) hp
  have hsame : holders s.liveProcs s'.procSpaces a =
      holders s.liveProcs s.procSpaces a := by
    apply holders_congr
    intro q hq
    apply congrArg Proc.vmSpace (hothers q _)
    rintro rfl
    exact hp hq
  have htasks' : s'.taskSpaces = s.taskSpaces := by
    unfold taskSpaces
    rw [htask]
  have hself : s'.procSpaces p = (s'.proc p).vmSpace := rfl
  unfold bump spaceExt
  rw [htasks, hprocs, hheld, hinsert, hsame, htasks', hself]
  omega

theorem procCreate_spaces {parent : ℕ} {noVm : Bool} (h : s.Spaces g)
    (hp : p ∉ s.liveProcs) (hb0 : b ≠ 0) (hb : b ∉ s.vm.live)
    (hparent : parent = 0 ∨ parent ∈ s.liveProcs)
    (href : parent ≠ 0 → s.vm.Referable (s.proc parent).vmSpace)
    (hok : s.procCreate parent noVm p b = .ok s') :
    s'.Spaces (g.addProc p) := by
  simp only [procCreate, Outcome.bind_eq_ok, Outcome.pure_eq_ok] at hok
  obtain ⟨s₂, hvm, rfl⟩ := hok
  have hext {k : Kern} (htask : k.task = s.task)
      (htasks : k.liveTasks = s.liveTasks)
      (hprocs : k.liveProcs = insert p s.liveProcs)
      (hothers : ∀ q ≠ p, k.proc q = s.proc q)
      (hrefs : k.vm.Refs (bump (s.spaceExt g) (k.proc p).vmSpace)
        k.vm.live) :
      (k.modProc p fun x => { x with refcount := 1 }).Spaces
        (g.addProc p) := by
    have hk : k.Spaces (g.addProc p) := by
      have hext : k.spaceExt (g.addProc p) =
          bump (s.spaceExt g) (k.proc p).vmSpace :=
        spaceExt_insert_proc hp htask htasks hprocs hothers rfl
      unfold Spaces
      rw [hext]
      exact hrefs
    exact hk.of_same (.modProc rfl) rfl
  by_cases hspace : parent ≠ 0 ∨ noVm = false
  · simp only [if_pos hspace, Outcome.bind_eq_ok, Outcome.pure_eq_ok] at hvm
    obtain ⟨vm, hcreate, rfl⟩ := hvm
    have hothers : ∀ q ≠ p, (((s.setLiveProcs (insert p s.liveProcs)).modProc
        p fun _ => {}).proc q) = s.proc q := by
      intro q hq
      simp [hq]
    have hcreate' : s.vm.vmCreate
        (if parent ≠ 0 then (s.proc parent).vmSpace else 0) b = .ok vm := by
      by_cases h0 : parent = 0
      · rw [if_neg (not_not.mpr h0)] at hcreate ⊢
        exact hcreate
      · have hne : parent ≠ p := by
          rintro rfl
          exact hp (hparent.resolve_left h0)
        rw [if_pos h0, hothers parent hne] at hcreate
        rw [if_pos h0]
        exact hcreate
    have hrefs : vm.live = insert b s.vm.live ∧
        vm.Refs (bump (s.spaceExt g) b) vm.live := by
      apply Vm.vmCreate_refs h hb0 hb _ _ hcreate'
      · by_cases h0 : parent = 0
        · exact Or.inl (if_neg (not_not.mpr h0))
        · rw [if_pos h0]
          exact h.proc_mem (hparent.resolve_left h0)
      · by_cases h0 : parent = 0
        · rw [if_neg (not_not.mpr h0)]
          exact fun hne => absurd rfl hne
        · rw [if_pos h0]
          exact href h0
    apply hext
    · rfl
    · rfl
    · rfl
    · intro q hq
      simp [hq]
    · rw [modProc_proc, Function.update_self]
      exact hrefs.2
  · rw [if_neg hspace] at hvm
    cases hvm
    apply hext
    · rfl
    · rfl
    · rfl
    · intro q hq
      simp [hq]
    · rw [modProc_proc, Function.update_self]
      exact h.bump_static (Or.inl rfl)

/-! ## Calls by owners of spaces -/

theorem spaceExt_addSpace (a : ℕ) :
    s.spaceExt (g.addSpace a) = bump (s.spaceExt g) a := by
  funext b
  unfold bump spaceExt
  by_cases hab : a = b
  · subst hab
    rw [Held.addSpace_spaces, Function.update_self, if_pos rfl]
    omega
  · rw [Held.addSpace_spaces, Function.update_of_ne (Ne.symm hab), if_neg hab]
    omega

theorem vmCreate_spaces {vm : Vm} (h : s.Spaces g) (h0 : a ≠ 0)
    (ha : a ∉ s.vm.live) (hp : p = 0 ∨ p ∈ s.vm.live)
    (href : s.vm.Referable p) (hok : s.vm.vmCreate p a = .ok vm) :
    (s.setVm vm).Spaces (g.addSpace a) := by
  obtain ⟨-, hrefs⟩ := Vm.vmCreate_refs h h0 ha hp href hok
  rw [← spaceExt_addSpace] at hrefs
  exact hrefs

theorem vmReference_spaces (h : s.Spaces g) (ha : a ∈ s.vm.live)
    (href : s.vm.Referable a) :
    (s.setVm (s.vm.vmReference a)).Spaces (g.addSpace a) := by
  have hrefs := Vm.vmReference_refs h (Or.inr ha) href
  rw [← spaceExt_addSpace, ← Vm.vmReference_live (s := s.vm) a] at hrefs
  exact hrefs

theorem spaceExt_dropSpace (hheld : 0 < g.spaces a) :
    s.spaceExt g = bump (s.spaceExt (g.dropSpace a)) a := by
  funext b
  unfold bump spaceExt
  by_cases hab : a = b
  · subst hab
    rw [Held.dropSpace_spaces, Function.update_self, if_pos rfl]
    omega
  · rw [Held.dropSpace_spaces, Function.update_of_ne (Ne.symm hab),
      if_neg hab]
    omega

theorem vmRelease_held {vm : Vm} {fuel : ℕ} (h : s.Spaces g)
    (hheld : 0 < g.spaces a) (hok : s.vm.vmRelease fuel a = .ok vm) :
    (s.setVm vm).Spaces (g.dropSpace a) := by
  unfold Spaces at h
  rw [spaceExt_dropSpace hheld] at h
  exact vmRelease_spaces h hok

/-! ## The scheduler -/

theorem taskExitAsserted_spaces (hok : s.taskExitAsserted = .ok s') :
    SameSpaces s s' := by
  simp only [taskExitAsserted, Outcome.bind_eq_ok, Outcome.pure_eq_ok] at hok
  obtain ⟨-, -, -, -, -, -, rfl⟩ := hok
  have hunlink (k : Kern) (u : ℕ) : SameSpaces k (k.taskUnlink u) :=
    .of_rest (taskUnlink_rest u)
  have hlast (k : Kern) : SameSpaces k (k.setTaskCurrent schedTask) :=
    ⟨rfl, rfl, rfl, fun _ => rfl, fun _ => rfl⟩
  refine SameSpaces.trans ?_ (hlast _)
  apply SameSpaces.trans (SameSpaces.trans (.modFlags _) (hunlink _ _))
  split_ifs
  · exact SameSpaces.trans (.modTask rfl) (.of_rest (taskLink_rest _))
  · exact .modFlags _

theorem pongoSchedTick_spaces {r : Tick} {fuel : ℕ} (howners : s.Owners g)
    (hring : ∃ l, RingInv s.ring s.liveTasks l) (h : s.Spaces g)
    (hok : s.pongoSchedTick fuel = .ok (r, s')) : s'.Spaces g := by
  have hsame {k : Kern} (hvm : k.vm = s.vm) (htask : k.task = s.task)
      (hproc : k.proc = s.proc) (htasks : k.liveTasks = s.liveTasks)
      (hprocs : k.liveProcs = s.liveProcs) : k.Spaces g :=
    h.of_same ⟨hvm, htasks, hprocs, fun t => by rw [htask],
      fun p => by rw [hproc]⟩ rfl
  simp only [pongoSchedTick, Outcome.bind_eq_ok, panicIf_eq_ok] at hok
  obtain ⟨-, h0, hok⟩ := hok
  split_ifs at hok with hsched hderef hlinked
  · cases hok
    exact hsame rfl rfl rfl rfl rfl
  · simp only [Outcome.bind_eq_ok, Outcome.pure_eq_ok, Prod.mk.injEq] at hok
    obtain ⟨s₂, hrelease, -, rfl⟩ := hok
    have h₁ : (s.setPongoSchedHead (s.task s.pongoSchedHead).next).Spaces g :=
      hsame rfl rfl rfl rfl rfl
    have h₂ := h₁.of_same (.modFlags (t := s.pongoSchedHead) fun f =>
      { f with pleaseDeref := false }) rfl
    obtain ⟨-, hrel⟩ := taskRelease_owners
      (takeDue_owners howners hring h0 hderef) hrelease
    exact hrel.spaces h₂ rfl
  · cases hok
    exact hsame rfl rfl rfl rfl rfl
  · cases hok
    exact hsame rfl rfl rfl rfl rfl

end Spaces

end Kern

/-! ## Runs -/

open Kern

/-- No task leaves an address space other than `kernel_vm_space` for one of its
own, and no count overflows. -/
def OwnCall.KeepsSpaces (s : Kern) : OwnCall → Prop
  | .create _ => s.vm.Referable (s.initSpace 0)
  | .createExtended type arg _ _ =>
      s.vm.Referable (s.initSpace (s.typeProc type arg)) ∧
        (type.spawn = true → s.initSpace (s.typeProc type arg) = Vm.kernel)
  | .procCreateTask p _ _ => s.vm.Referable (s.initSpace p)
  | .procCreate parent _ _ _ =>
      parent ≠ 0 → s.vm.Referable (s.proc parent).vmSpace
  | .vmCreate parent _ => s.vm.Referable parent
  | .vmReference a => s.vm.Referable a
  | _ => True

def SpaceStep (s : Owned) (c : OwnCall) (s' : Owned) : Prop :=
  KeptOwnStep s c s' ∧ c.KeepsSpaces s.kern

section Step

variable {s s' : Owned} {c : OwnCall}

theorem spaces_of_step (h : Lifetimes s) (hs : s.kern.Spaces s.held)
    (hstep : SpaceStep s c s') : s'.kern.Spaces s'.held := by
  obtain ⟨⟨⟨hallowed, hruns, hheld⟩, hkept⟩, hspaces⟩ := hstep
  rw [hheld]
  have hsame (hk : SameSpaces s.kern s'.kern)
      (hg : (c.held s.kern s.held).spaces = s.held.spaces) :
      s'.kern.Spaces (c.held s.kern s.held) := hs.of_same hk hg
  cases c with
  | create t => exact taskCreate_spaces h.owners hs hallowed.2 hspaces hruns
  | createExtended type arg t b =>
      obtain ⟨⟨ht0, ht⟩, ⟨hb0, hb⟩, hp⟩ := hallowed
      obtain ⟨fuel, hok⟩ := hruns
      refine taskCreateExtended_spaces h.owners hs ht0 ht hb0 hb ?_ hkept
        hspaces.1 hspaces.2 hok
      exact typeProc_mem h.owners hp
  | procCreateTask p t b =>
      obtain ⟨⟨ht0, ht⟩, ⟨hb0, hb⟩, hp⟩ := hallowed
      obtain ⟨fuel, hok⟩ := hruns
      exact procCreateTask_spaces h.owners hs ht0 ht hb0 hb hp hkept hspaces
        hok
  | procCreate parent noVm p b =>
      obtain ⟨⟨-, hp⟩, ⟨hb0, hb⟩, hparent⟩ := hallowed
      exact procCreate_spaces hs hp hb0 hb hparent hspaces hruns
  | bind v t =>
      obtain ⟨fuel, hok⟩ := hruns
      exact registerIrqHandler_spaces h.owners hs hok
  | reference t =>
      have heq : s'.kern = s.kern.taskReference t := hruns
      apply hsame _ rfl
      rw [heq]
      exact .taskReference t
  | release t =>
      obtain ⟨fuel, hok⟩ := hruns
      have howners := h.owners
      rw [← Held.dropTask_addTask hallowed] at howners
      exact (taskRelease_owners howners hok).2.spaces hs rfl
  | procRelease p =>
      obtain ⟨fuel, hok⟩ := hruns
      have howners := h.owners
      rw [← Held.dropProc_addProc hallowed] at howners
      exact (procRelease_owners howners hok).2.spaces hs rfl
  | vmCreate parent a =>
      obtain ⟨⟨h0, ha⟩, hparent⟩ := hallowed
      obtain ⟨vm, hok, heq⟩ := hruns
      rw [heq]
      exact vmCreate_spaces hs h0 ha hparent hspaces hok
  | vmReference a =>
      have heq : s'.kern = s.kern.setVm (s.kern.vm.vmReference a) := hruns
      rw [heq]
      exact vmReference_spaces hs hallowed hspaces
  | vmRelease a =>
      obtain ⟨fuel, vm, hok, heq⟩ := hruns
      rw [heq]
      exact vmRelease_held hs hallowed hok
  | link t =>
      have heq : s'.kern = s.kern.taskLink t := hruns
      apply hsame _ rfl
      rw [heq]
      exact .of_rest (taskLink_rest t)
  | exit =>
      apply hsame (taskExitAsserted_spaces hruns)
      unfold OwnCall.held
      split_ifs <;> rfl
  | yield =>
      have heq : s'.kern = s.kern.setTaskCurrent schedTask := hruns
      apply hsame _ rfl
      rw [heq]
      exact ⟨rfl, rfl, rfl, fun _ => rfl, fun _ => rfl⟩
  | tick r =>
      obtain ⟨fuel, hok⟩ := hruns
      exact pongoSchedTick_spaces h.owners h.ring hs hok

end Step

/-! ## Address spaces -/

namespace Owned

/-- The processes, the tasks, the child spaces and the references of callers
that hold `a`. -/
def spaceHolders (s : Owned) (a : ℕ) : ℕ :=
  s.held.spaces a + holders s.kern.liveProcs (fun p => (s.kern.proc p).vmSpace) a +
    holders s.kern.liveTasks (fun t => (s.kern.task t).vmSpace) a +
    holders s.kern.vm.live (fun b => (s.kern.vm.space b).parent) a

/-- The count of every space but `kernel_vm_space` is the number of its
holders, and the space is allocated exactly as long as there is one. -/
structure SpacesCounted (s : Owned) : Prop where
  refcount : ∀ a ∈ s.kern.vm.live, a ≠ Vm.kernel →
    (s.kern.vm.space a).refcount = s.spaceHolders a
  live : ∀ a, a ≠ 0 → a ≠ Vm.kernel →
    (a ∈ s.kern.vm.live ↔ 0 < s.spaceHolders a)

end Owned

theorem spacesCounted {s : Owned} (h : s.kern.Spaces s.held) :
    s.SpacesCounted where
  refcount a ha hkernel := (h.counts.count a ha hkernel).1
  live _ h0 hkernel := h.counts.mem_iff h0 hkernel

/-- In every run that `lifetimes_of_run` admits, and in which `TASK_SPAWN` only
moves tasks out of `kernel_vm_space`, the spaces are freed with their last
holder and not before. -/
theorem spaces_of_run {s s' : Owned} {cs : List OwnCall} (h : Lifetimes s)
    (hs : s.kern.Spaces s.held) (hrun : Run SpaceStep s cs s') :
    s'.SpacesCounted := by
  have hinv : Lifetimes s' ∧ s'.kern.Spaces s'.held := by
    apply hrun.invariant
      (I := fun k : Owned => Lifetimes k ∧ k.kern.Spaces k.held) _ ⟨h, hs⟩
    intro k c k' hk hstep
    exact ⟨hk.1.step hstep.1, spaces_of_step hk.1 hk.2 hstep⟩
  exact spacesCounted hinv.2

/-! ## The start -/

/-- The state after boot, when two table pages have been recycled. -/
def recycledOwned : Owned :=
  ⟨bootKern.setVm (bootKern.vm.setMm
    (Mm.ttbpageFree 0x810004000 (Mm.ttbpageFree 0x810000000
      Mm.bootExample))), bootOwned.held⟩

theorem recycledOwned_lifetimes : Lifetimes recycledOwned :=
  ⟨bootOwned_lifetimes.owners, bootOwned_lifetimes.ring⟩

theorem recycledOwned_spaces : recycledOwned.kern.Spaces recycledOwned.held := by
  have hlive : recycledOwned.kern.vm.live = {Vm.kernel} := rfl
  have hstatic : (recycledOwned.kern.vm.space Vm.kernel).refcount =
      refcountGlobal := rfl
  have hparent : (recycledOwned.kern.vm.space Vm.kernel).parent = 0 := rfl
  have hholder : ∀ a, 0 < recycledOwned.kern.spaceExt recycledOwned.held a →
      a = Vm.kernel := by
    intro a hpos
    by_contra hne
    have hprocs : holders recycledOwned.kern.liveProcs
        recycledOwned.kern.procSpaces a = 0 :=
      holders_eq_zero fun p _ heq => hne heq.symm
    have htasks : holders recycledOwned.kern.liveTasks
        recycledOwned.kern.taskSpaces a = 0 := by
      apply holders_eq_zero
      intro t ht heq
      have hall : ∀ u ∈ recycledOwned.kern.liveTasks,
          recycledOwned.kern.taskSpaces u = Vm.kernel := by decide
      exact hne (heq.symm.trans (hall t ht))
    have hheld : recycledOwned.held.spaces a = 0 := rfl
    unfold spaceExt at hpos
    omega
  refine ⟨⟨?_, ?_, ?_, ?_, ?_⟩, hstatic⟩
  · intro a ha hroot
    rw [hlive] at ha
    exact absurd (Finset.mem_singleton.mp ha) hroot
  · intro a _ hpos
    rw [hlive]
    exact Finset.mem_singleton.mpr (hholder a hpos)
  · intro a ha hne
    rw [hlive] at ha
    obtain rfl := Finset.mem_singleton.mp ha
    exact absurd hparent hne
  · rw [hlive]
    exact Finset.mem_singleton_self _
  · rw [hlive]
    decide

/-- The theorem on a run that makes a process and its task, moves another task
out of `kernel_vm_space`, and releases the first task. -/
theorem spaces_of_recycledOwned :
    ∃ s', Run SpaceStep recycledOwned
        [.procCreate 0 false 0x2000 0x3000,
          .procCreateTask 0x2000 0x1000 0x5000,
          .createExtended { spawn := true } 0 0x1800 0x4000,
          .release 0x1000] s' ∧
      s'.SpacesCounted := by
  have hcalls : (do
      let s₁ ← recycledOwned.kern.procCreate 0 false 0x2000 0x3000
      let s₂ ← s₁.procCreateTask 3 0x2000 0x1000 0x5000
      let s₃ ← s₂.taskCreateExtended 3 { spawn := true } 0 0x1800 0x4000
      let s₄ ← s₃.taskRelease 3 0x1000
      pure (s₁, s₂, s₄) : Outcome (Kern × Kern × Kern)).toOption.map
        (fun (s₁, s₂, _) =>
          (((0x1000 ∉ s₁.liveTasks ∧ 0x5000 ∉ s₁.vm.live ∧
              0x2000 ∈ s₁.liveProcs) ∧ s₁.Joinable 0x2000 ∧
            s₁.vm.Referable (s₁.initSpace 0x2000)) ∧
          (0x1800 ∉ s₂.liveTasks ∧ 0x4000 ∉ s₂.vm.live) ∧
          s₂.Joinable (s₂.typeProc { spawn := true } 0) ∧
          s₂.initSpace (s₂.typeProc { spawn := true } 0) = Vm.kernel : Bool)) =
      some true := by
    decide +kernel
  obtain ⟨⟨s₁, s₂, s₄⟩, hok, hfacts⟩ := Outcome.ok_of_map hcalls
  simp only [Outcome.bind_eq_ok, Outcome.pure_eq_ok, Prod.mk.injEq] at hok
  obtain ⟨s₁, hproc, s₂, hcreate, s₃, hspawn, s₄, hrelease, rfl, rfl, rfl⟩ :=
    hok
  simp only [decide_eq_true_eq] at hfacts
  obtain ⟨⟨⟨ht, hb, hp⟩, hjoin, href⟩, ⟨ht', hb'⟩, hjoin', hkernel⟩ := hfacts
  generalize hg : (recycledOwned.held.addProc 0x2000).addTask 0x1000 = g
  have hheld : 0 < (g.addTask 0x1800).tasks 0x1000 := by
    rw [← hg]
    decide
  have hmade : SpaceStep recycledOwned (.procCreate 0 false 0x2000 0x3000)
      ⟨s₁, recycledOwned.held.addProc 0x2000⟩ :=
    ⟨⟨⟨⟨⟨by decide, by decide⟩, ⟨by decide, by decide⟩, Or.inl rfl⟩, hproc,
      rfl⟩, trivial⟩, fun hne => absurd rfl hne⟩
  have hcreated : SpaceStep ⟨s₁, recycledOwned.held.addProc 0x2000⟩
      (.procCreateTask 0x2000 0x1000 0x5000) ⟨s₂, g⟩ :=
    ⟨⟨⟨⟨⟨by decide, ht⟩, ⟨by decide, hb⟩, hp⟩, ⟨3, hcreate⟩, hg.symm⟩, hjoin⟩,
      href⟩
  have hspawned : SpaceStep ⟨s₂, g⟩
      (.createExtended { spawn := true } 0 0x1800 0x4000)
      ⟨s₃, g.addTask 0x1800⟩ :=
    ⟨⟨⟨⟨⟨by decide, ht'⟩, ⟨by decide, hb'⟩,
      fun hfrom => absurd hfrom Bool.false_ne_true⟩, ⟨3, hspawn⟩, rfl⟩, hjoin'⟩,
      fun _ hne => absurd hkernel hne, fun _ => hkernel⟩
  have hreleased : SpaceStep ⟨s₃, g.addTask 0x1800⟩ (.release 0x1000)
      ⟨s₄, (g.addTask 0x1800).dropTask 0x1000⟩ :=
    ⟨⟨⟨hheld, ⟨3, hrelease⟩, rfl⟩, trivial⟩, trivial⟩
  have hrun : Run SpaceStep recycledOwned
      [.procCreate 0 false 0x2000 0x3000,
        .procCreateTask 0x2000 0x1000 0x5000,
        .createExtended { spawn := true } 0 0x1800 0x4000,
        .release 0x1000] ⟨s₄, (g.addTask 0x1800).dropTask 0x1000⟩ :=
    .cons hmade (.cons hcreated (.cons hspawned (.single hreleased)))
  exact ⟨_, hrun, spaces_of_run recycledOwned_lifetimes recycledOwned_spaces
    hrun⟩

/-! ## Leaving an address space -/

/-- After `TASK_SPAWN` moved a task out of the address space of its process,
nobody holds the reference that the task had. -/
theorem spawn_keeps_reference :
    ∃ s', Run OwnStep recycledOwned
        [.procCreate 0 false 0x2000 0x3000,
          .createExtended { fromProc := true, spawn := true } 0x2000 0x1000
            0x4000] s' ∧
      ¬ s'.SpacesCounted := by
  have hcalls : (do
      let s₁ ← recycledOwned.kern.procCreate 0 false 0x2000 0x3000
      let s₂ ← s₁.taskCreateExtended 3 { fromProc := true, spawn := true }
        0x2000 0x1000 0x4000
      pure (s₁, s₂) : Outcome (Kern × Kern)).toOption.map
        (fun (s₁, s₂) =>
          ((0x1000 ∉ s₁.liveTasks ∧ 0x4000 ∉ s₁.vm.live ∧
            0x2000 ∈ s₁.liveProcs) ∧
          0x3000 ∈ s₂.vm.live ∧ (s₂.vm.space 0x3000).refcount = 3 ∧
          holders s₂.liveProcs (fun p => (s₂.proc p).vmSpace) 0x3000 = 1 ∧
          holders s₂.liveTasks (fun t => (s₂.task t).vmSpace) 0x3000 = 0 ∧
          holders s₂.vm.live (fun b => (s₂.vm.space b).parent) 0x3000 = 1 :
            Bool)) =
      some true := by
    decide +kernel
  obtain ⟨⟨s₁, s₂⟩, hok, hfacts⟩ := Outcome.ok_of_map hcalls
  simp only [Outcome.bind_eq_ok, Outcome.pure_eq_ok, Prod.mk.injEq] at hok
  obtain ⟨s₁, hcreate, s₂, hspawn, rfl, rfl⟩ := hok
  simp only [decide_eq_true_eq] at hfacts
  obtain ⟨⟨ht, hb, hp⟩, hlive, hcount, hprocs, htasks, hspaces⟩ := hfacts
  have hcreated : OwnStep recycledOwned (.procCreate 0 false 0x2000 0x3000)
      ⟨s₁, recycledOwned.held.addProc 0x2000⟩ :=
    ⟨⟨⟨by decide, by decide⟩, ⟨by decide, by decide⟩, Or.inl rfl⟩, hcreate, rfl⟩
  have hspawned : OwnStep ⟨s₁, recycledOwned.held.addProc 0x2000⟩
      (.createExtended { fromProc := true, spawn := true } 0x2000 0x1000
        0x4000)
      ⟨s₂, (recycledOwned.held.addProc 0x2000).addTask 0x1000⟩ :=
    ⟨⟨⟨by decide, ht⟩, ⟨by decide, hb⟩, fun _ => Or.inr hp⟩, ⟨3, hspawn⟩, rfl⟩
  refine ⟨_, .cons hcreated (.single hspawned), ?_⟩
  intro hcounted
  have htwo := hcounted.refcount 0x3000 hlive (by decide)
  unfold Owned.spaceHolders at htwo
  have hheld : ((recycledOwned.held.addProc 0x2000).addTask 0x1000).spaces
      0x3000 = 0 := rfl
  rw [hcount, hheld, hprocs, htasks, hspaces] at htwo
  exact absurd htwo (by decide)

end PongoOS
