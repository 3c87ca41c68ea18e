import PongoOS.Task.SchedRuns

/-!
# One round of the scheduler

Between two visits of `sched_task` the scheduler walks once around the ring.
The ring is cut at `sched_task` into the tasks that are still ahead and those
that were visited.  A task that is linked for the first time is put behind the
head and becomes the head, so the task that was at the head falls behind: it
loses its turn, or, if it is `sched_task`, the round starts over.  In a round
in which only tasks that do not want to run fall behind, each runnable task is
dispatched once.
-/

namespace PongoOS

open Ring SinglyLinked

namespace Kern

/-! ## A round -/

/-- In the ring, linked, and not about to be released. -/
def Runnable (s : Kern) (t : ℕ) : Prop :=
  (s.task t).flags.wasLinked = true ∧ (s.task t).flags.linked = true ∧
    (s.task t).flags.pleaseDeref = false

instance (s : Kern) (t : ℕ) : Decidable (Runnable s t) :=
  inferInstanceAs (Decidable (_ ∧ _ ∧ _))

/-- The ring from the head on: the tasks ahead, `sched_task`, and the tasks
that were visited.  The running task was visited. -/
structure Round (s : Kern) (ahead visited : List ℕ) : Prop where
  ring : RingInv s.ring s.liveTasks (ahead ++ schedTask :: visited)
  current : s.taskCurrent = schedTask ∨ s.taskCurrent ∈ visited

/-- A release of `t` is due and will be found in this round or a later one. -/
def Pending (s : Kern) (visited : List ℕ) (t : ℕ) : Prop :=
  (s.task t).flags.pleaseDeref = true ∧ t ∈ s.liveTasks ∧ t ∉ visited

/-- What happens between two visits: no runnable task that is not freed loses
its place, and no release becomes due for a task that was not visited. -/
structure Turn (s : Kern) (ahead visited : List ℕ) (s' : Kern)
    (ahead' visited' : List ℕ) : Prop where
  round : Round s' ahead' visited'
  ahead : ∀ t ∈ ahead, Runnable s t → t ∈ s'.liveTasks → t ∈ ahead'
  behind : ∀ t ∈ visited, t ∈ s'.liveTasks → t ∈ visited'
  pending : ∀ t, Pending s' visited' t → Pending s visited t

/-- The state that a tick hands to `task_release`: the head is past `t`, and
`TASK_PLEASE_DEREF` is cleared. -/
def deref (s : Kern) (t : ℕ) : Kern :=
  (s.setPongoSchedHead (s.task t).next).modFlags t
    fun f => { f with pleaseDeref := false }

/-- The task at the head does not want to run. -/
def HeadPasses (s : Kern) : Prop :=
  s.pongoSchedHead ≠ schedTask ∧ ¬ s.Runnable s.pongoSchedHead

section Turns

variable {s s₁ s' : Kern} {a₀ v₀ a₁ v₁ a₂ v₂ l : List ℕ} {t : ℕ}

namespace Round

theorem live (h : Round s a₀ v₀) (ht : Runnable s t) : t ∈ s.liveTasks :=
  h.ring.live t ((h.ring.mem t).mp ht.1)

theorem mem (h : Round s a₀ v₀) (ht : Runnable s t) (hsched : t ≠ schedTask) :
    t ∈ a₀ ∨ t ∈ v₀ := by
  have hmem := (h.ring.mem t).mp ht.1
  simp only [List.mem_append, List.mem_cons, hsched, false_or] at hmem
  exact hmem

theorem disjoint (h : Round s a₀ v₀) (ht : t ∈ a₀) :
    t ≠ schedTask ∧ t ∉ v₀ := by
  have hnodup := h.ring.circular.nodup
  rw [List.nodup_append] at hnodup
  have hne := hnodup.2.2 t ht
  exact ⟨hne schedTask List.mem_cons_self,
    fun hv => hne t (List.mem_cons_of_mem _ hv) rfl⟩

theorem sched_notMem (h : Round s a₀ v₀) : schedTask ∉ v₀ := by
  have hnodup := h.ring.circular.nodup
  rw [List.nodup_append, List.nodup_cons] at hnodup
  exact hnodup.2.1.1

/-- At `sched_task` nothing is ahead. -/
theorem head_sched (h : Round s a₀ v₀) (hhead : s.pongoSchedHead = schedTask) :
    a₀ = [] := by
  cases a₀ with
  | nil => rfl
  | cons a a₀ =>
      have ha : s.pongoSchedHead = a := h.ring.head
      exact absurd (ha.symm.trans hhead) (h.disjoint List.mem_cons_self).1

/-- Elsewhere the head is the next task. -/
theorem head_cons (h : Round s a₀ v₀) (hhead : s.pongoSchedHead ≠ schedTask) :
    ∃ m, a₀ = s.pongoSchedHead :: m := by
  cases a₀ with
  | nil =>
      have ha : s.pongoSchedHead = schedTask := h.ring.head
      exact absurd ha hhead
  | cons a a₀ =>
      have ha : s.pongoSchedHead = a := h.ring.head
      exact ⟨a₀, by rw [ha]⟩

end Round

/-! ### What each kind of change does to a round -/

namespace Turn

theorem trans (h₁ : Turn s a₀ v₀ s₁ a₁ v₁) (h₂ : Turn s₁ a₁ v₁ s' a₂ v₂)
    (hrun : ∀ t, Runnable s t → Runnable s₁ t)
    (hlive : s'.liveTasks ⊆ s₁.liveTasks) : Turn s a₀ v₀ s' a₂ v₂ where
  round := h₂.round
  ahead t ht hs hs' :=
    h₂.ahead t (h₁.ahead t ht hs (hlive hs')) (hrun t hs) hs'
  behind t ht hs' := h₂.behind t (h₁.behind t ht (hlive hs')) hs'
  pending t ht := h₁.pending t (h₂.pending t ht)

/-- The ring stays. -/
theorem same (h : Round s a₀ v₀)
    (hring : RingInv s'.ring s'.liveTasks (a₀ ++ schedTask :: v₀))
    (hcur : s'.taskCurrent = s.taskCurrent ∨ s'.taskCurrent = schedTask)
    (hpending : ∀ t, Pending s' v₀ t → Pending s v₀ t) :
    Turn s a₀ v₀ s' a₀ v₀ where
  round := by
    refine ⟨hring, ?_⟩
    rcases hcur with hcur | hcur
    · exact hcur ▸ h.current
    · exact Or.inl hcur
  ahead _ ht _ _ := ht
  behind _ ht _ := ht
  pending := hpending

/-- Tasks are freed. -/
theorem shrink (h : Round s a₀ v₀)
    (hring : ∃ l', RingInv s'.ring s'.liveTasks l' ∧
      l'.Sublist (a₀ ++ schedTask :: v₀) ∧
      ∀ t ∈ a₀ ++ schedTask :: v₀, t ∈ s'.liveTasks → t ∈ l')
    (hsched : schedTask ∈ s'.liveTasks)
    (hcur : s'.taskCurrent = s.taskCurrent)
    (hcurlive : s.taskCurrent ∈ s'.liveTasks)
    (hpending : ∀ t, (s'.task t).flags.pleaseDeref = true →
      t ∈ s'.liveTasks → t ∉ v₀ → Pending s v₀ t) :
    ∃ a₁ v₁, Turn s a₀ v₀ s' a₁ v₁ := by
  obtain ⟨l', hl', hsub, hkeep⟩ := hring
  obtain ⟨a₁, m, rfl, ha, hm⟩ := List.sublist_append_iff.mp hsub
  have hmem := hkeep schedTask (by simp) hsched
  have hnot : schedTask ∉ a₁ := fun hs => (h.disjoint (ha.subset hs)).1 rfl
  have hcut : ∃ v₁, m = schedTask :: v₁ ∧ v₁.Sublist v₀ := by
    have hm₁ : schedTask ∈ m := (List.mem_append.mp hmem).resolve_left hnot
    rcases List.sublist_cons_iff.mp hm with hm | hm
    · exact absurd (hm.subset hm₁) h.sched_notMem
    · exact hm
  obtain ⟨v₁, rfl, hv⟩ := hcut
  have hahead : ∀ t ∈ a₀, t ∈ s'.liveTasks → t ∈ a₁ := by
    intro t ht hlive
    have hdis := h.disjoint ht
    have ht' := hkeep t (List.mem_append_left _ ht) hlive
    simp only [List.mem_append, List.mem_cons, hdis.1, false_or] at ht'
    exact ht'.resolve_right fun hv' => hdis.2 (hv.subset hv')
  have hbehind : ∀ t ∈ v₀, t ∈ s'.liveTasks → t ∈ v₁ := by
    intro t ht hlive
    have ht' := hkeep t
      (List.mem_append_right _ (List.mem_cons_of_mem _ ht)) hlive
    rcases List.mem_append.mp ht' with ha' | ht'
    · exact absurd ht (h.disjoint (ha.subset ha')).2
    rcases List.mem_cons.mp ht' with rfl | ht'
    · exact absurd ht h.sched_notMem
    · exact ht'
  refine ⟨a₁, v₁, ⟨hl', ?_⟩, fun t ht _ => hahead t ht, hbehind,
    fun t ht => hpending t ht.1 ht.2.1 fun hv' => ht.2.2 (hbehind t hv' ht.2.1)⟩
  rw [hcur]
  exact h.current.imp id fun hv' => hbehind _ hv' hcurlive

/-- A new task takes the place of the head, which falls behind. -/
theorem insert (h : Round s a₀ v₀) (hpass : s.HeadPasses)
    (hout : t ∉ a₀ ++ schedTask :: v₀)
    (hring : RingInv s'.ring s'.liveTasks
      (linkList t (a₀ ++ schedTask :: v₀)))
    (hcur : s'.taskCurrent = s.taskCurrent)
    (hpending : ∀ u, Pending s' v₀ u → Pending s v₀ u) :
    ∃ a₁ v₁, Turn s a₀ v₀ s' a₁ v₁ := by
  obtain ⟨m, rfl⟩ := h.head_cons hpass.1
  have hlist : linkList t (s.pongoSchedHead :: m ++ schedTask :: v₀) =
      (t :: m) ++ schedTask :: (v₀ ++ [s.pongoSchedHead]) := by
    rw [List.cons_append] at hout ⊢
    rw [linkList, if_neg hout]
    simp
  rw [hlist] at hring
  refine ⟨t :: m, v₀ ++ [s.pongoSchedHead], ⟨hring, ?_⟩, fun u hu hrun _ => ?_,
    fun u hu _ => List.mem_append_left _ hu, fun u hu => hpending u ?_⟩
  · rw [hcur]
    exact h.current.imp id fun hv => List.mem_append_left _ hv
  · rcases List.mem_cons.mp hu with rfl | hu
    · exact absurd hrun hpass.2
    · exact List.mem_cons_of_mem _ hu
  · exact ⟨hu.1, hu.2.1, fun hv => hu.2.2 (List.mem_append_left _ hv)⟩

end Turn

/-! ### What each call does to a round -/

theorem taskLink_pending (u : ℕ) :
    Pending (s.taskLink t) v₀ u ↔ Pending s v₀ u := by
  have hrest := taskLink_rest (s := s) t
  unfold Pending
  rw [pleaseDeref_of_rest hrest, liveTasks_of_rest hrest]

theorem taskLink_turn (h : Round s a₀ v₀) (ht : s.Valid t)
    (hpass : (s.task t).flags.wasLinked = true ∨ s.HeadPasses) :
    ∃ a₁ v₁, Turn s a₀ v₀ (s.taskLink t) a₁ v₁ := by
  have hring := taskLink_ringInv h.ring ht.2 ht.1
  have hcur := taskCurrent_of_rest (taskLink_rest (s := s) t)
  by_cases hmem : t ∈ a₀ ++ schedTask :: v₀
  · rw [linkList_of_mem hmem] at hring
    exact ⟨_, _, .same h hring (Or.inl hcur)
      fun u => (taskLink_pending u).mp⟩
  · have hout := hpass.resolve_left fun hwas => hmem ((h.ring.mem t).mp hwas)
    exact Turn.insert h hout hmem hring hcur fun u => (taskLink_pending u).mp

theorem ringInsert_linked : (s.ringInsert t).ring.linked = s.ring.linked := by
  unfold ringInsert
  split <;> simp [linked_eq]

theorem taskLink_linked :
    (s.taskLink t).ring.linked = Function.update s.ring.linked t true := by
  unfold taskLink
  rw [modFlags_ring]
  dsimp only
  split
  · simp [linked_eq]
  · rw [ringInsert_linked]
    simp [linked_eq]

theorem taskLink_runnable {u : ℕ} (h : Round s a₀ v₀) (ht : s.Valid t)
    (hu : Runnable s u) : Runnable (s.taskLink t) u := by
  have hring := taskLink_ringInv h.ring ht.2 ht.1
  have hmem : u ∈ linkList t (a₀ ++ schedTask :: v₀) :=
    mem_linkList.mpr (Or.inr ((h.ring.mem u).mp hu.1))
  refine ⟨(hring.mem u).mpr hmem, ?_,
    (pleaseDeref_of_rest (taskLink_rest t) u).trans hu.2.2⟩
  rw [linked_eq, taskLink_linked]
  by_cases hut : u = t
  · rw [hut, Function.update_self]
  · rw [Function.update_of_ne hut]
    exact hu.2.1

/-- Each task of the list is in the ring, or the head passes. -/
def LinksPass (s : Kern) : List ℕ → Prop
  | [] => True
  | t :: ts =>
      ((s.task t).flags.wasLinked = true ∨ s.HeadPasses) ∧
        LinksPass (s.taskLink t) ts

theorem linkAll_turn {ts : List ℕ} (h : Round s a₀ v₀)
    (hts : ∀ t ∈ ts, s.Valid t) (hpass : s.LinksPass ts) :
    ∃ a₁ v₁, Turn s a₀ v₀ (s.linkAll ts) a₁ v₁ := by
  induction ts generalizing s a₀ v₀ with
  | nil => exact ⟨a₀, v₀, .same h h.ring (Or.inl rfl) fun _ => id⟩
  | cons t ts ih =>
      have ht := hts t List.mem_cons_self
      have hlive := liveTasks_of_rest (taskLink_rest (s := s) t)
      obtain ⟨a₁, v₁, hturn⟩ := taskLink_turn h ht hpass.1
      obtain ⟨a₂, v₂, hturn'⟩ := ih hturn.round
        (fun u hu => by
          have hvalid := hts u (List.mem_cons_of_mem _ hu)
          exact ⟨hvalid.1, hlive ▸ hvalid.2⟩) hpass.2
      have hall := liveTasks_of_rest (linkAll_rest ts (s.taskLink t))
      exact ⟨a₂, v₂, hturn.trans hturn'
        (fun u => taskLink_runnable h ht) (hall ▸ Finset.Subset.refl _)⟩

end Turns

/-! ## Steps -/

/-- `sched_task` is never freed. -/
def Static (s : Kern) : Prop :=
  schedTask ∈ s.liveTasks ∧ (s.task schedTask).refcount = refcountGlobal

theorem Static.of_shrinks {s s' : Kern} (h : s.Static)
    (hs : RingShrinks s s') : s'.Static := hs.static _ h.1 h.2

theorem Static.of_rest {s s' : Kern} (h : s.Static)
    (hrest : s'.rest = s.rest) : s'.Static := by
  unfold Static
  rw [liveTasks_of_rest hrest, refcount_of_rest hrest]
  exact h

theorem Static.modTask {s : Kern} {t : ℕ} {f : Task → Task} (h : s.Static)
    (hf : (f (s.task t)).refcount = (s.task t).refcount) :
    (s.modTask t f).Static := by
  refine ⟨h.1, ?_⟩
  by_cases ht : schedTask = t
  · subst ht
    rw [modTask_task_self, hf]
    exact h.2
  · rw [modTask_task_of_ne _ _ ht]
    exact h.2

theorem Static.of_creates {s s' : Kern} {t : ℕ} (h : s.Static)
    (ht : t ∉ s.liveTasks) (hs : Creates t s s') : s'.Static := by
  have hne : schedTask ≠ t := fun heq => ht (heq ▸ h.1)
  refine ⟨?_, (hs.refcount _ hne).trans h.2⟩
  rw [hs.live]
  exact Finset.mem_insert_of_mem h.1

theorem Static.taskExitAsserted {s s' : Kern} (h : s.Static)
    (hok : s.taskExitAsserted = .ok s') : s'.Static := by
  simp only [Kern.taskExitAsserted, Outcome.bind_eq_ok, panicIf_eq_ok,
    Outcome.pure_eq_ok] at hok
  obtain ⟨-, -, -, -, -, -, rfl⟩ := hok
  have hexited : (s.modFlags s.taskCurrent fun f =>
      { f with hasExited := true }).Static := Static.modTask h rfl
  have hunlinked := hexited.of_rest (taskUnlink_rest s.taskCurrent)
  generalize (s.modFlags s.taskCurrent fun f =>
    { f with hasExited := true }).taskUnlink s.taskCurrent = s₂ at hunlinked ⊢
  split_ifs
  · have hrestarted : (s₂.modTask s.taskCurrent fun x =>
        { clearAnchor x with
          gencount := (x.gencount + 1) % 2 ^ 32
          flags := { x.flags with hasExited := false, hasCrashed := false } }
        ).Static := hunlinked.modTask rfl
    have hlinked := hrestarted.of_rest (taskLink_rest s.taskCurrent)
    exact hlinked
  · have hflagged : (s₂.modFlags s.taskCurrent fun f =>
        { f with pleaseDeref := true }).Static := Static.modTask hunlinked rfl
    exact hflagged

theorem Static.pongoSchedTick {s s' : Kern} {fuel : ℕ} {r : Tick}
    (h : s.Static) (hok : s.pongoSchedTick fuel = .ok (r, s')) :
    s'.Static := by
  simp only [Kern.pongoSchedTick, Outcome.bind_eq_ok, panicIf_eq_ok] at hok
  obtain ⟨-, -, hok⟩ := hok
  split_ifs at hok
  · cases hok
    exact h
  · simp only [Outcome.bind_eq_ok, Outcome.pure_eq_ok, Prod.mk.injEq] at hok
    obtain ⟨s₂, hrelease, -, rfl⟩ := hok
    refine Static.of_shrinks ?_ (taskRelease_ring hrelease)
    exact Static.modTask (s := s.setPongoSchedHead _) h rfl
  · cases hok
    exact h
  · cases hok
    exact h

end Kern

open Kern

theorem static_of_step {s s' : Kern} {c : SchedCall} (h : s.Static)
    (hstep : SchedStep s c s') : s'.Static := by
  cases c with
  | link t =>
      obtain ⟨-, rfl⟩ := hstep
      exact h.of_rest (taskLink_rest t)
  | unlink t =>
      obtain ⟨-, rfl⟩ := hstep
      exact h.of_rest (taskUnlink_rest t)
  | realUnlink t =>
      obtain ⟨-, rfl⟩ := hstep
      exact h.of_rest (taskRealUnlink_rest t)
  | setSchedHead t =>
      obtain ⟨-, hok⟩ := hstep
      simp only [taskSetSchedHead, Outcome.bind_eq_ok, Outcome.pure_eq_ok] at hok
      obtain ⟨-, -, rfl⟩ := hok
      exact h
  | registerUnlinked t =>
      obtain ⟨-, ht, hok⟩ := hstep
      exact h.of_creates ht (.taskRegisterUnlinked hok)
  | register t =>
      obtain ⟨-, ht, hok⟩ := hstep
      exact h.of_creates ht (.taskRegister hok)
  | create t =>
      obtain ⟨-, ht, hok⟩ := hstep
      exact h.of_creates ht (.taskCreate hok)
  | createExtended type arg t b =>
      obtain ⟨-, ht, fuel, hok⟩ := hstep
      obtain ⟨s₁, hcreates, -, hlast⟩ := taskCreateExtended_ok ht hok
      have h₁ := h.of_creates ht hcreates
      generalize (if type.fromProc then 0 else arg) = vector at hlast
      split_ifs at hlast
      · exact h₁.of_shrinks (registerIrqHandler_ring hlast)
      · cases hlast
        exact h₁.of_rest (taskLink_rest t)
      · cases hlast
        exact h₁
  | release t =>
      obtain ⟨-, fuel, hok⟩ := hstep
      exact h.of_shrinks (taskRelease_ring hok)
  | wait ev =>
      cases hstep
      have hnext : (s.setEqNext s.taskCurrent (s.taskHead ev)).Static :=
        Static.modTask h rfl
      have hqueued : ((s.setEqNext s.taskCurrent (s.taskHead ev)).setTaskHead
          ev s.taskCurrent).Static := hnext
      have hunlinked := hqueued.of_rest (taskUnlink_rest s.taskCurrent)
      exact hunlinked
  | fire ev =>
      obtain ⟨fuel, hok⟩ := hstep
      obtain ⟨ts, -, -, rfl⟩ := eventFire_ok.mp hok
      have hlinked := h.of_rest (linkAll_rest ts s)
      exact hlinked
  | exit => exact h.taskExitAsserted hstep.2
  | yield =>
      cases hstep
      exact h
  | tick r =>
      obtain ⟨fuel, hok⟩ := hstep
      exact h.pongoSchedTick hok

/-- Whoever runs may call anything but `task_real_unlink` and
`task_set_sched_head`.  The scheduler ticks, and a task exits. -/
def SchedCall.InRound (s : Kern) : SchedCall → Prop
  | .realUnlink _ | .setSchedHead _ => False
  | .tick _ => s.taskCurrent = schedTask
  | .exit => s.taskCurrent ≠ schedTask
  | _ => True

def RoundStep (s : Kern) (c : SchedCall) (s' : Kern) : Prop :=
  SchedStep s c s' ∧ c.InRound s

/-- When a task enters the ring, the head passes.  Whoever waits for an event
that is fired exists. -/
def SchedCall.KeepsTurns (s : Kern) : SchedCall → Prop
  | .link t => (s.task t).flags.wasLinked = true ∨ s.HeadPasses
  | .register _ | .create _ => s.HeadPasses
  | .createExtended type arg _ _ =>
      type.linked = true →
      ¬ (type.irqHandler ∧ (if type.fromProc then 0 else arg) ≠ 0) →
        s.HeadPasses
  | .fire ev => s.LiveQueue ev ∧
      ∀ l, Path s.eqNexts 0 (s.taskHead ev) l → s.LinksPass l
  | _ => True

def FairStep (s : Kern) (c : SchedCall) (s' : Kern) : Prop :=
  RoundStep s c s' ∧ c.KeepsTurns s

section Steps

variable {s s' : Kern} {a₀ v₀ : List ℕ} {t : ℕ}

theorem Kern.Round.currentLive (h : Round s a₀ v₀) (hstatic : s.Static) :
    s.taskCurrent ∈ s.liveTasks := by
  rcases h.current with hcur | hcur
  · exact hcur ▸ hstatic.1
  · exact h.ring.live _ (by simp [hcur])

/-- Releasing tasks. -/
theorem Kern.Turn.of_shrinks {s₁ : Kern} (hs : RingShrinks s₁ s')
    (h : Round s a₀ v₀)
    (hring : RingInv s₁.ring s₁.liveTasks (a₀ ++ schedTask :: v₀))
    (hstatic : s₁.Static) (hcur : s₁.taskCurrent = s.taskCurrent)
    (hcurlive : s₁.taskCurrent ∈ s₁.liveTasks)
    (hpending : ∀ t, Pending s₁ v₀ t → Pending s v₀ t) : ∃ a₁ v₁, Turn s a₀ v₀ s' a₁ v₁ := by
  refine Turn.shrink h (hs.ring _ hring) (hstatic.of_shrinks hs).1
    (hs.current.trans hcur) ?_ fun t hderef hlive hv => ?_
  · rw [← hcur, ← hs.current]
    exact hs.currentLive hcurlive
  · exact hpending t ⟨(hs.pleaseDeref t).symm.trans hderef, hs.live hlive, hv⟩

theorem Kern.Creates.pending {v : List ℕ} (hs : Creates t s s')
    (u : ℕ) (hu : Pending s' v u) : Pending s v u := by
  obtain ⟨hderef, hlive, hv⟩ := hu
  have hut : u ≠ t := by
    rintro rfl
    rw [hs.fresh] at hderef
    cases hderef
  rw [hs.live] at hlive
  exact ⟨(hs.pleaseDeref u hut).symm.trans hderef,
    Finset.mem_of_mem_insert_of_ne hlive hut, hv⟩

theorem Kern.Turn.of_creates (h : Round s a₀ v₀) (ht : t ∉ s.liveTasks)
    (hpass : s.HeadPasses) (hs : Creates t s s')
    (hring : RingInv s'.ring s'.liveTasks
      (linkList t (a₀ ++ schedTask :: v₀))) :
    ∃ a₁ v₁, Turn s a₀ v₀ s' a₁ v₁ :=
  Turn.insert h hpass (fun hmem => ht (h.ring.live t hmem)) hring hs.current
    hs.pending

theorem eventWait_pleaseDeref {ev : ℕ} (u : ℕ) :
    ((s.eventWait ev).task u).flags.pleaseDeref =
      (s.task u).flags.pleaseDeref := by
  have hnext : ((s.setEqNext s.taskCurrent (s.taskHead ev)).task
      u).flags.pleaseDeref = (s.task u).flags.pleaseDeref := by
    unfold setEqNext
    by_cases hu : u = s.taskCurrent <;> simp [hu]
  have hunlinked := pleaseDeref_of_rest (taskUnlink_rest
    (s := (s.setEqNext s.taskCurrent (s.taskHead ev)).setTaskHead ev
      s.taskCurrent) s.taskCurrent) u
  exact hunlinked.trans hnext

theorem taskExitAsserted_frame (hok : s.taskExitAsserted = .ok s') :
    s'.liveTasks = s.liveTasks ∧ s'.taskCurrent = schedTask ∧
      ∀ u ≠ s.taskCurrent, (s'.task u).flags.pleaseDeref =
        (s.task u).flags.pleaseDeref := by
  simp only [taskExitAsserted, Outcome.bind_eq_ok, panicIf_eq_ok,
    Outcome.pure_eq_ok] at hok
  obtain ⟨-, -, -, -, -, -, rfl⟩ := hok
  split_ifs
  · have hrest := taskLink_rest
      (s := ((s.modFlags s.taskCurrent fun f =>
        { f with hasExited := true }).taskUnlink s.taskCurrent).modTask
          s.taskCurrent fun x =>
            { clearAnchor x with
              gencount := (x.gencount + 1) % 2 ^ 32
              flags :=
                { x.flags with hasExited := false, hasCrashed := false } })
      s.taskCurrent
    have hlive := liveTasks_of_rest hrest
    refine ⟨hlive, rfl, fun u hu => ?_⟩
    have hderef := pleaseDeref_of_rest hrest u
    refine hderef.trans ?_
    simp [taskUnlink, modFlags, hu]
  · exact ⟨rfl, rfl, fun u hu => by simp [taskUnlink, modFlags, hu]⟩

theorem turn_of_step {c : SchedCall} (h : Round s a₀ v₀) (hstatic : s.Static)
    (hstep : FairStep s c s') (htick : ∀ r, c ≠ .tick r) :
    ∃ a₁ v₁, Turn s a₀ v₀ s' a₁ v₁ := by
  obtain ⟨⟨hstep, hround⟩, hkeeps⟩ := hstep
  cases c with
  | link t =>
      obtain ⟨ht, rfl⟩ := hstep
      exact taskLink_turn h ht hkeeps
  | unlink t =>
      obtain ⟨-, rfl⟩ := hstep
      have hrest := taskUnlink_rest (s := s) t
      refine ⟨_, _, .same h (taskUnlink_ringInv h.ring)
        (Or.inl (taskCurrent_of_rest hrest)) fun u hu => ?_⟩
      exact ⟨(pleaseDeref_of_rest hrest u).symm.trans hu.1, hu.2⟩
  | realUnlink t => exact absurd hround id
  | setSchedHead t => exact absurd hround id
  | registerUnlinked t =>
      obtain ⟨-, ht, hok⟩ := hstep
      have hcreates := Creates.taskRegisterUnlinked hok
      exact ⟨_, _, .same h
        (taskRegisterUnlinked_ringInv (newTask_ringInv h.ring ht) hok)
        (Or.inl hcreates.current) hcreates.pending⟩
  | register t =>
      obtain ⟨h0, ht, hok⟩ := hstep
      exact Turn.of_creates h ht hkeeps (.taskRegister hok)
        (taskRegister_ringInv (newTask_ringInv h.ring ht)
          ⟨h0, Finset.mem_insert_self t _⟩ hok)
  | create t =>
      obtain ⟨h0, ht, hok⟩ := hstep
      exact Turn.of_creates h ht hkeeps (.taskCreate hok)
        (taskCreate_ringInv h.ring h0 ht hok)
  | createExtended type arg t b =>
      obtain ⟨h0, ht, fuel, hok⟩ := hstep
      obtain ⟨s₁, hcreates, hring, hlast⟩ := taskCreateExtended_ok ht hok
      have hring₁ := hring _ h.ring
      have hpass : type.linked = true → ¬ (type.irqHandler = true ∧
          (if type.fromProc then 0 else arg) ≠ 0) → s.HeadPasses := hkeeps
      generalize (if type.fromProc then 0 else arg) = vector at hlast hpass
      split_ifs at hlast with hirq hlinked
      · refine Turn.of_shrinks (registerIrqHandler_ring hlast) h hring₁
          (hstatic.of_creates ht hcreates) hcreates.current ?_
          hcreates.pending
        rw [hcreates.current, hcreates.live]
        exact Finset.mem_insert_of_mem (h.currentLive hstatic)
      · cases hlast
        refine Turn.of_creates h ht (hpass hlinked hirq) hcreates.taskLink ?_
        refine taskLink_ringInv hring₁ ?_ h0
        rw [hcreates.live]
        exact Finset.mem_insert_self t _
      · cases hlast
        exact ⟨_, _, .same h hring₁ (Or.inl hcreates.current)
          hcreates.pending⟩
  | release t =>
      obtain ⟨-, fuel, hok⟩ := hstep
      exact Turn.of_shrinks (taskRelease_ring hok) h h.ring hstatic rfl
        (h.currentLive hstatic) fun _ => id
  | wait ev =>
      cases hstep
      refine ⟨_, _, .same h (eventWait_ringInv h.ring) (Or.inr rfl)
        fun u hu => ⟨?_, hu.2⟩⟩
      exact (eventWait_pleaseDeref u).symm.trans hu.1
  | fire ev =>
      obtain ⟨fuel, hok⟩ := hstep
      obtain ⟨ts, hpath, -, rfl⟩ := eventFire_ok.mp hok
      obtain ⟨a₁, v₁, hturn⟩ := linkAll_turn h
        (fun t ht => ⟨hpath.ne_null ht, hkeeps.1 ts hpath t ht⟩)
        (hkeeps.2 ts hpath)
      exact ⟨a₁, v₁, ⟨hturn.round.ring, hturn.round.current⟩, hturn.ahead,
        hturn.behind, hturn.pending⟩
  | exit =>
      obtain ⟨l', hl', hsame⟩ := taskExitAsserted_ringInv h.ring hstep.1 hstep.2
      obtain ⟨hlive, hcur, hother⟩ := taskExitAsserted_frame hstep.2
      have hvisited := h.current.resolve_left hround
      rw [hsame (by simp [hvisited])] at hl'
      refine ⟨_, _, .same h hl' (Or.inr hcur) fun u hu => ?_⟩
      have hne : u ≠ s.taskCurrent := fun heq => hu.2.2 (heq ▸ hvisited)
      exact ⟨(hother u hne).symm.trans hu.1, hlive ▸ hu.2.1, hu.2.2⟩
  | yield =>
      cases hstep
      exact ⟨_, _, .same h h.ring (Or.inr rfl) fun _ => id⟩
  | tick r => exact absurd rfl (htick r)

/-- What a tick does with the task it takes from the head. -/
theorem pongoSchedTick_ok {fuel : ℕ} {r : Tick} {a : ℕ}
    (hok : s.pongoSchedTick fuel = .ok (r, s')) (ha : s.pongoSchedHead = a)
    (hsched : a ≠ schedTask) :
    ((s.task a).flags.pleaseDeref = true ∧
        (s.deref a).taskRelease fuel a = .ok s') ∨
      ((s.task a).flags.pleaseDeref = false ∧
        (s.task a).flags.linked = true ∧
        s' = (s.setPongoSchedHead (s.task a).next).setTaskCurrent a) ∨
      ((s.task a).flags.pleaseDeref = false ∧
        (s.task a).flags.linked = false ∧
        s' = s.setPongoSchedHead (s.task a).next) := by
  subst ha
  simp only [pongoSchedTick, Outcome.bind_eq_ok, panicIf_eq_ok,
    if_neg hsched] at hok
  obtain ⟨-, -, hok⟩ := hok
  split_ifs at hok with hderef hlinked
  · simp only [Outcome.bind_eq_ok, Outcome.pure_eq_ok, Prod.mk.injEq] at hok
    obtain ⟨s₂, hrelease, -, rfl⟩ := hok
    exact Or.inl ⟨hderef, hrelease⟩
  · cases hok
    exact Or.inr (Or.inl ⟨Bool.not_eq_true _ ▸ hderef, hlinked, rfl⟩)
  · cases hok
    exact Or.inr (Or.inr ⟨Bool.not_eq_true _ ▸ hderef,
      Bool.not_eq_true _ ▸ hlinked, rfl⟩)

/-- A tick visits the next task. -/
theorem tick_turn {fuel : ℕ} {r : Tick} (h : Round s a₀ v₀)
    (hstatic : s.Static) (hcur : s.taskCurrent = schedTask)
    (hok : s.pongoSchedTick fuel = .ok (r, s'))
    (hsched : s.pongoSchedHead ≠ schedTask) :
    ∃ m, a₀ = s.pongoSchedHead :: m ∧
      (Runnable s s.pongoSchedHead → s'.taskCurrent = s.pongoSchedHead) ∧
      (s'.taskCurrent = schedTask ∨ s'.taskCurrent = s.pongoSchedHead) ∧
      ∃ a₁ v₁, Turn (s.setPongoSchedHead (s.task s.pongoSchedHead).next) m
        (v₀ ++ [s.pongoSchedHead]) s' a₁ v₁ := by
  obtain ⟨m, rfl⟩ := h.head_cons hsched
  refine ⟨m, rfl, ?_⟩
  generalize ha : s.pongoSchedHead = a at *
  have hadvance : Round (s.setPongoSchedHead (s.task a).next) m
      (v₀ ++ [a]) := by
    have hring : RingInv (s.setPongoSchedHead (s.task a).next).ring
        s.liveTasks ((m ++ schedTask :: v₀) ++ [a]) := by
      subst ha
      exact h.ring.advance
    rw [List.append_assoc, List.cons_append] at hring
    exact ⟨hring, Or.inl hcur⟩
  rcases pongoSchedTick_ok hok ha hsched with ⟨hderef, hrelease⟩ |
    ⟨-, -, rfl⟩ | ⟨-, hlinked, rfl⟩
  · have hshrinks := taskRelease_ring hrelease
    have hcur' : s'.taskCurrent = schedTask := hshrinks.current.trans hcur
    refine ⟨fun hrun => ?_, Or.inl hcur', ?_⟩
    · exact absurd (hderef.symm.trans hrun.2.2) (by decide)
    · refine Turn.of_shrinks hshrinks hadvance ?_ ?_ rfl ?_ ?_
      · unfold deref modFlags
        rw [modTask_ring_eq _ _ rfl rfl rfl rfl]
        exact hadvance.ring
      · exact Static.modTask (s := s.setPongoSchedHead _) hstatic rfl
      · exact hcur ▸ hstatic.1
      · intro t ht
        have hta : t ≠ a := fun heq => ht.2.2 (by simp [heq])
        refine ⟨?_, ht.2⟩
        have hother := ht.1
        unfold deref modFlags at hother
        rwa [modTask_task_of_ne _ _ hta] at hother
  · exact ⟨fun _ => rfl, Or.inr rfl, m, v₀ ++ [a],
      ⟨hadvance.ring, Or.inr (by simp)⟩, fun _ ht _ _ => ht,
      fun _ ht _ => ht, fun _ => id⟩
  · exact ⟨fun hrun => absurd (hlinked.symm.trans hrun.2.1) (by decide),
      Or.inl hcur, m, v₀ ++ [a], hadvance, fun _ ht _ _ => ht,
      fun _ ht _ => ht, fun _ => id⟩

end Steps

/-! ## What a tick is seen to do -/

/-- A call with the states of the kernel around it. -/
abbrev SchedEvent := Transition Kern SchedCall

namespace SchedEvent

def IsTick (x : SchedEvent) : Prop := ∃ r, x.event = .tick r

/-- A tick that finds `t` at the head. -/
def Finds (t : ℕ) (x : SchedEvent) : Prop :=
  x.IsTick ∧ x.before.pongoSchedHead = t

/-- A tick that switches from `sched_task` to `t`. -/
def Dispatches (t : ℕ) (x : SchedEvent) : Prop :=
  x.IsTick ∧ x.before.taskCurrent = schedTask ∧ x.after.taskCurrent = t

/-- A tick that finds `t` with `TASK_PLEASE_DEREF`. -/
def FindsDeref (t : ℕ) (x : SchedEvent) : Prop :=
  x.Finds t ∧ (x.before.task t).flags.pleaseDeref = true

/-- A tick that clears the flag of `t` and leaves what `task_release` makes of
the state. -/
def Releases (t : ℕ) (x : SchedEvent) : Prop :=
  x.FindsDeref t ∧
    ∃ fuel, (x.before.deref t).taskRelease fuel t = .ok x.after

end SchedEvent

open SchedEvent

/-! ## Counting visits -/

/-- What one event does to a round: a runnable task that is ahead stays ahead
or is dispatched and falls behind, one that was visited stays behind, and a
release that was due is done and is not found again. -/
structure Visit (ahead visited : List ℕ) (x : SchedEvent)
    (ahead' visited' : List ℕ) : Prop where
  round : Round x.after ahead' visited'
  ahead : ∀ t ∈ ahead, Runnable x.before t → Runnable x.after t →
    t ∈ ahead' ∧ ¬ x.Dispatches t ∨ t ∈ visited' ∧ x.Dispatches t
  behind : ∀ t ∈ visited, Runnable x.after t →
    t ∈ visited' ∧ ¬ x.Dispatches t
  pending : ∀ t, Pending x.after visited' t → Pending x.before visited t
  found : ∀ t, x.FindsDeref t →
    x.Releases t ∧ Pending x.before visited t ∧ ¬ Pending x.after visited' t

theorem releases_of_tick {x : SchedEvent} {t : ℕ}
    (hstep : SchedStep x.before x.event x.after) (hfound : x.FindsDeref t)
    (hsched : t ≠ schedTask) : x.Releases t := by
  refine ⟨hfound, ?_⟩
  obtain ⟨⟨⟨r, hr⟩, hhead⟩, hderef⟩ := hfound
  rw [hr] at hstep
  obtain ⟨fuel, hok⟩ := hstep
  rcases pongoSchedTick_ok hok hhead hsched with ⟨-, hrelease⟩ |
    ⟨hnot, -⟩ | ⟨hnot, -⟩
  · exact ⟨fuel, hrelease⟩
  · exact absurd (hderef.symm.trans hnot) (by decide)
  · exact absurd (hderef.symm.trans hnot) (by decide)

theorem visit_of_step {x : SchedEvent} {a₀ v₀ : List ℕ}
    (h : Round x.before a₀ v₀) (hstatic : x.before.Static)
    (hstep : FairStep x.before x.event x.after)
    (hloop : ¬ x.Finds schedTask) : ∃ a₁ v₁, Visit a₀ v₀ x a₁ v₁ := by
  by_cases htick : x.IsTick
  · have hsched : x.before.pongoSchedHead ≠ schedTask :=
      fun hhead => hloop ⟨htick, hhead⟩
    have hrelease := fun t (hfound : x.FindsDeref t) =>
      releases_of_tick hstep.1.1 hfound (hfound.1.2 ▸ hsched)
    obtain ⟨r, hr⟩ := htick
    rw [hr] at hstep
    obtain ⟨⟨⟨fuel, hok⟩, hcur⟩, -⟩ := hstep
    obtain ⟨m, rfl, hrun, hswitch, a₁, v₁, hturn⟩ :=
      tick_turn h hstatic hcur hok hsched
    have hlive := fun {t} (ht : Runnable x.after t) => hturn.round.live ht
    have hnodup := h.ring.circular.nodup
    rw [List.cons_append, List.nodup_cons] at hnodup
    have hother : ∀ t ≠ schedTask, t ≠ x.before.pongoSchedHead →
        ¬ x.Dispatches t := by
      rintro t hne hne' ⟨-, -, rfl⟩
      exact hswitch.elim hne hne'
    refine ⟨a₁, v₁, hturn.round, fun t ht hs hs' => ?_, fun t ht hs' => ?_,
      fun t ht => ?_, fun t ht => ⟨hrelease t ht, ?_⟩⟩
    · rcases List.mem_cons.mp ht with rfl | hm
      · exact Or.inr ⟨hturn.behind _ (by simp) (hlive hs'), ⟨r, hr⟩, hcur,
          hrun hs⟩
      · refine Or.inl ⟨hturn.ahead t hm hs (hlive hs'),
          hother t (h.disjoint ht).1 ?_⟩
        rintro rfl
        exact hnodup.1 (List.mem_append_left _ hm)
    · refine ⟨hturn.behind t (by simp [ht]) (hlive hs'), hother t ?_ ?_⟩
      · rintro rfl
        exact h.sched_notMem ht
      · rintro rfl
        exact (h.disjoint List.mem_cons_self).2 ht
    · have hp := hturn.pending t ht
      exact ⟨hp.1, hp.2.1, fun hv => hp.2.2 (by simp [hv])⟩
    · obtain ⟨⟨-, rfl⟩, hderef⟩ := ht
      have hlive₀ := h.ring.live x.before.pongoSchedHead (by simp)
      refine ⟨⟨hderef, hlive₀, (h.disjoint List.mem_cons_self).2⟩, ?_⟩
      exact fun hp => (hturn.pending _ hp).2.2 (by simp)
  · have hnone : ∀ r, x.event ≠ .tick r := fun r hr => htick ⟨r, hr⟩
    obtain ⟨a₁, v₁, hturn⟩ := turn_of_step h hstatic hstep hnone
    have hlive := fun {t} (ht : Runnable x.after t) => hturn.round.live ht
    exact ⟨a₁, v₁, hturn.round,
      fun t ht hs hs' => Or.inl ⟨hturn.ahead t ht hs (hlive hs'),
        fun hd => htick hd.1⟩,
      fun t ht hs' => ⟨hturn.behind t ht (hlive hs'), fun hd => htick hd.1⟩,
      hturn.pending, fun t ht => absurd ht.1.1 htick⟩

section Rounds

variable {s s' : Kern} {a₀ v₀ : List ℕ} {t : ℕ} {xs : List SchedEvent}

/-- A task that stays runnable is dispatched once if it is ahead, and not at
all if it was visited. -/
theorem dispatched_of_run (hrun : Run (Traced FairStep) s xs s')
    (h : Round s a₀ v₀) (hstatic : s.Static)
    (hloop : ∀ x ∈ xs, ¬ x.Finds schedTask) (ht : Runnable s t)
    (hall : ∀ x ∈ xs, Runnable x.after t) :
    ∃ a₁ v₁, Round s' a₁ v₁ ∧
      (t ∈ v₀ → t ∈ v₁ ∧ ∀ x ∈ xs, ¬ x.Dispatches t) ∧
      (t ∈ a₀ → t ∈ a₁ ∨ Once (Dispatches t) xs) := by
  induction hrun generalizing a₀ v₀ with
  | nil s => exact ⟨a₀, v₀, h, fun hv => ⟨hv, by simp⟩, Or.inl⟩
  | @cons s s₁ s' x xs hstep hrest ih =>
      obtain ⟨hstep, rfl, rfl⟩ := hstep
      simp only [List.forall_mem_cons] at hloop hall
      obtain ⟨a₁, v₁, hvisit⟩ := visit_of_step h hstatic hstep hloop.1
      obtain ⟨a₂, v₂, hround, hbehind, hahead⟩ :=
        ih hvisit.round (static_of_step hstatic hstep.1.1) hloop.2 hall.1
          hall.2
      refine ⟨a₂, v₂, hround, fun hv => ?_, fun ha => ?_⟩
      · obtain ⟨hv₁, hne⟩ := hvisit.behind t hv hall.1
        obtain ⟨hv₂, hrest⟩ := hbehind hv₁
        exact ⟨hv₂, List.forall_mem_cons.mpr ⟨hne, hrest⟩⟩
      · rcases hvisit.ahead t ha ht hall.1 with ⟨ha₁, hne⟩ | ⟨hv₁, hd⟩
        · exact (hahead ha₁).imp id (Once.cons hne)
        · exact Or.inr (Once.head hd (hbehind hv₁).2)

/-- A release that is due is done once, and is not found again. -/
theorem released_of_run (hrun : Run (Traced FairStep) s xs s')
    (h : Round s a₀ v₀) (hstatic : s.Static)
    (hloop : ∀ x ∈ xs, ¬ x.Finds schedTask) :
    (¬ Pending s v₀ t → ∀ x ∈ xs, ¬ x.FindsDeref t) ∧
      ((∃ x ∈ xs, x.FindsDeref t) → Once (Releases t) xs) := by
  induction hrun generalizing a₀ v₀ with
  | nil s => exact ⟨by simp, by simp⟩
  | @cons s s₁ s' x xs hstep hrest ih =>
      obtain ⟨hstep, rfl, rfl⟩ := hstep
      simp only [List.forall_mem_cons] at hloop
      obtain ⟨a₁, v₁, hvisit⟩ := visit_of_step h hstatic hstep hloop.1
      obtain ⟨hnone, hone⟩ :=
        ih hvisit.round (static_of_step hstatic hstep.1.1) hloop.2
      constructor
      · intro hp
        have hx : ¬ x.FindsDeref t := fun hfound =>
          hp (hvisit.found t hfound).2.1
        have hp' : ¬ Pending x.after v₁ t := fun hp' => hp (hvisit.pending t hp')
        exact List.forall_mem_cons.mpr ⟨hx, hnone hp'⟩
      · intro hex
        by_cases hx : x.FindsDeref t
        · obtain ⟨hrel, -, hp⟩ := hvisit.found t hx
          exact Once.head hrel fun y hy hy' => hnone hp y hy hy'.1
        · refine Once.cons (fun hrel => hx hrel.1) (hone ?_)
          obtain ⟨y, hy, hfound⟩ := hex
          rcases List.mem_cons.mp hy with rfl | hy
          · exact absurd hfound hx
          · exact ⟨y, hy, hfound⟩

/-- A tick at `sched_task` starts a round. -/
theorem sched_tick {r : Tick} (hring : ∃ l, RingInv s.ring s.liveTasks l)
    (hhead : s.pongoSchedHead = schedTask)
    (hstep : RoundStep s (.tick r) s') : ∃ m, Round s' m [] := by
  obtain ⟨⟨fuel, hok⟩, hcur⟩ := hstep
  obtain ⟨l, hl⟩ := hring
  simp only [pongoSchedTick, Outcome.bind_eq_ok, panicIf_eq_ok,
    if_pos hhead] at hok
  obtain ⟨-, h0, hok⟩ := hok
  obtain ⟨m, rfl⟩ := hl.head_mem h0
  have hadvance : RingInv
      (s.setPongoSchedHead (s.task s.pongoSchedHead).next).ring s.liveTasks
      (m ++ [s.pongoSchedHead]) := hl.advance
  cases hok
  have hlast : [s.pongoSchedHead] = [schedTask] :=
    congrArg (fun t => [t]) hhead
  rw [hlast] at hadvance
  exact ⟨m, hadvance, Or.inl hcur⟩

/-- A tick that finds no task to release touches no task. -/
theorem tick_task {x : SchedEvent}
    (hstep : SchedStep x.before x.event x.after) (htick : x.IsTick)
    (hfound : ∀ t, ¬ x.FindsDeref t) (hloop : ¬ x.Finds schedTask) :
    x.after.task = x.before.task ∧ x.after.liveTasks = x.before.liveTasks := by
  have hsched : x.before.pongoSchedHead ≠ schedTask :=
    fun hhead => hloop ⟨htick, hhead⟩
  have hnot := fun hderef => hfound _ ⟨⟨htick, rfl⟩, hderef⟩
  obtain ⟨r, hr⟩ := htick
  rw [hr] at hstep
  obtain ⟨fuel, hok⟩ := hstep
  rcases pongoSchedTick_ok hok rfl hsched with ⟨hderef, -⟩ |
    ⟨-, -, hs'⟩ | ⟨-, -, hs'⟩
  · exact absurd hderef hnot
  · rw [hs']
    exact ⟨rfl, rfl⟩
  · rw [hs']
    exact ⟨rfl, rfl⟩

/-- From a tick that finds `sched_task` to a state in which the next tick finds
it, when whatever falls behind without a visit does not want to run, there is
one switch to every task that is runnable all the time, and one release of
every task that is found with `TASK_PLEASE_DEREF`.  The other ticks leave the
tasks as they are. -/
theorem round_robin {s₀ s₁ s₂ : Kern} {cs : List SchedCall} {r : Tick}
    (hring : ∃ l, RingInv s₀.ring s₀.liveTasks l) (hstatic : s₀.Static)
    (hbefore : Run LiveSchedStep s₀ cs s)
    (hfirst : RoundStep s (.tick r) s₁) (hhead : s.pongoSchedHead = schedTask)
    (hround : Run (Traced FairStep) s₁ xs s₂)
    (hloop : ∀ x ∈ xs, ¬ x.Finds schedTask)
    (hhead' : s₂.pongoSchedHead = schedTask) :
    (∀ t ≠ schedTask, Runnable s₁ t → (∀ x ∈ xs, Runnable x.after t) →
      Once (Dispatches t) xs) ∧
    (∀ t, (∃ x ∈ xs, x.FindsDeref t) → Once (Releases t) xs) ∧
    ∀ x ∈ xs, x.IsTick → (∀ t, ¬ x.FindsDeref t) →
      x.after.task = x.before.task ∧
        x.after.liveTasks = x.before.liveTasks := by
  have hstatic₁ : s₁.Static := by
    refine static_of_step ?_ hfirst.1
    exact hbefore.invariant
      (fun _ _ _ h hstep => static_of_step h hstep.1) hstatic
  have hring₁ := hbefore.invariant
    (I := fun s => ∃ l, RingInv s.ring s.liveTasks l)
    (fun _ _ _ h hstep => ring_of_step h hstep) hring
  obtain ⟨m, hstart⟩ := sched_tick hring₁ hhead hfirst
  refine ⟨fun t ht hrun hall => ?_,
    fun t => (released_of_run hround hstart hstatic₁ hloop).2,
    fun x hx htick hfound => ?_⟩
  · obtain ⟨a₂, v₂, hend, -, hahead⟩ :=
      dispatched_of_run hround hstart hstatic₁ hloop hrun hall
    have hmem := (hstart.mem hrun ht).resolve_right (by simp)
    have hnil := hend.head_sched hhead'
    subst hnil
    exact (hahead hmem).resolve_left (by simp)
  · exact tick_task (hround.traced_step hx).1.1 htick hfound (hloop x hx)

end Rounds

theorem bootKern_static : bootKern.Static := ⟨by decide, by decide⟩

/-- The theorem on a round in which one task yields and another, which has
exited in the round before, is released. -/
theorem round_robin_bootKern :
    ∃ s₁ s₂ : Kern, ∃ xs, Run (Traced FairStep) s₁ xs s₂ ∧
      xs.length = 3 ∧ Once (Dispatches 0x1000) xs ∧
      Once (Releases 0x2000) xs := by
  have hcalls : (do
      let k₁ ← bootKern.taskCreate 0x1000
      let k₂ ← k₁.taskCreate 0x2000
      let (r₁, k₃) ← k₂.pongoSchedTick 3
      let k₄ ← k₃.taskExitAsserted
      let (r₂, k₅) ← k₄.pongoSchedTick 3
      let (r₃, k₆) ← k₅.pongoSchedTick 3
      let (r₄, k₇) ← (k₆.setTaskCurrent schedTask).pongoSchedTick 3
      pure ((k₁, k₂, k₃, k₄, k₅, k₆, k₇), r₁, r₂, r₃, r₄) :
        Outcome ((Kern × Kern × Kern × Kern × Kern × Kern × Kern) ×
          Tick × Tick × Tick × Tick)
      ).toOption.map (fun ((k₁, _, k₃, k₄, k₅, k₆, k₇), _) =>
        (0x2000 ∉ k₁.liveTasks ∧ k₃.taskCurrent ≠ 0 ∧
          k₃.taskCurrent ∈ k₃.liveTasks ∧ k₄.taskCurrent = schedTask ∧
          k₄.pongoSchedHead = schedTask ∧
          k₅.taskCurrent = schedTask ∧ k₅.pongoSchedHead = 0x1000 ∧
          k₆.pongoSchedHead = 0x2000 ∧
          (k₆.task 0x2000).flags.pleaseDeref = true ∧
          k₇.pongoSchedHead = schedTask ∧ k₅.Runnable 0x1000 ∧
          k₆.Runnable 0x1000 ∧ k₇.Runnable 0x1000 : Bool)) = some true := by
    decide +kernel
  obtain ⟨⟨⟨_, _, _, _, _, _, _⟩, _, _, _, _⟩, hok, hfacts⟩ :=
    Outcome.ok_of_map hcalls
  simp only [Outcome.bind_eq_ok, Outcome.pure_eq_ok, Prod.exists,
    Prod.mk.injEq] at hok
  obtain ⟨k₁, hcreate₁, k₂, hcreate₂, r₁, k₃, htick₁, k₄, hexit, r₂, k₅,
    htick₂, r₃, k₆, htick₃, r₄, k₇, htick₄,
    ⟨rfl, rfl, rfl, rfl, rfl, rfl, rfl⟩, rfl, rfl, rfl, rfl⟩ := hok
  simp only [decide_eq_true_eq] at hfacts
  obtain ⟨hnew, hcur₃, hlive₃, hcur₄, hhead₄, hcur₅, hhead₅, hhead₆,
    hderef, hhead₇, hrun₅, hrun₆, hrun₇⟩ := hfacts
  have hbefore : Run LiveSchedStep bootKern
      [.create 0x1000, .create 0x2000, .tick r₁, .exit] k₄ :=
    .cons ⟨⟨by decide, by decide, hcreate₁⟩, trivial⟩
      (.cons ⟨⟨by decide, hnew, hcreate₂⟩, trivial⟩
        (.cons ⟨⟨3, htick₁⟩, trivial⟩
          (.single ⟨⟨⟨hcur₃, hlive₃⟩, hexit⟩, trivial⟩)))
  have hround : Run (Traced FairStep) k₅
      [⟨k₅, .tick r₃, k₆⟩, ⟨k₆, .yield, k₆.setTaskCurrent schedTask⟩,
        ⟨k₆.setTaskCurrent schedTask, .tick r₄, k₇⟩] k₇ :=
    .cons ⟨⟨⟨⟨3, htick₃⟩, hcur₅⟩, trivial⟩, rfl, rfl⟩
      (.cons ⟨⟨⟨rfl, trivial⟩, trivial⟩, rfl, rfl⟩
        (.single ⟨⟨⟨⟨3, htick₄⟩, rfl⟩, trivial⟩, rfl, rfl⟩))
  have hsched : ∀ a, a = 0x1000 ∨ a = 0x2000 → a ≠ schedTask := by
    rintro a (rfl | rfl) <;> decide
  have hfair := round_robin ⟨_, bootKern_ringInv⟩ bootKern_static hbefore
    ⟨⟨3, htick₂⟩, hcur₄⟩ hhead₄ hround (by
      simp only [List.forall_mem_cons, List.not_mem_nil, false_imp_iff,
        implies_true, and_true]
      refine ⟨fun h => ?_, fun h => ?_, fun h => ?_⟩
      · exact hsched _ (Or.inl hhead₅) h.2
      · obtain ⟨⟨_, htick⟩, -⟩ := h
        cases htick
      · exact hsched _ (Or.inr hhead₆) h.2) hhead₇
  refine ⟨_, _, _, hround, rfl, hfair.1 0x1000 (by decide) hrun₅ ?_,
    hfair.2.1 0x2000 ⟨⟨k₆.setTaskCurrent schedTask, .tick r₄, k₇⟩, by simp,
      ⟨⟨r₄, rfl⟩, hhead₆⟩, hderef⟩⟩
  simp only [List.forall_mem_cons, List.not_mem_nil, false_imp_iff,
    implies_true, and_true]
  exact ⟨hrun₆, hrun₆, hrun₇⟩

/-! ## Losing a turn -/

/-- A task that is dispatched creates another.  The task at the head, runnable
all the time, is not dispatched in this round. -/
theorem new_task_skips_head :
    ∃ s s₁ s₂ : Kern, ∃ cs, ∃ r, ∃ xs : List SchedEvent,
      Run LiveSchedStep bootKern cs s ∧
      RoundStep s (.tick r) s₁ ∧ s.pongoSchedHead = schedTask ∧
      Run (Traced RoundStep) s₁ xs s₂ ∧
      (∀ x ∈ xs, ¬ x.Finds schedTask) ∧ s₂.pongoSchedHead = schedTask ∧
      (Runnable s₁ 0x2000 ∧ ∀ x ∈ xs, Runnable x.after 0x2000) ∧
      ∀ x ∈ xs, ¬ x.Dispatches 0x2000 := by
  have hcalls : (do
      let k₁ ← bootKern.taskCreate 0x1000
      let k₂ ← k₁.taskCreate 0x2000
      let (r₁, k₃) ← k₂.pongoSchedTick 3
      let (r₂, k₄) ← (k₃.setTaskCurrent schedTask).pongoSchedTick 3
      let (r₃, k₅) ← k₄.pongoSchedTick 3
      let k₆ ← k₅.taskCreate 0x3000
      let (r₄, k₇) ← (k₆.setTaskCurrent schedTask).pongoSchedTick 3
      pure ((k₁, k₃, k₄, k₅, k₆, k₇), r₁, r₂, r₃, r₄) :
        Outcome ((Kern × Kern × Kern × Kern × Kern × Kern) ×
          Tick × Tick × Tick × Tick)
      ).toOption.map (fun ((k₁, k₃, k₄, k₅, k₆, k₇), _) =>
        (0x2000 ∉ k₁.liveTasks ∧ 0x3000 ∉ k₅.liveTasks ∧
          k₃.pongoSchedHead = schedTask ∧ k₄.taskCurrent = schedTask ∧
          k₄.pongoSchedHead ≠ schedTask ∧ k₅.taskCurrent = 0x1000 ∧
          k₆.pongoSchedHead ≠ schedTask ∧ k₇.taskCurrent = 0x3000 ∧
          k₇.pongoSchedHead = schedTask ∧
          k₄.Runnable 0x2000 ∧ k₅.Runnable 0x2000 ∧ k₆.Runnable 0x2000 ∧
          k₇.Runnable 0x2000 : Bool)) = some true := by
    decide +kernel
  obtain ⟨⟨⟨_, _, _, _, _, _⟩, _, _, _, _⟩, hok, hfacts⟩ :=
    Outcome.ok_of_map hcalls
  simp only [Outcome.bind_eq_ok, Outcome.pure_eq_ok, Prod.exists,
    Prod.mk.injEq] at hok
  obtain ⟨k₁, hcreate₁, k₂, hcreate₂, r₁, k₃, htick₁, r₂, k₄, htick₂, r₃, k₅,
    htick₃, k₆, hcreate₃, r₄, k₇, htick₄,
    ⟨rfl, rfl, rfl, rfl, rfl, rfl⟩, rfl, rfl, rfl, rfl⟩ := hok
  simp only [decide_eq_true_eq] at hfacts
  obtain ⟨hnew₂, hnew₃, hhead₃, hcur₄, hhead₄, hcur₅, hhead₆, hcur₇, hhead₇,
    hrun₄, hrun₅, hrun₆, hrun₇⟩ := hfacts
  have hbefore : Run LiveSchedStep bootKern
      [.create 0x1000, .create 0x2000, .tick r₁, .yield]
      (k₃.setTaskCurrent schedTask) :=
    .cons ⟨⟨by decide, by decide, hcreate₁⟩, trivial⟩
      (.cons ⟨⟨by decide, hnew₂, hcreate₂⟩, trivial⟩
        (.cons ⟨⟨3, htick₁⟩, trivial⟩ (.single ⟨rfl, trivial⟩)))
  have hround : Run (Traced RoundStep) k₄
      [⟨k₄, .tick r₃, k₅⟩, ⟨k₅, .create 0x3000, k₆⟩,
        ⟨k₆, .yield, k₆.setTaskCurrent schedTask⟩,
        ⟨k₆.setTaskCurrent schedTask, .tick r₄, k₇⟩,
        ⟨k₇, .yield, k₇.setTaskCurrent schedTask⟩]
      (k₇.setTaskCurrent schedTask) :=
    .cons ⟨⟨⟨3, htick₃⟩, hcur₄⟩, rfl, rfl⟩
      (.cons ⟨⟨⟨by decide, hnew₃, hcreate₃⟩, trivial⟩, rfl, rfl⟩
        (.cons ⟨⟨rfl, trivial⟩, rfl, rfl⟩
          (.cons ⟨⟨⟨3, htick₄⟩, rfl⟩, rfl, rfl⟩
            (.single ⟨⟨rfl, trivial⟩, rfl, rfl⟩))))
  have hnoTick : ∀ {c : SchedCall} {s s' : Kern}, (∀ r, c ≠ .tick r) →
      ¬ SchedEvent.IsTick ⟨s, c, s'⟩ := by
    rintro c s s' hc ⟨r, hr⟩
    exact hc r hr
  refine ⟨_, _, _, _, _, _, hbefore, ⟨⟨3, htick₂⟩, rfl⟩, hhead₃, hround, ?_,
    hhead₇, ⟨hrun₄, ?_⟩, ?_⟩ <;>
    simp only [List.forall_mem_cons, List.not_mem_nil, false_imp_iff,
      implies_true, and_true]
  · exact ⟨fun h => hhead₄ h.2, fun h => hnoTick (by simp) h.1,
      fun h => hnoTick (by simp) h.1, fun h => hhead₆ h.2,
      fun h => hnoTick (by simp) h.1⟩
  · exact ⟨hrun₅, hrun₆, hrun₆, hrun₇, hrun₇⟩
  · refine ⟨fun h => ?_, fun h => hnoTick (by simp) h.1,
      fun h => hnoTick (by simp) h.1, fun h => ?_,
      fun h => hnoTick (by simp) h.1⟩
    · exact absurd (hcur₅.symm.trans h.2.2) (by decide)
    · exact absurd (hcur₇.symm.trans h.2.2) (by decide)

end PongoOS
