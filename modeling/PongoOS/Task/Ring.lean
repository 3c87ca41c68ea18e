import PongoOS.Support.Ring
import PongoOS.Task.Lifetime

/-!
# The scheduler's ring

The abstract scheduler is the list of the tasks in the ring, from the head on.
`RingInv` relates it to the links, the flags and the head pointer, and each
function that touches the ring acts on the list in the way its name says.
-/

namespace PongoOS

open Ring

/-! ## The parts of the state that form the ring -/

structure RingView where
  next : ℕ → ℕ
  prev : ℕ → ℕ
  linked : ℕ → Bool
  wasLinked : ℕ → Bool
  head : ℕ

/-- `l` is the ring from the head on. -/
structure RingInv (r : RingView) (live : Finset ℕ) (l : List ℕ) : Prop where
  circular : Circular r.next r.prev l
  mem : ∀ t, r.wasLinked t = true ↔ t ∈ l
  live : ∀ t ∈ l, t ∈ live
  null : 0 ∉ l
  head : r.head = l.headD 0
  linked : ∀ t, r.linked t = true → r.wasLinked t = true

namespace RingInv

variable {r : RingView} {live : Finset ℕ} {l m : List ℕ} {a t : ℕ} {b : Bool}

theorem setLinked (h : RingInv r live l) (hb : b = true → t ∈ l) :
    RingInv { r with linked := Function.update r.linked t b } live l := by
  refine ⟨h.circular, h.mem, h.live, h.null, h.head, fun u hu => ?_⟩
  by_cases hut : u = t
  · subst hut
    simp only [Function.update_self] at hu
    exact (h.mem u).mpr (hb hu)
  · simp only [Function.update_of_ne hut] at hu
    exact h.linked u hu

theorem mono {live' : Finset ℕ} (h : RingInv r live l)
    (hlive : ∀ t ∈ l, t ∈ live') : RingInv r live' l :=
  ⟨h.circular, h.mem, hlive, h.null, h.head, h.linked⟩

theorem head_mem (h : RingInv r live l) (h0 : r.head ≠ 0) :
    ∃ m, l = r.head :: m := by
  cases l with
  | nil => exact absurd h.head h0
  | cons a m => exact ⟨m, by rw [h.head]; rfl⟩

theorem head_eq (h : RingInv r live (a :: l)) : r.head = a := h.head

/-- A head that is its own successor is alone. -/
theorem eq_singleton (h : RingInv r live l) (h0 : r.head ≠ 0)
    (hself : r.next r.head = r.head) : l = [r.head] := by
  obtain ⟨m, rfl⟩ := h.head_mem h0
  cases m with
  | nil => rfl
  | cons b m =>
      have hnext : r.next r.head = b := h.circular.next_head
      have hnodup := h.circular.nodup
      rw [← hnext, hself] at hnodup
      simp at hnodup

theorem ne_null (h : RingInv r live l) (ht : t ∈ l) : t ≠ 0 :=
  fun h0 => h.null (h0 ▸ ht)

/-- What is outside the ring may be rewritten. -/
theorem fresh (h : RingInv r live l) (ht : t ∉ l) (n p : ℕ) :
    RingInv
      { next := Function.update r.next t n
        prev := Function.update r.prev t p
        linked := Function.update r.linked t false
        wasLinked := Function.update r.wasLinked t false
        head := r.head } live l := by
  have hne : ∀ u ∈ l, u ≠ t := fun u hu hut => ht (hut ▸ hu)
  refine ⟨h.circular.congr (fun u hu => Function.update_of_ne (hne u hu) _ _)
    fun u hu => Function.update_of_ne (hne u hu) _ _, fun u => ?_, h.live,
    h.null, h.head, fun u hu => ?_⟩
  · by_cases hut : u = t
    · simp [hut, ht]
    · simp [hut, h.mem]
  · by_cases hut : u = t
    · simp [hut] at hu
    · simpa [hut] using h.linked u (by simpa [hut] using hu)

theorem first (h : RingInv r live []) (ht : t ∈ live) (h0 : t ≠ 0) :
    RingInv
      { r with
        next := Function.update r.next t t
        prev := Function.update r.prev t t
        wasLinked := Function.update r.wasLinked t true
        head := t } live [t] := by
  refine ⟨Circular.single t _ _, fun u => ?_, ?_, ?_, rfl, fun u hu => ?_⟩
  · by_cases hut : u = t
    · simp [hut]
    · simp [hut, h.mem]
  · simpa using ht
  · simpa using h0.symm
  · have hnone := h.linked u hu
    rw [h.mem] at hnone
    cases hnone

theorem insert (h : RingInv r live (a :: l)) (ht : t ∈ live) (h0 : t ≠ 0)
    (hout : t ∉ a :: l) :
    RingInv
      { r with
        next := Function.update
          (Function.update r.next t (r.next r.head)) r.head t
        prev := Function.update
          (Function.update r.prev t r.head) (r.next r.head) t
        wasLinked := Function.update r.wasLinked t true
        head := t } live (t :: l ++ [a]) := by
  rw [h.head_eq]
  refine ⟨h.circular.insert hout, fun u => ?_, ?_, ?_, rfl, fun u hu => ?_⟩
  · by_cases hut : u = t
    · simp [hut]
    · have hmem := h.mem u
      simp only [Function.update_of_ne hut, hmem, List.cons_append,
        List.mem_cons, List.mem_append, List.not_mem_nil, or_false, hut,
        false_or]
      exact or_comm
  · intro u hu
    simp only [List.cons_append, List.mem_cons, List.mem_append,
      List.not_mem_nil, or_false] at hu
    rcases hu with rfl | hu | rfl
    · exact ht
    · exact h.live u (List.mem_cons_of_mem _ hu)
    · exact h.live u List.mem_cons_self
  · have hnull := h.null
    simp only [List.cons_append, List.mem_cons, List.mem_append,
      List.not_mem_nil, or_false, not_or] at hnull ⊢
    exact ⟨h0.symm, hnull.2, hnull.1⟩
  · by_cases hut : u = t
    · simp [hut]
    · simpa [hut] using h.linked u hu

/-- The head moves to the next task. -/
theorem advance (h : RingInv r live (a :: l)) :
    RingInv { r with head := r.next r.head } live (l ++ [a]) := by
  have hrot : Circular r.next r.prev (l ++ [a]) :=
    Circular.rotate (l := [a]) h.circular
  refine ⟨hrot, fun u => ?_, ?_, ?_, ?_, h.linked⟩
  · rw [h.mem u]
    simp [or_comm]
  · intro u hu
    exact h.live u (by simpa [or_comm] using hu)
  · have hnull := h.null
    simpa [or_comm, not_or, and_comm] using hnull
  · rw [h.head_eq]
    cases l with
    | nil => exact (Circular.cons_iff.mp h.circular).2.1
    | cons b l => exact h.circular.next_head

/-- The head moves to `t`. -/
theorem setHead (h : RingInv r live (l ++ t :: m)) :
    RingInv { r with head := t } live (t :: m ++ l) := by
  refine ⟨h.circular.rotate, fun u => ?_, ?_, ?_, rfl, h.linked⟩
  · rw [h.mem u, List.mem_append, List.mem_append]
    exact or_comm
  · exact fun u hu => h.live u (List.mem_append.mpr (List.mem_append.mp hu).symm)
  · exact fun hu => h.null (List.mem_append.mpr (List.mem_append.mp hu).symm)

theorem remove (h : RingInv r live l) (ht : t ∈ l) :
    RingInv
      { next := Function.update r.next (r.prev t) (r.next t)
        prev := Function.update r.prev (r.next t) (r.prev t)
        linked := Function.update r.linked t false
        wasLinked := Function.update r.wasLinked t false
        head :=
          if t = r.head then if t = r.next t then 0 else r.next t
          else r.head } live (l.erase t) := by
  obtain ⟨l₁, l₂, rfl⟩ := List.append_of_mem ht
  have hnodup := h.circular.nodup
  have hnot : t ∉ l₁ ∧ t ∉ l₂ := by
    simp only [List.nodup_append, List.nodup_cons, List.mem_cons] at hnodup
    exact ⟨fun hl => hnodup.2.2 t hl t (Or.inl rfl) rfl, hnodup.2.1.1⟩
  have herase : (l₁ ++ t :: l₂).erase t = l₁ ++ l₂ := by
    rw [List.erase_append_right _ hnot.1, List.erase_cons_head]
  have hring : Circular r.next r.prev (t :: (l₂ ++ l₁)) :=
    h.circular.rotate_cons
  rw [herase]
  refine ⟨?_, fun u => ?_, ?_, ?_, ?_, fun u hu => ?_⟩
  · cases hl : l₂ ++ l₁ with
    | nil =>
        have hempty := List.append_eq_nil_iff.mp hl
        rw [hempty.1, hempty.2]
        exact Circular.nil
    | cons b m =>
        rw [hl] at hring
        have hrest := hring.remove
        rw [← hl] at hrest
        exact hrest.rotate
  · by_cases hut : u = t
    · simp [hut, hnot]
    · simp [hut, h.mem]
  · intro u hu
    refine h.live u ?_
    simp only [List.mem_append, List.mem_cons] at hu ⊢
    tauto
  · intro hu
    refine h.null ?_
    simp only [List.mem_append, List.mem_cons] at hu ⊢
    tauto
  · cases l₁ with
    | nil =>
        have hhead : r.head = t := h.head
        simp only [hhead, if_true, List.nil_append]
        cases l₂ with
        | nil =>
            have hself := (Circular.cons_iff.mp hring).2.1
            rw [if_pos hself.symm]
            rfl
        | cons b m =>
            have hnext : r.next t = b := hring.next_head
            have hne : t ≠ b := fun hb => hnot.2 (hb ▸ List.mem_cons_self)
            rw [hnext, if_neg hne]
            rfl
    | cons b m =>
        have hhead : r.head = b := h.head
        have hne : t ≠ b := fun hb => hnot.1 (hb ▸ List.mem_cons_self)
        rw [hhead, if_neg hne]
        rfl
  · by_cases hut : u = t
    · simp [hut] at hu
    · simpa [hut] using h.linked u (by simpa [hut] using hu)

end RingInv

namespace Kern

def ring (s : Kern) : RingView where
  next := fun t => (s.task t).next
  prev := fun t => (s.task t).prev
  linked := fun t => (s.task t).flags.linked
  wasLinked := fun t => (s.task t).flags.wasLinked
  head := s.pongoSchedHead

section Views

variable (s : Kern) (t n : ℕ)

theorem next_eq : (s.task t).next = s.ring.next t := rfl
theorem prev_eq : (s.task t).prev = s.ring.prev t := rfl
theorem linked_eq : (s.task t).flags.linked = s.ring.linked t := rfl
theorem wasLinked_eq : (s.task t).flags.wasLinked = s.ring.wasLinked t := rfl
theorem pongoSchedHead_eq : s.pongoSchedHead = s.ring.head := rfl

@[simp] theorem modTask_task_self (f : Task → Task) :
    (s.modTask t f).task t = f (s.task t) := by
  simp

theorem modTask_task_of_ne {f : Task → Task} {u : ℕ} (hu : u ≠ t) :
    (s.modTask t f).task u = s.task u := by
  simp [hu]

theorem modTask_ring (f : Task → Task) : (s.modTask t f).ring =
    { next := Function.update s.ring.next t (f (s.task t)).next
      prev := Function.update s.ring.prev t (f (s.task t)).prev
      linked := Function.update s.ring.linked t (f (s.task t)).flags.linked
      wasLinked :=
        Function.update s.ring.wasLinked t (f (s.task t)).flags.wasLinked
      head := s.ring.head } := by
  unfold ring
  simp only [modTask_task, RingView.mk.injEq]
  refine ⟨funext fun u => ?_, funext fun u => ?_, funext fun u => ?_,
    funext fun u => ?_, rfl⟩ <;>
  · by_cases hu : u = t
    · subst hu
      simp
    · simp [hu]

/-- An update that keeps the four fields keeps the ring. -/
theorem modTask_ring_eq {f : Task → Task}
    (hnext : (f (s.task t)).next = (s.task t).next)
    (hprev : (f (s.task t)).prev = (s.task t).prev)
    (hlinked : (f (s.task t)).flags.linked = (s.task t).flags.linked)
    (hwas : (f (s.task t)).flags.wasLinked = (s.task t).flags.wasLinked) :
    (s.modTask t f).ring = s.ring := by
  rw [modTask_ring, hnext, hprev, hlinked, hwas]
  simp [ring]

@[simp] theorem setNext_ring : (s.setNext t n).ring =
    { s.ring with next := Function.update s.ring.next t n } := by
  unfold setNext
  rw [modTask_ring]
  simp [ring]

@[simp] theorem setPrev_ring : (s.setPrev t n).ring =
    { s.ring with prev := Function.update s.ring.prev t n } := by
  unfold setPrev
  rw [modTask_ring]
  simp [ring]

@[simp] theorem modFlags_ring (f : TaskFlags → TaskFlags) :
    (s.modFlags t f).ring =
      { s.ring with
        linked := Function.update s.ring.linked t (f (s.task t).flags).linked
        wasLinked :=
          Function.update s.ring.wasLinked t
            (f (s.task t).flags).wasLinked } := by
  unfold modFlags
  rw [modTask_ring]
  simp [ring]

@[simp] theorem setPongoSchedHead_ring :
    (s.setPongoSchedHead n).ring = { s.ring with head := n } := rfl

@[simp] theorem modFlags_liveTasks (f : TaskFlags → TaskFlags) :
    (s.modFlags t f).liveTasks = s.liveTasks := rfl

end Views

/-! ## The rest of the state -/

/-- The state without the ring and without `TASK_HAS_EXITED`. -/
def rest (s : Kern) : Kern :=
  { s with
    task := fun t =>
      { s.task t with
        next := 0
        prev := 0
        flags :=
          { (s.task t).flags with
            linked := false
            wasLinked := false
            hasExited := false } }
    pongoSchedHead := 0 }

section Rest

variable {s s' : Kern}

theorem modTask_rest {t : ℕ} {f : Task → Task}
    (hf : ((s.modTask t f).rest.task t) = s.rest.task t) :
    (s.modTask t f).rest = s.rest := by
  unfold rest at hf ⊢
  simp only [modTask_task, Function.update_self] at hf ⊢
  congr 1
  funext u
  by_cases hu : u = t
  · subst hu
    simpa using hf
  · simp [hu]

@[simp] theorem setNext_rest (t n : ℕ) : (s.setNext t n).rest = s.rest :=
  modTask_rest (by simp [rest])

@[simp] theorem setPrev_rest (t n : ℕ) : (s.setPrev t n).rest = s.rest :=
  modTask_rest (by simp [rest])

@[simp] theorem setPongoSchedHead_rest (n : ℕ) :
    (s.setPongoSchedHead n).rest = s.rest := rfl

@[simp] theorem ringInsert_rest (t : ℕ) : (s.ringInsert t).rest = s.rest := by
  unfold ringInsert modFlags
  refine (modTask_rest (by simp [rest])).trans ?_
  split <;> simp

@[simp] theorem taskLink_rest (t : ℕ) : (s.taskLink t).rest = s.rest := by
  unfold taskLink modFlags
  refine (modTask_rest (by simp [rest])).trans ?_
  split
  · exact modTask_rest (by simp [rest])
  · rw [ringInsert_rest]
    exact modTask_rest (by simp [rest])

@[simp] theorem taskUnlink_rest (t : ℕ) : (s.taskUnlink t).rest = s.rest :=
  modTask_rest (by simp [rest])

@[simp] theorem taskRealUnlink_rest (t : ℕ) :
    (s.taskRealUnlink t).rest = s.rest := by
  unfold taskRealUnlink modFlags
  split
  · refine (modTask_rest (by simp [rest])).trans ?_
    simp only [setPrev_rest, setNext_rest]
    split_ifs <;> simp
  · rfl

theorem eqNext_of_rest (h : s'.rest = s.rest) (t : ℕ) :
    (s'.task t).eqNext = (s.task t).eqNext :=
  congrArg (fun k => (k.task t).eqNext) h

theorem refcount_of_rest (h : s'.rest = s.rest) (t : ℕ) :
    (s'.task t).refcount = (s.task t).refcount :=
  congrArg (fun k => (k.task t).refcount) h

theorem pleaseDeref_of_rest (h : s'.rest = s.rest) (t : ℕ) :
    (s'.task t).flags.pleaseDeref = (s.task t).flags.pleaseDeref :=
  congrArg (fun k => (k.task t).flags.pleaseDeref) h

theorem liveTasks_of_rest (h : s'.rest = s.rest) :
    s'.liveTasks = s.liveTasks := by
  have heq := congrArg liveTasks h
  exact heq

theorem taskHead_of_rest (h : s'.rest = s.rest) : s'.taskHead = s.taskHead := by
  have heq := congrArg taskHead h
  exact heq

theorem taskCurrent_of_rest (h : s'.rest = s.rest) :
    s'.taskCurrent = s.taskCurrent := by
  have heq := congrArg taskCurrent h
  exact heq

end Rest

/-! ## Linking -/

section Link

variable {s : Kern} {t : ℕ} {l : List ℕ}

theorem ringInsert_empty (h0 : s.pongoSchedHead = 0) :
    (s.ringInsert t).ring =
      { s.ring with
        next := Function.update s.ring.next t t
        prev := Function.update s.ring.prev t t
        wasLinked := Function.update s.ring.wasLinked t true
        head := t } := by
  rw [pongoSchedHead_eq] at h0
  simp [ringInsert, linked_eq, pongoSchedHead_eq, h0]

theorem ringInsert_ring (h0 : s.pongoSchedHead ≠ 0)
    (hne : t ≠ s.pongoSchedHead) :
    (s.ringInsert t).ring =
      { s.ring with
        next := Function.update
          (Function.update s.ring.next t (s.ring.next s.ring.head))
          s.ring.head t
        prev := Function.update
          (Function.update s.ring.prev t s.ring.head)
          (s.ring.next s.ring.head) t
        wasLinked := Function.update s.ring.wasLinked t true
        head := t } := by
  rw [pongoSchedHead_eq] at h0 hne
  simp [ringInsert, next_eq, prev_eq, linked_eq, pongoSchedHead_eq, h0, hne]

/-- `task_link` on the list. -/
def linkList (t : ℕ) : List ℕ → List ℕ
  | [] => [t]
  | a :: l => if t ∈ a :: l then a :: l else t :: l ++ [a]

theorem linkList_of_mem (ht : t ∈ l) : linkList t l = l := by
  cases l with
  | nil => cases ht
  | cons a l => exact if_pos ht

theorem mem_linkList {u : ℕ} : u ∈ linkList t l ↔ u = t ∨ u ∈ l := by
  cases l with
  | nil => simp [linkList]
  | cons a l =>
      rw [linkList]
      split_ifs with hmem
      · constructor
        · exact Or.inr
        · rintro (rfl | hu)
          · exact hmem
          · exact hu
      · simp only [List.cons_append, List.mem_cons, List.mem_append,
          List.not_mem_nil, or_false]
        tauto

@[simp] theorem ringInsert_liveTasks :
    (s.ringInsert t).liveTasks = s.liveTasks := by
  unfold ringInsert
  split <;> rfl

@[simp] theorem taskLink_liveTasks :
    (s.taskLink t).liveTasks = s.liveTasks := by
  unfold taskLink
  dsimp only
  split <;> simp

theorem taskLink_ringInv (h : RingInv s.ring s.liveTasks l)
    (ht : t ∈ s.liveTasks) (h0 : t ≠ 0) :
    RingInv (s.taskLink t).ring (s.taskLink t).liveTasks (linkList t l) := by
  rw [taskLink_liveTasks]
  unfold taskLink
  generalize hs₁ : s.modFlags t (fun f => { f with hasExited := false }) = s₁
  have hring : s₁.ring = s.ring := by
    rw [← hs₁]
    exact modTask_ring_eq s t rfl rfl rfl rfl
  rw [← hring] at h
  rw [modFlags_ring]
  by_cases hwas : (s₁.task t).flags.wasLinked = true
  · have hmem : t ∈ l := (h.mem t).mp hwas
    have hself : Function.update s₁.ring.wasLinked t true =
        s₁.ring.wasLinked := by
      rw [← hwas, wasLinked_eq, Function.update_eq_self]
    simp only [hwas, if_true]
    rw [linkList_of_mem hmem, hself]
    exact h.setLinked fun _ => hmem
  · have hout : t ∉ l := fun hmem => hwas ((h.mem t).mpr hmem)
    simp only [hwas, Bool.false_eq_true, if_false]
    rw [wasLinked_eq, Function.update_eq_self]
    refine RingInv.setLinked ?_ fun _ => mem_linkList.mpr (Or.inl rfl)
    cases l with
    | nil =>
        rw [ringInsert_empty h.head]
        exact h.first ht h0
    | cons a l =>
        have hhead : s₁.pongoSchedHead = a := h.head_eq
        have hlist : linkList t (a :: l) = t :: l ++ [a] := if_neg hout
        rw [hlist, ringInsert_ring]
        · exact h.insert ht h0 hout
        · rw [hhead]
          exact h.ne_null List.mem_cons_self
        · rintro rfl
          exact hout (hhead ▸ List.mem_cons_self)

theorem taskRealUnlink_ring (hwas : (s.task t).flags.wasLinked = true) :
    (s.taskRealUnlink t).ring =
      { next := Function.update s.ring.next (s.ring.prev t) (s.ring.next t)
        prev := Function.update s.ring.prev
          (Function.update s.ring.next (s.ring.prev t) (s.ring.next t) t)
          (s.ring.prev t)
        linked := Function.update s.ring.linked t false
        wasLinked := Function.update s.ring.wasLinked t false
        head :=
          if t = s.pongoSchedHead then if t = (s.task t).next then 0
            else (s.task t).next
          else s.pongoSchedHead } := by
  have hhead : (if t = s.pongoSchedHead then
      if t = (s.task t).next then s.setPongoSchedHead 0
      else s.setPongoSchedHead (s.task t).next
    else s).ring =
      { s.ring with
        head :=
          if t = s.pongoSchedHead then if t = (s.task t).next then 0
            else (s.task t).next
          else s.pongoSchedHead } := by
    split_ifs <;> rfl
  unfold taskRealUnlink
  rw [if_pos hwas]
  dsimp only
  generalize (if t = s.pongoSchedHead then
      if t = (s.task t).next then s.setPongoSchedHead 0
      else s.setPongoSchedHead (s.task t).next
    else s) = s₁ at hhead ⊢
  simp [next_eq, prev_eq, hhead]

theorem taskRealUnlink_ringInv (h : RingInv s.ring s.liveTasks l) :
    RingInv (s.taskRealUnlink t).ring (s.taskRealUnlink t).liveTasks
      (l.erase t) := by
  by_cases hwas : (s.task t).flags.wasLinked = true
  · have hmem : t ∈ l := (h.mem t).mp hwas
    have hlive : (s.taskRealUnlink t).liveTasks = s.liveTasks := by
      unfold taskRealUnlink
      split_ifs <;> rfl
    have hself : Function.update s.ring.next (s.ring.prev t) (s.ring.next t) t =
        s.ring.next t := by
      by_cases hprev : t = s.ring.prev t
      · rw [← hprev, Function.update_self]
      · rw [Function.update_of_ne hprev]
    rw [taskRealUnlink_ring hwas, hlive, hself]
    exact h.remove hmem
  · have hout : t ∉ l := fun hmem => hwas ((h.mem t).mpr hmem)
    unfold taskRealUnlink
    rw [if_neg hwas, List.erase_of_not_mem hout]
    exact h

theorem taskUnlink_ringInv (h : RingInv s.ring s.liveTasks l) :
    RingInv (s.taskUnlink t).ring (s.taskUnlink t).liveTasks l := by
  unfold taskUnlink
  rw [modFlags_ring, wasLinked_eq, Function.update_eq_self]
  exact h.setLinked fun hb => Bool.noConfusion hb

end Link

end Kern

end PongoOS
