import PongoOS.Support.Run
import PongoOS.Task.Lifetime
import PongoOS.Task.Ring

/-!
# The interrupt of the serial port

`uart_main` is the preempting handler of the serial port's interrupt.  A
delivery links it and makes it the scheduler's head; when it finds the device
empty it calls `task_exit_irq`, which unlinks it.

Deliveries come whenever interrupts are enabled.  A pass of the drain loop
begins when the handler reads the device, so a delivery is answered by the next
call of `serial_getc`.  Between the last `enable_interrupts` of `uart_main` and
the `disable_interrupts` of `task_exit_irq` a delivery links the handler only to
have it unlinked again.
-/

namespace PongoOS

/-! ## State -/

/-- What the handler does next.  The last two are in `task_exit_irq`. -/
inductive UartPc where
  | top
  | first
  | body (cmd : UInt8)
  | queue (cmd : UInt8)
  | rearm
  | next
  | done
  | exit
  | unlink
deriving DecidableEq, Repr

/-- `fifo` is what the device holds.  The last three fields are not in the code:
how much of `fifo` was there at the last delivery, whether no pass began since
then, and how many passes there were. -/
structure Uart where
  kern : Kern
  disIntCount : ℕ
  pc : UartPc
  dropRx : Bool
  fifo : List UInt8
  owed : ℕ
  passDue : Bool
  passes : ℕ

namespace Uart

@[simps]
def setKern (s : Uart) (k : Kern) : Uart := { s with kern := k }

@[simps]
def setDisIntCount (s : Uart) (n : ℕ) : Uart := { s with disIntCount := n }

@[simps]
def setPc (s : Uart) (pc : UartPc) : Uart := { s with pc := pc }

@[simps]
def setDropRx (s : Uart) (b : Bool) : Uart := { s with dropRx := b }

@[simps]
def setFifo (s : Uart) (fifo : List UInt8) : Uart := { s with fifo := fifo }

/-- The interrupt is acknowledged. -/
@[simps]
def setDelivered (s : Uart) : Uart :=
  { s with owed := s.fifo.length, passDue := true }

/-- The device is read, and with that a pass begins. -/
@[simps]
def readFifo (s : Uart) : Uart :=
  { s with
    fifo := s.fifo.tail
    owed := s.owed - 1
    passDue := false
    passes := s.passes + 1 }

/-! ## The handler -/

/-- `ERROR_NO_PENDING_CHAR` as a `char`. -/
def errorNoPendingChar : UInt8 := 0xff

/-- `serial_getc`. -/
def serialGetc (s : Uart) : UInt8 × Uart :=
  (s.fifo.headD errorNoPendingChar, s.readFifo)

/-- `enable_interrupts`. -/
def enableInterrupts (s : Uart) : Outcome Uart := do
  panicIf (s.disIntCount = 0) "irq over-enable"
  pure (s.setDisIntCount (s.disIntCount - 1))

/-- `disable_interrupts`. -/
def disableInterrupts (s : Uart) : Outcome Uart := do
  let n := (s.disIntCount + 1) % 2 ^ 64
  panicIf (n = 0) "irq over-disable"
  pure (s.setDisIntCount n)

/-- `task_exit_irq` after its `disable_interrupts`.  The switch to the scheduler
enables interrupts. -/
def taskExitIrq (s : Uart) : Outcome Uart := do
  let k ← s.kern.taskExitIrqPreempt
  panicIf (s.disIntCount ≠ 1) "irq handler yielded with interrupts held"
  pure (((s.setKern k).setDisIntCount 0).setPc .top)

/-- The next step of `uart_main`.  `k` is what `queue_rx_char` leaves. -/
def uartMain (k : Kern) (s : Uart) : Outcome Uart :=
  match s.pc with
  | .top => do
      let s₁ ← s.disableInterrupts
      pure (s₁.setPc .first)
  | .first =>
      let (cmd, s₁) := s.serialGetc
      pure (s₁.setPc (.body cmd))
  | .body cmd =>
      if s.dropRx then pure (s.setPc .next)
      else do
        let s₁ ← s.enableInterrupts
        pure (s₁.setPc (.queue cmd))
  | .queue _ => pure ((s.setKern k).setPc .rearm)
  | .rearm => do
      let s₁ ← s.disableInterrupts
      pure (s₁.setPc .next)
  | .next =>
      let (cmd, s₁) := s.serialGetc
      if cmd ≠ errorNoPendingChar then pure (s₁.setPc (.body cmd))
      else pure (s₁.setPc .done)
  | .done => do
      let s₁ ← s.enableInterrupts
      pure (s₁.setPc .exit)
  | .exit => do
      let s₁ ← s.disableInterrupts
      pure (s₁.setPc .unlink)
  | .unlink => s.taskExitIrq

/-! ## Delivery -/

/-- `irq_exc` for one interrupt: `interrupt_vector` acknowledges `intr` and
signals its end, and `task_irq_dispatch` follows. -/
def irqExc (intr : ℕ) (s : Uart) : Outcome Uart := do
  panicIf ((s.kern.task s.kern.taskCurrent).irqRet ≠ 0)
    "nested IRQs are not supported at this time"
  let k ← s.kern.taskIrqDispatch intr
  pure (s.setKern k).setDelivered

end Uart

/-! ## Steps -/

/-- What is the handler's stays as it is. -/
def Kern.KeepsHandler (t intr : ℕ) (k k' : Kern) : Prop :=
  (k'.task t).flags = (k.task t).flags ∧
    k'.irqvecs (intr % 0x200) = k.irqvecs (intr % 0x200)

/-- `preempt` is both a timer interrupt and a `task_yield` of the handler, and
`other` what the scheduler and the other tasks do. -/
inductive UartEvent where
  | rx (c : UInt8)
  | irq
  | dispatch
  | preempt
  | run (k : Kern)
  | other (k : Kern) (disIntCount : ℕ) (dropRx : Bool)

/-- A step of the system in which `t` handles `intr`. -/
def UartStep (t intr : ℕ) (s : Uart) (e : UartEvent) (s' : Uart) : Prop :=
  match e with
  | .rx c => s' = s.setFifo (s.fifo ++ [c])
  | .irq => s.disIntCount = 0 ∧ s.irqExc intr = .ok s'
  | .dispatch =>
      s.kern.taskCurrent = Kern.schedTask ∧
        ∃ fuel k, s.kern.pongoSchedTick fuel = .ok (.dispatched t, k) ∧
          s' = (s.setKern k).setDisIntCount 0
  | .preempt =>
      s.kern.taskCurrent = t ∧ s.disIntCount = 0 ∧
        s' = s.setKern (s.kern.setTaskCurrent Kern.schedTask)
  | .run k =>
      s.kern.taskCurrent = t ∧ s.kern.KeepsHandler t intr k ∧
        k.taskCurrent = t ∧ s.uartMain k = .ok s'
  | .other k n b =>
      s.kern.taskCurrent ≠ t ∧ s.kern.KeepsHandler t intr k ∧
        k.taskCurrent ≠ t ∧
        s' = ((s.setKern k).setDisIntCount n).setDropRx b

/-- The interrupt does not come between the handler's last `enable_interrupts`
and `task_exit_irq`, and no byte is taken for the end of the input while others
are behind it whose interrupt was delivered. -/
def UartEvent.Kept (s : Uart) : UartEvent → Prop
  | .irq => s.pc ≠ .exit
  | .run _ =>
      s.pc = .next → s.fifo.head? = some Uart.errorNoPendingChar → s.owed ≤ 1
  | _ => True

def KeptUartStep (t intr : ℕ) (s : Uart) (e : UartEvent) (s' : Uart) : Prop :=
  UartStep t intr s e s' ∧ e.Kept s

/-! ## The handler as a task -/

namespace Kern

/-- `t` is the preempting handler of `intr`. -/
structure Handles (t intr : ℕ) (k : Kern) : Prop where
  bound : k.irqvecs (intr % 0x200) = t
  irqHandler : (k.task t).flags.irqHandler = true
  preempt : (k.task t).flags.preempt = true

section Handles

variable {t intr : ℕ} {k k' : Kern}

namespace Handles

theorem keeps (h : Handles t intr k) (hkeeps : k.KeepsHandler t intr k') :
    Handles t intr k' where
  bound := hkeeps.2.trans h.bound
  irqHandler := hkeeps.1 ▸ h.irqHandler
  preempt := hkeeps.1 ▸ h.preempt

theorem of_rest (h : Handles t intr k) (hrest : k'.rest = k.rest) :
    Handles t intr k' where
  bound := by
    have hvecs := congrArg irqvecs hrest
    exact (congrFun hvecs _).trans h.bound
  irqHandler :=
    (congrArg (fun k => (k.task t).flags.irqHandler) hrest).trans h.irqHandler
  preempt :=
    (congrArg (fun k => (k.task t).flags.preempt) hrest).trans h.preempt

theorem modTask {f : Task → Task} (h : Handles t intr k)
    (hf : (f (k.task t)).flags = (k.task t).flags) :
    Handles t intr (k.modTask t f) := by
  apply h.keeps
  constructor
  · rw [modTask_task, Function.update_self]
    exact hf
  · rfl

end Handles

theorem taskLink_links : ((k.taskLink t).task t).flags.linked = true := by
  simp [taskLink, modFlags]

/-- A delivery links the handler and switches to no task. -/
theorem taskIrqDispatch_ok (h : Handles t intr k)
    (hok : k.taskIrqDispatch intr = .ok k') :
    Handles t intr k' ∧ (k'.task t).flags.linked = true ∧
      k'.taskCurrent = k.taskCurrent := by
  simp only [taskIrqDispatch, h.bound] at hok
  split_ifs at hok with h0
  generalize hk₁ : (k.modTask t fun x => { x with irqType := intr % 0x200 }) =
    k₁ at hok
  have h₁ : Handles t intr k₁ := hk₁ ▸ h.modTask rfl
  have hcur₁ : k₁.taskCurrent = k.taskCurrent := hk₁ ▸ rfl
  simp only [taskSwitchIrq, h₁.preempt, if_true, taskSetSchedHead,
    Outcome.bind_eq_ok, panicIf_eq_ok, Outcome.pure_eq_ok] at hok
  obtain ⟨-, -, k₂, ⟨-, -, rfl⟩, rfl⟩ := hok
  generalize hk₃ : (k₁.modTask t fun x =>
    { x with irqCount := (x.irqCount + 1) % 2 ^ 64 }) = k₃
  have h₃ : Handles t intr k₃ := hk₃ ▸ h₁.modTask rfl
  have hcur₃ : k₃.taskCurrent = k₁.taskCurrent := hk₃ ▸ rfl
  have h₄ := h₃.of_rest (taskLink_rest t)
  have hcur₄ := taskCurrent_of_rest (taskLink_rest (s := k₃) t)
  exact ⟨⟨h₄.bound, h₄.irqHandler, h₄.preempt⟩, taskLink_links,
    hcur₄.trans (hcur₃.trans hcur₁)⟩

/-- The scheduler dispatches linked tasks only. -/
theorem pongoSchedTick_dispatched {fuel : ℕ}
    (hok : k.pongoSchedTick fuel = .ok (.dispatched t, k')) :
    (k.task t).flags.linked = true ∧ k'.task = k.task ∧
      k'.irqvecs = k.irqvecs ∧ k'.taskCurrent = t := by
  simp only [pongoSchedTick, Outcome.bind_eq_ok] at hok
  obtain ⟨-, -, hok⟩ := hok
  split_ifs at hok with hsched hderef hlinked
  · simp at hok
  · simp only [Outcome.bind_eq_ok, Outcome.pure_eq_ok, Prod.mk.injEq] at hok
    obtain ⟨_, _, hfalse, _⟩ := hok
    cases hfalse
  · simp only [Outcome.pure_eq_ok, Prod.mk.injEq, Tick.dispatched.injEq] at hok
    obtain ⟨rfl, rfl⟩ := hok
    exact ⟨hlinked, rfl, rfl, rfl⟩
  · simp at hok

/-- The handler's exit unlinks it. -/
theorem taskExitIrqPreempt_ok (h : Handles t intr k) (hcur : k.taskCurrent = t)
    (hok : k.taskExitIrqPreempt = .ok k') :
    Handles t intr k' ∧ k'.taskCurrent = schedTask := by
  simp only [taskExitIrqPreempt, Outcome.bind_eq_ok, Outcome.pure_eq_ok] at hok
  obtain ⟨-, -, rfl⟩ := hok
  rw [hcur]
  refine ⟨?_, rfl⟩
  constructor
  · exact h.bound
  · simpa [modFlags, taskUnlink] using h.irqHandler
  · simpa [modFlags, taskUnlink] using h.preempt

theorem taskExitIrqPreempt_returns (hcur : k.taskCurrent = t)
    (hlinked : (k.task t).flags.linked = true) :
    ∃ k', k.taskExitIrqPreempt = .ok k' := by
  simp [taskExitIrqPreempt, hcur, hlinked, panicIf]

end Handles

end Kern

/-! ## The invariant -/

/-- How often the handler has interrupts disabled. -/
def UartPc.depth : UartPc → ℕ
  | .top | .queue _ | .rearm | .exit => 0
  | .first | .body _ | .next | .done | .unlink => 1

/-- The drain loop is over. -/
def UartPc.drained : UartPc → Bool
  | .done | .exit | .unlink => true
  | _ => false

namespace Uart

def Linked (t : ℕ) (s : Uart) : Prop := (s.kern.task t).flags.linked = true

/-- No input is left whose interrupt was delivered, and a pass began after the
last delivery. -/
def Served (s : Uart) : Prop := s.owed = 0 ∧ s.passDue = false

end Uart

structure UartInv (t intr : ℕ) (s : Uart) : Prop where
  handles : s.kern.Handles t intr
  owed : s.owed ≤ s.fifo.length
  depth : s.kern.taskCurrent = t → s.disIntCount = s.pc.depth
  away : s.kern.taskCurrent ≠ t → s.pc.depth = 0
  linked : s.kern.taskCurrent = t ∨ s.pc ≠ .top → s.Linked t
  drained : s.pc.drained = true → s.Served
  unlinked : ¬ s.Linked t → s.Served

namespace UartInv

variable {t intr : ℕ} {s s' : Uart} {k : Kern}

/-- A step of the handler that leaves the tasks alone. -/
theorem move (h : UartInv t intr s) (hcur : s.kern.taskCurrent = t)
    (hkern : s'.kern = s.kern) (howed : s'.owed ≤ s'.fifo.length)
    (hdepth : s'.disIntCount = s'.pc.depth)
    (hdrained : s'.pc.drained = true → s'.Served) : UartInv t intr s' := by
  have hlinked : s'.Linked t := by
    rw [Uart.Linked, hkern]
    exact h.linked (Or.inl hcur)
  constructor
  · rw [hkern]
    exact h.handles
  · exact howed
  · intro _
    exact hdepth
  · intro haway
    exact absurd (hkern ▸ hcur) haway
  · intro _
    exact hlinked
  · exact hdrained
  · intro hunlinked
    exact absurd hlinked hunlinked

/-- Reading the device takes the oldest byte. -/
theorem readFifo_owed (h : UartInv t intr s) :
    s.readFifo.owed ≤ s.readFifo.fifo.length := by
  rw [Uart.readFifo_owed, Uart.readFifo_fifo, List.length_tail]
  exact Nat.sub_le_sub_right h.owed 1

/-- If the loop ends, everything that was delivered has been read. -/
theorem readFifo_served (h : UartInv t intr s)
    (hend : s.serialGetc.1 = Uart.errorNoPendingChar)
    (hkept : s.fifo.head? = some Uart.errorNoPendingChar → s.owed ≤ 1) :
    s.readFifo.Served := by
  refine ⟨?_, rfl⟩
  rw [Uart.readFifo_owed]
  have howed := h.owed
  cases hfifo : s.fifo with
  | nil =>
      rw [hfifo, List.length_nil] at howed
      omega
  | cons c fifo =>
      have hc : c = Uart.errorNoPendingChar := by
        rw [Uart.serialGetc, hfifo] at hend
        exact hend
      have hone : s.owed ≤ 1 := hkept (by rw [hfifo, hc]; rfl)
      omega

theorem enableInterrupts (hdepth : s.disIntCount = 1) :
    s.enableInterrupts = .ok (s.setDisIntCount 0) := by
  simp [Uart.enableInterrupts, hdepth, panicIf]

theorem disableInterrupts (hdepth : s.disIntCount = 0) :
    s.disableInterrupts = .ok (s.setDisIntCount 1) := by
  simp [Uart.disableInterrupts, hdepth, panicIf]

theorem uartMain (h : UartInv t intr s) (hcur : s.kern.taskCurrent = t)
    (hkeeps : s.kern.KeepsHandler t intr k)
    (hkept : (UartEvent.run k).Kept s) (ht : t ≠ Kern.schedTask)
    (hok : s.uartMain k = .ok s') : UartInv t intr s' := by
  have hdepth := h.depth hcur
  unfold Uart.uartMain at hok
  cases hpc : s.pc with
  | top =>
      rw [hpc] at hdepth
      simp only [hpc, disableInterrupts hdepth, Outcome.bind_eq_ok,
        Except.ok.injEq, exists_eq_left', Outcome.pure_eq_ok] at hok
      subst hok
      exact h.move hcur rfl h.owed rfl (fun hdrained => by cases hdrained)
  | first =>
      rw [hpc] at hdepth
      simp only [hpc, Uart.serialGetc, Outcome.pure_eq_ok] at hok
      subst hok
      exact h.move hcur rfl h.readFifo_owed hdepth
        (fun hdrained => by cases hdrained)
  | body cmd =>
      rw [hpc] at hdepth
      simp only [hpc, enableInterrupts hdepth] at hok
      split_ifs at hok with hdrop
      · cases hok
        exact h.move hcur rfl h.owed hdepth (fun hdrained => by cases hdrained)
      · simp only [Outcome.bind_eq_ok, Except.ok.injEq, exists_eq_left',
          Outcome.pure_eq_ok] at hok
        subst hok
        exact h.move hcur rfl h.owed rfl (fun hdrained => by cases hdrained)
  | queue cmd =>
      rw [hpc] at hdepth
      simp only [hpc, Outcome.pure_eq_ok] at hok
      subst hok
      have hlinked : ((s.setKern k).setPc .rearm).Linked t := by
        have hs : (s.kern.task t).flags.linked = true := h.linked (Or.inl hcur)
        exact (congrArg TaskFlags.linked hkeeps.1).trans hs
      constructor
      · exact h.handles.keeps hkeeps
      · exact h.owed
      · intro _
        exact hdepth
      · intro _
        rfl
      · intro _
        exact hlinked
      · intro hdrained
        cases hdrained
      · intro hunlinked
        exact absurd hlinked hunlinked
  | rearm =>
      rw [hpc] at hdepth
      simp only [hpc, disableInterrupts hdepth, Outcome.bind_eq_ok,
        Except.ok.injEq, exists_eq_left', Outcome.pure_eq_ok] at hok
      subst hok
      exact h.move hcur rfl h.owed rfl (fun hdrained => by cases hdrained)
  | next =>
      rw [hpc] at hdepth
      simp only [hpc, ne_eq, ite_not] at hok
      split_ifs at hok with hend
      · cases hok
        exact h.move hcur rfl h.readFifo_owed hdepth
          (fun _ => h.readFifo_served hend (hkept hpc))
      · cases hok
        exact h.move hcur rfl h.readFifo_owed hdepth
          (fun hdrained => by cases hdrained)
  | done =>
      rw [hpc] at hdepth
      have hserved := h.drained (by rw [hpc]; rfl)
      simp only [hpc, enableInterrupts hdepth, Outcome.bind_eq_ok,
        Except.ok.injEq, exists_eq_left', Outcome.pure_eq_ok] at hok
      subst hok
      exact h.move hcur rfl h.owed rfl (fun _ => hserved)
  | exit =>
      rw [hpc] at hdepth
      have hserved := h.drained (by rw [hpc]; rfl)
      simp only [hpc, disableInterrupts hdepth, Outcome.bind_eq_ok,
        Except.ok.injEq, exists_eq_left', Outcome.pure_eq_ok] at hok
      subst hok
      exact h.move hcur rfl h.owed rfl (fun _ => hserved)
  | unlink =>
      have hserved := h.drained (by rw [hpc]; rfl)
      simp only [hpc, Uart.taskExitIrq, Outcome.bind_eq_ok,
        Outcome.pure_eq_ok] at hok
      obtain ⟨k', hexit, -, -, rfl⟩ := hok
      obtain ⟨hhandles, hsched⟩ :=
        Kern.taskExitIrqPreempt_ok h.handles hcur hexit
      have haway : k'.taskCurrent ≠ t := fun heq => ht (heq.symm.trans hsched)
      constructor
      · exact hhandles
      · exact h.owed
      · intro heq
        exact absurd heq haway
      · intro _
        rfl
      · rintro (heq | htop)
        · exact absurd heq haway
        · exact absurd rfl htop
      · intro _
        exact hserved
      · intro _
        exact hserved

theorem depth_of_enabled (h : UartInv t intr s) (hmask : s.disIntCount = 0) :
    s.pc.depth = 0 := by
  by_cases heq : s.kern.taskCurrent = t
  · rw [← h.depth heq]
    exact hmask
  · exact h.away heq

theorem irq (h : UartInv t intr s) (hmask : s.disIntCount = 0)
    (hkept : s.pc ≠ .exit) (hok : s.irqExc intr = .ok s') :
    UartInv t intr s' := by
  simp only [Uart.irqExc, Outcome.bind_eq_ok, Outcome.pure_eq_ok] at hok
  obtain ⟨-, -, k, hdispatch, rfl⟩ := hok
  obtain ⟨hhandles, hlinked, hcur⟩ :=
    Kern.taskIrqDispatch_ok h.handles hdispatch
  have hdepth := h.depth_of_enabled hmask
  constructor
  · exact hhandles
  · exact le_rfl
  · intro _
    exact hmask.trans hdepth.symm
  · intro _
    exact hdepth
  · intro _
    exact hlinked
  · intro hdrained
    rw [Uart.setDelivered_pc, Uart.setKern_pc] at hdrained
    cases hpc : s.pc <;> rw [hpc] at hdepth hdrained <;> cases hdrained
    · cases hdepth
    · exact absurd hpc hkept
    · cases hdepth
  · intro hunlinked
    exact absurd hlinked hunlinked

theorem dispatch {fuel : ℕ} (h : UartInv t intr s)
    (hsched : s.kern.taskCurrent = Kern.schedTask) (ht : t ≠ Kern.schedTask)
    (hok : s.kern.pongoSchedTick fuel = .ok (.dispatched t, k)) :
    UartInv t intr ((s.setKern k).setDisIntCount 0) := by
  obtain ⟨hlinked, htask, hvecs, hcur⟩ := Kern.pongoSchedTick_dispatched hok
  have haway : s.kern.taskCurrent ≠ t := fun heq => ht (heq.symm.trans hsched)
  have hlinked' : (k.task t).flags.linked = true := htask ▸ hlinked
  constructor
  · exact h.handles.keeps ⟨by rw [Uart.setDisIntCount_kern, Uart.setKern_kern,
      htask], by rw [Uart.setDisIntCount_kern, Uart.setKern_kern, hvecs]⟩
  · exact h.owed
  · intro _
    exact (h.away haway).symm
  · intro hne
    exact absurd hcur hne
  · intro _
    exact hlinked'
  · exact h.drained
  · intro hunlinked
    exact absurd hlinked' hunlinked

theorem preempt (h : UartInv t intr s) (hcur : s.kern.taskCurrent = t)
    (hmask : s.disIntCount = 0) (ht : t ≠ Kern.schedTask) :
    UartInv t intr (s.setKern (s.kern.setTaskCurrent Kern.schedTask)) where
  handles := ⟨h.handles.bound, h.handles.irqHandler, h.handles.preempt⟩
  owed := h.owed
  depth heq := absurd heq.symm ht
  away _ := (h.depth hcur).symm.trans hmask
  linked _ := h.linked (Or.inl hcur)
  drained := h.drained
  unlinked := h.unlinked

theorem other {n : ℕ} {b : Bool} (h : UartInv t intr s)
    (hcur : s.kern.taskCurrent ≠ t) (hkeeps : s.kern.KeepsHandler t intr k)
    (hk : k.taskCurrent ≠ t) :
    UartInv t intr (((s.setKern k).setDisIntCount n).setDropRx b) := by
  have hlinked : (k.task t).flags.linked = (s.kern.task t).flags.linked :=
    congrArg TaskFlags.linked hkeeps.1
  constructor
  · exact h.handles.keeps hkeeps
  · exact h.owed
  · intro heq
    exact absurd heq hk
  · intro _
    exact h.away hcur
  · rintro (heq | htop)
    · exact absurd heq hk
    · exact hlinked.trans (h.linked (Or.inr htop))
  · exact h.drained
  · intro hunlinked
    apply h.unlinked
    intro hs
    exact hunlinked (hlinked.trans hs)

theorem step {e : UartEvent} (h : UartInv t intr s) (ht : t ≠ Kern.schedTask)
    (hstep : KeptUartStep t intr s e s') : UartInv t intr s' := by
  obtain ⟨hstep, hkept⟩ := hstep
  cases e with
  | rx c =>
      cases hstep
      constructor
      · exact h.handles
      · rw [Uart.setFifo_fifo, List.length_append]
        exact h.owed.trans (Nat.le_add_right _ _)
      · exact h.depth
      · exact h.away
      · exact h.linked
      · exact h.drained
      · exact h.unlinked
  | irq => exact h.irq hstep.1 hkept hstep.2
  | dispatch =>
      obtain ⟨hsched, fuel, k, hok, rfl⟩ := hstep
      exact h.dispatch hsched ht hok
  | preempt =>
      obtain ⟨hcur, hmask, rfl⟩ := hstep
      exact h.preempt hcur hmask ht
  | run k =>
      obtain ⟨hcur, hkeeps, -, hok⟩ := hstep
      exact h.uartMain hcur hkeeps hkept ht hok
  | other k n b =>
      obtain ⟨hcur, hkeeps, hk, rfl⟩ := hstep
      exact h.other hcur hkeeps hk

/-- The handler's next step is possible. -/
theorem uartMain_returns (h : UartInv t intr s) (hcur : s.kern.taskCurrent = t) :
    ∃ s', s.uartMain s.kern = .ok s' := by
  have hdepth := h.depth hcur
  unfold Uart.uartMain
  cases hpc : s.pc with
  | top | rearm | exit =>
      rw [hpc] at hdepth
      rw [disableInterrupts hdepth]
      exact ⟨_, rfl⟩
  | first | queue cmd => exact ⟨_, rfl⟩
  | body cmd =>
      rw [hpc] at hdepth
      dsimp only
      rw [enableInterrupts hdepth]
      split_ifs
      · exact ⟨_, rfl⟩
      · exact ⟨_, rfl⟩
  | next =>
      dsimp only
      split_ifs
      · exact ⟨_, rfl⟩
      · exact ⟨_, rfl⟩
  | done =>
      rw [hpc] at hdepth
      rw [enableInterrupts hdepth]
      exact ⟨_, rfl⟩
  | unlink =>
      rw [hpc] at hdepth
      obtain ⟨k, hexit⟩ :=
        Kern.taskExitIrqPreempt_returns hcur (h.linked (Or.inl hcur))
      have hone : s.disIntCount = 1 := hdepth
      simp [Uart.taskExitIrq, hexit, hone, panicIf]

end UartInv

/-! ## Passes -/

/-- How many steps of the handler it takes to begin a pass. -/
def UartPc.toPass : UartPc → ℕ
  | .first | .next => 1
  | .top | .rearm => 2
  | .queue _ | .unlink => 3
  | .body _ | .exit => 4
  | .done => 5

def UartEvent.isRun : UartEvent → Bool
  | .run _ => true
  | _ => false

section Passes

variable {t intr : ℕ} {s s' : Uart} {es : List UartEvent}

theorem enableInterrupts_keeps (hok : s.enableInterrupts = .ok s') :
    s'.passes = s.passes := by
  simp only [Uart.enableInterrupts, Outcome.bind_eq_ok,
    Outcome.pure_eq_ok] at hok
  obtain ⟨-, -, rfl⟩ := hok
  rfl

theorem disableInterrupts_keeps (hok : s.disableInterrupts = .ok s') :
    s'.passes = s.passes := by
  simp only [Uart.disableInterrupts, Outcome.bind_eq_ok,
    Outcome.pure_eq_ok] at hok
  obtain ⟨-, -, rfl⟩ := hok
  rfl

/-- A step of the handler begins a pass or comes closer to one. -/
theorem uartMain_toPass {k : Kern} (hok : s.uartMain k = .ok s') :
    s'.passes = s.passes + 1 ∨
      s'.passes = s.passes ∧ s'.pc.toPass + 1 ≤ s.pc.toPass := by
  unfold Uart.uartMain at hok
  cases hpc : s.pc with
  | top | rearm | exit =>
      simp only [hpc, Outcome.bind_eq_ok, Outcome.pure_eq_ok] at hok
      obtain ⟨s₁, hdisable, rfl⟩ := hok
      have hkeeps := disableInterrupts_keeps hdisable
      exact Or.inr ⟨hkeeps, by simp [UartPc.toPass]⟩
  | first =>
      simp only [hpc, Outcome.pure_eq_ok] at hok
      exact Or.inl (hok ▸ rfl)
  | body cmd =>
      simp only [hpc] at hok
      split_ifs at hok with hdrop
      · cases hok
        exact Or.inr ⟨rfl, by simp [UartPc.toPass]⟩
      · simp only [Outcome.bind_eq_ok, Outcome.pure_eq_ok] at hok
        obtain ⟨s₁, henable, rfl⟩ := hok
        have hkeeps := enableInterrupts_keeps henable
        exact Or.inr ⟨hkeeps, by simp [UartPc.toPass]⟩
  | queue cmd =>
      simp only [hpc, Outcome.pure_eq_ok] at hok
      cases hok
      exact Or.inr ⟨rfl, by simp [UartPc.toPass]⟩
  | next =>
      simp only [hpc] at hok
      split_ifs at hok
      · cases hok
        exact Or.inl rfl
      · cases hok
        exact Or.inl rfl
  | done =>
      simp only [hpc, Outcome.bind_eq_ok, Outcome.pure_eq_ok] at hok
      obtain ⟨s₁, henable, rfl⟩ := hok
      have hkeeps := enableInterrupts_keeps henable
      exact Or.inr ⟨hkeeps, by simp [UartPc.toPass]⟩
  | unlink =>
      simp only [hpc, Uart.taskExitIrq, Outcome.bind_eq_ok,
        Outcome.pure_eq_ok] at hok
      obtain ⟨k', -, -, -, rfl⟩ := hok
      exact Or.inr ⟨rfl, by simp [UartPc.toPass]⟩

/-- What is not a step of the handler does not move it. -/
theorem pc_of_step {e : UartEvent} (he : e.isRun = false)
    (hstep : UartStep t intr s e s') :
    s'.pc = s.pc ∧ s'.passes = s.passes := by
  cases e with
  | rx c =>
      cases hstep
      exact ⟨rfl, rfl⟩
  | irq =>
      obtain ⟨-, hok⟩ := hstep
      simp only [Uart.irqExc, Outcome.bind_eq_ok, Outcome.pure_eq_ok] at hok
      obtain ⟨-, -, k, -, rfl⟩ := hok
      exact ⟨rfl, rfl⟩
  | dispatch =>
      obtain ⟨-, fuel, k, -, rfl⟩ := hstep
      exact ⟨rfl, rfl⟩
  | preempt =>
      obtain ⟨-, -, rfl⟩ := hstep
      exact ⟨rfl, rfl⟩
  | run k => cases he
  | other k n b =>
      obtain ⟨-, -, -, rfl⟩ := hstep
      exact ⟨rfl, rfl⟩

/-- The steps of the handler lead to a pass, whatever comes between them. -/
theorem passes_of_run (hrun : Run (UartStep t intr) s es s') :
    s.passes < s'.passes ∨
      s'.passes = s.passes ∧
        s'.pc.toPass + es.countP UartEvent.isRun ≤ s.pc.toPass := by
  induction hrun with
  | nil s => exact Or.inr ⟨rfl, le_rfl⟩
  | @cons s s₁ s' e es hstep _ ih =>
      rw [List.countP_cons]
      by_cases he : e.isRun = true
      · rw [if_pos he]
        have hone : s₁.passes = s.passes + 1 ∨
            s₁.passes = s.passes ∧ s₁.pc.toPass + 1 ≤ s.pc.toPass := by
          cases e with
          | run k => exact uartMain_toPass hstep.2.2.2
          | _ => cases he
        omega
      · rw [if_neg he]
        obtain ⟨hpc, hpasses⟩ :=
          pc_of_step (Bool.eq_false_of_not_eq_true he) hstep
        rw [hpc, hpasses] at ih
        exact ih

theorem toPass_pos (pc : UartPc) : 0 < pc.toPass := by
  cases pc <;> simp [UartPc.toPass]

theorem toPass_le_three {pc : UartPc} (hdepth : pc.depth = 0)
    (hexit : pc ≠ .exit) : pc.toPass ≤ 3 := by
  cases pc with
  | exit => exact absurd rfl hexit
  | top | queue cmd | rearm => simp [UartPc.toPass]
  | first | body cmd | next | done | unlink => cases hdepth

end Passes

/-! ## The start -/

/-- What `serial_init` does for the handler at the address `t`. -/
def serialInit (fuel t intr : ℕ) (k : Kern) : Outcome Kern := do
  let k₁ ← k.taskCreateExtended fuel { irqHandler := true, preempt := true }
    0 t 0
  k₁.taskBindToIrq fuel t intr

/-- The serial port with nothing to read and the handler not started yet. -/
def quietUart (k : Kern) : Uart where
  kern := k
  disIntCount := 0
  pc := .top
  dropRx := false
  fifo := []
  owed := 0
  passDue := false
  passes := 0

/-- A step of the handler in which `queue_rx_char` changes no task. -/
theorem uartStep_run {t intr : ℕ} {s s' : Uart} (hcur : s.kern.taskCurrent = t)
    (hok : s.uartMain s.kern = .ok s') : UartStep t intr s (.run s.kern) s' :=
  ⟨hcur, ⟨rfl, rfl⟩, hcur, hok⟩

/-! ## No lost interrupt -/

/-- The handler waits for its first interrupt. -/
structure Uart.Idle (t intr : ℕ) (s : Uart) : Prop where
  handles : s.kern.Handles t intr
  away : s.kern.taskCurrent ≠ t
  pc : s.pc = .top
  served : s.Served

section Served

variable {t intr : ℕ} {s s' : Uart} {es : List UartEvent}

theorem Uart.Idle.inv (h : s.Idle t intr) : UartInv t intr s where
  handles := h.handles
  owed := h.served.1.symm ▸ Nat.zero_le _
  depth heq := absurd heq h.away
  away _ := by rw [h.pc]; rfl
  linked := by
    rintro (heq | htop)
    · exact absurd heq h.away
    · exact absurd h.pc htop
  drained _ := h.served
  unlinked _ := h.served

/-- In every run whose interrupts come outside the gap and in which no byte ends
a pass early, the handler is only unlinked when everything that was delivered
has been read in a pass that began after the delivery; until then it can always
take its next step, and the third after a delivery has begun a pass. -/
theorem uart_interrupt_served (ht : t ≠ Kern.schedTask) (hidle : s.Idle t intr)
    (hrun : Run (KeptUartStep t intr) s es s') :
    (¬ s'.Linked t → s'.Served) ∧
      (s'.kern.taskCurrent = t →
        ∃ s₁, UartStep t intr s' (.run s'.kern) s₁) ∧
      ∀ s₁ s₂ es₁, KeptUartStep t intr s' .irq s₁ →
        Run (UartStep t intr) s₁ es₁ s₂ → 3 ≤ es₁.countP UartEvent.isRun →
          s₁.passes < s₂.passes := by
  have hinv : UartInv t intr s' :=
    hrun.invariant (fun _ _ _ h hstep => h.step ht hstep) hidle.inv
  refine ⟨hinv.unlinked, ?_, ?_⟩
  · intro hcur
    obtain ⟨s₁, hok⟩ := hinv.uartMain_returns hcur
    exact ⟨s₁, hcur, ⟨rfl, rfl⟩, hcur, hok⟩
  · intro s₁ s₂ es₁ hirq hrest hthree
    obtain ⟨hpc, -⟩ := pc_of_step rfl hirq.1
    have hclose : s₁.pc.toPass ≤ 3 := by
      rw [hpc]
      exact toPass_le_three (hinv.depth_of_enabled hirq.1.1) hirq.2
    have hpos := toPass_pos s₂.pc
    rcases passes_of_run hrest with hpass | ⟨-, hle⟩
    · exact hpass
    · omega

end Served

/-- The theorem on a run in which the handler reads one byte. -/
theorem uart_interrupt_served_byte :
    ∃ k es s', serialInit 3 0x1000 33 Kern.bootKern = .ok k ∧
      Run (KeptUartStep 0x1000 33) (quietUart k) es s' ∧
      ¬ s'.Linked 0x1000 ∧ s'.Served := by
  have hcalls : (do
      let k ← serialInit 3 0x1000 33 Kern.bootKern
      let s₁ ← ((quietUart k).setFifo [0x61]).irqExc 33
      let (r, k₂) ← s₁.kern.pongoSchedTick 3
      let s₂ := (s₁.setKern k₂).setDisIntCount 0
      let s₃ ← s₂.uartMain s₂.kern
      let s₄ ← s₃.uartMain s₃.kern
      let s₅ ← s₄.uartMain s₄.kern
      let s₆ ← s₅.uartMain s₅.kern
      let s₇ ← s₆.uartMain s₆.kern
      let s₈ ← s₇.uartMain s₇.kern
      let s₉ ← s₈.uartMain s₈.kern
      let t₁ ← s₉.uartMain s₉.kern
      let t₂ ← t₁.uartMain t₁.kern
      pure (r, [s₂, s₃, s₄, s₅, s₆, s₇, s₈, s₉, t₁], k, s₁, t₂) :
        Outcome (Kern.Tick × List Uart × Kern × Uart × Uart)).toOption.map
        (fun (r, l, k, s₁, t₂) => (r = .dispatched 0x1000 ∧
          (∀ s ∈ l, s.kern.taskCurrent = 0x1000 ∧
            s.fifo.head? ≠ some Uart.errorNoPendingChar) ∧
          k.irqvecs 33 = 0x1000 ∧
          (k.task 0x1000).flags.irqHandler = true ∧
          (k.task 0x1000).flags.preempt = true ∧
          k.taskCurrent = Kern.schedTask ∧
          s₁.kern.taskCurrent = Kern.schedTask ∧
          (t₂.kern.task 0x1000).flags.linked = false : Bool)) =
      some true := by
    decide +kernel
  obtain ⟨⟨r, l, k, s₁, t₂⟩, hok, hfacts⟩ := Outcome.ok_of_map hcalls
  simp only [Outcome.bind_eq_ok, Outcome.pure_eq_ok, Prod.exists,
    Prod.mk.injEq] at hok
  obtain ⟨k, hinit, _, hirq, r, k₂, htick, s₃, h₃, s₄, h₄, s₅, h₅, s₆, h₆, s₇,
    h₇, s₈, h₈, s₉, h₉, t₁, h₁₀, t₂, h₁₁, rfl, rfl, rfl, rfl, rfl⟩ := hok
  simp only [decide_eq_true_eq] at hfacts
  obtain ⟨rfl, hl, hbound, hirqHandler, hpreempt, hcur, hsched, hlinked⟩ :=
    hfacts
  simp only [List.forall_mem_cons] at hl
  obtain ⟨c₂, c₃, c₄, c₅, c₆, c₇, c₈, c₉, c₁₀, -⟩ := hl
  have hkept {s s' : Uart} (hs : s.kern.taskCurrent = 0x1000 ∧
      s.fifo.head? ≠ some Uart.errorNoPendingChar)
      (hok : s.uartMain s.kern = .ok s') :
      KeptUartStep 0x1000 33 s (.run s.kern) s' :=
    ⟨uartStep_run hs.1 hok, fun _ hend => absurd hend hs.2⟩
  have hstart : UartPc.top ≠ .exit := by decide
  have hrun : Run (KeptUartStep 0x1000 33) (quietUart k)
      [.rx 0x61, .irq, .dispatch, .run _, .run _, .run _, .run _, .run _,
        .run _, .run _, .run _, .run _] t₂ :=
    .cons ⟨rfl, trivial⟩ (.cons ⟨⟨rfl, hirq⟩, hstart⟩
      (.cons ⟨⟨hsched, 3, k₂, htick, rfl⟩, trivial⟩
        (.cons (hkept c₂ h₃) (.cons (hkept c₃ h₄) (.cons (hkept c₄ h₅)
          (.cons (hkept c₅ h₆) (.cons (hkept c₆ h₇) (.cons (hkept c₇ h₈)
            (.cons (hkept c₈ h₉) (.cons (hkept c₉ h₁₀)
              (.single (hkept c₁₀ h₁₁))))))))))))
  have hidle : (quietUart k).Idle 0x1000 33 := by
    constructor
    · exact ⟨hbound, hirqHandler, hpreempt⟩
    · rw [show (quietUart k).kern.taskCurrent = _ from hcur]
      decide
    · rfl
    · exact ⟨rfl, rfl⟩
  have hunlinked : ¬ t₂.Linked 0x1000 := by
    intro hl
    rw [Uart.Linked, hlinked] at hl
    cases hl
  exact ⟨k, _, _, hinit, hrun, hunlinked,
    (uart_interrupt_served (by decide) hidle hrun).1 hunlinked⟩

/-! ## A lost interrupt -/

/-- The second byte comes with the handler between its `enable_interrupts` and
`task_exit_irq`. -/
theorem interrupt_before_exit_lost :
    ∃ k es s', serialInit 3 0x1000 33 Kern.bootKern = .ok k ∧
      Run (UartStep 0x1000 33) (quietUart k) es s' ∧
      ¬ s'.Linked 0x1000 ∧ s'.fifo = [0x62] ∧ s'.owed = 1 ∧
      s'.passDue = true := by
  have hcalls : (do
      let k ← serialInit 3 0x1000 33 Kern.bootKern
      let s₁ ← ((quietUart k).setFifo [0x61]).irqExc 33
      let (r, k₂) ← s₁.kern.pongoSchedTick 3
      let s₂ := (s₁.setKern k₂).setDisIntCount 0
      let s₃ ← s₂.uartMain s₂.kern
      let s₄ ← s₃.uartMain s₃.kern
      let s₅ ← s₄.uartMain s₄.kern
      let s₆ ← s₅.uartMain s₅.kern
      let s₇ ← s₆.uartMain s₆.kern
      let s₈ ← s₇.uartMain s₇.kern
      let s₉ ← s₈.uartMain s₈.kern
      let t₁ ← (s₉.setFifo (s₉.fifo ++ [0x62])).irqExc 33
      let t₂ ← t₁.uartMain t₁.kern
      let t₃ ← t₂.uartMain t₂.kern
      pure (r, [s₂, s₃, s₄, s₅, s₆, s₇, s₈, t₁, t₂], s₁, s₉, t₃) :
        Outcome (Kern.Tick × List Uart × Uart × Uart × Uart)).toOption.map
        (fun (r, l, s₁, s₉, t₃) => (r = .dispatched 0x1000 ∧
          (∀ s ∈ l, s.kern.taskCurrent = 0x1000) ∧
          s₁.kern.taskCurrent = Kern.schedTask ∧ s₉.disIntCount = 0 ∧
          (t₃.kern.task 0x1000).flags.linked = false ∧ t₃.fifo = [0x62] ∧
          t₃.owed = 1 ∧ t₃.passDue = true : Bool)) =
      some true := by
    decide +kernel
  obtain ⟨⟨r, l, s₁, s₉, t₃⟩, hok, hfacts⟩ := Outcome.ok_of_map hcalls
  simp only [Outcome.bind_eq_ok, Outcome.pure_eq_ok, Prod.exists,
    Prod.mk.injEq] at hok
  obtain ⟨k, hinit, _, hirq, r, k₂, htick, s₃, h₃, s₄, h₄, s₅, h₅, s₆, h₆, s₇,
    h₇, s₈, h₈, s₉, h₉, t₁, hirq', t₂, h₁₀, t₃, h₁₁, rfl, rfl, rfl, rfl, rfl⟩ :=
    hok
  simp only [decide_eq_true_eq] at hfacts
  obtain ⟨rfl, hcur, hsched, hmask, hlinked, hfifo, howed, hdue⟩ := hfacts
  simp only [List.forall_mem_cons] at hcur
  obtain ⟨c₂, c₃, c₄, c₅, c₆, c₇, c₈, c₁₀, c₁₁, -⟩ := hcur
  have hread : Run (UartStep 0x1000 33) (quietUart k)
      [.rx 0x61, .irq, .dispatch, .run _, .run _, .run _, .run _, .run _,
        .run _, .run _] s₉ :=
    .cons rfl (.cons ⟨rfl, hirq⟩ (.cons ⟨hsched, 3, k₂, htick, rfl⟩
      (.cons (uartStep_run c₂ h₃) (.cons (uartStep_run c₃ h₄)
        (.cons (uartStep_run c₄ h₅) (.cons (uartStep_run c₅ h₆)
          (.cons (uartStep_run c₆ h₇) (.cons (uartStep_run c₇ h₈)
            (.single (uartStep_run c₈ h₉))))))))))
  have hlost : Run (UartStep 0x1000 33) s₉ [.rx 0x62, .irq, .run _, .run _] t₃ :=
    .cons rfl (.cons ⟨hmask, hirq'⟩
      (.cons (uartStep_run c₁₀ h₁₀) (.single (uartStep_run c₁₁ h₁₁))))
  refine ⟨k, _, _, hinit, hread.append hlost, ?_, hfifo, howed, hdue⟩
  intro hl
  rw [Uart.Linked, hlinked] at hl
  cases hl

end PongoOS
