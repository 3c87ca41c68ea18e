import PongoOS.Support.Run
import Mathlib.Data.List.Basic
import Mathlib.Logic.Function.Basic

/-!
# Standard input

One task reads standard input and any number of tasks put characters in.  A
section under `stdin_lock` is one step, and so is `event_wait`, which runs with
interrupts masked.  Between two steps any other task may run.

The reader looks at the buffer under the lock, but queues itself on `stdin_ev`
only after it has released the lock.  A newline that comes in between fires the
event too early.
-/

namespace PongoOS

/-! ## State -/

/-- Where the reader is in `_read`, which was called for `len` bytes. -/
inductive ReaderPc where
  | out
  | check (len : ℕ)
  | wait (len : ℕ)
  | parked (len : ℕ)
deriving DecidableEq, Repr

/-- `buf` is `stdin_buf` up to `bufoff` and `queue` the tasks that wait for
`stdin_ev`.  A producer has a character when it is in `queue_rx_char` and has not
taken the lock yet. -/
structure Stdin where
  buf : List UInt8
  queue : List ℕ
  reader : ReaderPc
  producer : ℕ → Option UInt8

namespace Stdin

def newline : UInt8 := 10

def carriageReturn : UInt8 := 13

def delete : UInt8 := 0x7f

/-- The task that reads. -/
def readerTask : ℕ := 0x100002000

@[simps]
def setBuf (s : Stdin) (buf : List UInt8) : Stdin := { s with buf := buf }

@[simps]
def setReader (s : Stdin) (pc : ReaderPc) : Stdin := { s with reader := pc }

@[simps]
def setProducer (s : Stdin) (p : ℕ) (c : Option UInt8) : Stdin :=
  { s with producer := Function.update s.producer p c }

/-! ## Sections -/

/-- `event_fire(&stdin_ev)`. -/
@[simps]
def eventFire (s : Stdin) : Stdin := { s with queue := [] }

/-- `event_wait(&stdin_ev)` of the reader. -/
@[simps]
def eventWait (s : Stdin) : Stdin := { s with queue := readerTask :: s.queue }

/-- What `queue_rx_char` does under the lock. -/
def queueRxChar (inch : UInt8) (s : Stdin) : Stdin :=
  if inch = delete then s.setBuf s.buf.dropLast
  else
    let s₁ := if s.buf.length < 512 then s.setBuf (s.buf ++ [inch]) else s
    if inch = newline then s₁.eventFire else s₁

/-- What `queue_rx_char` calls after the lock is released. -/
def followUp (inch : UInt8) : Option UInt8 :=
  if inch = carriageReturn then some newline else none

/-- What `_read` does under the lock. -/
def readBuf (len : ℕ) (s : Stdin) : Stdin :=
  if s.buf = [] then s.setReader (.wait len)
  else (s.setBuf (s.buf.drop len)).setReader .out

end Stdin

/-! ## Steps -/

inductive StdinEvent where
  | read (len : ℕ)
  | check
  | wait
  | resume
  | call (p : ℕ) (inch : UInt8)
  | queue (p : ℕ)

open Stdin

def StdinStep (s : Stdin) (e : StdinEvent) (s' : Stdin) : Prop :=
  match e with
  | .read len => s.reader = .out ∧ len ≠ 0 ∧ s' = s.setReader (.check len)
  | .check => ∃ len, s.reader = .check len ∧ s' = s.readBuf len
  | .wait =>
      ∃ len, s.reader = .wait len ∧ s' = s.eventWait.setReader (.parked len)
  | .resume =>
      ∃ len, s.reader = .parked len ∧ readerTask ∉ s.queue ∧
        s' = s.setReader (.check len)
  | .call p inch => s.producer p = none ∧ s' = s.setProducer p (some inch)
  | .queue p =>
      ∃ inch, s.producer p = some inch ∧
        s' = (s.queueRxChar inch).setProducer p (followUp inch)

/-! ## The wake-up -/

/-- A producer is about to fire the event. -/
def Stdin.FireDue (s : Stdin) : Prop :=
  ∃ p, s.producer p = some newline ∨ s.producer p = some carriageReturn

/-- When the reader queues itself, there is no newline in the buffer or the
event is still to be fired. -/
def StdinEvent.Timely (s : Stdin) : StdinEvent → Prop
  | .wait => newline ∉ s.buf ∨ s.FireDue
  | _ => True

def TimelyStdinStep (s : Stdin) (e : StdinEvent) (s' : Stdin) : Prop :=
  StdinStep s e s' ∧ e.Timely s

def Stdin.WakeInv (s : Stdin) : Prop :=
  readerTask ∈ s.queue → newline ∉ s.buf ∨ s.FireDue

namespace Stdin

variable {s s' : Stdin} {p : ℕ} {inch : UInt8}

/-- A section that does not fire leaves the queue alone and adds no newline. -/
theorem queueRxChar_of_ne (hnewline : inch ≠ newline) :
    (s.queueRxChar inch).queue = s.queue ∧
      (newline ∈ (s.queueRxChar inch).buf → newline ∈ s.buf) := by
  unfold queueRxChar
  dsimp only
  rw [if_neg hnewline]
  split_ifs
  · exact ⟨rfl, fun hmem => List.dropLast_subset _ hmem⟩
  · refine ⟨rfl, fun hmem => ?_⟩
    rw [setBuf_buf, List.mem_append, List.mem_singleton] at hmem
    exact hmem.resolve_right fun heq => hnewline heq.symm
  · exact ⟨rfl, id⟩

theorem queueRxChar_newline : (s.queueRxChar newline).queue = [] := by
  unfold queueRxChar
  rw [if_neg (by decide), if_pos rfl]
  rfl

theorem queueRxChar_producer (q : ℕ) :
    (s.queueRxChar inch).producer q = s.producer q := by
  unfold queueRxChar
  dsimp only
  split_ifs <;> rfl

namespace WakeInv

theorem queue (h : s.WakeInv) (hp : s.producer p = some inch) :
    ((s.queueRxChar inch).setProducer p (followUp inch)).WakeInv := by
  intro hqueued
  rw [setProducer_queue] at hqueued
  by_cases hnewline : inch = newline
  · rw [hnewline, queueRxChar_newline] at hqueued
    cases hqueued
  by_cases hreturn : inch = carriageReturn
  · refine Or.inr ⟨p, Or.inl ?_⟩
    rw [setProducer_producer, Function.update_self, followUp, if_pos hreturn]
  obtain ⟨hqueue, hbuf⟩ := queueRxChar_of_ne (s := s) hnewline
  rw [hqueue] at hqueued
  rcases h hqueued with hnone | ⟨q, hq⟩
  · exact Or.inl fun hmem => hnone (hbuf hmem)
  · have hqp : q ≠ p := by
      rintro rfl
      rw [hp, Option.some.injEq, Option.some.injEq] at hq
      exact hq.elim hnewline hreturn
    refine Or.inr ⟨q, ?_⟩
    rw [setProducer_producer, Function.update_of_ne hqp, queueRxChar_producer]
    exact hq

theorem call (h : s.WakeInv) (hp : s.producer p = none) :
    (s.setProducer p (some inch)).WakeInv := by
  intro hqueued
  refine (h hqueued).imp id ?_
  rintro ⟨q, hq⟩
  have hqp : q ≠ p := by
    rintro rfl
    rw [hp] at hq
    rcases hq with hq | hq <;> cases hq
  refine ⟨q, ?_⟩
  rw [setProducer_producer, Function.update_of_ne hqp]
  exact hq

theorem readBuf (h : s.WakeInv) (len : ℕ) : (s.readBuf len).WakeInv := by
  unfold Stdin.readBuf
  split_ifs
  · exact h
  · intro hqueued
    refine (h hqueued).imp (fun hnone hmem => ?_) id
    exact hnone (List.mem_of_mem_drop hmem)

theorem step {e : StdinEvent} (h : s.WakeInv) (hstep : TimelyStdinStep s e s') :
    s'.WakeInv := by
  obtain ⟨hstep, htimely⟩ := hstep
  cases e with
  | read len =>
      obtain ⟨-, -, rfl⟩ := hstep
      exact h
  | check =>
      obtain ⟨len, -, rfl⟩ := hstep
      exact h.readBuf len
  | wait =>
      obtain ⟨len, -, rfl⟩ := hstep
      intro _
      exact htimely
  | resume =>
      obtain ⟨len, -, -, rfl⟩ := hstep
      exact h
  | call p inch =>
      obtain ⟨hp, rfl⟩ := hstep
      exact h.call hp
  | queue p =>
      obtain ⟨inch, hp, rfl⟩ := hstep
      exact h.queue hp

end WakeInv

/-- The reader waits, no producer is at work, and there is a line to read. -/
def Lost (s : Stdin) : Prop :=
  readerTask ∈ s.queue ∧ (∀ p, s.producer p = none) ∧ newline ∈ s.buf

end Stdin

/-- As long as the reader only queues itself when there is no newline in the
buffer or the event is still to be fired, no wake-up is lost. -/
theorem stdin_not_lost {s s' : Stdin} {es : List StdinEvent}
    (hqueue : s.queue = []) (hrun : Run TimelyStdinStep s es s') :
    ¬ s'.Lost := by
  have hstart : s.WakeInv := by
    intro hqueued
    rw [hqueue] at hqueued
    cases hqueued
  have hend : s'.WakeInv :=
    hrun.invariant (fun _ _ _ h hstep => h.step hstep) hstart
  rintro ⟨hqueued, hidle, hline⟩
  rcases hend hqueued with hnone | ⟨p, hp⟩
  · exact hnone hline
  · rw [hidle p] at hp
    rcases hp with hp | hp <;> cases hp

/-- The state before anything was typed. -/
def emptyStdin : Stdin where
  buf := []
  queue := []
  reader := .out
  producer := fun _ => none

/-- The theorem on a run in which a carriage return wakes the reader. -/
theorem stdin_not_lost_emptyStdin :
    ∃ s', Run TimelyStdinStep emptyStdin
        [.read 16, .check, .wait, .call 1 carriageReturn, .queue 1,
          .queue 1] s' ∧
      newline ∈ s'.buf ∧ ¬ s'.Lost := by
  have hrun : Run TimelyStdinStep emptyStdin
      [.read 16, .check, .wait, .call 1 carriageReturn, .queue 1, .queue 1] _ :=
    .cons ⟨⟨rfl, by decide, rfl⟩, trivial⟩ (.cons ⟨⟨_, rfl, rfl⟩, trivial⟩
      (.cons ⟨⟨_, rfl, rfl⟩, Or.inl (by decide)⟩ (.cons ⟨⟨rfl, rfl⟩, trivial⟩
        (.cons ⟨⟨_, rfl, rfl⟩, trivial⟩ (.single ⟨⟨_, rfl, rfl⟩, trivial⟩)))))
  exact ⟨_, hrun, by decide, stdin_not_lost rfl hrun⟩

/-! ## A lost wake-up -/

/-- The newline arrives between the reader's look at the buffer and its
`event_wait`. -/
theorem newline_before_wait_lost :
    ∃ s', Run StdinStep emptyStdin
        [.read 16, .check, .call 1 newline, .queue 1, .wait] s' ∧ s'.Lost := by
  refine ⟨_, .cons ⟨rfl, by decide, rfl⟩ (.cons ⟨_, rfl, rfl⟩
    (.cons ⟨rfl, rfl⟩ (.cons ⟨_, rfl, rfl⟩ (.single ⟨_, rfl, rfl⟩)))), ?_⟩
  refine ⟨by decide, fun p => ?_, by decide⟩
  by_cases hp : p = 1
  · subst hp
    rfl
  · simp [queueRxChar_producer, Stdin.readBuf, emptyStdin, hp]

end PongoOS
