import PongoOS.Support.Run
import Mathlib.Algebra.GroupWithZero.Nat
import Mathlib.Data.List.Basic
import Mathlib.Logic.Function.Basic

/-!
# Standard output

Any number of tasks write to standard output, and the host fetches what they
wrote with control requests.  A writer holds `stdout_lock` while it stores one
character after the other.  When the buffer is full it discards the oldest
character or, in blocking mode, gives the lock up and tries again later.

A fetch empties the buffer, but the host gets no more than it asks for, and what
it does not get is lost.
-/

namespace PongoOS

/-! ## State -/

/-- Where a task is in `_write`, with the characters that are still to be
stored. -/
inductive Writer where
  | idle
  | wants (data : List UInt8)
  | holds (data : List UInt8)
deriving DecidableEq, Repr

def Writer.pending : Writer → List UInt8
  | .idle => []
  | .wants data => data
  | .holds data => data

/-- `buf` is `stdout_buf` up to `stdout_buf_len`, and `owner` the task that
holds `stdout_lock`. -/
structure Stdout where
  buf : List UInt8
  blocking : Bool
  owner : Option ℕ
  writer : ℕ → Writer
  preemptionOver : Bool

/-- `STDOUT_BUFLEN`. -/
def stdoutBuflen : ℕ := 0x1000

namespace Stdout

@[simps]
def setBuf (s : Stdout) (buf : List UInt8) : Stdout := { s with buf := buf }

@[simps]
def setOwner (s : Stdout) (owner : Option ℕ) : Stdout :=
  { s with owner := owner }

@[simps]
def setWriter (s : Stdout) (t : ℕ) (w : Writer) : Stdout :=
  { s with writer := Function.update s.writer t w }

@[simps]
def setBlocking (s : Stdout) (block : Bool) : Stdout :=
  { s with blocking := block }

@[simps]
def setPreemptionOver (s : Stdout) : Stdout := { s with preemptionOver := true }

/-- A character is stored if there is room, or if an old one can go. -/
def Stores (s : Stdout) : Prop :=
  s.buf.length < stdoutBuflen - 1 ∨ s.blocking = false

/-- The buffer with one character more. -/
def store (s : Stdout) (c : UInt8) : List UInt8 :=
  if s.buf.length < stdoutBuflen - 1 then s.buf ++ [c] else s.buf.tail ++ [c]

end Stdout

/-- What `ep0_device_request` sends of the data that was fetched. -/
def trimToRequest (wLength : ℕ) (xfer : List UInt8) : List UInt8 :=
  if wLength < xfer.length then xfer.drop (xfer.length - wLength) else xfer

/-! ## Steps -/

/-- `direct` is a call after `preemption_over` was set, which leaves the buffer
alone.  `xfer` is what a fetch found in the buffer. -/
inductive StdoutEvent where
  | call (t : ℕ) (data : List UInt8)
  | direct (t : ℕ)
  | take (t : ℕ)
  | put (t : ℕ) (c : UInt8)
  | giveUp (t : ℕ)
  | finish (t : ℕ)
  | fetch (wLength : ℕ) (xfer : List UInt8)
  | setBlocking (block : Bool)
  | endPreemption

def StdoutStep (s : Stdout) (e : StdoutEvent) (s' : Stdout) : Prop :=
  match e with
  | .call t data =>
      s.writer t = .idle ∧ s.preemptionOver = false ∧
        s' = s.setWriter t (.wants data)
  | .direct t => s.writer t = .idle ∧ s.preemptionOver = true ∧ s' = s
  | .take t =>
      ∃ data, s.writer t = .wants data ∧ s.owner = none ∧
        s' = (s.setOwner (some t)).setWriter t (.holds data)
  | .put t c =>
      ∃ data, s.writer t = .holds (c :: data) ∧ s.Stores ∧
        s' = (s.setBuf (s.store c)).setWriter t (.holds data)
  | .giveUp t =>
      ∃ c data, s.writer t = .holds (c :: data) ∧ ¬ s.Stores ∧
        s' = (s.setOwner none).setWriter t (.wants (c :: data))
  | .finish t =>
      s.writer t = .holds [] ∧ s' = (s.setOwner none).setWriter t .idle
  | .fetch wLength xfer =>
      s.owner = none ∧ (wLength = 512 ∨ wLength = 0x1000) ∧ xfer = s.buf ∧
        s' = s.setBuf []
  | .setBlocking block => s.owner = none ∧ s' = s.setBlocking block
  | .endPreemption => s' = s.setPreemptionOver

/-! ## Histories -/

namespace StdoutEvent

/-- What the host gets. -/
def returned : StdoutEvent → List UInt8
  | .fetch wLength xfer => trimToRequest wLength xfer
  | _ => []

/-- What is stored. -/
def written : StdoutEvent → List UInt8
  | .put _ c => [c]
  | _ => []

/-- What `t` is called to write. -/
def calledBy (t : ℕ) : StdoutEvent → List UInt8
  | .call u data => if u = t then data else []
  | _ => []

/-- What `t` stores. -/
def writtenBy (t : ℕ) : StdoutEvent → List UInt8
  | .put u c => if u = t then [c] else []
  | _ => []

/-- A fetch found no more than the host asks for. -/
def Fits : StdoutEvent → Prop
  | .fetch wLength xfer => xfer.length ≤ wLength
  | _ => True

/-- How many characters the host does not get. -/
def lost : StdoutEvent → ℕ
  | .fetch wLength xfer => xfer.length - wLength
  | _ => 0

/-- Blocking mode is not left. -/
def StaysBlocking : StdoutEvent → Prop
  | .setBlocking block => block = true
  | _ => True

theorem lost_eq_zero (e : StdoutEvent) : e.lost = 0 ↔ e.Fits := by
  cases e with
  | fetch wLength xfer => exact Nat.sub_eq_zero_iff_le
  | _ => simp [lost, Fits]

end StdoutEvent

open StdoutEvent

theorem length_trimToRequest (wLength : ℕ) (xfer : List UInt8) :
    (trimToRequest wLength xfer).length + (xfer.length - wLength) =
      xfer.length := by
  unfold trimToRequest
  split_ifs with hlong
  · rw [List.length_drop]
    omega
  · omega

theorem trimToRequest_of_fits {wLength : ℕ} {xfer : List UInt8}
    (h : xfer.length ≤ wLength) : trimToRequest wLength xfer = xfer :=
  if_neg (Nat.not_lt.mpr h)

section Runs

variable {s s' : Stdout} {e : StdoutEvent} {es : List StdoutEvent}

/-- What is in the buffer or stored by a step is in the buffer afterwards or
given to the host, but for what the host does not ask for. -/
theorem StdoutStep.blocking_buf (h : StdoutStep s e s')
    (hblocking : s.blocking = true) :
    (s.buf ++ e.written).length =
        e.returned.length + s'.buf.length + e.lost ∧
      (e.Fits → s.buf ++ e.written = e.returned ++ s'.buf) := by
  cases e with
  | put t c =>
      obtain ⟨data, -, hstores, rfl⟩ := h
      have hroom : s.buf.length < stdoutBuflen - 1 :=
        hstores.resolve_right (by simp [hblocking])
      simp [written, returned, lost, Stdout.store, hroom]
  | fetch wLength xfer =>
      obtain ⟨-, -, rfl, rfl⟩ := h
      constructor
      · have hlength := length_trimToRequest wLength s.buf
        simp only [written, returned, lost, List.append_nil, Stdout.setBuf_buf,
          List.length_nil]
        omega
      · intro hfits
        simp [written, returned, trimToRequest_of_fits hfits]
  | call t data =>
      obtain ⟨-, -, rfl⟩ := h
      simp [written, returned, lost]
  | direct t =>
      obtain ⟨-, -, rfl⟩ := h
      simp [written, returned, lost]
  | take t =>
      obtain ⟨data, -, -, rfl⟩ := h
      simp [written, returned, lost]
  | giveUp t =>
      obtain ⟨c, data, -, -, rfl⟩ := h
      simp [written, returned, lost]
  | finish t =>
      obtain ⟨-, rfl⟩ := h
      simp [written, returned, lost]
  | setBlocking block =>
      obtain ⟨-, rfl⟩ := h
      simp [written, returned, lost]
  | endPreemption =>
      obtain rfl := h
      simp [written, returned, lost]

theorem StdoutStep.blocking (h : StdoutStep s e s')
    (hblocking : s.blocking = true) (he : e.StaysBlocking) :
    s'.blocking = true := by
  cases e with
  | setBlocking block =>
      obtain ⟨-, rfl⟩ := h
      exact he
  | call t data =>
      obtain ⟨-, -, rfl⟩ := h
      exact hblocking
  | direct t =>
      obtain ⟨-, -, rfl⟩ := h
      exact hblocking
  | take t =>
      obtain ⟨data, -, -, rfl⟩ := h
      exact hblocking
  | put t c =>
      obtain ⟨data, -, -, rfl⟩ := h
      exact hblocking
  | giveUp t =>
      obtain ⟨c, data, -, -, rfl⟩ := h
      exact hblocking
  | finish t =>
      obtain ⟨-, rfl⟩ := h
      exact hblocking
  | fetch wLength xfer =>
      obtain ⟨-, -, -, rfl⟩ := h
      exact hblocking
  | endPreemption =>
      obtain rfl := h
      exact hblocking

/-- A task stores what it is called to write, in this order. -/
theorem StdoutStep.pending (h : StdoutStep s e s') (t : ℕ) :
    (s.writer t).pending ++ e.calledBy t =
      e.writtenBy t ++ (s'.writer t).pending := by
  have hset : ∀ u (w : Writer), (s.writer u).pending = w.pending →
      (Function.update s.writer u w t).pending = (s.writer t).pending := by
    intro u w hw
    by_cases htu : t = u
    · rw [htu, Function.update_self, hw]
    · rw [Function.update_of_ne htu]
  cases e with
  | call u data =>
      obtain ⟨hidle, -, rfl⟩ := h
      by_cases htu : t = u
      · subst htu
        simp [calledBy, writtenBy, hidle, Writer.pending]
      · simp [calledBy, writtenBy, htu, Ne.symm htu]
  | put u c =>
      obtain ⟨data, hholds, -, rfl⟩ := h
      by_cases htu : t = u
      · subst htu
        simp [calledBy, writtenBy, hholds, Writer.pending]
      · simp [calledBy, writtenBy, htu, Ne.symm htu]
  | direct u =>
      obtain ⟨-, -, rfl⟩ := h
      simp [calledBy, writtenBy]
  | take u =>
      obtain ⟨data, hwants, -, rfl⟩ := h
      simp only [calledBy, writtenBy, List.append_nil, List.nil_append,
        Stdout.setWriter_writer]
      exact (hset u _ (by rw [hwants]; rfl)).symm
  | giveUp u =>
      obtain ⟨c, data, hholds, -, rfl⟩ := h
      simp only [calledBy, writtenBy, List.append_nil, List.nil_append,
        Stdout.setWriter_writer]
      exact (hset u _ (by rw [hholds]; rfl)).symm
  | finish u =>
      obtain ⟨hholds, rfl⟩ := h
      simp only [calledBy, writtenBy, List.append_nil, List.nil_append,
        Stdout.setWriter_writer]
      exact (hset u _ (by rw [hholds]; rfl)).symm
  | fetch wLength xfer =>
      obtain ⟨-, -, -, rfl⟩ := h
      simp [calledBy, writtenBy]
  | setBlocking block =>
      obtain ⟨-, rfl⟩ := h
      simp [calledBy, writtenBy]
  | endPreemption =>
      obtain rfl := h
      simp [calledBy, writtenBy]

/-- A task that stores characters holds the lock. -/
def Stdout.Owned (s : Stdout) : Prop :=
  ∀ t data, s.writer t = .holds data → s.owner = some t

theorem Stdout.Owned.update {t : ℕ} {w : Writer} {owner : Option ℕ}
    (hs : s.Owned) (hw : ∀ data, w = .holds data → owner = some t)
    (howner : ∀ u, u ≠ t → s.owner = some u → owner = some u) :
    ((s.setOwner owner).setWriter t w).Owned := by
  intro u data hu
  simp only [Stdout.setWriter_writer] at hu
  by_cases hut : u = t
  · subst hut
    rw [Function.update_self] at hu
    exact hw data hu
  · rw [Function.update_of_ne hut] at hu
    exact howner u hut (hs u data hu)

theorem StdoutStep.owned (hs : s.Owned) (h : StdoutStep s e s') : s'.Owned := by
  have hother : ∀ {t data}, s.writer t = .holds data → ∀ u, u ≠ t →
      s.owner = some u → (none : Option ℕ) = some u := by
    intro t data ht u hut hu
    rw [hs t data ht] at hu
    exact absurd (Option.some.inj hu).symm hut
  cases e with
  | call t data =>
      obtain ⟨-, -, rfl⟩ := h
      exact hs.update (by simp) fun _ _ hu => hu
  | take t =>
      obtain ⟨data, -, hfree, rfl⟩ := h
      exact hs.update (fun _ _ => rfl) fun u _ hu => by
        rw [hfree] at hu
        cases hu
  | put t c =>
      obtain ⟨data, hholds, -, rfl⟩ := h
      exact hs.update (fun _ _ => hs t _ hholds) fun _ _ hu => hu
  | giveUp t =>
      obtain ⟨c, data, hholds, -, rfl⟩ := h
      exact hs.update (by simp) (hother hholds)
  | finish t =>
      obtain ⟨hholds, rfl⟩ := h
      exact hs.update (by simp) (hother hholds)
  | direct t =>
      obtain ⟨-, -, rfl⟩ := h
      exact hs
  | fetch wLength xfer =>
      obtain ⟨-, -, -, rfl⟩ := h
      exact hs
  | setBlocking block =>
      obtain ⟨-, rfl⟩ := h
      exact hs
  | endPreemption =>
      obtain rfl := h
      exact hs

/-! ## Delivery -/

theorem Run.stdout_buf (hrun : Run StdoutStep s es s')
    (hblocking : s.blocking = true) (hes : ∀ e ∈ es, e.StaysBlocking) :
    (s.buf ++ es.flatMap written).length =
        (es.flatMap returned).length + s'.buf.length + (es.map lost).sum ∧
      ((∀ e ∈ es, e.Fits) →
        s.buf ++ es.flatMap written = es.flatMap returned ++ s'.buf) := by
  induction hrun with
  | nil s => simp
  | @cons s s₁ s' e es hstep _ ih =>
      have he := hes e List.mem_cons_self
      obtain ⟨hlength, hfits⟩ := hstep.blocking_buf hblocking
      obtain ⟨hlength', hfits'⟩ := ih (hstep.blocking hblocking he)
        fun e he => hes e (List.mem_cons_of_mem _ he)
      constructor
      · simp only [List.flatMap_cons, List.map_cons, List.sum_cons,
          List.length_append] at hlength hlength' ⊢
        omega
      · intro hall
        rw [List.flatMap_cons, List.flatMap_cons, ← List.append_assoc,
          hfits (hall e List.mem_cons_self), List.append_assoc,
          hfits' fun e he => hall e (List.mem_cons_of_mem _ he),
          List.append_assoc]

theorem Run.stdout_pending (hrun : Run StdoutStep s es s') (t : ℕ) :
    (s.writer t).pending ++ es.flatMap (calledBy t) =
      es.flatMap (writtenBy t) ++ (s'.writer t).pending := by
  induction hrun with
  | nil s => simp
  | @cons s s₁ s' e es hstep _ ih =>
      rw [List.flatMap_cons, List.flatMap_cons, ← List.append_assoc,
        hstep.pending t, List.append_assoc, ih, List.append_assoc]

/-- In blocking mode the host gets what the writers store, in the order in which
they store it, if and only if no fetch finds more than it asks for. -/
theorem stdout_delivers_iff (hrun : Run StdoutStep s es s')
    (hblocking : s.blocking = true) (hes : ∀ e ∈ es, e.StaysBlocking) :
    (es.flatMap returned ++ s'.buf = s.buf ++ es.flatMap written ∧
      ∀ t, (s.writer t).pending ++ es.flatMap (calledBy t) =
        es.flatMap (writtenBy t) ++ (s'.writer t).pending) ↔
      ∀ e ∈ es, e.Fits := by
  obtain ⟨hlength, hfits⟩ := hrun.stdout_buf hblocking hes
  constructor
  · rintro ⟨heq, -⟩ e he
    rw [← heq, List.length_append] at hlength
    have hsum : (es.map lost).sum = 0 := by omega
    rw [← e.lost_eq_zero]
    exact List.sum_eq_zero_iff_forall_eq_nat.mp hsum _ (List.mem_map_of_mem he)
  · intro hall
    exact ⟨(hfits hall).symm, hrun.stdout_pending⟩

end Runs

/-! ## A fetch that is too short -/

/-- No task writes, and writers are to block. -/
def Stdout.quiet : Stdout where
  buf := []
  blocking := true
  owner := none
  writer := fun _ => .idle
  preemptionOver := false

theorem run_puts {s : Stdout} {t : ℕ} (data : List UInt8)
    (hholds : s.writer t = .holds data)
    (hroom : s.buf.length + data.length < stdoutBuflen) :
    Run StdoutStep s (data.map (.put t))
      ((s.setBuf (s.buf ++ data)).setWriter t (.holds [])) := by
  induction data generalizing s with
  | nil =>
      have hsame : (s.setBuf (s.buf ++ [])).setWriter t (.holds []) = s := by
        rw [List.append_nil]
        simp only [Stdout.setWriter, Stdout.setBuf, ← hholds,
          Function.update_eq_self]
      rw [hsame]
      exact .nil s
  | cons c data ih =>
      rw [List.length_cons] at hroom
      have hstore : s.buf.length < stdoutBuflen - 1 := by omega
      have hput : StdoutStep s (.put t c)
          ((s.setBuf (s.store c)).setWriter t (.holds data)) :=
        ⟨data, hholds, .inl hstore, rfl⟩
      have hrest := @ih ((s.setBuf (s.store c)).setWriter t (.holds data))
        (by simp) (by simp [Stdout.store, hstore]; omega)
      have hbuf : s.store c ++ data = s.buf ++ c :: data := by
        simp [Stdout.store, hstore]
      simp only [Stdout.setWriter_buf, Stdout.setBuf_buf, hbuf] at hrest
      have hstate : (((s.setBuf (s.store c)).setWriter t (.holds data)).setBuf
          (s.buf ++ c :: data)).setWriter t (.holds []) =
            (s.setBuf (s.buf ++ c :: data)).setWriter t (.holds []) := by
        simp [Stdout.setBuf, Stdout.setWriter]
      rw [hstate] at hrest
      exact .cons hput hrest

/-- What happens when task 1 writes `data` and the host then fetches. -/
def writeAndFetch (data : List UInt8) (wLength : ℕ) : List StdoutEvent :=
  .call 1 data :: .take 1 ::
    (data.map (.put 1) ++ [.finish 1, .fetch wLength data])

theorem run_writeAndFetch {data : List UInt8} {wLength : ℕ}
    (hroom : data.length < stdoutBuflen)
    (hwLength : wLength = 512 ∨ wLength = 0x1000) :
    Run StdoutStep .quiet (writeAndFetch data wLength) .quiet := by
  let s₁ := Stdout.quiet.setWriter 1 (.wants data)
  let s₂ := (s₁.setOwner (some 1)).setWriter 1 (.holds data)
  let s₃ := (s₂.setBuf (s₂.buf ++ data)).setWriter 1 (.holds [])
  let s₄ := (s₃.setOwner none).setWriter 1 .idle
  have hcall : StdoutStep .quiet (.call 1 data) s₁ := ⟨rfl, rfl, rfl⟩
  have htake : StdoutStep s₁ (.take 1) s₂ := ⟨data, by simp [s₁], rfl, rfl⟩
  have hputs : Run StdoutStep s₂ (data.map (.put 1)) s₃ :=
    run_puts data (by simp [s₂]) (by simpa [s₂, s₁, Stdout.quiet] using hroom)
  have hfinish : StdoutStep s₃ (.finish 1) s₄ := ⟨by simp [s₃], rfl⟩
  have hstate : s₄.setBuf [] = .quiet := by
    simp [s₄, s₃, s₂, s₁, Stdout.setBuf, Stdout.setOwner, Stdout.setWriter,
      Stdout.quiet]
  have hfetch : StdoutStep s₄ (.fetch wLength data) .quiet :=
    ⟨rfl, hwLength, by simp [s₄, s₃, s₂, s₁, Stdout.quiet], hstate.symm⟩
  exact .cons hcall (.cons htake (hputs.append (.cons hfinish (.single hfetch))))

/-- Of 513 characters the host gets 512, and none is left in the buffer. -/
theorem fetch_drops_first :
    Run StdoutStep .quiet (writeAndFetch (List.replicate 513 97) 512) .quiet ∧
      (writeAndFetch (List.replicate 513 97) 512).flatMap returned ++
          Stdout.quiet.buf ≠
        Stdout.quiet.buf ++
          (writeAndFetch (List.replicate 513 97) 512).flatMap written := by
  constructor
  · have hroom : (List.replicate 513 (97 : UInt8)).length < stdoutBuflen := by
      rw [List.length_replicate]
      decide
    exact run_writeAndFetch hroom (.inl rfl)
  · decide +kernel

theorem stdout_delivers_short :
    ((writeAndFetch [97] 512).flatMap returned ++ Stdout.quiet.buf =
        Stdout.quiet.buf ++ (writeAndFetch [97] 512).flatMap written ∧
      ∀ t, (Stdout.quiet.writer t).pending ++
          (writeAndFetch [97] 512).flatMap (calledBy t) =
        (writeAndFetch [97] 512).flatMap (writtenBy t) ++
          (Stdout.quiet.writer t).pending) := by
  apply (stdout_delivers_iff (run_writeAndFetch (by decide) (.inl rfl)) rfl
    ?_).mpr
  · simp [writeAndFetch, Fits]
  · simp [writeAndFetch, StaysBlocking]

end PongoOS
