import PongoOS.Support.Run
import PongoOS.Usb.Control

/-!
# The buffers of KTRW

Two arrays serve as queues of bytes.  The first holds what is to be sent: a
transfer sends the bytes at its front while more are appended behind them, and
when it is done the rest moves to the front and is sent next.  The second holds
what was received until somebody reads it.
-/

namespace PongoOS

/-! ## State -/

/-- `bus` is the data of the transfer that was started on EP1 and is not done. -/
structure Ktrw where
  sendData : ByteMemory
  sendCount : ℕ
  sendInFlight : ℕ
  recvData : ByteMemory
  recvCount : ℕ
  bus : Option (List UInt8)

/-- The size of `ktrw_send_data` and of `ktrw_recv_data`. -/
def ktrwDataSize : ℕ := 0x1000

namespace Ktrw

/-- The bytes of `ktrw_send_data` that count. -/
def sendBuffer (k : Ktrw) : List UInt8 := k.sendData.bytesAt 0 k.sendCount

/-- The bytes of `ktrw_recv_data` that count. -/
def recvBuffer (k : Ktrw) : List UInt8 := k.recvData.bytesAt 0 k.recvCount

/-! ## Sending -/

/-- `usb_in_transfer` on EP1. -/
def usbInTransfer (data : List UInt8) (k : Ktrw) : Outcome Ktrw := do
  bugIf (k.bus ≠ none) "0x636220736574"
  pure { k with bus := some data }

/-- The room for `size` bytes behind `count` of them. -/
def writeSize (count size : ℕ) : ℕ :=
  let room := sub64 ktrwDataSize count
  if size < room then size else room

/-- Returns how much is written. -/
def usbWrite (data : List UInt8) (k : Ktrw) : ℕ × Ktrw :=
  let n := writeSize k.sendCount data.length
  (n, { k with
    sendData := k.sendData.write k.sendCount (data.take n)
    sendCount := (k.sendCount + n) % 2 ^ 16 })

def usbWriteCommit (k : Ktrw) : Outcome Ktrw :=
  if 0 < k.sendCount ∧ k.sendInFlight = 0 then
    let k := { k with sendInFlight := k.sendCount }
    k.usbInTransfer (k.sendData.bytesAt 0 k.sendCount)
  else pure k

def ktrwSendDone (k : Ktrw) : Outcome Ktrw := do
  bugIf (k.sendCount < k.sendInFlight) "0x6966203e207363"
  let left := k.sendCount - k.sendInFlight
  let k := { k with
    sendData := k.sendData.write 0 (k.sendData.bytesAt k.sendInFlight left)
    sendCount := left
    sendInFlight := left }
  if 0 < left then k.usbInTransfer (k.sendData.bytesAt 0 left) else pure k

/-! ## Receiving -/

def ktrwRecvDone (data : List UInt8) (k : Ktrw) : Bool × Ktrw :=
  let copySize := sub64 ktrwDataSize k.recvCount % 2 ^ 16
  if copySize < data.length then (false, k)
  else
    let copySize := if data.length < copySize then data.length else copySize
    (true, { k with
      recvData := k.recvData.write k.recvCount (data.take copySize)
      recvCount := (k.recvCount + copySize) % 2 ^ 16 })

/-- Returns what is read. -/
def usbRead (size : ℕ) (k : Ktrw) : List UInt8 × Ktrw :=
  let readSize := if size < k.recvCount then size else k.recvCount
  let recvLeft := k.recvCount - readSize
  (k.recvData.bytesAt 0 readSize, { k with
    recvData := k.recvData.write 0 (k.recvData.bytesAt readSize recvLeft)
    recvCount := recvLeft % 2 ^ 16 })

end Ktrw

/-! ## Calls -/

/-- `sendDone` ends the transfer on EP1. -/
inductive KtrwCall where
  | usbWrite (data : List UInt8)
  | usbWriteCommit
  | sendDone
  | recvDone (data : List UInt8)
  | usbRead (size : ℕ)

/-- A call with what it returns.  For `sendDone` that is the data of the
transfer that has ended. -/
inductive KtrwEvent where
  | usbWrite (data : List UInt8) (written : ℕ)
  | usbWriteCommit
  | sendDone (sent : List UInt8)
  | recvDone (data : List UInt8) (taken : Bool)
  | usbRead (size : ℕ) (read : List UInt8)

namespace KtrwEvent

def call : KtrwEvent → KtrwCall
  | usbWrite data _ => .usbWrite data
  | usbWriteCommit => .usbWriteCommit
  | sendDone _ => .sendDone
  | recvDone data _ => .recvDone data
  | usbRead size _ => .usbRead size

/-- The bytes that `usb_write` took. -/
def accepted : KtrwEvent → List UInt8
  | usbWrite data written => data.take written
  | _ => []

/-- The bytes that a transfer has sent. -/
def transmitted : KtrwEvent → List UInt8
  | sendDone sent => sent
  | _ => []

/-- The bytes that `ktrw_recv_done` took. -/
def received : KtrwEvent → List UInt8
  | recvDone data true => data
  | _ => []

/-- The bytes that `usb_read` returned. -/
def returned : KtrwEvent → List UInt8
  | usbRead _ read => read
  | _ => []

end KtrwEvent

/-- The transfer on EP1 is over when its callback is called. -/
def KtrwStep (k : Ktrw) (e : KtrwEvent) (k' : Ktrw) : Prop :=
  match e with
  | .usbWrite data written => k.usbWrite data = (written, k')
  | .usbWriteCommit => k.usbWriteCommit = .ok k'
  | .sendDone sent =>
      k.bus.getD [] = sent ∧ { k with bus := none }.ktrwSendDone = .ok k'
  | .recvDone data taken => k.ktrwRecvDone data = (taken, k')
  | .usbRead size read => k.usbRead size = (read, k')

/-! ## The counters -/

/-- The counters are consistent, and the transfer sends what is at the front. -/
structure Ktrw.Wf (k : Ktrw) : Prop where
  send_le : k.sendCount ≤ ktrwDataSize
  inFlight_le : k.sendInFlight ≤ k.sendCount
  bus : k.bus = if k.sendInFlight = 0 then none
    else some (k.sendBuffer.take k.sendInFlight)
  recv_le : k.recvCount ≤ ktrwDataSize

namespace Ktrw.Wf

variable {k : Ktrw} {data : List UInt8} {size : ℕ}

theorem writeSize_eq {count : ℕ} (h : count ≤ ktrwDataSize) :
    writeSize count size = min size (ktrwDataSize - count) := by
  have hroom : sub64 ktrwDataSize count = ktrwDataSize - count :=
    sub64_of_le h (by decide)
  unfold writeSize
  rw [hroom]
  dsimp only
  split <;> omega

theorem mod_count {n : ℕ} (h : n ≤ ktrwDataSize) : n % 2 ^ 16 = n := by
  unfold ktrwDataSize at h
  exact Nat.mod_eq_of_lt (by omega)

theorem bytesAt_write_count {m : ByteMemory} {count n : ℕ}
    (hlength : data.length = n) :
    (m.write count data).bytesAt 0 (count + n) = m.bytesAt 0 count ++ data := by
  have hbehind : (m.write (0 + count) data).bytesAt 0 (count + data.length) =
      m.bytesAt 0 count ++ data := ByteMemory.bytesAt_write_behind
  rwa [Nat.zero_add, hlength] at hbehind

/-- What is written is appended. -/
theorem usbWrite (h : k.Wf) (data : List UInt8) :
    (k.usbWrite data).2.Wf ∧
      (k.usbWrite data).1 = min data.length (ktrwDataSize - k.sendCount) ∧
      (k.usbWrite data).2.sendBuffer =
        k.sendBuffer ++ data.take (k.usbWrite data).1 := by
  have hn : writeSize k.sendCount data.length =
      min data.length (ktrwDataSize - k.sendCount) := writeSize_eq h.send_le
  have hlength : (data.take (writeSize k.sendCount data.length)).length =
      writeSize k.sendCount data.length := by
    rw [List.length_take, hn]
    omega
  have hsum : k.sendCount + writeSize k.sendCount data.length ≤
      ktrwDataSize := by
    have hle := h.send_le
    omega
  have hbuffer : (k.usbWrite data).2.sendBuffer =
      k.sendBuffer ++ data.take (k.usbWrite data).1 := by
    unfold sendBuffer Ktrw.usbWrite
    dsimp only
    rw [mod_count hsum]
    exact bytesAt_write_count hlength
  refine ⟨⟨?_, ?_, ?_, h.recv_le⟩, hn, hbuffer⟩
  · exact Nat.le_trans (Nat.mod_le _ _) hsum
  · show k.sendInFlight ≤ (k.sendCount + _) % 2 ^ 16
    rw [mod_count hsum]
    exact Nat.le_trans h.inFlight_le (Nat.le_add_right _ _)
  · rw [hbuffer, List.take_append_of_le_length]
    · exact h.bus
    · rw [sendBuffer, ByteMemory.length_bytesAt]
      exact h.inFlight_le

theorem usbInTransfer_idle (hbus : k.bus = none) :
    k.usbInTransfer data = .ok { k with bus := some data } := by
  unfold usbInTransfer
  rw [bugIf_of_not (not_not.mpr hbus), Outcome.ok_bind]
  rfl

theorem bus_eq_none (h : k.Wf) : k.bus = none ↔ k.sendInFlight = 0 := by
  rw [h.bus]
  split
  · rename_i hzero
    exact iff_of_true rfl hzero
  · rename_i hpos
    exact iff_of_false (by simp) hpos

/-- A transfer of all that is in the buffer is started if none is in
progress. -/
theorem usbWriteCommit (h : k.Wf) :
    ∃ k', k.usbWriteCommit = .ok k' ∧ k'.Wf ∧
      k'.sendBuffer = k.sendBuffer ∧ k'.recvBuffer = k.recvBuffer ∧
      k'.bus = if k.bus = none ∧ k.sendBuffer ≠ [] then some k.sendBuffer
        else k.bus := by
  have hiff : (0 < k.sendCount ∧ k.sendInFlight = 0) ↔
      (k.bus = none ∧ k.sendBuffer ≠ []) := by
    rw [h.bus_eq_none, ← List.length_pos_iff, sendBuffer,
      ByteMemory.length_bytesAt, and_comm]
  unfold Ktrw.usbWriteCommit
  split
  · rename_i hstart
    refine ⟨_, usbInTransfer_idle (h.bus_eq_none.mpr hstart.2),
      ⟨h.send_le, le_rfl, ?_, h.recv_le⟩, rfl, rfl,
      (if_pos (hiff.mp hstart)).symm⟩
    dsimp only
    rw [if_neg (Nat.pos_iff_ne_zero.mp hstart.1)]
    exact congrArg some (ByteMemory.take_bytesAt le_rfl).symm
  · rename_i hstart
    exact ⟨k, rfl, h, rfl, rfl, (if_neg fun hbus => hstart (hiff.mpr hbus)).symm⟩

theorem bus_getD (h : k.Wf) :
    k.bus.getD [] = k.sendBuffer.take k.sendInFlight := by
  rw [h.bus]
  split
  · rename_i hzero
    rw [hzero, List.take_zero]
    rfl
  · rfl

/-- What was sent is at the front, and the rest is sent next. -/
theorem ktrwSendDone (h : k.Wf) :
    ∃ k', { k with bus := none }.ktrwSendDone = .ok k' ∧ k'.Wf ∧
      k'.sendBuffer = k.sendBuffer.drop k.sendInFlight ∧
      k'.recvBuffer = k.recvBuffer ∧
      k'.bus = if k'.sendBuffer = [] then none else some k'.sendBuffer := by
  have hle := h.inFlight_le
  have hsend : k.sendCount - k.sendInFlight ≤ ktrwDataSize :=
    Nat.le_trans (Nat.sub_le _ _) h.send_le
  have hbuffer : (k.sendData.write 0 (k.sendData.bytesAt k.sendInFlight
      (k.sendCount - k.sendInFlight))).bytesAt 0
        (k.sendCount - k.sendInFlight) =
      k.sendBuffer.drop k.sendInFlight := by
    rw [ByteMemory.bytesAt_write_bytesAt, sendBuffer,
      ByteMemory.drop_bytesAt hle, Nat.zero_add]
  have hlength : (k.sendBuffer.drop k.sendInFlight).length =
      k.sendCount - k.sendInFlight := by
    rw [List.length_drop, sendBuffer, ByteMemory.length_bytesAt]
  unfold Ktrw.ktrwSendDone
  dsimp only
  rw [bugIf_of_not (Nat.not_lt.mpr hle), Outcome.ok_bind]
  by_cases hleft : 0 < k.sendCount - k.sendInFlight
  · have hrest : k.sendBuffer.drop k.sendInFlight ≠ [] :=
      List.length_pos_iff.mp (hlength ▸ hleft)
    rw [if_pos hleft]
    refine ⟨_, usbInTransfer_idle rfl, ⟨hsend, le_rfl, ?_, h.recv_le⟩, hbuffer,
      rfl, ?_⟩
    · rw [if_neg (Nat.pos_iff_ne_zero.mp hleft)]
      exact congrArg some (ByteMemory.take_bytesAt le_rfl).symm
    · exact (if_neg fun hnil => hrest (hbuffer.symm.trans hnil)).symm
  · have hrest : k.sendBuffer.drop k.sendInFlight = [] :=
      List.length_eq_zero_iff.mp (hlength ▸ Nat.eq_zero_of_not_pos hleft)
    rw [if_neg hleft]
    refine ⟨_, rfl, ⟨hsend, le_rfl, ?_, h.recv_le⟩, hbuffer, rfl, ?_⟩
    · exact (if_pos (Nat.eq_zero_of_not_pos hleft)).symm
    · exact (if_pos (hbuffer.trans hrest)).symm

/-- What was received is appended if there is room for it. -/
theorem ktrwRecvDone (h : k.Wf) (data : List UInt8) :
    (k.ktrwRecvDone data).2.Wf ∧
      (k.ktrwRecvDone data).1 =
        decide (data.length ≤ ktrwDataSize - k.recvCount) ∧
      (k.ktrwRecvDone data).2.sendBuffer = k.sendBuffer ∧
      (k.ktrwRecvDone data).2.recvBuffer =
        k.recvBuffer ++ if (k.ktrwRecvDone data).1 then data else [] := by
  have hroom : sub64 ktrwDataSize k.recvCount % 2 ^ 16 =
      ktrwDataSize - k.recvCount := by
    rw [sub64_of_le h.recv_le (by decide), mod_count (Nat.sub_le _ _)]
  unfold Ktrw.ktrwRecvDone
  rw [hroom]
  dsimp only
  by_cases hfits : ktrwDataSize - k.recvCount < data.length
  · rw [if_pos hfits]
    refine ⟨h, (decide_eq_false (Nat.not_le.mpr hfits)).symm, rfl, ?_⟩
    exact (List.append_nil _).symm
  rw [if_neg hfits]
  have hcopy : (if data.length < ktrwDataSize - k.recvCount then data.length
      else ktrwDataSize - k.recvCount) = data.length := by
    split <;> omega
  have hsum : k.recvCount + data.length ≤ ktrwDataSize := by
    have hle := h.recv_le
    omega
  rw [hcopy, List.take_length]
  refine ⟨⟨h.send_le, h.inFlight_le, h.bus, ?_⟩,
    (decide_eq_true (Nat.not_lt.mp hfits)).symm, rfl, ?_⟩
  · exact Nat.le_trans (Nat.mod_le _ _) hsum
  · unfold recvBuffer
    dsimp only
    rw [mod_count hsum]
    exact bytesAt_write_count rfl

/-- What is read is at the front. -/
theorem usbRead (h : k.Wf) (size : ℕ) :
    (k.usbRead size).2.Wf ∧
      (k.usbRead size).1.length = min size k.recvCount ∧
      k.recvBuffer = (k.usbRead size).1 ++ (k.usbRead size).2.recvBuffer := by
  unfold Ktrw.usbRead
  have hmin : (if size < k.recvCount then size else k.recvCount) =
      min size k.recvCount := by
    split <;> omega
  have hle : min size k.recvCount ≤ k.recvCount := Nat.min_le_right _ _
  dsimp only
  rw [hmin]
  generalize min size k.recvCount = n at *
  have hrecv : k.recvCount - n ≤ ktrwDataSize :=
    Nat.le_trans (Nat.sub_le _ _) h.recv_le
  refine ⟨⟨h.send_le, h.inFlight_le, h.bus, ?_⟩, ByteMemory.length_bytesAt, ?_⟩
  · exact Nat.le_trans (Nat.mod_le _ _) hrecv
  · unfold recvBuffer
    dsimp only
    rw [mod_count hrecv, ByteMemory.bytesAt_write_bytesAt,
      ← ByteMemory.take_bytesAt hle]
    have hdrop := ByteMemory.drop_bytesAt (m := k.recvData) (a := 0) hle
    rw [Nat.zero_add] at hdrop
    rw [← hdrop, List.take_append_drop]

end Ktrw.Wf

/-! ## Steps -/

/-- What a call is for: `usb_write` takes what there is room for, and starts no
transfer; `usb_write_commit` starts one of all that is in the buffer, unless one
is in progress; when it is done, one of the rest is started; and `usb_read`
returns as much as is there. -/
def KtrwEvent.Serves (k : Ktrw) (e : KtrwEvent) (k' : Ktrw) : Prop :=
  match e with
  | .usbWrite data written =>
      written = min data.length (ktrwDataSize - k.sendCount) ∧ k'.bus = k.bus
  | .usbWriteCommit =>
      k'.bus = if k.bus = none ∧ k.sendBuffer ≠ [] then some k.sendBuffer
        else k.bus
  | .sendDone _ =>
      k'.bus = if k'.sendBuffer = [] then none else some k'.sendBuffer
  | .recvDone data taken =>
      taken = decide (data.length ≤ ktrwDataSize - k.recvCount) ∧
        k'.bus = k.bus
  | .usbRead size read =>
      read.length = min size k.recvCount ∧ k'.bus = k.bus

/-- What a step does to the queues. -/
structure KtrwMoves (k : Ktrw) (e : KtrwEvent) (k' : Ktrw) : Prop where
  wf : k'.Wf
  sent : k.sendBuffer ++ e.accepted = e.transmitted ++ k'.sendBuffer
  read : k.recvBuffer ++ e.received = e.returned ++ k'.recvBuffer
  serves : e.Serves k k'

section Steps

variable {k k' : Ktrw} {e : KtrwEvent} {es : List KtrwEvent}

theorem ktrwMoves_of_step (h : k.Wf) (hstep : KtrwStep k e k') :
    KtrwMoves k e k' := by
  cases e with
  | usbWrite data written =>
      obtain ⟨hwf, hn, hbuffer⟩ := h.usbWrite data
      have hbus : (k.usbWrite data).2.bus = k.bus := rfl
      have hrecv : (k.usbWrite data).2.recvBuffer = k.recvBuffer := rfl
      rw [show k.usbWrite data = (written, k') from hstep] at hwf hn hbuffer hbus hrecv
      exact ⟨hwf, hbuffer.symm, (List.append_nil _).trans hrecv.symm, hn, hbus⟩
  | usbWriteCommit =>
      obtain ⟨k₁, hok, hwf, hsend, hrecv, hbus⟩ := h.usbWriteCommit
      cases hok.symm.trans hstep
      exact ⟨hwf, (List.append_nil _).trans hsend.symm,
        (List.append_nil _).trans hrecv.symm, hbus⟩
  | sendDone sent =>
      obtain ⟨hsent, hstep⟩ := hstep
      obtain ⟨k₁, hok, hwf, hsend, hrecv, hbus⟩ := h.ktrwSendDone
      cases hok.symm.trans hstep
      refine ⟨hwf, ?_, (List.append_nil _).trans hrecv.symm, hbus⟩
      rw [hsend, KtrwEvent.transmitted, ← hsent, h.bus_getD,
        List.take_append_drop]
      exact List.append_nil _
  | recvDone data taken =>
      obtain ⟨hwf, htaken, hsend, hbuffer⟩ := h.ktrwRecvDone data
      have hbus : (k.ktrwRecvDone data).2.bus = k.bus := by
        unfold Ktrw.ktrwRecvDone
        dsimp only
        split <;> rfl
      have hcall : k.ktrwRecvDone data = (taken, k') := hstep
      rw [hcall] at hwf htaken hsend hbuffer hbus
      refine ⟨hwf, (List.append_nil _).trans hsend.symm, ?_, htaken, hbus⟩
      cases taken with
      | true => exact hbuffer.symm
      | false => exact hbuffer.symm
  | usbRead size read =>
      obtain ⟨hwf, hlength, hbuffer⟩ := h.usbRead size
      have hbus : (k.usbRead size).2.bus = k.bus := rfl
      have hsend : (k.usbRead size).2.sendBuffer = k.sendBuffer := rfl
      rw [show k.usbRead size = (read, k') from hstep] at hwf hlength hbuffer hbus hsend
      exact ⟨hwf, (List.append_nil _).trans hsend.symm,
        (List.append_nil _).trans hbuffer, hlength, hbus⟩

/-- No call reaches `BUG`. -/
theorem exists_ktrwStep (h : k.Wf) (call : KtrwCall) :
    ∃ e k', e.call = call ∧ KtrwStep k e k' := by
  cases call with
  | usbWrite data =>
      exact ⟨.usbWrite data (k.usbWrite data).1, (k.usbWrite data).2, rfl, rfl⟩
  | usbWriteCommit =>
      obtain ⟨k', hok, -⟩ := h.usbWriteCommit
      exact ⟨.usbWriteCommit, k', rfl, hok⟩
  | sendDone =>
      obtain ⟨k', hok, -⟩ := h.ktrwSendDone
      exact ⟨.sendDone (k.bus.getD []), k', rfl, rfl, hok⟩
  | recvDone data =>
      exact ⟨.recvDone data (k.ktrwRecvDone data).1, (k.ktrwRecvDone data).2,
        rfl, rfl⟩
  | usbRead size =>
      exact ⟨.usbRead size (k.usbRead size).1, (k.usbRead size).2, rfl, rfl⟩

/-! ## Runs -/

/-- What went in has come out, but for what is in the buffers. -/
structure KtrwBalance (es : List KtrwEvent) (k : Ktrw) : Prop where
  wf : k.Wf
  sent : es.flatMap KtrwEvent.accepted =
    es.flatMap KtrwEvent.transmitted ++ k.sendBuffer
  read : es.flatMap KtrwEvent.received =
    es.flatMap KtrwEvent.returned ++ k.recvBuffer

theorem KtrwBalance.step (h : KtrwBalance es k) (hstep : KtrwStep k e k') :
    KtrwBalance (es ++ [e]) k' := by
  obtain ⟨hwf, hsent, hread, -⟩ := ktrwMoves_of_step h.wf hstep
  constructor
  case wf => exact hwf
  all_goals
    simp only [List.flatMap_append, List.flatMap_singleton]
  case sent => rw [h.sent, List.append_assoc, hsent, List.append_assoc]
  case read => rw [h.read, List.append_assoc, hread, List.append_assoc]

/-- The buffers before anything was sent or received. -/
def emptyKtrw : Ktrw where
  sendData := fun _ => 0
  sendCount := 0
  sendInFlight := 0
  recvData := fun _ => 0
  recvCount := 0
  bus := none

theorem KtrwBalance.run {es₀ : List KtrwEvent} (h : KtrwBalance es₀ k)
    (hrun : Run KtrwStep k es k') : KtrwBalance (es₀ ++ es) k' := by
  induction hrun generalizing es₀ with
  | nil k => rwa [List.append_nil]
  | cons hstep _ ih =>
      rw [List.append_cons]
      exact ih (h.step hstep)

/-- After any calls in any order, each call returns and does what it is for.
What was transmitted is a prefix of what was accepted, and what was returned of
what was received; the rest is in the buffers, and what is being sent is at the
front. -/
theorem ktrw_queues (hrun : Run KtrwStep emptyKtrw es k) :
    (es.flatMap KtrwEvent.accepted =
        es.flatMap KtrwEvent.transmitted ++ k.sendBuffer ∧
      k.bus.getD [] = k.sendBuffer.take k.sendInFlight ∧
      k.sendCount ≤ ktrwDataSize ∧ k.sendInFlight ≤ k.sendCount ∧
      es.flatMap KtrwEvent.received =
        es.flatMap KtrwEvent.returned ++ k.recvBuffer ∧
      k.recvCount ≤ ktrwDataSize) ∧
    (∀ call, ∃ e k', e.call = call ∧ KtrwStep k e k') ∧
    ∀ e k', KtrwStep k e k' → e.Serves k k' := by
  have hstart : KtrwBalance [] emptyKtrw :=
    ⟨⟨by decide, le_rfl, rfl, by decide⟩, rfl, rfl⟩
  have h : KtrwBalance es k := hstart.run hrun
  refine ⟨⟨h.sent, h.wf.bus_getD, h.wf.send_le, h.wf.inFlight_le, h.read,
    h.wf.recv_le⟩, fun call => exists_ktrwStep h.wf call, fun e k' hstep => ?_⟩
  exact (ktrwMoves_of_step h.wf hstep).serves

end Steps

/-- Two writes with a transfer of the first, and a read of half of what was
received. -/
theorem ktrw_queues_sample : ∃ k, Run KtrwStep emptyKtrw
      [.usbWrite [1, 2, 3] 3, .usbWriteCommit, .usbWrite [4] 1,
        .sendDone [1, 2, 3], .recvDone [5, 6] true, .usbRead 1 [5]] k ∧
    [1, 2, 3, 4] = [1, 2, 3] ++ k.sendBuffer ∧ k.bus = some [4] ∧
    [5, 6] = [5] ++ k.recvBuffer ∧
    ∀ call, ∃ e k', e.call = call ∧ KtrwStep k e k' := by
  have hcalls : (do
      let k₂ ← (emptyKtrw.usbWrite [1, 2, 3]).2.usbWriteCommit
      let k₄ ← { (k₂.usbWrite [4]).2 with bus := none }.ktrwSendDone
      pure (k₂, k₄) : Outcome (Ktrw × Ktrw)).toOption.map (fun (k₂, k₄) =>
        ((emptyKtrw.usbWrite [1, 2, 3]).1 = 3 ∧ (k₂.usbWrite [4]).1 = 1 ∧
          (k₂.usbWrite [4]).2.bus = some [1, 2, 3] ∧
          (k₄.ktrwRecvDone [5, 6]).1 = true ∧
          ((k₄.ktrwRecvDone [5, 6]).2.usbRead 1).1 = [5] ∧
          ((k₄.ktrwRecvDone [5, 6]).2.usbRead 1).2.bus = some [4] : Bool)) =
        some true := by
    decide +kernel
  obtain ⟨⟨_, _⟩, hok, hfacts⟩ := Outcome.ok_of_map hcalls
  simp only [Outcome.bind_eq_ok, Outcome.pure_eq_ok, Prod.mk.injEq] at hok
  obtain ⟨k₂, hcommit, k₄, hdone, rfl, rfl⟩ := hok
  simp only [decide_eq_true_eq] at hfacts
  obtain ⟨hfirst, hsecond, hsent, htaken, hread, hbus⟩ := hfacts
  have hrun : Run KtrwStep emptyKtrw
      [.usbWrite [1, 2, 3] 3, .usbWriteCommit, .usbWrite [4] 1,
        .sendDone [1, 2, 3], .recvDone [5, 6] true, .usbRead 1 [5]]
      ((k₄.ktrwRecvDone [5, 6]).2.usbRead 1).2 :=
    .cons (Prod.ext hfirst rfl) (.cons hcommit (.cons (Prod.ext hsecond rfl)
      (.cons ⟨congrArg (Option.getD · []) hsent, hdone⟩
        (.cons (Prod.ext htaken rfl) (.single (Prod.ext hread rfl))))))
  obtain ⟨⟨hout, -, -, -, hin, -⟩, hreturns, -⟩ := ktrw_queues hrun
  exact ⟨_, hrun, hout, hbus, hin, hreturns⟩

/-! ## In the driver -/

/-- The driver keeps the bytes that count. -/
theorem Ktrw.ktrwRecvDone_usb {k : Ktrw} {s : Usb} (h : k.Wf)
    (hrecv : s.ktrwRecv = k.recvBuffer) (data : List UInt8) :
    (s.ktrwRecvDone data).1 = (k.ktrwRecvDone data).1 ∧
      (s.ktrwRecvDone data).2.ktrwRecv =
        (k.ktrwRecvDone data).2.recvBuffer := by
  obtain ⟨-, htaken, -, hbuffer⟩ := h.ktrwRecvDone data
  have hlength : s.ktrwRecv.length = k.recvCount := by
    rw [hrecv, recvBuffer, ByteMemory.length_bytesAt]
  rw [hbuffer, htaken]
  unfold Usb.ktrwRecvDone
  rw [hlength]
  by_cases hfits : 0x1000 - k.recvCount < data.length
  · rw [if_pos hfits, if_neg, List.append_nil]
    · exact ⟨(decide_eq_false (Nat.not_le.mpr hfits)).symm, hrecv⟩
    · rw [decide_eq_true_iff]
      exact Nat.not_le.mpr hfits
  · rw [if_neg hfits, if_pos]
    · exact ⟨(decide_eq_true (Nat.not_lt.mp hfits)).symm,
        congrArg (· ++ data) hrecv⟩
    · exact decide_eq_true (Nat.not_lt.mp hfits)

end PongoOS
