import PongoOS.Usb.UploadSafety
import Mathlib.Data.List.Basic

/-!
# Control transfers to the host

The answer to a request is sent from the DMA buffer of EP0 IN, one packet for each
completion.  When all of it has been sent, the driver expects the empty packet of
the STATUS OUT stage.
-/

namespace PongoOS

/-! ## Lists in pieces of one size -/

section Chunks

variable {α : Type} {n : ℕ} {xs : List α}

end Chunks

/-! ## One packet -/

namespace EndpointState

/-- How much of the transfer the next packet of EP0 takes. -/
def packetSize (ep : EndpointState) : ℕ :=
  if ep.transferSize = transferZlp then 0
  else min (ep.transferSize - ep.transferred) ep0MaxPacketSize

/-- EP0 IN has a packet to send, from the start of the DMA buffer on. -/
structure CanSend (dmaPage : ℕ) (ep : EndpointState) : Prop where
  info : ep.info = epInfo dmaPage .ep0In
  xferDma : ep.xferDma = (epInfo dmaPage .ep0In).defaultXferDma
  idle : ep.inFlight = 0
  aligned : ep.transferred % ep0MaxPacketSize = 0
  transferred_lt : ep.transferred < dmaBufferSize
  remains : ep.transferSize = transferZlp ∨
    ep.transferred < ep.transferSize ∧ ep.transferSize ≤ dmaBufferSize ∧
      ep.transferData = ep.xferDma.data

variable {dmaPage : ℕ} {ep : EndpointState}

theorem CanSend.inXferSize (h : ep.CanSend dmaPage) (n : ℕ) :
    ep.inXferSize n = (ep.packetSize, 1) := by
  have htype : ep.info.type = 0 := by rw [h.info]; rfl
  have hmps : ep.info.maxPacketSize = ep0MaxPacketSize := by rw [h.info]; rfl
  rw [EndpointState.inXferSize, packetSize]
  split
  · rfl
  · rename_i hzlp
    obtain ⟨hlt, hle, -⟩ := h.remains.resolve_left hzlp
    have hmax : ep.transferSize ≤ 4096 := hle
    rw [hmps, sub32_of_le (by omega) (by omega)]

theorem CanSend.computes (h : ep.CanSend dmaPage) :
    ep.epInSendComputeXfer = .ok ⟨ep.transferred, ep.packetSize, 1⟩ := by
  have hsize : ep.xferDma.size = 4096 := by rw [h.xferDma]; rfl
  have hlt : ep.transferred < 4096 := h.transferred_lt
  have haligned : ep.transferred % 64 = 0 := h.aligned
  have hmps : ep.info.maxPacketSize = 64 := by rw [h.info]; rfl
  have hpacket : ep.packetSize ≤ 64 := by
    unfold packetSize
    split
    · exact Nat.zero_le _
    · exact Nat.min_le_right _ _
  rw [epInSendComputeXfer]
  simp only [hsize, Nat.mod_eq_of_lt hlt, h.inXferSize, hmps]
  rw [sub32_of_le (by omega) (by omega), bugIf_of_not (by omega)]
  rfl

/-- On EP0 OUT one packet is received at a time. -/
theorem computes_ep0Out {off : ℕ} (hinfo : ep.info = epInfo dmaPage .ep0Out)
    (hsize : ep.xferDma.size = dmaBufferSize)
    (hoff : (if ep.xferDma.data = ep.transferData then ep.transferred else 0) =
      off) (hle : off + ep0MaxPacketSize ≤ dmaBufferSize) :
    ep.epOutRecvComputeXfer = .ok ⟨off, ep0MaxPacketSize, 1⟩ := by
  have hle' : off + 64 ≤ 4096 := hle
  have hxfer : ∀ n, ep.outXferSize n = (ep0MaxPacketSize, 1) := by
    intro n
    simp [outXferSize, hinfo, epInfo]
  rw [epOutRecvComputeXfer]
  simp only [hoff, hsize, hxfer]
  rw [bugIf_of_not (by unfold dmaBufferSize; omega), Outcome.ok_bind,
    sub32_of_le (by unfold dmaBufferSize; omega) (by decide),
    bugIf_of_not (by omega)]
  rfl

end EndpointState

namespace Controller

/-- The controller is programmed with the next packet. -/
@[simps!]
def programIn (s : Controller) : Controller :=
  let ep := s.endpoint .ep0In
  (s.arm .ep0In (ep.transferOf ⟨ep.transferred, ep.packetSize, 1⟩ true)).setEndpoint
    .ep0In { ep with inFlight := ep.packetSize }

variable {dmaPage : ℕ} {s s' : Controller}

theorem epInSend_ep0 (h : (s.endpoint .ep0In).CanSend dmaPage) :
    s.epInSend .ep0In = .ok s.programIn := by
  have hdir : (s.endpoint .ep0In).info.dirIn = true := by rw [h.info]; rfl
  have hfill : s.epInFill .ep0In ⟨(s.endpoint .ep0In).transferred,
      (s.endpoint .ep0In).packetSize, 1⟩ = .ok s := by
    simp only [epInFill]
    split
    · rename_i hpacket
      have hzlp : (s.endpoint .ep0In).transferSize ≠ transferZlp := by
        intro hzlp
        simp [EndpointState.packetSize, hzlp] at hpacket
      obtain ⟨-, -, hdata⟩ := h.remains.resolve_left hzlp
      rw [if_pos hdata.symm, bugIf_of_not hzlp]
      rfl
    · rfl
  have hmore : ¬ ((s.endpoint .ep0In).transferSize ≤
      (s.endpoint .ep0In).transferred ∧
        (s.endpoint .ep0In).transferSize ≠ transferZlp) := by
    rintro ⟨hle, hzlp⟩
    have hlt := (h.remains.resolve_left hzlp).1
    omega
  simp only [epInSend]
  rw [bugIf_of_not (by simp [hdir, h.idle]), Outcome.ok_bind, bugIf_of_not hmore,
    Outcome.ok_bind, h.computes, Outcome.ok_bind, hfill]
  rfl

section SendDone

variable {ep : EndpointState}
  (hinfo : (s.endpoint .ep0In).info = epInfo dmaPage .ep0In)
  (hep : epInSent (s.endpoint .ep0In) = ep)
include hinfo hep

theorem epInSendDone_more (hne : ep.transferred ≠ ep.transferSize)
    (hcan : ep.CanSend dmaPage) :
    s.epInSendDone .ep0In = .ok (false, (s.setEndpoint .ep0In ep).programIn) := by
  have hcan' : ((s.setEndpoint .ep0In ep).endpoint .ep0In).CanSend dmaPage := by
    simpa using hcan
  rw [epInSendDone, hinfo, bugIf_of_not (by simp [epInfo]), Outcome.ok_bind, hep]
  simp only [if_neg hne]
  rw [epInSend_ep0 hcan']
  rfl

theorem epInSendDone_done (heq : ep.transferred = ep.transferSize)
    (hshort : ¬ (0 < ep.transferSize ∧ ep.transferSize % ep0MaxPacketSize = 0)) :
    s.epInSendDone .ep0In = .ok (true, s.setEndpoint .ep0In ep) := by
  have hmps : ep.info.maxPacketSize = ep0MaxPacketSize := by
    rw [← hep, epInSent, hinfo]
    rfl
  rw [epInSendDone, hinfo, bugIf_of_not (by simp [epInfo]), Outcome.ok_bind, hep]
  simp only [if_pos heq, hmps, if_neg hshort]
  rfl

end SendDone

/-- EP0 OUT with an empty packet expected. -/
def statusOutEndpoint (ep : EndpointState) : EndpointState :=
  ep.begun ep.info.defaultXferDma ep.info.defaultXferDma.data 0 recvData

/-- The controller is programmed to receive the empty packet. -/
@[simps!]
def statusOut (s : Controller) : Controller :=
  let ep := statusOutEndpoint (s.endpoint .ep0Out)
  (s.setEndpoint .ep0Out ep).arm .ep0Out
    (ep.transferOf ⟨0, ep0MaxPacketSize, 1⟩ true)

theorem epOutRecvData_status
    (hinfo : (s.endpoint .ep0Out).info = epInfo dmaPage .ep0Out)
    (hidle : (s.endpoint .ep0Out).inFlight = 0) (hpage : 0 < dmaPage) :
    s.epOutRecvData .ep0Out (s.endpoint .ep0Out).info.defaultXferDma.data 0 =
      .ok (s.setEndpoint .ep0Out (statusOutEndpoint (s.endpoint .ep0Out))) := by
  have hdata : (dmaBuffer dmaPage 0).data ≠ 0 := by
    simp only [dmaBuffer]
    omega
  simp only [epOutRecvData, hinfo]
  rw [bugIf_of_not (by simp [hidle, hdata, epInfo]), Outcome.ok_bind]
  simp [epOutRecvDataCommon, hinfo, epInfo, statusOutEndpoint]

theorem epOutRecv_status
    (hinfo : (s.endpoint .ep0Out).info = epInfo dmaPage .ep0Out) :
    (s.setEndpoint .ep0Out (statusOutEndpoint (s.endpoint .ep0Out))).epOutRecv
        .ep0Out = .ok s.statusOut := by
  have hcompute : (statusOutEndpoint (s.endpoint .ep0Out)).epOutRecvComputeXfer =
      .ok ⟨0, ep0MaxPacketSize, 1⟩ := by
    refine EndpointState.computes_ep0Out hinfo ?_ (by simp [statusOutEndpoint])
      (by decide)
    rw [statusOutEndpoint, EndpointState.begun_xferDma, hinfo]
    rfl
  simp only [epOutRecv, setEndpoint_endpoint, Function.update_self]
  rw [bugIf_of_not (by simp [statusOutEndpoint, hinfo, epInfo]), Outcome.ok_bind,
    bugIf_of_not (by simp [statusOutEndpoint]), Outcome.ok_bind,
    bugIf_of_not (by simp [statusOutEndpoint]), Outcome.ok_bind]
  have hrecv : (statusOutEndpoint (s.endpoint .ep0Out)).inFlight = recvData := rfl
  simp only [hrecv, ne_eq, not_true_eq_false, if_false]
  rw [hcompute, Outcome.ok_bind, setEndpoint_setEndpoint]
  rfl

end Controller

theorem Usb.beginStatusOut_ok {dmaPage : ℕ} {s : Usb}
    (hinfo : (s.hw.endpoint .ep0Out).info = epInfo dmaPage .ep0Out)
    (hidle : (s.hw.endpoint .ep0Out).inFlight = 0) (hpage : 0 < dmaPage) :
    s.beginStatusOut = .ok (s.setHw s.hw.statusOut) := by
  simp only [beginStatusOut]
  rw [Controller.epOutRecvData_status hinfo hidle hpage, Outcome.ok_bind,
    Controller.epOutRecv_status hinfo]
  rfl

/-! ## Completions -/

/-- The bytes that the controller reads for `t`. -/
def Controller.packet (s : Controller) (t : Transfer) : List UInt8 :=
  s.mem.bytesAt (kCacheableView + t.dma) t.size

/-- The packet `p` is sent, and its completion is handled. -/
structure InStep (s : Usb) (p : List UInt8) (s' : Usb) : Prop where
  step : UsbStep s (.ep0In 1) s'
  packet : ∃ t, s.hw.armed .ep0In = some t ∧ p = s.hw.packet t

/-- How often data was expected on EP0 OUT. -/
def Usb.outArmings (s : Usb) : ℕ :=
  s.hw.armings.countP fun a => a.1 = .ep0Out ∧ a.2.cnak = true

theorem Usb.ep0InInterrupt_one (s : Usb) :
    s.ep0InInterrupt 1 = (do
      let (done, hw) ← s.hw.epInSendDone .ep0In
      if done then (s.setHw hw).ep0InSent else pure (s.setHw hw)) := by
  simp only [Usb.ep0InInterrupt]
  rw [if_pos (by decide), bugIf_of_not (by decide)]
  cases s.hw.epInSendDone .ep0In with
  | error e => rfl
  | ok r =>
      simp only [Outcome.ok_bind]
      cases hrest : (if r.1 = true then (s.setHw r.2).ep0InSent
        else pure (s.setHw r.2) : Outcome Usb) <;> rfl

/-- A request for data is being answered with `data`. -/
structure Answering (dmaPage : ℕ) (data : List UInt8) (s : Usb) : Prop where
  info : ∀ e, (s.hw.endpoint e).info = epInfo dmaPage e
  isIn : s.setupPacket.isIn = true
  length_le : data.length ≤ dmaBufferSize
  mem : s.hw.mem.Holds (epInfo dmaPage .ep0In).defaultXferDma.data data
  xferDma : (s.hw.endpoint .ep0In).xferDma =
    (epInfo dmaPage .ep0In).defaultXferDma
  transferData : (s.hw.endpoint .ep0In).transferData =
    (epInfo dmaPage .ep0In).defaultXferDma.data
  outIdle : (s.hw.endpoint .ep0Out).inFlight = 0
  armed : s.hw.armed .ep0In = some ((s.hw.endpoint .ep0In).transferOf
    ⟨(s.hw.endpoint .ep0In).transferred, (s.hw.endpoint .ep0In).inFlight, 1⟩ true)

/-- `sent` bytes have been sent, and the next packet is on its way. -/
structure Sending (dmaPage : ℕ) (data : List UInt8) (sent : ℕ) (s : Usb) : Prop
    extends Answering dmaPage data s where
  transferSize : (s.hw.endpoint .ep0In).transferSize = data.length
  transferred : (s.hw.endpoint .ep0In).transferred = sent
  inFlight : (s.hw.endpoint .ep0In).inFlight =
    min (data.length - sent) ep0MaxPacketSize
  sent_lt : sent < data.length
  aligned : sent % ep0MaxPacketSize = 0

/-- The empty packet is on its way. -/
structure SendingZlp (dmaPage : ℕ) (data : List UInt8) (s : Usb) : Prop
    extends Answering dmaPage data s where
  transferSize : (s.hw.endpoint .ep0In).transferSize = transferZlp
  transferred : (s.hw.endpoint .ep0In).transferred = 0
  inFlight : (s.hw.endpoint .ep0In).inFlight = 0

section Completions

variable {dmaPage sent : ℕ} {data : List UInt8} {s s' : Usb}

/-- The controller reads the DMA buffer of EP0 IN where the driver writes it. -/
theorem dmaBuffer_address {k off : ℕ} (h : InStaticMap dmaPage (4 * dmaBufferSize))
    (hk : k < 4) (hoff : off < dmaBufferSize) :
    kCacheableView + ((dmaBuffer dmaPage k).phys + off) % 2 ^ 32 =
      (dmaBuffer dmaPage k).data + off := by
  obtain ⟨hlow, hhigh⟩ := h
  unfold dmaBufferSize at *
  simp only [dmaBuffer, staticToPhys, dmaBufferSize]
  omega

/-- The packet that is on its way. -/
theorem Answering.packet (h : Answering dmaPage data s)
    (hpage : InStaticMap dmaPage (4 * dmaBufferSize))
    (hoff : (s.hw.endpoint .ep0In).transferred < dmaBufferSize)
    (hle : (s.hw.endpoint .ep0In).transferred + (s.hw.endpoint .ep0In).inFlight ≤
      data.length) :
    ∃ t, s.hw.armed .ep0In = some t ∧
      (data.drop (s.hw.endpoint .ep0In).transferred).take
        (s.hw.endpoint .ep0In).inFlight = s.hw.packet t := by
  refine ⟨_, h.armed, ?_⟩
  have haddr := dmaBuffer_address (k := 1) hpage (by decide) hoff
  rw [Controller.packet, EndpointState.transferOf, h.xferDma]
  simp only
  rw [show (epInfo dmaPage .ep0In).defaultXferDma = dmaBuffer dmaPage 1 from rfl,
    haddr]
  exact (h.mem.slice hle).symm

/-- What the completion of the packet does. -/
theorem Answering.inStep (h : Answering dmaPage data s)
    (hpage : InStaticMap dmaPage (4 * dmaBufferSize))
    (hoff : (s.hw.endpoint .ep0In).transferred < dmaBufferSize)
    (hle : (s.hw.endpoint .ep0In).transferred + (s.hw.endpoint .ep0In).inFlight ≤
      data.length)
    (hrun : (s.setHw (s.hw.disarm .ep0In)).ep0InInterrupt 1 = .ok s') :
    InStep s ((data.drop (s.hw.endpoint .ep0In).transferred).take
      (s.hw.endpoint .ep0In).inFlight) s' := by
  have hstep : UsbStep s (.ep0In 1) s' := by
    refine ⟨_, h.armed, ?_⟩
    rw [Controller.sent, if_pos (by decide)]
    exact hrun
  exact ⟨hstep, h.packet hpage hoff hle⟩

/-- What is left to do when a packet of the answer has been sent. -/
theorem Sending.epInSent (h : Sending dmaPage data sent s) :
    Controller.epInSent (s.hw.endpoint .ep0In) =
      { s.hw.endpoint .ep0In with
        transferred := sent + min (data.length - sent) ep0MaxPacketSize
        inFlight := 0 } := by
  have hle : data.length ≤ 4096 := h.length_le
  have hlt := h.sent_lt
  have hzlp : (s.hw.endpoint .ep0In).transferSize ≠ transferZlp := by
    rw [h.transferSize]
    unfold transferZlp
    omega
  rw [Controller.epInSent, if_neg hzlp, h.transferred, h.inFlight,
    Nat.mod_eq_of_lt (by omega)]

/-- The state after a completion from which the driver goes on sending. -/
theorem Answering.continues (h : Answering dmaPage data s) {ep : EndpointState}
    (hep : ep.CanSend dmaPage)
    (hdata : ep.transferData = (epInfo dmaPage .ep0In).defaultXferDma.data) :
    Answering dmaPage data
        (s.setHw (((s.hw.disarm .ep0In).setEndpoint .ep0In ep).programIn)) ∧
      (s.setHw (((s.hw.disarm .ep0In).setEndpoint .ep0In ep).programIn)).outArmings =
        s.outArmings := by
  constructor
  · refine ⟨fun e => ?_, h.isIn, h.length_le, h.mem, ?_, ?_, ?_, ?_⟩
    · cases e with
      | ep0In => simpa using hep.info
      | ep0Out => simpa using h.info .ep0Out
      | ep1In => simpa using h.info .ep1In
      | ep2Out => simpa using h.info .ep2Out
    · simpa using hep.xferDma
    · simpa using hdata
    · simpa using h.outIdle
    · simp [EndpointState.transferOf]
  · simp [Usb.outArmings, List.countP_append]

/-- The state after the last completion. -/
theorem Answering.finishes (h : Answering dmaPage data s) {ep : EndpointState}
    (hpage : 0 < dmaPage) (hep : Controller.epInSent (s.hw.endpoint .ep0In) = ep)
    (heq : ep.transferred = ep.transferSize)
    (hle : ep.transferSize ≤ dmaBufferSize)
    (hshort : ¬ (0 < ep.transferSize ∧ ep.transferSize % ep0MaxPacketSize = 0)) :
    ∃ s', (s.setHw (s.hw.disarm .ep0In)).ep0InInterrupt 1 = .ok s' ∧
      s'.hw.armed .ep0In = none ∧ s'.outArmings = s.outArmings + 1 ∧
      (s'.hw.endpoint .ep0Out).inFlight = recvData := by
  have hdone := Controller.epInSendDone_done
    (s := s.hw.disarm .ep0In) (h.info .ep0In) hep heq hshort
  have hle' : ep.transferSize ≤ 4096 := hle
  have hsent : ep.transferSize % 2 ^ 16 = ep.transferSize :=
    Nat.mod_eq_of_lt (by omega)
  let hw := (s.hw.disarm .ep0In).setEndpoint .ep0In ep
  have hstatus : (s.setHw hw).beginStatusOut = .ok ((s.setHw hw).setHw hw.statusOut) :=
    Usb.beginStatusOut_ok (h.info .ep0Out) h.outIdle hpage
  have hlast : (s.setHw hw).ep0InSent = .ok ((s.setHw hw).setHw hw.statusOut) := by
    have hep' : hw.endpoint .ep0In = ep := by simp [hw]
    simp only [Usb.ep0InSent, Usb.setHw_setupPacket, h.isIn, Usb.setHw_hw, hep',
      heq, hsent, if_true]
    rw [if_neg ?_, hstatus]
    rintro ⟨-, hnot⟩
    simp only [not_or, ne_eq, not_not] at hnot
    exact hshort ⟨Nat.pos_of_ne_zero hnot.1, hnot.2⟩
  refine ⟨(s.setHw hw).setHw hw.statusOut, ?_, ?_, ?_, ?_⟩
  · rw [Usb.ep0InInterrupt_one, Usb.setHw_hw, hdone, Outcome.ok_bind]
    exact hlast
  · simp [hw]
  · simp [hw, Usb.outArmings, List.countP_append, EndpointState.transferOf]
  · simp [hw, Controller.statusOutEndpoint]

/-- The state after a completion from which the driver goes on, with the
interrupt that leads to it. -/
theorem Answering.continues_of_done (h : Answering dmaPage data s)
    {ep : EndpointState} (hcan : ep.CanSend dmaPage)
    (hdata : ep.transferData = (epInfo dmaPage .ep0In).defaultXferDma.data)
    (hdone : (s.hw.disarm .ep0In).epInSendDone .ep0In =
      .ok (false, ((s.hw.disarm .ep0In).setEndpoint .ep0In ep).programIn)) :
    ∃ s', (s.setHw (s.hw.disarm .ep0In)).ep0InInterrupt 1 = .ok s' ∧
      Answering dmaPage data s' ∧ s'.outArmings = s.outArmings ∧
      s'.hw.endpoint .ep0In = { ep with inFlight := ep.packetSize } := by
  obtain ⟨hanswering, harmings⟩ := h.continues hcan hdata
  refine ⟨_, ?_, hanswering, harmings, by simp⟩
  rw [Usb.ep0InInterrupt_one, Usb.setHw_hw, hdone, Outcome.ok_bind]
  rfl

/-- A full packet was sent, and more follows. -/
theorem Sending.more (h : Sending dmaPage data sent s)
    (hpage : InStaticMap dmaPage (4 * dmaBufferSize))
    (hlt : sent + ep0MaxPacketSize < data.length) :
    ∃ s', InStep s ((data.drop sent).take ep0MaxPacketSize) s' ∧
      Sending dmaPage data (sent + ep0MaxPacketSize) s' ∧
      s'.outArmings = s.outArmings := by
  have hle : data.length ≤ 4096 := h.length_le
  have hlt' : sent + 64 < data.length := hlt
  have haligned : sent % 64 = 0 := h.aligned
  have hmin : min (data.length - sent) ep0MaxPacketSize = ep0MaxPacketSize :=
    Nat.min_eq_right (by unfold ep0MaxPacketSize; omega)
  have hsent := h.epInSent
  rw [hmin] at hsent
  have hzlp : (s.hw.endpoint .ep0In).transferSize ≠ transferZlp := by
    rw [h.transferSize]
    unfold transferZlp
    omega
  have haligned' : (sent + ep0MaxPacketSize) % ep0MaxPacketSize = 0 := by
    unfold ep0MaxPacketSize
    omega
  have hcan : EndpointState.CanSend dmaPage
      { s.hw.endpoint .ep0In with
        transferred := sent + ep0MaxPacketSize
        inFlight := 0 } := by
    refine ⟨h.info .ep0In, h.xferDma, rfl, haligned', ?_, Or.inr ⟨?_, ?_, ?_⟩⟩
    · exact Nat.lt_of_lt_of_le hlt h.length_le
    · rw [h.transferSize]
      exact hlt
    · rw [h.transferSize]
      exact h.length_le
    · rw [h.transferData, h.xferDma]
  have hne : sent + ep0MaxPacketSize ≠ (s.hw.endpoint .ep0In).transferSize := by
    rw [h.transferSize]
    exact Nat.ne_of_lt hlt
  have hdone := Controller.epInSendDone_more (s := s.hw.disarm .ep0In)
    (h.info .ep0In) hsent hne hcan
  obtain ⟨s', hrun, hanswering, harmings, hep⟩ :=
    h.continues_of_done hcan h.transferData hdone
  have hstep := h.inStep hpage
    (by rw [h.transferred]; exact Nat.lt_of_lt_of_le h.sent_lt h.length_le)
    (by rw [h.transferred, h.inFlight, hmin]; exact Nat.le_of_lt hlt) hrun
  rw [h.transferred, h.inFlight, hmin] at hstep
  refine ⟨s', hstep, ⟨hanswering, ?_, ?_, ?_, hlt, haligned'⟩, harmings⟩
  · rw [hep]
    exact h.transferSize
  · rw [hep]
  · rw [hep]
    simp only [EndpointState.packetSize, if_neg hzlp]
    rw [h.transferSize]

/-- The last packet was sent, and it was not full. -/
theorem Sending.short (h : Sending dmaPage data sent s)
    (hpage : InStaticMap dmaPage (4 * dmaBufferSize))
    (hlt : data.length < sent + ep0MaxPacketSize) :
    ∃ s', InStep s (data.drop sent) s' ∧ s'.hw.armed .ep0In = none ∧
      s'.outArmings = s.outArmings + 1 ∧
      (s'.hw.endpoint .ep0Out).inFlight = recvData := by
  have hle : data.length ≤ 4096 := h.length_le
  have hsent_lt := h.sent_lt
  have hmin : min (data.length - sent) ep0MaxPacketSize = data.length - sent :=
    Nat.min_eq_left (by omega)
  have hsent := h.epInSent
  rw [hmin, Nat.add_sub_cancel' (Nat.le_of_lt hsent_lt)] at hsent
  have hshort : ¬ (0 < (s.hw.endpoint .ep0In).transferSize ∧
      (s.hw.endpoint .ep0In).transferSize % ep0MaxPacketSize = 0) := by
    rintro ⟨-, hfull⟩
    have haligned := h.aligned
    rw [h.transferSize] at hfull
    unfold ep0MaxPacketSize at *
    omega
  have hpos : 0 < dmaPage := Nat.lt_of_lt_of_le (by decide) hpage.1
  obtain ⟨s', hrun, harmed, harmings, hrecv⟩ := h.finishes hpos hsent
    h.transferSize.symm (by rw [h.transferSize]; exact h.length_le) hshort
  have hstep := h.inStep hpage
    (by rw [h.transferred]; exact Nat.lt_of_lt_of_le h.sent_lt h.length_le)
    (by rw [h.transferred, h.inFlight, hmin]; omega) hrun
  rw [h.transferred, h.inFlight, hmin, List.take_of_length_le] at hstep
  · exact ⟨s', hstep, harmed, harmings, hrecv⟩
  · rw [List.length_drop]

/-- The empty packet was sent. -/
theorem SendingZlp.done (h : SendingZlp dmaPage data s)
    (hpage : InStaticMap dmaPage (4 * dmaBufferSize)) :
    ∃ s', InStep s [] s' ∧ s'.hw.armed .ep0In = none ∧
      s'.outArmings = s.outArmings + 1 ∧
      (s'.hw.endpoint .ep0Out).inFlight = recvData := by
  have hsent : Controller.epInSent (s.hw.endpoint .ep0In) =
      { s.hw.endpoint .ep0In with
        transferred := 0, inFlight := 0, transferSize := 0 } := by
    rw [Controller.epInSent, h.transferred, h.inFlight, if_pos h.transferSize,
      Nat.add_zero, Nat.zero_mod]
  have hpos : 0 < dmaPage := Nat.lt_of_lt_of_le (by decide) hpage.1
  obtain ⟨s', hrun, harmed, harmings, hrecv⟩ :=
    h.finishes hpos hsent rfl (Nat.zero_le _) (fun hfull => by cases hfull.1)
  have hstep := h.inStep hpage (by rw [h.transferred]; decide)
    (by rw [h.transferred, h.inFlight]; exact Nat.zero_le _) hrun
  rw [h.inFlight, List.take_zero] at hstep
  exact ⟨s', hstep, harmed, harmings, hrecv⟩

end Completions

/-! ## The whole stage -/

/-- The packets `ps` are sent one after the other.  With the last of them the
STATUS OUT stage is armed, once, and nothing more is sent. -/
def SendsThenStatus (s : Usb) (ps : List (List UInt8)) : Prop :=
  ∃ qs q s₁ s₂, ps = qs ++ [q] ∧ Run InStep s qs s₁ ∧ InStep s₁ q s₂ ∧
    s₁.outArmings = s.outArmings ∧ s₂.outArmings = s.outArmings + 1 ∧
    (s₂.hw.endpoint .ep0Out).inFlight = recvData ∧ s₂.hw.armed .ep0In = none

section Stage

variable {dmaPage sent : ℕ} {data : List UInt8} {s s₁ s₂ : Usb}
  {p q : List UInt8} {ps qs : List (List UInt8)}

end Stage

/-! ## Accepting the request -/

section Accept

variable {dmaPage : ℕ} {payload : List UInt8} {s s' s₁ : Usb} {env : UsbEnv}
  {callback : Option StatusOutCallback} {d : UInt32} {packet : SetupPacket}
  {left : Residue}

end Accept

/-! ## The stage as a whole -/

section Accept

variable {dmaPage : ℕ} {payload : List UInt8} {s s₁ : Usb} {env : UsbEnv}
  {callback : Option StatusOutCallback} {d : UInt32} {packet : SetupPacket}
  {left : Residue}

end Accept

/-! ## What the host expects -/

section Expected

variable {dmaPage buf wLength : ℕ} {mem : ByteMemory} {data : List UInt8}
  {es : List UsbEvent} {s s₁ s₂ s₃ : Usb} {p q : List UInt8}
  {ps qs : List (List UInt8)}

theorem InStep.unique (h : InStep s p s₁) (h' : InStep s q s₂) :
    p = q ∧ s₁ = s₂ := by
  obtain ⟨⟨t, ht, hrun⟩, t₁, ht₁, rfl⟩ := h
  obtain ⟨⟨t', ht', hrun'⟩, t₂, ht₂, rfl⟩ := h'
  rw [ht₁] at ht₂
  rw [hrun] at hrun'
  exact ⟨by rw [Option.some.inj ht₂], Except.ok.inj hrun'⟩

theorem InStep.armed (h : InStep s p s₁) : s.hw.armed .ep0In ≠ none := by
  obtain ⟨t, ht, -⟩ := h.packet
  simp [ht]

/-- The completions follow from the state. -/
theorem run_inStep_unique (h : Run InStep s ps s₁)
    (h' : Run InStep s qs s₂) (hnone : s₁.hw.armed .ep0In = none)
    (hnone' : s₂.hw.armed .ep0In = none) : ps = qs := by
  induction h generalizing qs with
  | nil s =>
      cases h' with
      | nil => rfl
      | cons hfirst _ => exact absurd hnone hfirst.armed
  | cons hfirst _ ih =>
      cases h' with
      | nil => exact absurd hnone' hfirst.armed
      | cons hfirst' hrest' =>
          obtain ⟨rfl, rfl⟩ := hfirst.unique hfirst'
          rw [ih hrest' hnone]

theorem SendsThenStatus.unique (h : SendsThenStatus s ps)
    (h' : SendsThenStatus s qs) : ps = qs := by
  obtain ⟨_, _, _, _, rfl, hrun, hlast, -, -, -, hnone⟩ := h
  obtain ⟨_, _, _, _, rfl, hrun', hlast', -, -, -, hnone'⟩ := h'
  exact run_inStep_unique (hrun.append (.single hlast))
    (hrun'.append (.single hlast')) hnone hnone'

end Expected

end PongoOS
