import PongoOS.Support.Run
import PongoOS.Usb.Upload

/-!
# Transfers straight into a buffer

A transfer on EP2 OUT that is not buffered is cut into windows, each of as many
packets as the registers can hold.  The controller ends a window when it is full,
on a packet that is not full, or early after whole packets, and the driver tells
these apart by what the controller leaves of the sizes.
-/

namespace PongoOS

/-! ## What the controller does -/

/-- How a window ends: the controller stops after full packets, or the last packet
has fewer bytes, or none. -/
inductive Completion where
  | stopped (packets : ℕ)
  | short (packets bytes : ℕ)
  | zlp (packets : ℕ)
deriving DecidableEq, Repr

namespace Completion

def received : Completion → ℕ
  | .stopped k => k * bulkEpMaxPacketSize
  | .short k n => k * bulkEpMaxPacketSize + n
  | .zlp k => k * bulkEpMaxPacketSize

/-- The packets that have come in. -/
def packets : Completion → ℕ
  | .stopped k => k
  | .short k _ => k + 1
  | .zlp k => k + 1

/-- The window has room for what comes in. -/
def Fits (t : Transfer) : Completion → Prop
  | .stopped k => k ≤ t.packets
  | .short k n => k < t.packets ∧ 0 < n ∧ n < bulkEpMaxPacketSize
  | .zlp k => k < t.packets

/-- What the registers of `t` show afterwards. -/
def left (t : Transfer) (c : Completion) : Residue :=
  ⟨t.size - c.received, t.packets - c.packets⟩

/-- Nothing more comes in.  A window without any packet looks like an empty
packet. -/
def isPartial : Completion → Bool
  | .stopped k => k = 0
  | .short _ _ => true
  | .zlp _ => true

theorem received_le {t : Transfer} {c : Completion} (h : c.Fits t)
    (hwhole : t.size = t.packets * bulkEpMaxPacketSize) : c.received ≤ t.size := by
  unfold bulkEpMaxPacketSize at hwhole
  cases c with
  | stopped k =>
      have hk : k ≤ t.packets := h
      simp only [received, bulkEpMaxPacketSize]
      omega
  | short k n =>
      obtain ⟨hk, -, hn⟩ := h
      simp only [received, bulkEpMaxPacketSize] at hn ⊢
      omega
  | zlp k =>
      have hk : k < t.packets := h
      simp only [received, bulkEpMaxPacketSize]
      omega

end Completion

structure WindowEnd where
  window : Transfer
  how : Completion
  data : List UInt8
  doepint : UInt32

/-- The interrupt that signals the end of a window is handled. -/
structure EndsWindow (s : Usb) (e : WindowEnd) (s' : Usb) : Prop where
  armed : s.hw.armed .ep2Out = some e.window
  fits : e.how.Fits e.window
  length : e.data.length = e.how.received
  signals : e.doepint &&& 1 ≠ 0
  step : UsbStep s (.ep2Out e.doepint e.data (e.how.left e.window).packets) s'

/-! ## A transfer -/

/-- The arguments of `usb_out_transfer_dma` for EP2. -/
structure DirectTransfer where
  data : ℕ
  dma : ℕ
  size : ℕ
  callback : OutTransferCallback
  data_ne : data ≠ 0
  size_pos : 0 < size
  aligned : size % bulkEpMaxPacketSize = 0
  size_lt : size < 2 ^ 32

namespace DirectTransfer

/-- `t` is a window behind `off` bytes of the transfer. -/
structure IsWindow (d : DirectTransfer) (off : ℕ) (t : Transfer) : Prop where
  dma : t.dma = (d.dma + off) % 2 ^ 32
  size_pos : 0 < t.size
  inside : off + t.size ≤ d.size
  whole : t.size = t.packets * bulkEpMaxPacketSize
  size_lt : t.size < 2 ^ 19
  packets_lt : t.packets < 2 ^ 10

/-- Each window starts where what came in with the ones before ends. -/
def Windows (d : DirectTransfer) : ℕ → List WindowEnd → Prop
  | _, [] => True
  | off, e :: es => d.IsWindow off e.window ∧ d.Windows (off + e.how.received) es

/-- EP2 with `off` bytes of the transfer received. -/
structure EndpointAt (d : DirectTransfer) (dmaPage off : ℕ) (ep : EndpointState) :
    Prop where
  info : ep.info = epInfo dmaPage .ep2Out
  xferDma : ep.xferDma = ⟨d.data, d.size, d.dma⟩
  transferData : ep.transferData = d.data
  transferSize : ep.transferSize = d.size
  transferred : ep.transferred = off
  inFlight : ep.inFlight = recvData
  aligned : off % bulkEpMaxPacketSize = 0
  off_lt : off < d.size

structure Receiving (d : DirectTransfer) (dmaPage off : ℕ) (s : Usb) : Prop where
  endpoint : d.EndpointAt dmaPage off (s.hw.endpoint .ep2Out)
  armed : s.hw.armed .ep2Out = some ((s.hw.endpoint .ep2Out).transferOf
    (EndpointState.uploadXfer d.size off) true)
  callback : s.outTransferDone = some d.callback

variable {d : DirectTransfer} {dmaPage off n : ℕ} {ep : EndpointState}
  {s s' : Usb} {hw : Controller} {t : Transfer} {e : WindowEnd}

theorem EndpointAt.computes (h : d.EndpointAt dmaPage off ep) :
    ep.epOutRecvComputeXfer = .ok (EndpointState.uploadXfer d.size off) := by
  refine EndpointState.epOutRecvComputeXfer_direct ?_ ?_ ?_ ?_ h.transferSize
    h.transferred d.aligned h.aligned h.off_lt d.size_lt
  · rw [h.info]
    rfl
  · rw [h.info]
    rfl
  · rw [h.xferDma, h.transferData]
  · rw [h.xferDma]

theorem EndpointAt.isWindow (h : d.EndpointAt dmaPage off ep) :
    d.IsWindow off (ep.transferOf (EndpointState.uploadXfer d.size off) true) := by
  have hlt := h.off_lt
  have haligned : off % 512 = 0 := h.aligned
  have haligned' : d.size % 512 = 0 := d.aligned
  constructor
  case dma =>
    rw [EndpointState.transferOf, h.xferDma]
    rfl
  all_goals
    simp only [EndpointState.transferOf, EndpointState.uploadXfer,
      bulkEpMaxPacketSize]
    omega

theorem EndpointAt.advanced (h : d.EndpointAt dmaPage off ep)
    (hn : n % bulkEpMaxPacketSize = 0) (hlt : off + n < d.size) :
    d.EndpointAt dmaPage (off + n) (ep.advanced n) := by
  refine ⟨h.info, h.xferDma, h.transferData, h.transferSize, ?_, h.inFlight, ?_,
    hlt⟩
  · rw [EndpointState.advanced_transferred, h.transferred]
  · have haligned := h.aligned
    unfold bulkEpMaxPacketSize at *
    omega

/-- The next window is programmed. -/
theorem EndpointAt.epOutRecv (h : d.EndpointAt dmaPage off ep) :
    (hw.setEndpoint .ep2Out ep).epOutRecv .ep2Out =
      .ok ((hw.setEndpoint .ep2Out ep).arm .ep2Out
        (ep.transferOf (EndpointState.uploadXfer d.size off) true)) := by
  rw [Controller.epOutRecv]
  simp only [Controller.setEndpoint_endpoint, Function.update_self]
  rw [bugIf_of_not (by simp [h.info, epInfo]), Outcome.ok_bind,
    bugIf_of_not (by simp [h.info, epInfo]), Outcome.ok_bind,
    bugIf_of_not (by simp [h.inFlight]), Outcome.ok_bind,
    if_neg (by simp [h.inFlight]), h.computes, Outcome.ok_bind, h.inFlight]
  simp

/-- What the driver does when a window ends after `n` bytes. -/
theorem EndpointAt.epOutRecvDataDone {left : Residue}
    (h : d.EndpointAt dmaPage off (hw.endpoint .ep2Out))
    (hleft : n + left.size = (EndpointState.uploadXfer d.size off).hwXferSize) :
    hw.epOutRecvDataDone .ep2Out left =
      if d.size ≤ off + n ∨ Controller.partialPacket (hw.endpoint .ep2Out)
          (EndpointState.uploadXfer d.size off) left = true then
        .ok (true, hw.setEndpoint .ep2Out
          { (hw.endpoint .ep2Out).advanced n with inFlight := 0 })
      else
        (hw.setEndpoint .ep2Out
          ((hw.endpoint .ep2Out).advanced n)).epOutRecv .ep2Out >>=
            fun hw' => .ok (false, hw') := by
  have hlt := h.off_lt
  have hlt' := d.size_lt
  have haligned : d.size % 512 = 0 := d.aligned
  have hx : (EndpointState.uploadXfer d.size off).hwXferSize =
      min (d.size - off) 0x7fe00 := rfl
  have hsub : sub32 (EndpointState.uploadXfer d.size off).hwXferSize left.size =
      n := by
    rw [sub32_of_le (by omega) (by omega)]
    omega
  have hzlp : (hw.endpoint .ep2Out).transferSize ≠ transferZlp := by
    rw [h.transferSize]
    unfold transferZlp
    omega
  have hreceived : Controller.epOutReceived (hw.endpoint .ep2Out) n =
      (hw.endpoint .ep2Out).advanced n := by
    rw [Controller.epOutReceived, if_neg hzlp, h.transferred,
      Nat.mod_eq_of_lt (by omega), EndpointState.advanced, h.transferred]
  have hcopy : ∀ x, hw.epOutCopy .ep2Out x n = .ok hw := by
    intro x
    rw [Controller.epOutCopy, if_neg (by simp [h.xferDma, h.transferData])]
    rfl
  rw [Controller.epOutRecvDataDone, bugIf_of_not (by simp [h.info, h.inFlight, epInfo]),
    Outcome.ok_bind, h.computes, Outcome.ok_bind, hsub]
  simp only [hcopy, Outcome.ok_bind, hreceived,
    EndpointState.advanced_transferSize, EndpointState.advanced_transferred,
    h.transferSize, h.transferred]
  have hn : (hw.endpoint .ep2Out).info.n ≠ 0 := by
    rw [h.info]
    exact (by decide : 2 ≠ 0)
  rw [if_pos hn]
  rfl

/-- Whether the driver takes the last packet to be one that is not full. -/
theorem EndpointAt.partialPacket {c : Completion}
    (h : d.EndpointAt dmaPage off ep)
    (ht : t = ep.transferOf (EndpointState.uploadXfer d.size off) true)
    (hfits : c.Fits t) :
    Controller.partialPacket ep (EndpointState.uploadXfer d.size off) (c.left t) =
      c.isPartial := by
  have hwindow := h.isWindow
  rw [← ht] at hwindow
  have hpos := hwindow.size_pos
  have hlt := hwindow.size_lt
  have hpackets := hwindow.packets_lt
  have hwhole : t.size = t.packets * 512 := hwindow.whole
  have hsize : (EndpointState.uploadXfer d.size off).hwXferSize = t.size := by
    rw [ht]
    rfl
  have hcount : (EndpointState.uploadXfer d.size off).packetCount = t.packets := by
    rw [ht]
    rfl
  have htype : ep.info.type = 2 := by
    rw [h.info]
    rfl
  have hmps : ep.info.maxPacketSize = 512 := by
    rw [h.info]
    rfl
  have hle : c.received ≤ t.size := Completion.received_le hfits hwhole
  have hle' : c.packets ≤ t.packets := by
    cases c with
    | stopped k => exact hfits
    | short k n => exact hfits.1
    | zlp k => exact hfits
  have hreceived : sub32 t.size (t.size - c.received) = c.received := by
    rw [sub32_of_le (by omega) (by omega)]
    omega
  have hused : sub32 t.packets (t.packets - c.packets) = c.packets := by
    rw [sub32_of_le (by omega) (by omega)]
    omega
  simp only [Controller.partialPacket, Completion.left, htype, hmps, hsize, hcount,
    hreceived, hused]
  rw [if_neg (by decide)]
  cases c with
  | stopped k =>
      have hk : k ≤ t.packets := hfits
      refine decide_eq_decide.mpr ?_
      simp only [Completion.received, Completion.packets, bulkEpMaxPacketSize]
      omega
  | short k n =>
      obtain ⟨hk, hpos, hn⟩ := hfits
      refine decide_eq_true ?_
      simp only [Completion.received, Completion.packets, bulkEpMaxPacketSize]
        at hn ⊢
      omega
  | zlp k =>
      have hk : k < t.packets := hfits
      refine decide_eq_true ?_
      simp only [Completion.received, Completion.packets, bulkEpMaxPacketSize]
      omega

/-! ## The end of a window -/

/-- The transfer of `s` has ended with `n` bytes: the callback has been called
with them, and the controller can not signal the end of a window again. -/
structure Finishes (d : DirectTransfer) (n : ℕ) (s s' : Usb) : Prop where
  armed : s'.hw.armed .ep2Out = none
  callback : s'.outTransferDone = none
  calls : s'.outTransferCalls =
    s.outTransferCalls ++ [⟨d.callback, d.data, d.size, n⟩]
  counted : s.loader.isWaitingXfer = true →
    s'.loader.xferRecvCount = n ∧ s'.loader.isWaitingXfer = false

/-- No callback was called. -/
structure Waits (s s' : Usb) : Prop where
  calls : s'.outTransferCalls = s.outTransferCalls
  loader : s'.loader = s.loader

/-- The driver after `n` more bytes. -/
def Continues (d : DirectTransfer) (dmaPage off n : ℕ) (s s' : Usb) : Prop :=
  (bulkEpMaxPacketSize ≤ n ∧ d.Receiving dmaPage (off + n) s' ∧ Waits s s') ∨
    d.Finishes (off + n) s s'

variable {c : Completion} {data : List UInt8} {doepint : UInt32}

theorem Receiving.isWindow (h : d.Receiving dmaPage off s)
    (ht : s.hw.armed .ep2Out = some t) : d.IsWindow off t := by
  rw [Option.some.inj (ht.symm.trans h.armed)]
  exact h.endpoint.isWindow

theorem Receiving.epOutRecvDataDone (data : List UInt8)
    (h : d.Receiving dmaPage off s) (ht : s.hw.armed .ep2Out = some t)
    (hfits : c.Fits t) :
    (s.hw.receive .ep2Out t data).epOutRecvDataDone .ep2Out (c.left t) =
      if d.size ≤ off + c.received ∨ c.isPartial = true then
        .ok (true, (s.hw.receive .ep2Out t data).setEndpoint .ep2Out
          { (s.hw.endpoint .ep2Out).advanced c.received with inFlight := 0 })
      else
        ((s.hw.receive .ep2Out t data).setEndpoint .ep2Out
          ((s.hw.endpoint .ep2Out).advanced c.received)).epOutRecv .ep2Out >>=
            fun hw => .ok (false, hw) := by
  have ht' := Option.some.inj (ht.symm.trans h.armed)
  have hle := Completion.received_le hfits (h.isWindow ht).whole
  have hleft : c.received + (c.left t).size =
      (EndpointState.uploadXfer d.size off).hwXferSize := by
    have hsize : t.size = (EndpointState.uploadXfer d.size off).hwXferSize := by
      rw [ht']
      rfl
    rw [← hsize]
    exact Nat.add_sub_cancel' hle
  rw [← h.endpoint.partialPacket ht' hfits]
  have hep : d.EndpointAt dmaPage off
      ((s.hw.receive .ep2Out t data).endpoint .ep2Out) := h.endpoint
  exact hep.epOutRecvDataDone hleft

/-- What comes in before the last packet are full packets. -/
theorem received_of_not_isPartial (h : ¬ (c.isPartial = true)) :
    bulkEpMaxPacketSize ≤ c.received ∧ c.received % bulkEpMaxPacketSize = 0 := by
  cases c with
  | stopped k =>
      have hk : k ≠ 0 := by simpa [Completion.isPartial] using h
      simp only [Completion.received, bulkEpMaxPacketSize]
      omega
  | short k n => exact absurd rfl h
  | zlp k => exact absurd rfl h

/-- The callback is called with what the endpoint has of the transfer. -/
theorem ep2OutDone_finishes {u : Usb} (hcallback : u.outTransferDone = some d.callback)
    (harmed : u.hw.armed .ep2Out = none)
    (hdata : (u.hw.endpoint .ep2Out).transferData = d.data)
    (hsize : (u.hw.endpoint .ep2Out).transferSize = d.size)
    (hn : (u.hw.endpoint .ep2Out).transferred = n)
    (hsame : Waits s u) : ∃ s', u.ep2OutDone = .ok s' ∧ d.Finishes n s s' := by
  rw [Usb.ep2OutDone, hcallback, hdata, hsize, hn]
  refine ⟨_, rfl, ?_⟩
  cases hcb : d.callback
  simp only [Usb.callOutTransferDone, Usb.usbloaderXferDoneCb,
    Usb.recordCall_loader, Usb.setOutTransferDone_loader, hsame.loader]
  split
  · rename_i hwait
    exact ⟨harmed, rfl, by rw [hcb, ← hsame.calls]; rfl,
      fun h => absurd (hwait.symm.trans h) (by decide)⟩
  · exact ⟨harmed, rfl, by rw [hcb, ← hsame.calls]; rfl, fun _ => ⟨rfl, rfl⟩⟩

/-- The interrupt that signals the end of a window. -/
theorem Receiving.interrupt (data : List UInt8) (h : d.Receiving dmaPage off s)
    (ht : s.hw.armed .ep2Out = some t) (hfits : c.Fits t)
    (hsignals : doepint &&& 1 ≠ 0) (herror : doepint &&& 4 = 0) :
    ∃ s', (s.setHw (s.hw.receive .ep2Out t data)).ep2OutInterrupt doepint
        (c.left t) = .ok s' ∧ d.Continues dmaPage off c.received s s' := by
  have hdone := h.epOutRecvDataDone data ht hfits
  rw [Usb.ep2OutInterrupt, if_pos hsignals]
  simp only [Usb.setHw_hw]
  rw [hdone]
  by_cases hlast : d.size ≤ off + c.received ∨ c.isPartial = true
  · rw [if_pos hlast]
    simp only [Outcome.ok_bind, if_true]
    have hidle : (s.hw.receive .ep2Out t data).armed .ep2Out = none := by
      simp [Controller.receive]
    have hep := h.endpoint
    generalize hs₁ : (s.setHw (s.hw.receive .ep2Out t data)).setHw _ = s₁
    obtain ⟨s', hok, hfinishes⟩ := ep2OutDone_finishes (d := d) (s := s)
      (u := s₁) (n := off + c.received) (hs₁ ▸ h.callback) (hs₁ ▸ hidle)
      (hs₁ ▸ by simp [hep.transferData]) (hs₁ ▸ by simp [hep.transferSize])
      (hs₁ ▸ by simp [EndpointState.advanced, hep.transferred])
      (hs₁ ▸ ⟨rfl, rfl⟩)
    rw [hok, Outcome.ok_bind, bugIf_of_not (by simp [herror]), Outcome.ok_bind]
    exact ⟨s', rfl, .inr hfinishes⟩
  · obtain ⟨hfull, hwhole⟩ := received_of_not_isPartial fun hc => hlast (.inr hc)
    have hmore : off + c.received < d.size :=
      Nat.lt_of_not_le fun hle => hlast (.inl hle)
    have hep := h.endpoint.advanced hwhole hmore
    rw [if_neg hlast, hep.epOutRecv]
    simp only [Outcome.ok_bind, if_neg Bool.false_ne_true]
    rw [bugIf_of_not (by simp [herror])]
    refine ⟨_, rfl, .inl ⟨hfull, ⟨?_, ?_, h.callback⟩, rfl, rfl⟩⟩
    · simpa using hep
    · simp

theorem Receiving.ends (h : d.Receiving dmaPage off s) (he : EndsWindow s e s') :
    off + e.how.received ≤ d.size ∧
      d.Continues dmaPage off e.how.received s s' := by
  obtain ⟨harmed, hfits, hlength, hsignals, t, ht, -, hok⟩ := he
  obtain rfl := Option.some.inj (ht.symm.trans harmed)
  have hwindow := h.isWindow ht
  have hle := Completion.received_le hfits hwindow.whole
  have hinside := hwindow.inside
  refine ⟨by omega, ?_⟩
  have herror : e.doepint &&& 4 = 0 := by
    simp only [Usb.ep2OutInterrupt, Outcome.bind_eq_ok, bugIf_eq_ok] at hok
    obtain ⟨-, -, -, hnot, -⟩ := hok
    exact of_not_not hnot
  rw [Controller.received, if_pos hsignals, hlength] at hok
  obtain ⟨s'', hok', hcontinues⟩ :=
    h.interrupt e.data ht hfits hsignals herror
  cases hok.symm.trans hok'
  exact hcontinues

/-- Any end of the window is handled. -/
theorem Receiving.exists_ends (h : d.Receiving dmaPage off s)
    (ht : s.hw.armed .ep2Out = some t) (hfits : c.Fits t)
    (hlength : data.length = c.received) (hsignals : doepint &&& 1 ≠ 0)
    (herror : doepint &&& 4 = 0) :
    ∃ s', EndsWindow s ⟨t, c, data, doepint⟩ s' := by
  have hle := Completion.received_le hfits (h.isWindow ht).whole
  obtain ⟨s', hok, -⟩ := h.interrupt data ht hfits hsignals herror
  refine ⟨s', ht, hfits, hlength, hsignals, t, ht, by simpa [hlength], ?_⟩
  rw [Controller.received, if_pos hsignals, hlength]
  exact hok

/-! ## Runs -/

/-- The bytes that came in. -/
def total (es : List WindowEnd) : ℕ := (es.map fun e => e.how.received).sum

/-- From `s` on: no callback was called, and any end of the window that the
controller is programmed with is handled, or the transfer has ended. -/
def Proceeds (d : DirectTransfer) (off : ℕ) (s s' : Usb) : Prop :=
  (Waits s s' ∧ ∃ t, s'.hw.armed .ep2Out = some t ∧ d.IsWindow off t ∧
    ∀ c data doepint, Completion.Fits t c → data.length = c.received →
      doepint &&& 1 ≠ 0 → doepint &&& 4 = 0 →
        ∃ s'', EndsWindow s' ⟨t, c, data, doepint⟩ s'') ∨
    d.Finishes off s s'

/-- What holds after the windows `es`: they follow each other in the buffer, and
the callback has been called once, with what came in, if the transfer has
ended. -/
structure Transferred (d : DirectTransfer) (es : List WindowEnd) (s s' : Usb) :
    Prop where
  windows : d.Windows 0 es
  total_le : total es ≤ d.size
  length_le : es.length * bulkEpMaxPacketSize ≤ total es + bulkEpMaxPacketSize
  proceeds : d.Proceeds (total es) s s'

theorem Finishes.nil {es : List WindowEnd} {s₁ : Usb} (h : d.Finishes n s s₁)
    (hrun : Run EndsWindow s₁ es s') : es = [] ∧ s' = s₁ := by
  cases hrun with
  | nil => exact ⟨rfl, rfl⟩
  | cons hstep _ =>
      have harmed := hstep.armed
      rw [h.armed] at harmed
      cases harmed

theorem Receiving.proceeds (h : d.Receiving dmaPage off s) : d.Proceeds off s s :=
  .inl ⟨⟨rfl, rfl⟩, _, h.armed, h.isWindow h.armed,
    fun _ _ _ hfits hlength hsignals herror =>
      h.exists_ends h.armed hfits hlength hsignals herror⟩

theorem Waits.proceeds {s₁ : Usb} (h : Waits s s₁) (hp : d.Proceeds n s₁ s') :
    d.Proceeds n s s' := by
  rcases hp with ⟨hwaits, hnext⟩ | hfinishes
  · exact .inl ⟨⟨hwaits.calls.trans h.calls, hwaits.loader.trans h.loader⟩, hnext⟩
  · refine .inr ⟨hfinishes.armed, hfinishes.callback, ?_, ?_⟩
    · rw [hfinishes.calls, h.calls]
    · rw [← h.loader]
      exact hfinishes.counted

/-- The induction is on the run, so the windows behind the first start where its
data ends. -/
theorem Receiving.run {es : List WindowEnd} (h : d.Receiving dmaPage off s)
    (hrun : Run EndsWindow s es s') :
    d.Windows off es ∧ off + total es ≤ d.size ∧
      es.length * bulkEpMaxPacketSize ≤ total es + bulkEpMaxPacketSize ∧
      d.Proceeds (off + total es) s s' := by
  induction hrun generalizing off with
  | nil s => exact ⟨trivial, Nat.le_of_lt h.endpoint.off_lt, by simp, h.proceeds⟩
  | @cons s s₁ s' e es hstep hrest ih =>
      have hwindow := h.isWindow hstep.armed
      obtain ⟨hle, hcontinues⟩ := h.ends hstep
      have htotal : total (e :: es) = e.how.received + total es := rfl
      rw [htotal, List.length_cons, Nat.succ_mul]
      rcases hcontinues with ⟨hfull, hnext, hwaits⟩ | hfinishes
      · obtain ⟨hwindows, hsize, hlength, hproceeds⟩ := ih hnext
        rw [← Nat.add_assoc]
        exact ⟨⟨hwindow, hwindows⟩, hsize, by omega, hwaits.proceeds hproceeds⟩
      · obtain ⟨rfl, rfl⟩ := hfinishes.nil hrest
        refine ⟨⟨hwindow, trivial⟩, hle, ?_, .inr hfinishes⟩
        simp

/-- EP2 is ready for a transfer. -/
structure Ready (dmaPage : ℕ) (s : Usb) : Prop where
  info : (s.hw.endpoint .ep2Out).info = epInfo dmaPage .ep2Out
  idle : (s.hw.endpoint .ep2Out).inFlight = 0
  callback : s.outTransferDone = none

theorem usbOutTransferDma_receiving (h : Ready dmaPage s) :
    ∃ s₀, s.usbOutTransferDma d.data d.dma d.size d.callback = .ok s₀ ∧
      d.Receiving dmaPage 0 s₀ ∧ Waits s s₀ := by
  have hep : d.EndpointAt dmaPage 0 ((s.hw.endpoint .ep2Out).begun
      ⟨d.data, d.size, d.dma⟩ d.data d.size recvData) :=
    ⟨h.info, rfl, rfl, if_neg (Nat.ne_of_gt d.size_pos), rfl, rfl, rfl, d.size_pos⟩
  have hnot : ¬ ((s.hw.endpoint .ep2Out).info.dirIn = true ∨
      (s.hw.endpoint .ep2Out).inFlight ≠ 0 ∨ d.data = 0 ∨ d.size = 0 ∨
      d.size % (s.hw.endpoint .ep2Out).info.maxPacketSize ≠ 0) := by
    have hpos := d.size_pos
    have haligned : d.size % 512 = 0 := d.aligned
    simp [h.info, h.idle, epInfo, d.data_ne, haligned, bulkEpMaxPacketSize]
    omega
  have hn : (s.hw.endpoint .ep2Out).info.n ≠ 0 := by
    rw [h.info]
    exact (by decide : 2 ≠ 0)
  rw [Usb.usbOutTransferDma, bugIf_of_not (by simp [h.callback]), Outcome.ok_bind,
    Controller.epOutRecvDataDma, bugIf_of_not hnot, Outcome.ok_bind,
    Controller.epOutRecvDataCommon, if_pos hn, hep.epOutRecv]
  refine ⟨_, rfl, ⟨?_, ?_, by simp⟩, rfl, rfl⟩
  · simpa using hep
  · simp

/-- Whatever the controller does with the windows of a transfer. -/
theorem usbOutTransferDma_transferred (d : DirectTransfer) (h : Ready dmaPage s) :
    ∃ s₀, s.usbOutTransferDma d.data d.dma d.size d.callback = .ok s₀ ∧
      ∀ es s', Run EndsWindow s₀ es s' → d.Transferred es s s' := by
  obtain ⟨s₀, hstart, hreceiving, hwaits⟩ :=
    usbOutTransferDma_receiving (d := d) h
  refine ⟨s₀, hstart, fun es s' hrun => ?_⟩
  obtain ⟨hwindows, hle, hlength, hproceeds⟩ := hreceiving.run hrun
  rw [Nat.zero_add] at hle hproceeds
  exact ⟨hwindows, hle, hlength, hwaits.proceeds hproceeds⟩

/-- A transfer of three windows, after `usb_init` and the activation of EP2. -/
def sampleTransfer : DirectTransfer :=
  ⟨kCacheableView + 0x10000, 0x10000, 0x100000, .usbloaderXferDoneCb, by decide,
    by decide, by decide, by decide⟩

def activatedEp2 : Usb :=
  let s := Usb.boot (fun _ => 0) kCacheableView 0
  s.setHw (s.hw.epActivate .ep2Out 2 2 bulkEpMaxPacketSize false)

theorem usbOutTransferDma_transferred_sample :
    ∃ s₀, activatedEp2.usbOutTransferDma sampleTransfer.data sampleTransfer.dma
        sampleTransfer.size sampleTransfer.callback = .ok s₀ ∧
      ∀ es s', Run EndsWindow s₀ es s' →
        sampleTransfer.Transferred es activatedEp2 s' :=
  usbOutTransferDma_transferred sampleTransfer
    (⟨rfl, rfl, rfl⟩ : Ready kCacheableView activatedEp2)

end DirectTransfer

end PongoOS
