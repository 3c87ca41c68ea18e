import PongoOS.Usb.DataIn

/-!
# Transfers of many packets to the host

EP1 IN is activated as an interrupt endpoint with packets of 1024 bytes.  A
transfer on it is cut into windows, each of as many bytes as the DMA buffer holds.
A window is copied to the DMA buffer before the controller is programmed with it,
unless the data starts in the DMA buffer already.  So the buffer must not start
within data that takes more than one window.
-/

namespace PongoOS

/-! ## One window -/

/-- The packets of a window. -/
def windowPackets (size : ℕ) : ℕ :=
  if intrEpMaxPacketSize < size then
    (size + intrEpMaxPacketSize - 1) / intrEpMaxPacketSize
  else 1

namespace EndpointState

/-- How much of the transfer the next window of EP1 takes. -/
def windowSize (ep : EndpointState) : ℕ :=
  if ep.transferSize = transferZlp then 0
  else min (ep.transferSize - ep.transferred) dmaBufferSize

/-- EP1 IN has a window to send. -/
structure CanSendEp1 (dmaPage : ℕ) (ep : EndpointState) : Prop where
  info : ep.info = epInfo dmaPage .ep1In
  xferDma : ep.xferDma = dmaBuffer dmaPage 2
  idle : ep.inFlight = 0
  aligned : ep.transferred % dmaBufferSize = 0
  remains : ep.transferSize = transferZlp ∨
    ep.transferred < ep.transferSize ∧ ep.transferSize < transferZlp

variable {dmaPage : ℕ} {ep : EndpointState}

theorem CanSendEp1.computes (h : ep.CanSendEp1 dmaPage) :
    ep.epInSendComputeXfer =
      .ok ⟨0, ep.windowSize, windowPackets ep.windowSize⟩ := by
  have hsize : ep.xferDma.size = 0x1000 := by rw [h.xferDma]; rfl
  have hmps : ep.info.maxPacketSize = 1024 := by rw [h.info]; rfl
  have htype : ep.info.type = 3 := by rw [h.info]; rfl
  have hoff : ep.transferred % 0x1000 = 0 := h.aligned
  have hwindow : ep.windowSize ≤ 0x1000 := by
    unfold windowSize
    split
    · exact Nat.zero_le _
    · exact Nat.min_le_right _ _
  have hxfer : ep.inXferSize 0x1000 =
      (ep.windowSize, windowPackets ep.windowSize) := by
    rw [inXferSize, hmps, htype]
    simp only
    by_cases hzlp : ep.transferSize = transferZlp
    · rw [if_pos hzlp, windowSize, if_pos hzlp]
      rfl
    · obtain ⟨hlt, hle⟩ := h.remains.resolve_left hzlp
      unfold transferZlp at hle
      have hmin : min (ep.transferSize - ep.transferred) 0x1000 =
          ep.windowSize := by
        rw [windowSize, if_neg hzlp]
        rfl
      rw [if_neg hzlp, if_neg (by decide), sub32_of_le (by omega) (by omega),
        hmin, capXferSize, if_neg (by omega)]
      rfl
  rw [epInSendComputeXfer]
  simp only [hsize, hoff, hmps]
  rw [show sub32 0x1000 0 = 0x1000 by decide, hxfer, bugIf_of_not (by omega)]
  rfl

end EndpointState

namespace Controller

variable {dmaPage data sent : ℕ} {source : List UInt8} {s : Controller}
  {ep : EndpointState}

/-- One window takes the source, or the DMA buffer does not start in it. -/
def SourceApart (dmaPage data size : ℕ) : Prop :=
  size ≤ dmaBufferSize ∨ data + size ≤ (dmaBuffer dmaPage 2).data ∨
    (dmaBuffer dmaPage 2).data < data

/-- The window behind `sent` bytes of `source` is on its way, and what follows it
is at `data` still. -/
structure SendingEp1 (dmaPage data : ℕ) (source : List UInt8) (sent : ℕ)
    (s : Controller) : Prop where
  info : (s.endpoint .ep1In).info = epInfo dmaPage .ep1In
  xferDma : (s.endpoint .ep1In).xferDma = dmaBuffer dmaPage 2
  transferData : (s.endpoint .ep1In).transferData = data
  transferSize : (s.endpoint .ep1In).transferSize = source.length
  transferred : (s.endpoint .ep1In).transferred = sent
  inFlight : (s.endpoint .ep1In).inFlight =
    min (source.length - sent) dmaBufferSize
  sent_lt : sent < source.length
  aligned : sent % dmaBufferSize = 0
  rest : s.mem.Holds (data + (sent + dmaBufferSize))
    (source.drop (sent + dmaBufferSize))
  window : s.mem.Holds (dmaBuffer dmaPage 2).data
    ((source.drop sent).take dmaBufferSize)
  armed : s.armed .ep1In = some ((s.endpoint .ep1In).transferOf
    ⟨0, (s.endpoint .ep1In).inFlight,
      windowPackets (s.endpoint .ep1In).inFlight⟩ true)

/-- The empty packet is on its way. -/
structure SendingEp1Zlp (dmaPage : ℕ) (s : Controller) : Prop where
  info : (s.endpoint .ep1In).info = epInfo dmaPage .ep1In
  xferDma : (s.endpoint .ep1In).xferDma = dmaBuffer dmaPage 2
  transferSize : (s.endpoint .ep1In).transferSize = transferZlp
  transferred : (s.endpoint .ep1In).transferred = 0
  inFlight : (s.endpoint .ep1In).inFlight = 0
  armed : s.armed .ep1In =
    some ((s.endpoint .ep1In).transferOf ⟨0, 0, 1⟩ true)

/-- What `ep_in_send` checks, and what is left to do then. -/
theorem epInSend_ep1 (h : ep.CanSendEp1 dmaPage) :
    (s.setEndpoint .ep1In ep).epInSend .ep1In = (do
      let s' ← (s.setEndpoint .ep1In ep).epInFill .ep1In
        ⟨0, ep.windowSize, windowPackets ep.windowSize⟩
      pure ((s'.arm .ep1In (ep.transferOf
        ⟨0, ep.windowSize, windowPackets ep.windowSize⟩ true)).setEndpoint .ep1In
          { ep with inFlight := ep.windowSize })) := by
  have hdir : ep.info.dirIn = true := by rw [h.info]; rfl
  have hmore : ¬ (ep.transferSize ≤ ep.transferred ∧
      ep.transferSize ≠ transferZlp) := by
    rintro ⟨hle, hzlp⟩
    have hlt := (h.remains.resolve_left hzlp).1
    omega
  simp only [epInSend, setEndpoint_endpoint, Function.update_self]
  rw [bugIf_of_not (by simp [hdir, h.idle]), Outcome.ok_bind,
    bugIf_of_not hmore, Outcome.ok_bind, h.computes, Outcome.ok_bind]

/-- The next window is copied, unless it is in the DMA buffer. -/
theorem epInFill_ep1 {x : Xfer} (h : ep.CanSendEp1 dmaPage)
    (hzlp : ep.transferSize ≠ transferZlp) (hoff : x.dmaOffset = 0)
    (hpos : 0 < x.hwXferSize) :
    (s.setEndpoint .ep1In ep).epInFill .ep1In x =
      .ok (if (dmaBuffer dmaPage 2).data = ep.transferData then
          s.setEndpoint .ep1In ep
        else
          (s.setEndpoint .ep1In ep).setMem (s.mem.write
            (dmaBuffer dmaPage 2).data (s.mem.bytesAt
              (ep.transferData + ep.transferred) x.hwXferSize))) := by
  simp only [epInFill, setEndpoint_endpoint, Function.update_self, h.xferDma]
  rw [if_pos ⟨hoff, hpos⟩]
  split
  · rw [bugIf_of_not hzlp]
    rfl
  · rfl

theorem holds_write_of_apart {m : ByteMemory} {a b : ℕ} {xs ys : List UInt8}
    (h : m.Holds a xs) (hapart : a + xs.length ≤ b ∨ b + ys.length ≤ a) :
    (m.write b ys).Holds a xs := by
  refine (ByteMemory.bytesAt_congr fun i hi => ?_).trans h
  exact ByteMemory.write_apply_of_not (by omega)

theorem holds_drop {m : ByteMemory} {a n : ℕ} {xs : List UInt8}
    (h : m.Holds a xs) : m.Holds (a + n) (xs.drop n) := by
  rcases Nat.le_total xs.length n with hle | hle
  · rw [List.drop_of_length_le hle]
    exact ByteMemory.holds_nil
  · rw [← List.take_append_drop n xs, ByteMemory.holds_append,
      List.length_take_of_le hle] at h
    exact h.2

/-- Where the DMA buffer is filled, it holds the window, and what follows is as
before. -/
theorem epInFill_source {x : Xfer} (h : ep.CanSendEp1 dmaPage)
    (hdata : ep.transferData = data) (hsize : ep.transferSize = source.length)
    (hlt : ep.transferred < source.length) (hlength : source.length < transferZlp)
    (hsource : s.mem.Holds (data + ep.transferred) (source.drop ep.transferred))
    (hapart : SourceApart dmaPage data source.length) (hoff : x.dmaOffset = 0)
    (hx : x.hwXferSize = min (source.length - ep.transferred) dmaBufferSize) :
    ∃ s', (s.setEndpoint .ep1In ep).epInFill .ep1In x = .ok s' ∧
      s'.mem.Holds (data + (ep.transferred + dmaBufferSize))
        (source.drop (ep.transferred + dmaBufferSize)) ∧
      s'.mem.Holds (dmaBuffer dmaPage 2).data
        ((source.drop ep.transferred).take dmaBufferSize) := by
  have hpos : 0 < dmaBufferSize := by decide
  have htake : (source.drop ep.transferred).take x.hwXferSize =
      (source.drop ep.transferred).take dmaBufferSize := by
    refine List.take_eq_take_iff.mpr ?_
    rw [List.length_drop]
    omega
  have hslice : s.mem.bytesAt (data + ep.transferred) x.hwXferSize =
      (source.drop ep.transferred).take dmaBufferSize := by
    rw [← htake]
    exact hsource.slice (i := 0) (by rw [List.length_drop]; omega)
  have hrest : s.mem.Holds (data + (ep.transferred + dmaBufferSize))
      (source.drop (ep.transferred + dmaBufferSize)) := by
    rw [← Nat.add_assoc, ← List.drop_drop]
    exact holds_drop hsource
  rw [epInFill_ep1 h (by omega) hoff (by omega), hdata, hslice]
  refine ⟨_, rfl, ?_⟩
  have haligned := h.aligned
  split
  · -- the data is where it is sent from
    rename_i hdirect
    have hle : source.length ≤ dmaBufferSize := by
      rcases hapart with hle | hbelow | habove
      · exact hle
      · omega
      · omega
    have hstart : ep.transferred = 0 := by
      rw [Nat.mod_eq_of_lt (by omega)] at haligned
      exact haligned
    refine ⟨hrest, ?_⟩
    rw [hstart] at hsource ⊢
    rw [List.drop_zero, List.take_of_length_le hle, hdirect]
    exact hsource
  · have hpart : ((source.drop ep.transferred).take dmaBufferSize).length ≤
        dmaBufferSize := by
      rw [List.length_take]
      exact Nat.min_le_left _ _
    refine ⟨?_, ByteMemory.holds_write⟩
    by_cases hmore : ep.transferred + dmaBufferSize < source.length
    · refine holds_write_of_apart hrest ?_
      rw [List.length_drop]
      rcases hapart with hle | hbelow | habove
      · omega
      · exact .inl (by omega)
      · exact .inr (by omega)
    · have hnil : source.drop (ep.transferred + dmaBufferSize) = [] :=
        List.drop_of_length_le (by omega)
      rw [hnil]
      exact ByteMemory.holds_nil

/-- The window behind `sent` bytes is sent. -/
theorem epInSend_source (h : ep.CanSendEp1 dmaPage)
    (hdata : ep.transferData = data) (hsize : ep.transferSize = source.length)
    (hsent : ep.transferred = sent) (hlt : sent < source.length)
    (hlength : source.length < transferZlp)
    (hsource : s.mem.Holds (data + sent) (source.drop sent))
    (hapart : SourceApart dmaPage data source.length) :
    ∃ s', (s.setEndpoint .ep1In ep).epInSend .ep1In = .ok s' ∧
      SendingEp1 dmaPage data source sent s' := by
  subst hsent
  have hwindow : ep.windowSize =
      min (source.length - ep.transferred) dmaBufferSize := by
    rw [EndpointState.windowSize, if_neg (by omega), hsize]
  obtain ⟨s', hfill, hsource', hpart⟩ := epInFill_source h hdata hsize hlt hlength
    hsource hapart (x := ⟨0, ep.windowSize, windowPackets ep.windowSize⟩) rfl
    hwindow
  rw [epInSend_ep1 h, hfill, Outcome.ok_bind]
  refine ⟨_, rfl, ?_⟩
  constructor
  case info => simpa using h.info
  case xferDma => simpa using h.xferDma
  case transferData => simpa using hdata
  case transferSize => simpa using hsize
  case transferred => simp
  case inFlight => simpa using hwindow
  case sent_lt => exact hlt
  case aligned => exact h.aligned
  case rest => exact hsource'
  case window => exact hpart
  case armed => simp [EndpointState.transferOf]

/-! ## Completions -/

theorem epInSent_source (h : SendingEp1 dmaPage data source sent s)
    (hlength : source.length < transferZlp) :
    epInSent (s.endpoint .ep1In) =
      { s.endpoint .ep1In with
        transferred := min source.length (sent + dmaBufferSize)
        inFlight := 0 } := by
  have hlt := h.sent_lt
  have hsize := h.transferSize
  unfold transferZlp at hlength
  have hsum : sent + min (source.length - sent) dmaBufferSize =
      min source.length (sent + dmaBufferSize) := by omega
  rw [epInSent, h.transferred, h.inFlight, hsum, Nat.mod_eq_of_lt (by omega),
    if_neg (by rw [hsize]; unfold transferZlp; omega)]

/-- How a completion goes on. -/
theorem epInSendDone_eq (hinfo : (s.endpoint .ep1In).info = epInfo dmaPage .ep1In)
    (hep : epInSent (s.endpoint .ep1In) = ep) :
    (s.disarm .ep1In).epInSendDone .ep1In =
      if ep.transferred = ep.transferSize then
        if 0 < ep.transferSize ∧ ep.transferSize % intrEpMaxPacketSize = 0 then
          ((s.disarm .ep1In).setEndpoint .ep1In ep.zlpNext).epInSend .ep1In >>=
            fun s' => .ok (false, s')
        else .ok (true, (s.disarm .ep1In).setEndpoint .ep1In ep)
      else
        ((s.disarm .ep1In).setEndpoint .ep1In ep).epInSend .ep1In >>=
          fun s' => .ok (false, s') := by
  have hmps : ep.info.maxPacketSize = intrEpMaxPacketSize := by
    rw [← hep, epInSent, hinfo]
    rfl
  rw [epInSendDone, disarm_endpoint, hinfo, bugIf_of_not (by simp [epInfo]),
    Outcome.ok_bind, hep]
  simp only [hmps]
  rfl

/-- The windows that are sent from a state on, with the bytes that the controller
finds for each, up to the completion of the transfer. -/
inductive SendsWindows : Controller → List (Transfer × List UInt8) → Prop where
  | last {s s' : Controller} {t : Transfer} : s.armed .ep1In = some t →
      (s.disarm .ep1In).epInSendDone .ep1In = .ok (true, s') →
      SendsWindows s [(t, s.packet t)]
  | next {s s' : Controller} {t : Transfer} {ws : List (Transfer × List UInt8)} :
      s.armed .ep1In = some t →
      (s.disarm .ep1In).epInSendDone .ep1In = .ok (false, s') →
      SendsWindows s' ws → SendsWindows s ((t, s.packet t) :: ws)

theorem SendsWindows.unique {ws ws' : List (Transfer × List UInt8)}
    (h : SendsWindows s ws) (h' : SendsWindows s ws') : ws = ws' := by
  induction h generalizing ws' with
  | last harmed hdone =>
      cases h' with
      | last harmed' _ =>
          rw [Option.some.inj (harmed.symm.trans harmed')]
      | next _ hdone' _ =>
          rw [hdone] at hdone'
          cases hdone'
  | next harmed hdone _ ih =>
      cases h' with
      | last _ hdone' =>
          rw [hdone] at hdone'
          cases hdone'
      | next harmed' hdone' hrest =>
          rw [hdone] at hdone'
          cases hdone'
          rw [Option.some.inj (harmed.symm.trans harmed'), ih hrest]

/-- The window with these bytes. -/
def ep1Window (dmaPage : ℕ) (bytes : List UInt8) : Transfer × List UInt8 :=
  (⟨(dmaBuffer dmaPage 2).phys, bytes.length, windowPackets bytes.length, true⟩,
    bytes)

theorem transferOf_dmaBuffer {x : Xfer} (hoff : x.dmaOffset = 0)
    (h : ep.xferDma = dmaBuffer dmaPage 2) :
    ep.transferOf x true =
      ⟨(dmaBuffer dmaPage 2).phys, x.hwXferSize, x.packetCount, true⟩ := by
  rw [EndpointState.transferOf, h, hoff, Nat.add_zero]
  simp only [dmaBuffer, Nat.mod_mod]

section Page

variable (hpage : InStaticMap dmaPage (4 * dmaBufferSize))
include hpage

theorem packet_dmaBuffer {n k : ℕ} :
    s.packet ⟨(dmaBuffer dmaPage 2).phys, n, k, true⟩ =
      s.mem.bytesAt (dmaBuffer dmaPage 2).data n := by
  have haddr := dmaBuffer_address (k := 2) hpage (by decide)
    (show 0 < dmaBufferSize by decide)
  rw [Nat.add_zero, Nat.add_zero] at haddr
  rw [packet, ← haddr, dmaBuffer]
  simp only [Nat.mod_mod]

/-- The window that is on its way. -/
theorem SendingEp1.ep1Window (h : SendingEp1 dmaPage data source sent s) :
    ∃ t, s.armed .ep1In = some t ∧ (t, s.packet t) =
      Controller.ep1Window dmaPage ((source.drop sent).take dmaBufferSize) := by
  have hlt := h.sent_lt
  have hlength : ((source.drop sent).take dmaBufferSize).length =
      (s.endpoint .ep1In).inFlight := by
    rw [List.length_take, List.length_drop, h.inFlight, Nat.min_comm]
  refine ⟨_, h.armed, ?_⟩
  rw [transferOf_dmaBuffer rfl h.xferDma, packet_dmaBuffer hpage,
    Controller.ep1Window, hlength]
  exact congrArg (Prod.mk _) (hlength ▸ h.window)

theorem SendingEp1Zlp.ep1Window (h : SendingEp1Zlp dmaPage s) :
    ∃ t, s.armed .ep1In = some t ∧
      (t, s.packet t) = Controller.ep1Window dmaPage [] := by
  refine ⟨_, h.armed, ?_⟩
  rw [transferOf_dmaBuffer rfl h.xferDma, packet_dmaBuffer hpage]
  rfl

end Page

/-! ## Runs -/

theorem SendingEp1Zlp.done (h : SendingEp1Zlp dmaPage s) :
    ∃ s', (s.disarm .ep1In).epInSendDone .ep1In = .ok (true, s') := by
  have hsent : epInSent (s.endpoint .ep1In) =
      { s.endpoint .ep1In with
        transferred := 0
        transferSize := 0
        inFlight := 0 } := by
    rw [epInSent, h.transferred, h.inFlight, if_pos h.transferSize, Nat.add_zero,
      Nat.zero_mod]
  rw [epInSendDone_eq h.info hsent, if_pos rfl, if_neg (by simp)]
  exact ⟨_, rfl⟩

section Source

variable (hlength : source.length < transferZlp)
include hlength

theorem SendingEp1.short (h : SendingEp1 dmaPage data source sent s)
    (hlast : source.length ≤ sent + dmaBufferSize)
    (hpart : source.length % intrEpMaxPacketSize ≠ 0) :
    ∃ s', (s.disarm .ep1In).epInSendDone .ep1In = .ok (true, s') := by
  rw [epInSendDone_eq h.info (epInSent_source h hlength),
    if_pos]
  · rw [if_neg]
    · exact ⟨_, rfl⟩
    · simp only [h.transferSize]
      exact fun hfull => hpart hfull.2
  · simp only [h.transferSize]
    exact Nat.min_eq_left hlast

theorem SendingEp1.more (h : SendingEp1 dmaPage data source sent s)
    (hapart : SourceApart dmaPage data source.length)
    (hmore : sent + dmaBufferSize < source.length) :
    ∃ s', (s.disarm .ep1In).epInSendDone .ep1In = .ok (false, s') ∧
      SendingEp1 dmaPage data source (sent + dmaBufferSize) s' := by
  rw [epInSendDone_eq h.info (epInSent_source h hlength),
    if_neg]
  · have hnext : min source.length (sent + dmaBufferSize) =
        sent + dmaBufferSize := Nat.min_eq_right (Nat.le_of_lt hmore)
    rw [hnext]
    have hcan : ({ s.endpoint .ep1In with
        transferred := sent + dmaBufferSize
        inFlight := 0 } : EndpointState).CanSendEp1 dmaPage :=
      ⟨h.info, h.xferDma, rfl, by simpa using h.aligned,
        .inr ⟨h.transferSize ▸ hmore, h.transferSize ▸ hlength⟩⟩
    obtain ⟨s', hsend, hnext⟩ := epInSend_source (s := s.disarm .ep1In) hcan
      h.transferData h.transferSize rfl hmore hlength h.rest hapart
    exact ⟨s', hsend ▸ rfl, hnext⟩
  · simp only [h.transferSize]
    omega

end Source

end Controller

end PongoOS
