import PongoOS.Usb.Upload

/-!
# What the driver does to an upload

Each step of the driver is one step of the upload.  Most requests use EP0 alone
and leave the upload as it is.
-/

namespace PongoOS

namespace Usb

/-! ## Using one endpoint -/

/-- From `s` to `s'` only `e` was used, and the control transfer and the upload
are as they were. -/
structure Uses (e : Ep) (s s' : Usb) : Prop where
  hw : s.hw.Uses e s'.hw
  setupPacket : s'.setupPacket = s.setupPacket
  dataOutStageCallback : s'.dataOutStageCallback = s.dataOutStageCallback
  loader : s'.loader = s.loader
  outTransferDone : s'.outTransferDone = s.outTransferDone
  blocks : s'.blocks = s.blocks

section Uses

variable {e e' : Ep} {s s₁ s' : Usb} {hw : Controller} {b : Bool}
  {p : SetupPacket} {env : UsbEnv} {n : ℕ} {data : List UInt8}
  {callback : Option StatusOutCallback}

theorem Uses.refl : s.Uses e s := ⟨Controller.Uses.refl, rfl, rfl, rfl, rfl, rfl⟩

theorem Uses.trans (h : s.Uses e s₁) (h' : s₁.Uses e s') : s.Uses e s' :=
  ⟨h.hw.trans h'.hw, h'.setupPacket.trans h.setupPacket,
    h'.dataOutStageCallback.trans h.dataOutStageCallback,
    h'.loader.trans h.loader, h'.outTransferDone.trans h.outTransferDone,
    h'.blocks.trans h.blocks⟩

theorem Uses.setHw (h : s.hw.Uses e hw) : s.Uses e (s.setHw hw) :=
  ⟨h, rfl, rfl, rfl, rfl, rfl⟩

theorem epStall_uses : s.Uses e (s.epStall e') :=
  Uses.setHw ⟨fun _ _ => rfl, rfl⟩

theorem usbSetAddress_uses : s.Uses e (s.usbSetAddress n) :=
  Uses.setHw ⟨fun _ _ => rfl, rfl⟩

theorem stallAfterSetup_uses : s.Uses e s.stallAfterSetup := by
  unfold stallAfterSetup
  split
  · exact epStall_uses
  · split
    · exact epStall_uses
    · exact epStall_uses

theorem beginStatusIn_uses (h : s.beginStatusIn = .ok s') : s.Uses .ep0In s' := by
  simp only [beginStatusIn, Outcome.bind_eq_ok, Outcome.pure_eq_ok] at h
  obtain ⟨hw, hsend, rfl⟩ := h
  exact Uses.setHw (Controller.epInSendData_uses hsend)

theorem beginStatusOut_uses (h : s.beginStatusOut = .ok s') :
    s.Uses .ep0Out s' := by
  simp only [beginStatusOut, Outcome.bind_eq_ok, Outcome.pure_eq_ok] at h
  obtain ⟨hw₁, hdata, hw, hrecv, rfl⟩ := h
  exact Uses.setHw ((Controller.epOutRecvData_uses hdata).trans
    (Controller.epOutRecv_uses hrecv))

theorem ep0BeginDataInStage_uses
    (h : s.ep0BeginDataInStage data callback = .ok s') : s.Uses .ep0In s' := by
  simp only [ep0BeginDataInStage, Outcome.bind_eq_ok, Outcome.pure_eq_ok] at h
  obtain ⟨-, -, hw, hsend, rfl⟩ := h
  have huses := Controller.epInSendData_uses hsend
  exact ⟨Controller.Uses.trans Controller.Uses.setMem huses, rfl, rfl, rfl, rfl,
    rfl⟩

theorem reply_uses (h : s.reply data callback = .ok (b, s')) :
    s.Uses .ep0In s' := by
  simp only [reply, Outcome.bind_eq_ok, Outcome.pure_eq_ok, Prod.mk.injEq] at h
  obtain ⟨s₁, hbegin, -, rfl⟩ := h
  exact ep0BeginDataInStage_uses hbegin

theorem refused_uses {s s' : Usb}
    (h : (.ok (false, s) : Outcome (Bool × Usb)) = .ok (b, s')) :
    s.Uses e s' := by
  cases h
  exact Uses.refl

theorem getStringDescriptor_uses (h : s.getStringDescriptor env n = .ok (b, s')) :
    s.Uses .ep0In s' := by
  unfold getStringDescriptor at h
  split at h
  · exact refused_uses h
  · exact reply_uses h

theorem ep0GetDescriptorRequest_uses
    (h : s.ep0GetDescriptorRequest env p = .ok (b, s')) : s.Uses .ep0In s' := by
  unfold ep0GetDescriptorRequest at h
  split at h
  · exact reply_uses h
  · exact reply_uses h
  · exact getStringDescriptor_uses h
  · exact refused_uses h

theorem ep0StandardRequest_uses
    (h : s.ep0StandardRequest env p = .ok (b, s')) : s.Uses .ep0In s' := by
  unfold ep0StandardRequest at h
  split at h
  · split at h
    · exact ep0GetDescriptorRequest_uses h
    · exact reply_uses h
    · exact reply_uses h
    · exact refused_uses h
  · split at h
    · cases h
      exact usbSetAddress_uses
    · cases h
      exact Uses.refl
    · cases h
      exact Uses.refl
    · exact refused_uses h

theorem ep0DeviceInRequest_uses
    (h : s.ep0DeviceInRequest env p = .ok (b, s')) : s.Uses .ep0In s' := by
  unfold ep0DeviceInRequest at h
  split at h
  · exact reply_uses h
  · split at h
    · exact reply_uses h
    · exact refused_uses h

end Uses

/-! ## Requests -/

/-- What a request does to the upload. -/
inductive SetupEffect (s s' : Usb) : Prop where
  | answers (h : s.Uses .ep0In s')
  | expects (callback : DataOutCallback)
      (hwait : callback = .reallocateLoaderXferData →
        s.loader.isWaitingXfer = false)
      (h : (s.setDataOutStageCallback (some callback)).Uses .ep0Out s')
  | starts (hwait : s.loader.isWaitingXfer = false)
      (h : s.waitForUpload.beginUpload = .ok s')
  | discards
      (h : s' = s.setLoader { s.loader with xferRecvCount := 0 })

section Requests

variable {s s' : Usb} {b : Bool} {p : SetupPacket} {env : UsbEnv}
  {callback : DataOutCallback}

theorem expect_effect (h : s.expect callback = .ok (b, s'))
    (hwait : callback = .reallocateLoaderXferData →
      s.loader.isWaitingXfer = false) : SetupEffect s s' := by
  simp only [expect, ep0BeginDataOutStage, Outcome.bind_eq_ok, Outcome.pure_eq_ok,
    Prod.mk.injEq] at h
  obtain ⟨-, ⟨-, -, hw, hdata, rfl⟩, -, rfl⟩ := h
  exact .expects callback hwait
    (Uses.setHw (Controller.epOutRecvData_uses hdata))

theorem refused_effect
    (h : (.ok (false, s) : Outcome (Bool × Usb)) = .ok (b, s')) :
    SetupEffect s s' :=
  .answers (refused_uses h)

theorem ep0DeviceOutRequest_effect
    (h : s.ep0DeviceOutRequest p = .ok (b, s')) : SetupEffect s s' := by
  unfold ep0DeviceOutRequest at h
  split at h
  · split at h
    · exact refused_effect h
    · rename_i hwait
      simp only [Outcome.bind_eq_ok, Outcome.pure_eq_ok, Prod.mk.injEq] at h
      obtain ⟨s₁, hbegin, -, rfl⟩ := h
      exact .starts (Bool.eq_false_iff.mpr hwait) hbegin
  · split at h
    · cases h
      split
      · exact .answers Uses.refl
      · exact .discards rfl
    · split at h
      · exact expect_effect h (by rintro ⟨⟩)
      · split at h
        · cases h
          exact .answers ⟨Controller.Uses.refl, rfl, rfl, rfl, rfl, rfl⟩
        · split at h
          · cases h
            exact .answers ⟨Controller.Uses.refl, rfl, rfl, rfl, rfl, rfl⟩
          · split at h
            · cases h
              exact .answers ⟨Controller.Uses.refl, rfl, rfl, rfl, rfl, rfl⟩
            · split at h
              · split at h
                · exact refused_effect h
                · rename_i hwait
                  exact expect_effect h fun _ => Bool.eq_false_iff.mpr hwait
              · exact refused_effect h

theorem ep0DeviceRequest_effect
    (h : s.ep0DeviceRequest env p = .ok (b, s')) : SetupEffect s s' := by
  unfold ep0DeviceRequest at h
  split at h
  · exact ep0DeviceOutRequest_effect h
  · split at h
    · exact .answers (ep0DeviceInRequest_uses h)
    · exact refused_effect h

theorem ep0VendorRequest_effect
    (h : s.ep0VendorRequest p = .ok (b, s')) : SetupEffect s s' := by
  unfold ep0VendorRequest at h
  split at h
  · split at h
    · exact refused_effect h
    · exact expect_effect h nofun
  · exact refused_effect h

theorem ep0SetupStage_effect
    (h : s.ep0SetupStage env p = .ok (b, s')) : SetupEffect s s' := by
  unfold ep0SetupStage at h
  split at h
  · exact .answers (ep0StandardRequest_uses h)
  · exact ep0DeviceRequest_effect h
  · exact ep0VendorRequest_effect h
  · exact refused_effect h

end Requests

/-! ## The upload in the state -/

/-- A request to change the size of the buffer waits for its data. -/
def resizing (s : Usb) : Bool :=
  (s.hw.endpoint .ep0Out).inFlight = recvData ∧ s.setupPacket.isIn = false ∧
    s.dataOutStageCallback = some .reallocateLoaderXferData

def upload (s : Usb) : Upload where
  loader := s.loader
  callback := s.outTransferDone
  endpoint := s.hw.endpoint .ep2Out
  armed := s.hw.armed .ep2Out
  blocks := s.blocks
  resizing := s.resizing

section Projection

variable {s s' : Usb} {e : Ep}

/-- Two states with the same upload part, but for a request that waits. -/
theorem upload_eq (hside : s'.hw.side .ep2Out = s.hw.side .ep2Out)
    (hloader : s'.loader = s.loader)
    (hcallback : s'.outTransferDone = s.outTransferDone)
    (hblocks : s'.blocks = s.blocks) :
    s'.upload = { s.upload with resizing := s'.resizing } := by
  rw [upload, hloader, hcallback, hblocks,
    Controller.endpoint_of_side hside, Controller.armed_of_side hside]
  rfl

theorem resizing_eq
    (hinFlight : (s'.hw.endpoint .ep0Out).inFlight =
      (s.hw.endpoint .ep0Out).inFlight)
    (hsetup : s'.setupPacket = s.setupPacket)
    (hcallback : s'.dataOutStageCallback = s.dataOutStageCallback) :
    s'.resizing = s.resizing := by
  rw [resizing, resizing, hinFlight, hsetup, hcallback]

theorem resizing_of_inFlight (h : (s.hw.endpoint .ep0Out).inFlight ≠ recvData) :
    s.resizing = false := by
  simp [resizing, h]

theorem resizing_of_callback
    (h : s.dataOutStageCallback ≠ some .reallocateLoaderXferData) :
    s.resizing = false := by
  simp [resizing, h]

theorem resizing_of_isIn (h : s.setupPacket.isIn = true) :
    s.resizing = false := by
  simp [resizing, h]

theorem Uses.upload_eq (h : s.Uses e s') (he : e ≠ .ep2Out) :
    s'.upload = { s.upload with resizing := s'.resizing } :=
  Usb.upload_eq (h.hw.side _ (Ne.symm he)) h.loader h.outTransferDone h.blocks

/-- A use of EP0 that leaves the data expected on EP0 OUT as it is leaves the
upload as it is. -/
theorem Uses.upload_same (h : s.Uses e s') (he : e ≠ .ep2Out)
    (hinFlight : (s'.hw.endpoint .ep0Out).inFlight =
      (s.hw.endpoint .ep0Out).inFlight) : s'.upload = s.upload := by
  rw [h.upload_eq he, resizing_eq hinFlight h.setupPacket h.dataOutStageCallback]
  rfl

theorem Uses.upload_same_of_ep0In (h : s.Uses .ep0In s') :
    s'.upload = s.upload := by
  refine h.upload_same nofun ?_
  rw [Controller.endpoint_of_side (h.hw.side .ep0Out nofun)]

end Projection

end Usb

/-! ## Transfers -/

namespace Controller

variable {s s' : Controller} {e : Ep} {b : Bool} {left : Residue}
  {data dma size : ℕ}

theorem epOutRecv_inFlight (h : s.epOutRecv e = .ok s') :
    (s'.endpoint e).inFlight = (s.endpoint e).inFlight := by
  simp only [epOutRecv, Outcome.bind_eq_ok, Outcome.pure_eq_ok] at h
  obtain ⟨-, -, -, -, -, -, x, -, rfl⟩ := h
  simp only [arm_endpoint, setEndpoint_endpoint, Function.update_self]
  split <;> rfl

/-- A transfer that is under way is continued. -/
theorem epOutRecv_receiving (h : s.epOutRecv e = .ok s')
    (hrecv : (s.endpoint e).inFlight = recvData) :
    ∃ x, (s.endpoint e).epOutRecvComputeXfer = .ok x ∧
      s'.side e = (s.endpoint e, some ((s.endpoint e).transferOf x true)) := by
  simp only [epOutRecv, Outcome.bind_eq_ok, Outcome.pure_eq_ok, hrecv, ne_eq,
    not_true_eq_false, if_false] at h
  obtain ⟨-, -, -, -, -, -, x, hx, rfl⟩ := h
  exact ⟨x, hx, by simp [side]⟩

theorem epOutRecvDataDone_inFlight
    (h : s.epOutRecvDataDone e left = .ok (b, s')) :
    (s'.endpoint e).inFlight =
      if b then 0 else (s.endpoint e).inFlight := by
  simp only [epOutRecvDataDone, Outcome.bind_eq_ok] at h
  obtain ⟨-, -, x, -, s₁, hcopy, h⟩ := h
  split at h
  · simp only [Outcome.pure_eq_ok, Prod.mk.injEq] at h
    obtain ⟨rfl, rfl⟩ := h
    simp
  · split at h
    · simp only [Outcome.bind_eq_ok, Outcome.pure_eq_ok, Prod.mk.injEq] at h
      obtain ⟨s₂, hrecv, rfl, rfl⟩ := h
      rw [epOutRecv_inFlight hrecv]
      simp [epOutReceived]
    · simp only [Outcome.pure_eq_ok, Prod.mk.injEq] at h
      obtain ⟨rfl, rfl⟩ := h
      simp [epOutReceived]

/-- On an endpoint other than EP0 the transfer is done or goes on. -/
theorem epOutRecvDataDone_cases
    (h : s.epOutRecvDataDone e left = .ok (b, s'))
    (hn : (s.endpoint e).info.n ≠ 0) :
    (s.endpoint e).inFlight = recvData ∧
      ∃ x, (s.endpoint e).epOutRecvComputeXfer = .ok x ∧
        let received := sub32 x.hwXferSize left.size
        let ep := epOutReceived (s.endpoint e) received
        ((ep.transferSize ≤ ep.transferred ∨
            partialPacket (s.endpoint e) x left = true) ∧
          b = true ∧ s'.side e = ({ ep with inFlight := 0 }, s.armed e)) ∨
        (¬ (ep.transferSize ≤ ep.transferred ∨
            partialPacket (s.endpoint e) x left = true) ∧
          b = false ∧ ∃ x', ep.epOutRecvComputeXfer = .ok x' ∧
            s'.side e = (ep, some (ep.transferOf x' true))) := by
  simp only [epOutRecvDataDone, Outcome.bind_eq_ok, bugIf_eq_ok] at h
  obtain ⟨-, hexpected, x, hx, s₁, hcopy, h⟩ := h
  have hrecv : (s.endpoint e).inFlight = recvData :=
    of_not_not fun hne => hexpected (Or.inr hne)
  obtain ⟨m, rfl⟩ := epOutCopy_eq hcopy
  refine ⟨hrecv, x, hx, ?_⟩
  split at h
  · rename_i hdone
    simp only [Outcome.pure_eq_ok, Prod.mk.injEq] at h
    obtain ⟨rfl, rfl⟩ := h
    exact Or.inl ⟨hdone, rfl, by simp [side]⟩
  · rename_i hdone
    simp only [Outcome.bind_eq_ok, Outcome.pure_eq_ok, Prod.mk.injEq] at h
    obtain ⟨s₂, hresume, rfl, rfl⟩ := h
    have hside := epOutRecv_receiving hresume (by simp [epOutReceived, hrecv])
    simp only [setEndpoint_endpoint, Function.update_self] at hside
    exact Or.inr ⟨hdone, rfl, hside⟩

theorem epOutRecvDataDma_ok (h : s.epOutRecvDataDma e data dma size = .ok s')
    (hn : (s.endpoint e).info.n ≠ 0) :
    (s.endpoint e).inFlight = 0 ∧ 0 < size ∧
      size % (s.endpoint e).info.maxPacketSize = 0 ∧
      let ep := (s.endpoint e).begun ⟨data, size, dma⟩ data size recvData
      ∃ x, ep.epOutRecvComputeXfer = .ok x ∧
        s'.side e = (ep, some (ep.transferOf x true)) := by
  simp only [epOutRecvDataDma, epOutRecvDataCommon, if_pos hn, Outcome.bind_eq_ok,
    bugIf_eq_ok, not_or] at h
  obtain ⟨-, ⟨-, hidle, -, hpos, haligned⟩, hrecv⟩ := h
  have hside := epOutRecv_receiving hrecv (by simp)
  simp only [setEndpoint_endpoint, Function.update_self] at hside
  exact ⟨of_not_not hidle, Nat.pos_of_ne_zero hpos, of_not_not haligned, hside⟩

end Controller

end PongoOS
