import PongoOS.Usb.UploadSteps

/-!
# Uploads in the runs of the driver

Every step of the driver is a step of the upload, and a bus reset is the only one
that takes the transfer away.
-/

namespace PongoOS

namespace Usb

/-! ## Starting an upload -/

/-- The upload makes a step other than a bus reset. -/
structure Moves (dmaPage : ℕ) (s s' : Usb) : Prop where
  info : ∀ e, (s'.hw.endpoint e).info = (s.hw.endpoint e).info
  upload : ∃ a, (∀ keeps, a ≠ .reset keeps) ∧
    UploadStep dmaPage s.upload a s'.upload

section Moves

variable {dmaPage n : ℕ} {s s₁ s' : Usb} {e : Ep} {env : UsbEnv} {b : Bool}
  {data : List UInt8} {callback : DataOutCallback} {left : Residue}
  {packet : SetupPacket} {d : UInt32}

/-- Only the request to change the size of the buffer is settled. -/
theorem Moves.other (hinfo : ∀ e, (s'.hw.endpoint e).info = (s.hw.endpoint e).info)
    (hupload : s'.upload = { s.upload with resizing := s'.resizing })
    (hr : s'.resizing = true →
      s.resizing = true ∨ s.loader.isWaitingXfer = false) :
    Moves dmaPage s s' :=
  ⟨hinfo, .other s'.resizing, nofun, hr, hupload⟩

theorem Moves.of_same
    (hinfo : ∀ e, (s'.hw.endpoint e).info = (s.hw.endpoint e).info)
    (hupload : s'.upload = s.upload) : Moves dmaPage s s' := by
  have hr : s'.resizing = s.resizing := congrArg Upload.resizing hupload
  refine Moves.other hinfo ?_ fun h => Or.inl (hr ▸ h)
  rw [hupload, hr]
  rfl

theorem Uses.moves (h : s.Uses .ep0In s') : Moves dmaPage s s' :=
  .of_same h.hw.info_eq h.upload_same_of_ep0In

theorem Moves.of_before
    (hinfo : ∀ e, (s₁.hw.endpoint e).info = (s.hw.endpoint e).info)
    (hupload : s₁.upload = s.upload) (h : Moves dmaPage s₁ s') :
    Moves dmaPage s s' :=
  ⟨fun e => (h.info e).trans (hinfo e), hupload ▸ h.upload⟩

theorem Moves.and_then (h : Moves dmaPage s s₁)
    (hinfo : ∀ e, (s'.hw.endpoint e).info = (s₁.hw.endpoint e).info)
    (hupload : s'.upload = s₁.upload) : Moves dmaPage s s' :=
  ⟨fun e => (hinfo e).trans (h.info e), hupload ▸ h.upload⟩

/-- The transfer that an upload starts. -/
theorem beginUpload_ok (h : s.beginUpload = .ok s')
    (hinfo : (s.hw.endpoint .ep2Out).info = epInfo dmaPage .ep2Out)
    (hresizing : s.resizing = false) :
    s.hw.Uses .ep2Out s'.hw ∧
      ∃ x, s.upload.CanBegin x ∧ s'.upload = s.upload.begin x := by
  simp only [beginUpload, usbOutTransferDma, Outcome.bind_eq_ok,
    Outcome.pure_eq_ok, bugIf_eq_ok] at h
  obtain ⟨-, hcallback, hw, hdma, rfl⟩ := h
  have huses := Controller.epOutRecvDataDma_uses hdma
  have hn : (s.hw.endpoint .ep2Out).info.n ≠ 0 := by
    rw [hinfo]
    exact (by decide : 2 ≠ 0)
  obtain ⟨hidle, hpos, haligned, x, hx, hside⟩ :=
    Controller.epOutRecvDataDma_ok hdma hn
  rw [hinfo] at haligned
  refine ⟨huses, x, ⟨of_not_not hcallback, hidle, hpos, haligned, hx⟩, ?_⟩
  have hep0 := Controller.endpoint_of_side (huses.side .ep0Out (by decide))
  have hresizing' :
      ((s.setOutTransferDone (some .usbloaderXferDoneCb)).setHw hw).resizing =
        false := by
    rw [← hresizing]
    exact resizing_eq (congrArg EndpointState.inFlight hep0) rfl rfl
  simp only [Controller.side, Prod.mk.injEq] at hside
  rw [Usb.upload, hresizing']
  simp only [setHw_hw, hside]
  rfl

/-! ## Changing the size of the buffer -/

theorem resizeLoaderXferData_ok (h : s.resizeLoaderXferData env n = .ok s')
    (halloc : env.Allocates s.blocks) :
    n ≤ uploadSzMax ∧ (∃ m, s'.hw = s.hw.setMem m) ∧
      ∃ place, s.upload.Fits n place ∧ s'.upload = s.upload.resized n place := by
  simp only [resizeLoaderXferData, Outcome.bind_eq_ok, panicIf_eq_ok] at h
  obtain ⟨-, hmax, h⟩ := h
  refine ⟨Nat.le_of_not_lt hmax, ?_⟩
  split at h
  · rename_i hlarger
    split at h
    · cases h
    · rename_i buf hbuf
      cases h
      obtain ⟨hmapped, hvacant⟩ := halloc n buf hbuf
      exact ⟨⟨_, rfl⟩, some buf, ⟨hlarger, hmapped, hvacant⟩, rfl⟩
  · rename_i hsmaller
    cases h
    exact ⟨⟨s.hw.mem, rfl⟩, none, Nat.le_of_not_lt hsmaller, rfl⟩

/-- The request is refused, or the buffer gets the new size and an upload
starts. -/
theorem reallocateLoaderXferData_ok
    (h : s.reallocateLoaderXferData env data = .ok (b, s'))
    (halloc : env.Allocates s.blocks)
    (hinfo : (s.hw.endpoint .ep2Out).info = epInfo dmaPage .ep2Out)
    (hresizing : s.resizing = false) :
    s' = s ∨ s.hw.Uses .ep2Out s'.hw ∧
      ∃ size place x, size ≤ uploadSzMax ∧ s.upload.Fits size place ∧
        ((s.upload.wait.resized size place).setXferSize size).CanBegin x ∧
        s'.upload =
          ((s.upload.wait.resized size place).setXferSize size).begin x := by
  simp only [reallocateLoaderXferData, Outcome.bind_eq_ok] at h
  obtain ⟨-, -, h⟩ := h
  split at h
  · cases h
    exact Or.inl rfl
  · simp only [Outcome.bind_eq_ok, Outcome.pure_eq_ok, Prod.mk.injEq] at h
    obtain ⟨s₁, hresize, s₂, hbegin, -, rfl⟩ := h
    obtain ⟨hmax, ⟨m, hm⟩, place, hfits, hupload⟩ :=
      resizeLoaderXferData_ok hresize halloc
    have hresizing' : s₁.resizing = false := by
      refine (congrArg Upload.resizing hupload).trans ?_
      cases place <;> exact hresizing
    have hinfo' : (s₁.hw.endpoint .ep2Out).info = epInfo dmaPage .ep2Out := by
      rw [hm]
      exact hinfo
    obtain ⟨huses, x, hx, hbegun⟩ := beginUpload_ok hbegin hinfo' hresizing'
    have hset : ∀ size, (s₁.setLoader { s₁.loader with xferSize := size }).upload =
        (s.waitForUpload.upload.resized (roundedSize (littleEndian data))
          place).setXferSize size := fun size => by rw [← hupload]; rfl
    rw [hset] at hx hbegun
    refine Or.inr ⟨?_, _, place, x, hmax, ?_, hx, hbegun⟩
    · have hmem : s.hw.Uses .ep2Out s₁.hw := by
        rw [hm]
        exact Controller.Uses.setMem
      exact hmem.trans huses
    · cases place <;> exact hfits

/-! ## DATA OUT stages -/

/-- What the callback of a DATA OUT stage does to the upload. -/
theorem dataOutStage_ok (h : s.dataOutStage env callback data = .ok (b, s'))
    (halloc : env.Allocates s.blocks)
    (hinfo : (s.hw.endpoint .ep2Out).info = epInfo dmaPage .ep2Out)
    (hresizing : s.resizing = false) :
    s.hw.Uses .ep2Out s'.hw ∧
      (s'.upload = s.upload ∨ callback = .reallocateLoaderXferData ∧
        ∃ size place x, size ≤ uploadSzMax ∧ s.upload.Fits size place ∧
          ((s.upload.wait.resized size place).setXferSize size).CanBegin x ∧
          s'.upload =
            ((s.upload.wait.resized size place).setXferSize size).begin x) := by
  cases callback with
  | ktrwRecvDone =>
      simp only [dataOutStage, ktrwRecvDone] at h
      split at h
      · cases h
        exact ⟨Controller.Uses.refl, Or.inl rfl⟩
      · cases h
        exact ⟨Controller.Uses.refl, Or.inl rfl⟩
  | usbWriteStdin =>
      cases h
      exact ⟨Controller.Uses.refl, Or.inl rfl⟩
  | reallocateLoaderXferData =>
      rcases reallocateLoaderXferData_ok h halloc hinfo hresizing with
        rfl | ⟨huses, hresize⟩
      · exact ⟨Controller.Uses.refl, Or.inl rfl⟩
      · exact ⟨huses, Or.inr ⟨rfl, hresize⟩⟩

/-- The step from the state in which the request still waited. -/
theorem Moves.resize {size : ℕ} {place : Option ℕ} {x : Xfer}
    (hinfo : ∀ e, (s'.hw.endpoint e).info = (s.hw.endpoint e).info)
    (hep2 : (s.hw.endpoint .ep2Out).info = epInfo dmaPage .ep2Out)
    (hresizing : s.resizing = true)
    (hbefore : s₁.upload = { s.upload with resizing := false })
    (hmax : size ≤ uploadSzMax) (hfits : s₁.upload.Fits size place)
    (hx : ((s₁.upload.wait.resized size place).setXferSize size).CanBegin x)
    (hupload : s'.upload =
      ((s₁.upload.wait.resized size place).setXferSize size).begin x) :
    Moves dmaPage s s' := by
  rw [hbefore] at hfits hx hupload
  refine ⟨hinfo, .resize size place x, nofun, hresizing, hmax, ?_, hep2, ?_, ?_⟩
  · cases place <;> exact hfits
  · obtain ⟨h₁, h₂, h₃, h₄, h₅⟩ := hx
    cases place <;> exact ⟨h₁, h₂, h₃, h₄, h₅⟩
  · rw [hupload]
    cases place <;> rfl

theorem ep0DataOutDone_moves {s₀ : Usb}
    (h : s.ep0DataOutDone env data = .ok s')
    (halloc : env.Allocates s.blocks)
    (hinfo : ∀ e, (s.hw.endpoint e).info = (s₀.hw.endpoint e).info)
    (hep2 : (s₀.hw.endpoint .ep2Out).info = epInfo dmaPage .ep2Out)
    (hdone : (s.hw.endpoint .ep0Out).inFlight = 0)
    (hbefore : s.upload = { s₀.upload with resizing := false })
    (hwaits : s.dataOutStageCallback = some .reallocateLoaderXferData →
      s₀.resizing = true) : Moves dmaPage s₀ s' := by
  have hresizing : s.resizing = false :=
    resizing_of_inFlight (by rw [hdone]; decide)
  unfold ep0DataOutDone at h
  split at h
  · cases h
  · rename_i callback hcallback
    simp only [Outcome.bind_eq_ok] at h
    obtain ⟨⟨b, s₁⟩, hstage, h⟩ := h
    have hep2' := (hinfo .ep2Out).trans hep2
    obtain ⟨huses, hcases⟩ := dataOutStage_ok hstage halloc hep2' hresizing
    have hend : (s₁.setDataOutStageCallback none).Uses .ep0In s' := by
      split at h
      · exact beginStatusIn_uses h
      · cases h
        exact epStall_uses
    have hnone : (s₁.setDataOutStageCallback none).upload =
        { s₁.upload with resizing := false } := by
      rw [Usb.upload, resizing_of_callback (by simp)]
      rfl
    have hupload := hend.upload_same_of_ep0In.trans hnone
    have hinfo' : ∀ e, (s'.hw.endpoint e).info = (s₀.hw.endpoint e).info :=
      fun e => (hend.hw.info_eq e).trans ((huses.info_eq e).trans (hinfo e))
    rcases hcases with hsame | ⟨rfl, size, place, x, hmax, hfits, hx, hbegun⟩
    · have hr : s'.resizing = false := congrArg Upload.resizing hupload
      refine Moves.other hinfo' ?_ (by simp [hr])
      rw [hupload, hsame, hbefore, hr]
    · refine Moves.resize hinfo' hep2 (hwaits hcallback) hbefore hmax hfits hx ?_
      rw [hupload, hbegun]
      rfl

/-- A packet of a DATA OUT or STATUS OUT stage. -/
theorem ep0DataReceived_moves (h : s.ep0DataReceived env left = .ok s')
    (halloc : env.Allocates s.blocks)
    (hep2 : (s.hw.endpoint .ep2Out).info = epInfo dmaPage .ep2Out) :
    Moves dmaPage s s' := by
  simp only [ep0DataReceived, Outcome.bind_eq_ok] at h
  obtain ⟨⟨done, hw⟩, hrecv, h⟩ := h
  have huses := Controller.epOutRecvDataDone_uses hrecv
  have hinFlight := Controller.epOutRecvDataDone_inFlight hrecv
  have hside : (s.setHw hw).upload =
      { s.upload with resizing := (s.setHw hw).resizing } :=
    upload_eq (huses.side .ep2Out (by decide)) rfl rfl rfl
  cases done with
  | false =>
      simp only [if_true, Outcome.pure_eq_ok] at h
      obtain rfl := h
      have hr : (s.setHw hw).resizing = s.resizing :=
        resizing_eq hinFlight rfl rfl
      refine Moves.of_same huses.info_eq ?_
      rw [hside, hr]
      rfl
  | true =>
      have hidle : ((s.setHw hw).hw.endpoint .ep0Out).inFlight = 0 := hinFlight
      have hr : (s.setHw hw).resizing = false :=
        resizing_of_inFlight (by rw [hidle]; decide)
      rw [hr] at hside
      have hstop : ∀ {s'' : Usb}, (s.setHw hw).Uses .ep0In s'' →
          Moves dmaPage s s'' := by
        intro s'' hend
        have hupload := hend.upload_same_of_ep0In.trans hside
        have hr' : s''.resizing = false := congrArg Upload.resizing hupload
        refine Moves.other (fun e => (hend.hw.info_eq e).trans (huses.info_eq e))
          (by rw [hupload, hr']) (by simp [hr'])
      simp only [Bool.true_eq_false, if_false] at h
      split at h
      · split at h
        · cases h
          exact hstop epStall_uses
        · cases h
          exact hstop ⟨Controller.Uses.refl, rfl, rfl, rfl, rfl, rfl⟩
      · rename_i hout
        split at h
        · cases h
          exact hstop epStall_uses
        · refine ep0DataOutDone_moves h halloc huses.info_eq hep2 hidle hside ?_
          intro hcallback
          have hexpected : (s.hw.endpoint .ep0Out).inFlight = recvData := by
            simp only [Controller.epOutRecvDataDone, Outcome.bind_eq_ok,
              bugIf_eq_ok, not_or] at hrecv
            exact of_not_not hrecv.choose_spec.1.2
          have hout' : s.setupPacket.isIn = false := Bool.eq_false_iff.mpr hout
          have hcallback' : s.dataOutStageCallback =
              some .reallocateLoaderXferData := hcallback
          simp [resizing, hexpected, hout', hcallback']

/-! ## SETUP packets -/

/-- What a request does is a step of the upload. -/
theorem SetupEffect.moves (h : SetupEffect s s')
    (hcallback : s.dataOutStageCallback = none)
    (hep2 : (s.hw.endpoint .ep2Out).info = epInfo dmaPage .ep2Out) :
    Moves dmaPage s s' := by
  have hresizing : s.resizing = false :=
    resizing_of_callback (by rw [hcallback]; nofun)
  cases h with
  | answers h => exact h.moves
  | expects callback hwait h =>
      have hupload : s'.upload = { s.upload with resizing := s'.resizing } :=
        h.upload_eq nofun
      refine Moves.other h.hw.info_eq hupload fun hr => Or.inr (hwait ?_)
      by_contra hne
      have hcallback' : s'.dataOutStageCallback = some callback :=
        h.dataOutStageCallback
      rw [resizing_of_callback (by simp [hcallback', hne])] at hr
      cases hr
  | starts hwait h =>
      obtain ⟨huses, x, hx, hupload⟩ := beginUpload_ok h hep2 hresizing
      exact ⟨huses.info_eq, .start x, nofun, hwait, hep2, hx, hupload⟩
  | discards h =>
      rw [h]
      exact ⟨fun _ => rfl, .discard s.resizing, nofun, id, rfl⟩

/-- A SETUP packet is accepted only when no data is expected. -/
theorem ep0SetupReceived_ok (h : s.ep0SetupReceived packet = .ok s') :
    s.hw.Uses .ep0Out s'.hw ∧ s'.upload = s.upload ∧ s'.blocks = s.blocks ∧
      s'.dataOutStageCallback = none := by
  simp only [ep0SetupReceived, Outcome.bind_eq_ok, Outcome.pure_eq_ok] at h
  obtain ⟨hw, hdone, rfl⟩ := h
  have huses := Controller.epOutRecvSetupDone_uses hdone
  have hbefore : s.resizing = false := by
    simp only [Controller.epOutRecvSetupDone, Outcome.bind_eq_ok, bugIf_eq_ok,
      not_or] at hdone
    exact resizing_of_inFlight hdone.choose_spec.1.2.2
  have hafter : ((s.setHw hw).setSetupPacket packet).resizing = false :=
    resizing_of_callback (by rintro ⟨⟩)
  have hupload : ((s.setHw hw).setSetupPacket packet).upload =
      { s.upload with
        resizing := ((s.setHw hw).setSetupPacket packet).resizing } :=
    upload_eq (huses.side .ep2Out (by decide)) rfl rfl rfl
  refine ⟨huses, ?_, rfl, rfl⟩
  rw [hupload, hafter, ← hbefore]
  rfl

theorem ep0SetupDone_moves
    (h : s.ep0SetupDone (Usb.ep0SetupStage env) = .ok s')
    (hcallback : s.dataOutStageCallback = none)
    (hep2 : (s.hw.endpoint .ep2Out).info = epInfo dmaPage .ep2Out) :
    Moves dmaPage s s' := by
  simp only [ep0SetupDone, Outcome.bind_eq_ok] at h
  obtain ⟨⟨success, s₁⟩, hstage, h⟩ := h
  have heffect : Moves dmaPage s.clearSetupPacketPending s₁ := by
    split at hstage
    · exact (ep0SetupStage_effect hstage).moves hcallback hep2
    · cases hstage
      exact Moves.of_same (fun _ => rfl) rfl
  have hend : s₁.Uses .ep0In s' := by
    split at h
    · split at h
      · exact beginStatusIn_uses h
      · cases h
        exact Uses.refl
    · cases h
      exact stallAfterSetup_uses
  have hall := heffect.and_then hend.hw.info_eq hend.upload_same_of_ep0In
  exact ⟨hall.info, hall.upload⟩

/-! ## Interrupts -/

theorem setup_bits (d : UInt32) (h : d &&& 0x8008 = 0) : d &&& 8 = 0 := by
  calc d &&& 8 = d &&& (0x8008 &&& 8) := rfl
    _ = (d &&& 0x8008) &&& 8 := (UInt32.and_assoc d 0x8008 8).symm
    _ = 0 := by
      rw [h]
      rfl

theorem ep0OutInterrupt_moves
    (h : s.ep0OutInterrupt (Usb.ep0SetupStage env) env d packet left = .ok s')
    (halloc : env.Allocates s.blocks)
    (hep2 : (s.hw.endpoint .ep2Out).info = epInfo dmaPage .ep2Out) :
    Moves dmaPage s s' := by
  simp only [ep0OutInterrupt, Outcome.bind_eq_ok, Outcome.pure_eq_ok] at h
  obtain ⟨s₁, hsetup, s₂, hstage, -, -, hw, hrecv, rfl⟩ := h
  have hend : s₂.Uses .ep0Out (s₂.setHw hw) :=
    Uses.setHw (Controller.epOutRecv_uses hrecv)
  have hmiddle : Moves dmaPage s s₂ := by
    split at hsetup
    · rename_i hbits
      obtain ⟨huses, hupload, hblocks, hcallback⟩ := ep0SetupReceived_ok hsetup
      have hep2' := (huses.info_eq .ep2Out).trans hep2
      refine Moves.of_before huses.info_eq hupload ?_
      split at hstage
      · exact ep0SetupDone_moves hstage hcallback hep2'
      · rw [if_neg (fun hd => hbits hd.1)] at hstage
        cases hstage
        exact Moves.of_same (fun _ => rfl) rfl
    · rename_i hbits
      cases hsetup
      rw [if_neg (fun hd => hd.1 (setup_bits d (of_not_not hbits)))] at hstage
      split at hstage
      · exact ep0DataReceived_moves hstage halloc hep2
      · cases hstage
        exact Moves.of_same (fun _ => rfl) rfl
  refine hmiddle.and_then hend.hw.info_eq (hend.upload_same (by decide) ?_)
  exact Controller.epOutRecv_inFlight hrecv

theorem ep0InInterrupt_moves (h : s.ep0InInterrupt d = .ok s') :
    Moves dmaPage s s' := by
  simp only [ep0InInterrupt, Outcome.bind_eq_ok, Outcome.pure_eq_ok] at h
  obtain ⟨s₁, hdone, -, -, rfl⟩ := h
  split at hdone
  · simp only [Outcome.bind_eq_ok] at hdone
    obtain ⟨⟨done, hw⟩, hsend, hdone⟩ := hdone
    have huses : s.Uses .ep0In (s.setHw hw) :=
      Uses.setHw (Controller.epInSendDone_uses hsend)
    split at hdone
    · refine Moves.of_before huses.hw.info_eq huses.upload_same_of_ep0In ?_
      simp only [ep0InSent] at hdone
      split at hdone
      · rename_i hin
        split at hdone
        · exact (beginStatusIn_uses hdone).moves
        · have hend := beginStatusOut_uses hdone
          have hr : s₁.resizing = false :=
            resizing_of_isIn (by rw [hend.setupPacket]; exact hin)
          exact Moves.other hend.hw.info_eq (hend.upload_eq (by decide)) (by simp [hr])
      · cases hdone
        exact Moves.of_same (fun _ => rfl) rfl
    · cases hdone
      exact huses.moves
  · cases hdone
    exact Moves.of_same (fun _ => rfl) rfl

/-- The callback records how much was received. -/
theorem ep2OutDone_upload (h : s.ep2OutDone = .ok s') :
    s.outTransferDone ≠ none ∧ s'.hw = s.hw ∧
      s'.upload =
        { s.upload with
          callback := none
          loader :=
            if s.loader.isWaitingXfer = false then s.loader
            else
              { s.loader with
                xferRecvCount := (s.hw.endpoint .ep2Out).transferred
                isWaitingXfer := false } } := by
  unfold ep2OutDone at h
  dsimp only at h
  split at h
  · cases h
  · rename_i callback hcallback
    cases callback
    cases h
    refine ⟨by simp [hcallback], ?_, ?_⟩
    · unfold callOutTransferDone usbloaderXferDoneCb
      dsimp only
      split <;> rfl
    · unfold callOutTransferDone usbloaderXferDoneCb
      dsimp only
      split
      · rename_i hwait
        rw [if_pos (show s.loader.isWaitingXfer = false from hwait)]
        rfl
      · rename_i hwait
        rw [if_neg (show ¬ s.loader.isWaitingXfer = false from hwait)]
        rfl

theorem ep2Out_moves {t : Transfer} (ht : s.hw.armed .ep2Out = some t)
    (h : (s.setHw (s.hw.received .ep2Out d t data)).ep2OutInterrupt d
      ⟨t.size - data.length, n⟩ = .ok s')
    (hep2 : (s.hw.endpoint .ep2Out).info = epInfo dmaPage .ep2Out) :
    Moves dmaPage s s' := by
  simp only [ep2OutInterrupt, Outcome.bind_eq_ok, Outcome.pure_eq_ok] at h
  obtain ⟨s₁, hdone, -, -, rfl⟩ := h
  split at hdone
  · rename_i hbit
    simp only [Controller.received, if_pos hbit, Outcome.bind_eq_ok] at hdone
    obtain ⟨⟨done, hw⟩, hrecv, hdone⟩ := hdone
    have hn : ((s.hw.receive .ep2Out t data).endpoint .ep2Out).info.n ≠ 0 := by
      have hinfo : ((s.hw.receive .ep2Out t data).endpoint .ep2Out).info =
          epInfo dmaPage .ep2Out := hep2
      rw [hinfo]
      exact (by decide : 2 ≠ 0)
    obtain ⟨hreceiving, x, hx, hcases⟩ :=
      Controller.epOutRecvDataDone_cases hrecv hn
    have huses : s.hw.Uses .ep2Out hw := by
      have hreceive : s.hw.Uses .ep2Out (s.hw.receive .ep2Out t data) :=
        (Controller.Uses.setMem (m := _)).trans Controller.Uses.disarm
      exact hreceive.trans (Controller.epOutRecvDataDone_uses hrecv)
    have hr : (s.setHw hw).resizing = s.resizing :=
      resizing_eq (congrArg EndpointState.inFlight
        (Controller.endpoint_of_side (huses.side .ep0Out (by decide)))) rfl rfl
    have hupload : ∀ {ep armed}, hw.side .ep2Out = (ep, armed) →
        (s.setHw hw).upload = { s.upload with endpoint := ep, armed := armed } := by
      intro ep armed hside
      simp only [Controller.side, Prod.mk.injEq] at hside
      rw [Usb.upload, hr]
      simp only [setHw_hw, hside]
      rfl
    have hsignals : s.upload.Signals x ⟨t.size - data.length, n⟩ :=
      ⟨hreceiving, ⟨t, ht, Nat.sub_le _ _⟩, hx⟩
    rcases hcases with ⟨-, rfl, hside⟩ | ⟨hnot, rfl, x', hx', hside⟩
    · obtain ⟨hcallback, hhw, hfinish⟩ :=
        ep2OutDone_upload (show (s.setHw hw).ep2OutDone = .ok s₁ from hdone)
      refine ⟨fun e => ?_, .finish _ x, by rintro _ ⟨⟩, hsignals, hcallback, ?_⟩
      · rw [hhw]
        exact huses.info_eq e
      · have hep := congrArg Prod.fst hside
        simp only [Controller.side] at hep
        rw [hfinish, hupload hside]
        simp only [setHw_hw, hep]
        rfl
    · obtain rfl := Outcome.pure_eq_ok.mp hdone
      exact ⟨huses.info_eq, .progress _ x x', by rintro _ ⟨⟩, hsignals, hnot, hx',
        hupload hside⟩
  · rename_i hbit
    rw [Controller.received, if_neg hbit] at hdone
    cases hdone
    exact Moves.of_same (fun _ => rfl) rfl

end Moves

end Usb

/-! ## Bus resets -/

namespace Controller

variable {s : Controller} {e : Ep} {dmaPage : ℕ} {keeps : Bool}

@[simp] theorem epInAbort_endpoint : (s.epInAbort e).endpoint =
    Function.update s.endpoint e (s.endpoint e).cleared := by
  unfold epInAbort
  simp only
  split <;> rfl

/-- An IN endpoint is aborted, never EP2 OUT. -/
theorem epInAbort_armed :
    (s.epInAbort e).armed .ep2Out = s.armed .ep2Out := by
  unfold epInAbort
  simp only [inEndpoint]
  split
  · rename_i e' he
    split at he
    · cases he
      simp
    · split at he
      · cases he
        simp
      · cases he
  · rfl

/-- `usb_init` has set the DMA buffers, and only activated endpoints are used. -/
structure Usable (dmaPage : ℕ) (s : Controller) : Prop where
  dma : ∀ e, (s.endpoint e).info.defaultXferDma = (epInfo dmaPage e).defaultXferDma
  active : (∀ e, s.armed e = none) ∨ ∀ e, (s.endpoint e).info = epInfo dmaPage e

theorem Usable.active_of_armed (h : s.Usable dmaPage) {t : Transfer}
    (ht : s.armed e = some t) :
    ∀ e, (s.endpoint e).info = epInfo dmaPage e := by
  refine h.active.resolve_left fun hnone => ?_
  rw [hnone e] at ht
  cases ht

@[simp] theorem busReset_endpoint :
    (s.busReset keeps).endpoint = s.endpoint := by
  cases keeps <;> rfl

theorem resetEndpoints_endpoint (h : s.Usable dmaPage) :
    (Usb.resetEndpoints s).endpoint = fun
      | .ep0In =>
          { (s.endpoint .ep0In).cleared with
            info := epInfo dmaPage .ep0In
            xferDma := (epInfo dmaPage .ep0In).defaultXferDma }
      | .ep0Out =>
          { s.endpoint .ep0Out with
            info := epInfo dmaPage .ep0Out
            xferDma := (epInfo dmaPage .ep0Out).defaultXferDma }
      | .ep1In =>
          { (s.endpoint .ep1In).cleared with
            info := epInfo dmaPage .ep1In
            xferDma := (epInfo dmaPage .ep1In).defaultXferDma }
      | .ep2Out => Upload.resetEndpoint dmaPage (s.endpoint .ep2Out) := by
  have hin := h.dma .ep0In
  have hout := h.dma .ep0Out
  have hep1 := h.dma .ep1In
  have hep2 := h.dma .ep2Out
  funext e
  cases e <;>
    simp [Usb.resetEndpoints, epActivate, hin, hout, hep1, hep2,
      Upload.resetEndpoint] <;>
    rfl

theorem resetEndpoints_armed :
    (Usb.resetEndpoints s).armed .ep2Out = s.armed .ep2Out :=
  epInAbort_armed.trans (epInAbort_armed.trans epInAbort_armed)

end Controller

namespace Usb

variable {dmaPage : ℕ} {s s' : Usb} {keeps : Bool}

/-- What a bus reset does to the upload and to the endpoints. -/
theorem reset_ok (h : (s.setHw (s.hw.busReset keeps)).usbReset = .ok s')
    (husable : s.hw.Usable dmaPage) :
    (∀ e, (s'.hw.endpoint e).info = epInfo dmaPage e) ∧
      UploadStep dmaPage s.upload (.reset keeps) s'.upload := by
  simp only [usbReset, Outcome.bind_eq_ok, Outcome.pure_eq_ok] at h
  obtain ⟨hw, hrecv, rfl⟩ := h
  have husable' : (s.hw.busReset keeps).Usable dmaPage := by
    refine ⟨by simpa using husable.dma, ?_⟩
    rcases husable.active with hnone | hactive
    · left
      intro e
      cases keeps with
      | true => exact hnone e
      | false =>
          by_cases he : e = .ep2Out
          · simp [Controller.busReset, he]
          · simp [Controller.busReset, he, hnone]
    · right
      simpa using hactive
  have hendpoint := Controller.resetEndpoints_endpoint husable'
  have huses := Controller.epOutRecv_uses hrecv
  have hside := huses.side .ep2Out (by decide)
  refine ⟨fun e => ?_, ?_⟩
  · refine (huses.info_eq e).trans ?_
    simp only [setHw_hw]
    rw [hendpoint]
    cases e <;> rfl
  · have hep2 := Controller.endpoint_of_side hside
    have harmed := Controller.armed_of_side hside
    simp only [setHw_hw] at hep2 harmed
    rw [hendpoint, Controller.busReset_endpoint] at hep2
    rw [Controller.resetEndpoints_armed] at harmed
    have hinFlight : (hw.endpoint .ep0Out).inFlight =
        (s.hw.endpoint .ep0Out).inFlight := by
      rw [Controller.epOutRecv_inFlight hrecv]
      simp only [setHw_hw]
      rw [hendpoint, Controller.busReset_endpoint]
    have hr : ((s.setHw (s.hw.busReset keeps)).setHw hw).resizing = s.resizing :=
      resizing_eq hinFlight rfl rfl
    have hupload : ((s.setHw (s.hw.busReset keeps)).setHw hw).upload =
        { s.upload with
          endpoint := Upload.resetEndpoint dmaPage s.upload.endpoint
          armed := if keeps then s.upload.armed else none } := by
      rw [Usb.upload, hr, setHw_hw, hep2, harmed]
      cases keeps <;> rfl
    exact hupload

end Usb

/-! ## Steps -/

namespace Controller

variable {s : Controller} {e e' : Ep} {t : Transfer} {data : List UInt8}
  {d : UInt32}

theorem received_side (h : e' ≠ e) :
    (s.received e d t data).side e' = s.side e' := by
  unfold received
  split
  · exact side_disarm h
  · rfl

theorem received_endpoint : (s.received e d t data).endpoint = s.endpoint := by
  unfold received
  split <;> rfl

theorem ep0Received_side (h : e' ≠ .ep0Out) :
    (s.ep0Received d t data).side e' = s.side e' := by
  unfold ep0Received
  split
  · exact received_side h
  · exact received_side h

theorem ep0Received_endpoint :
    (s.ep0Received d t data).endpoint = s.endpoint := by
  unfold ep0Received
  split
  · exact received_endpoint
  · exact received_endpoint

theorem sent_side (h : e' ≠ e) : (s.sent e d).side e' = s.side e' := by
  unfold sent
  split
  · exact side_disarm h
  · rfl

theorem sent_endpoint : (s.sent e d).endpoint = s.endpoint := by
  unfold sent
  split <;> rfl

end Controller

open Usb in
/-- Every step of the driver is a step of the upload. -/
theorem UsbStep.upload {dmaPage : ℕ} {s s' : Usb} {e : UsbEvent}
    (husable : s.hw.Usable dmaPage) (h : UsbStep s e s') :
    s'.hw.Usable dmaPage ∧ ∃ a, (∀ keeps, a = .reset keeps → e = .reset keeps) ∧
      UploadStep dmaPage s.upload a s'.upload := by
  have hsame : ∀ hw : Controller, hw.endpoint = s.hw.endpoint →
      hw.side .ep2Out = s.hw.side .ep2Out →
        (∀ e, (hw.endpoint e).info = (s.hw.endpoint e).info) ∧
          (s.setHw hw).upload = s.upload := by
    intro hw hendpoint hside
    refine ⟨fun e => by rw [hendpoint], ?_⟩
    have hr : (s.setHw hw).resizing = s.resizing :=
      resizing_eq (congrArg EndpointState.inFlight (congrFun hendpoint _)) rfl rfl
    have hupload : (s.setHw hw).upload =
        { s.upload with resizing := (s.setHw hw).resizing } :=
      upload_eq hside rfl rfl rfl
    rw [hupload, hr]
    rfl
  have hmoves : (∀ e, (s.hw.endpoint e).info = epInfo dmaPage e) →
      Moves dmaPage s s' →
        s'.hw.Usable dmaPage ∧
          ∃ a, (∀ keeps, a = .reset keeps → e = .reset keeps) ∧
            UploadStep dmaPage s.upload a s'.upload := by
    intro hactive hm
    obtain ⟨a, hreset, hstep⟩ := hm.upload
    have hinfo : ∀ e, (s'.hw.endpoint e).info = epInfo dmaPage e :=
      fun e => (hm.info e).trans (hactive e)
    exact ⟨⟨fun e => by rw [hinfo e], Or.inr hinfo⟩, a,
      fun keeps ha => absurd ha (hreset keeps), hstep⟩
  cases e with
  | reset keeps =>
      obtain ⟨hinfo, hstep⟩ := reset_ok h husable
      exact ⟨⟨fun e => by rw [hinfo e], Or.inr hinfo⟩, .reset keeps,
        fun _ ha => by cases ha; rfl, hstep⟩
  | ep0Out d packet data env =>
      obtain ⟨t, ht, -, halloc, hstep⟩ := h
      have hactive := husable.active_of_armed ht
      obtain ⟨hinfo, hupload⟩ := hsame (s.hw.ep0Received d t data)
        Controller.ep0Received_endpoint (Controller.ep0Received_side nofun)
      refine hmoves hactive (Moves.of_before hinfo hupload ?_)
      exact ep0OutInterrupt_moves hstep halloc
        ((hinfo .ep2Out).trans (hactive .ep2Out))
  | ep0In d =>
      obtain ⟨t, ht, hstep⟩ := h
      obtain ⟨hinfo, hupload⟩ := hsame (s.hw.sent .ep0In d)
        Controller.sent_endpoint (Controller.sent_side nofun)
      exact hmoves (husable.active_of_armed ht)
        (Moves.of_before hinfo hupload (ep0InInterrupt_moves hstep))
  | ep2Out d data packets =>
      obtain ⟨t, ht, -, hstep⟩ := h
      have hactive := husable.active_of_armed ht
      exact hmoves hactive (ep2Out_moves ht hstep (hactive .ep2Out))
  | consume =>
      rw [show s' = _ from h]
      exact ⟨husable, .discard s.resizing, nofun, id, rfl⟩

end PongoOS
