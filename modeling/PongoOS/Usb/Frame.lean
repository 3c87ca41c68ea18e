import PongoOS.Usb.Control

/-!
# What the operations on an endpoint leave alone

An operation on one endpoint changes neither the transfer nor the registers of
another one, and only activation changes what is known of an endpoint beforehand.
-/

namespace PongoOS

namespace Controller

/-- The transfer of `e` and what the controller was programmed with for it. -/
def side (s : Controller) (e : Ep) : EndpointState × Option Transfer :=
  (s.endpoint e, s.armed e)

section Side

variable {s : Controller} {e e' : Ep} {ep : EndpointState} {t : Transfer}
  {m : ByteMemory} {a : ℕ}

theorem endpoint_of_side {s' : Controller} (h : s'.side e = s.side e) :
    s'.endpoint e = s.endpoint e := congrArg Prod.fst h

theorem armed_of_side {s' : Controller} (h : s'.side e = s.side e) :
    s'.armed e = s.armed e := congrArg Prod.snd h

@[simp] theorem setEndpoint_setEndpoint {ep' : EndpointState} :
    (s.setEndpoint e ep).setEndpoint e ep' = s.setEndpoint e ep' := by
  simp [setEndpoint]

@[simp] theorem side_setMem : (s.setMem m).side e = s.side e := rfl

@[simp] theorem side_epStall : (s.epStall e').side e = s.side e := rfl

@[simp] theorem side_usbSetAddress :
    (s.usbSetAddress a).side e = s.side e := rfl

theorem side_setEndpoint (h : e' ≠ e) : (s.setEndpoint e ep).side e' = s.side e' := by
  simp [side, h]

theorem side_arm (h : e' ≠ e) : (s.arm e t).side e' = s.side e' := by
  simp [side, h]

theorem side_disarm (h : e' ≠ e) : (s.disarm e).side e' = s.side e' := by
  simp [side, h]

end Side

/-- From `s` to `s'` only `e` was used. -/
structure Uses (e : Ep) (s s' : Controller) : Prop where
  side : ∀ e', e' ≠ e → s'.side e' = s.side e'
  info : (s'.endpoint e).info = (s.endpoint e).info

namespace Uses

variable {e : Ep} {s s₁ s' : Controller} {ep : EndpointState} {t : Transfer}
  {m : ByteMemory}

theorem refl : Uses e s s := ⟨fun _ _ => rfl, rfl⟩

theorem trans (h : Uses e s s₁) (h' : Uses e s₁ s') : Uses e s s' :=
  ⟨fun e' he => (h'.side e' he).trans (h.side e' he), h'.info.trans h.info⟩

theorem setEndpoint (h : ep.info = (s.endpoint e).info) :
    Uses e s (s.setEndpoint e ep) :=
  ⟨fun _ he => side_setEndpoint he, by simp [h]⟩

theorem arm : Uses e s (s.arm e t) := ⟨fun _ he => side_arm he, rfl⟩

theorem disarm : Uses e s (s.disarm e) := ⟨fun _ he => side_disarm he, rfl⟩

theorem setMem : Uses e s (s.setMem m) := ⟨fun _ _ => rfl, rfl⟩

/-- No operation on one endpoint changes what is known of any. -/
theorem info_eq (h : Uses e s s') (e' : Ep) :
    (s'.endpoint e').info = (s.endpoint e').info := by
  by_cases he : e' = e
  · rw [he]
    exact h.info
  · rw [endpoint_of_side (h.side e' he)]

end Uses

/-! ## Operations -/

section Operations

variable {e : Ep} {s s' : Controller} {x : Xfer} {b : Bool}
  {data size dma n : ℕ} {buffer : DmaBuffer} {left : Residue}

theorem epInFill_eq (h : s.epInFill e x = .ok s') : ∃ m, s' = s.setMem m := by
  simp only [epInFill] at h
  split at h
  · split at h
    · obtain ⟨-, -, h⟩ := Outcome.bind_eq_ok.mp h
      exact ⟨s.mem, (Outcome.pure_eq_ok.mp h).symm⟩
    · exact ⟨_, (Outcome.pure_eq_ok.mp h).symm⟩
  · exact ⟨s.mem, (Outcome.pure_eq_ok.mp h).symm⟩

theorem epInSend_uses (h : s.epInSend e = .ok s') : Uses e s s' := by
  simp only [epInSend, Outcome.bind_eq_ok, Outcome.pure_eq_ok] at h
  obtain ⟨-, -, -, -, x, -, s₁, hfill, rfl⟩ := h
  obtain ⟨m, rfl⟩ := epInFill_eq hfill
  exact Uses.setMem.trans (Uses.arm.trans (Uses.setEndpoint rfl))

theorem epInSendDone_uses (h : s.epInSendDone e = .ok (b, s')) : Uses e s s' := by
  simp only [epInSendDone, Outcome.bind_eq_ok] at h
  obtain ⟨-, -, h⟩ := h
  split at h
  · split at h
    · simp only [Outcome.bind_eq_ok, Outcome.pure_eq_ok, Prod.mk.injEq] at h
      obtain ⟨s₁, hsend, -, rfl⟩ := h
      exact Uses.trans (Uses.setEndpoint (by rfl)) (epInSend_uses hsend)
    · simp only [Outcome.pure_eq_ok, Prod.mk.injEq] at h
      rw [← h.2]
      exact Uses.setEndpoint rfl
  · simp only [Outcome.bind_eq_ok, Outcome.pure_eq_ok, Prod.mk.injEq] at h
    obtain ⟨s₁, hsend, -, rfl⟩ := h
    exact Uses.trans (Uses.setEndpoint (by rfl)) (epInSend_uses hsend)

theorem epInSendData_uses (h : s.epInSendData e data size = .ok s') :
    Uses e s s' := by
  simp only [epInSendData, Outcome.bind_eq_ok] at h
  obtain ⟨-, -, hsend⟩ := h
  exact Uses.trans (Uses.setEndpoint (by rfl)) (epInSend_uses hsend)

theorem epOutRecv_uses (h : s.epOutRecv e = .ok s') : Uses e s s' := by
  simp only [epOutRecv, Outcome.bind_eq_ok, Outcome.pure_eq_ok] at h
  obtain ⟨-, -, -, -, -, -, x, -, rfl⟩ := h
  refine (Uses.setEndpoint ?_).trans Uses.arm
  split <;> rfl

theorem epOutRecvSetupDone_uses (h : s.epOutRecvSetupDone e = .ok s') :
    Uses e s s' := by
  simp only [epOutRecvSetupDone, Outcome.bind_eq_ok, Outcome.pure_eq_ok] at h
  obtain ⟨-, -, rfl⟩ := h
  exact Uses.setEndpoint rfl

theorem epOutRecvDataCommon_uses
    (h : s.epOutRecvDataCommon e buffer data size = .ok s') : Uses e s s' := by
  simp only [epOutRecvDataCommon] at h
  split at h
  · exact Uses.trans (Uses.setEndpoint (by rfl)) (epOutRecv_uses h)
  · cases h
    exact Uses.setEndpoint rfl

theorem epOutRecvData_uses (h : s.epOutRecvData e data size = .ok s') :
    Uses e s s' := by
  simp only [epOutRecvData, Outcome.bind_eq_ok] at h
  obtain ⟨-, -, hcommon⟩ := h
  exact epOutRecvDataCommon_uses hcommon

theorem epOutRecvDataDma_uses (h : s.epOutRecvDataDma e data dma size = .ok s') :
    Uses e s s' := by
  simp only [epOutRecvDataDma, Outcome.bind_eq_ok] at h
  obtain ⟨-, -, hcommon⟩ := h
  exact epOutRecvDataCommon_uses hcommon

theorem epOutCopy_eq (h : s.epOutCopy e x n = .ok s') : ∃ m, s' = s.setMem m := by
  simp only [epOutCopy] at h
  split at h
  · obtain ⟨-, -, h⟩ := Outcome.bind_eq_ok.mp h
    exact ⟨_, (Outcome.pure_eq_ok.mp h).symm⟩
  · exact ⟨s.mem, (Outcome.pure_eq_ok.mp h).symm⟩

theorem epOutRecvDataDone_uses (h : s.epOutRecvDataDone e left = .ok (b, s')) :
    Uses e s s' := by
  simp only [epOutRecvDataDone, Outcome.bind_eq_ok] at h
  obtain ⟨-, -, x, -, s₁, hcopy, h⟩ := h
  obtain ⟨m, rfl⟩ := epOutCopy_eq hcopy
  refine (Uses.setMem (m := m)).trans ?_
  split at h
  · simp only [Outcome.pure_eq_ok, Prod.mk.injEq] at h
    rw [← h.2]
    exact Uses.setEndpoint rfl
  · split at h
    · simp only [Outcome.bind_eq_ok, Outcome.pure_eq_ok, Prod.mk.injEq] at h
      obtain ⟨s₂, hrecv, -, rfl⟩ := h
      exact Uses.trans (Uses.setEndpoint (by rfl)) (epOutRecv_uses hrecv)
    · simp only [Outcome.pure_eq_ok, Prod.mk.injEq] at h
      rw [← h.2]
      exact Uses.setEndpoint rfl

end Operations

end Controller

end PongoOS
