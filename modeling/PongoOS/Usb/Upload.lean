import PongoOS.Usb.Runs

/-!
# Uploads

The part of the state that an upload uses: the variables of the loader, the
transfer on EP2 with what the controller was programmed with for it, and the
blocks of memory that are in use.  What a step of the driver can do to it is said
here once.
-/

namespace PongoOS

/-- `resizing` says that a request to change the size of the buffer waits for its
DATA OUT stage. -/
structure Upload where
  loader : Loader
  callback : Option OutTransferCallback
  endpoint : EndpointState
  armed : Option Transfer
  blocks : ℕ → Option ℕ
  resizing : Bool

namespace Upload

/-- `loader_xfer_recv_count = 0; usbloader_is_waiting_xfer = 1`. -/
@[simps]
def wait (u : Upload) : Upload :=
  { u with loader := { u.loader with xferRecvCount := 0, isWaitingXfer := true } }

@[simps]
def setXferSize (u : Upload) (size : ℕ) : Upload :=
  { u with loader := { u.loader with xferSize := size } }

/-- The buffer is replaced by a larger one. -/
@[simps]
def move (u : Upload) (size buf : ℕ) : Upload :=
  { u with
    blocks := Function.update (Function.update u.blocks buf (some size))
      u.loader.xferRecvData none
    loader := { u.loader with xferRecvSize := size, xferRecvData := buf } }

/-- The endpoint with a transfer into the whole buffer. -/
def begunEndpoint (u : Upload) : EndpointState :=
  let buf := u.loader.xferRecvData
  u.endpoint.begun ⟨buf, u.loader.xferSize, busAddress buf⟩ buf u.loader.xferSize
    recvData

@[simps]
def begin (u : Upload) (x : Xfer) : Upload :=
  { u with
    callback := some .usbloaderXferDoneCb
    endpoint := u.begunEndpoint
    armed := some (u.begunEndpoint.transferOf x true)
    resizing := false }

/-- `usb_out_transfer_dma` returns. -/
structure CanBegin (u : Upload) (x : Xfer) : Prop where
  callback : u.callback = none
  inFlight : u.endpoint.inFlight = 0
  size_pos : 0 < u.loader.xferSize
  aligned : u.loader.xferSize % bulkEpMaxPacketSize = 0
  computes : u.begunEndpoint.epOutRecvComputeXfer = .ok x

/-- The transfer goes on after `received` bytes. -/
@[simps]
def resume (u : Upload) (received : ℕ) (x : Xfer) : Upload :=
  { u with
    endpoint := Controller.epOutReceived u.endpoint received
    armed := some ((Controller.epOutReceived u.endpoint received).transferOf x
      true) }

/-- The transfer ends with `received` bytes more. -/
@[simps]
def finish (u : Upload) (received : ℕ) : Upload :=
  { u with
    loader :=
      if u.loader.isWaitingXfer = false then u.loader
      else
        { u.loader with
          xferRecvCount :=
            (Controller.epOutReceived u.endpoint received).transferred
          isWaitingXfer := false }
    callback := none
    endpoint := { Controller.epOutReceived u.endpoint received with inFlight := 0 }
    armed := none }

/-- The transfer is complete after `received` bytes with `left` unused. -/
def Completes (u : Upload) (x : Xfer) (left : Residue) (received : ℕ) : Prop :=
  (Controller.epOutReceived u.endpoint received).transferSize ≤
      (Controller.epOutReceived u.endpoint received).transferred ∨
    Controller.partialPacket u.endpoint x left = true

/-- A transfer ends with `left` unused. -/
structure Signals (u : Upload) (x : Xfer) (left : Residue) : Prop where
  inFlight : u.endpoint.inFlight = recvData
  armed : ∃ t, u.armed = some t ∧ left.size ≤ t.size
  computes : u.endpoint.epOutRecvComputeXfer = .ok x

/-- EP2 after `usb_reset`. -/
def resetEndpoint (dmaPage : ℕ) (ep : EndpointState) : EndpointState :=
  { ep.cleared with
    info := epInfo dmaPage .ep2Out
    xferDma := (epInfo dmaPage .ep2Out).defaultXferDma }

end Upload

/-! ## Steps -/

/-- `place` is where `alloc_contig` found room for a larger buffer. -/
inductive UploadEvent where
  | other (resizing : Bool)
  | discard (resizing : Bool)
  | start (x : Xfer)
  | resize (size : ℕ) (place : Option ℕ) (x : Xfer)
  | progress (left : Residue) (x x' : Xfer)
  | finish (left : Residue) (x : Xfer)
  | reset (keeps : Bool)

namespace Upload

/-- The buffer after `resize_loader_xfer_data`. -/
def resized (u : Upload) (size : ℕ) : Option ℕ → Upload
  | none => u
  | some buf => u.move size buf

/-- The buffer is replaced exactly if it is too small, by vacant memory. -/
def Fits (u : Upload) (size : ℕ) : Option ℕ → Prop
  | none => size ≤ u.loader.xferRecvSize
  | some buf =>
      u.loader.xferRecvSize < size ∧ InStaticMap buf size ∧ Vacant u.blocks buf size

end Upload

open Upload in
def UploadStep (dmaPage : ℕ) (u : Upload) (e : UploadEvent) (u' : Upload) :
    Prop :=
  match e with
  | .other resizing =>
      (resizing = true → u.resizing = true ∨ u.loader.isWaitingXfer = false) ∧
        u' = { u with resizing := resizing }
  | .discard resizing =>
      (resizing = true → u.resizing = true) ∧
        u' =
          { u with
            loader := { u.loader with xferRecvCount := 0 }
            resizing := resizing }
  | .start x =>
      u.loader.isWaitingXfer = false ∧
        u.endpoint.info = epInfo dmaPage .ep2Out ∧
        u.wait.CanBegin x ∧ u' = u.wait.begin x
  | .resize size place x =>
      u.resizing = true ∧ size ≤ uploadSzMax ∧ u.Fits size place ∧
        u.endpoint.info = epInfo dmaPage .ep2Out ∧
        ((u.wait.resized size place).setXferSize size).CanBegin x ∧
        u' = ((u.wait.resized size place).setXferSize size).begin x
  | .progress left x x' =>
      u.Signals x left ∧ ¬ u.Completes x left (sub32 x.hwXferSize left.size) ∧
        (Controller.epOutReceived u.endpoint
          (sub32 x.hwXferSize left.size)).epOutRecvComputeXfer = .ok x' ∧
        u' = u.resume (sub32 x.hwXferSize left.size) x'
  | .finish left x =>
      u.Signals x left ∧ u.callback ≠ none ∧
        u' = u.finish (sub32 x.hwXferSize left.size)
  | .reset keeps =>
      u' =
        { u with
          endpoint := resetEndpoint dmaPage u.endpoint
          armed := if keeps then u.armed else none }

/-! ## The buffer -/

namespace Upload

/-- A transfer into the buffer is scheduled, and the controller is programmed
with the next part of it. -/
structure Scheduled (u : Upload) : Prop where
  waiting : u.loader.isWaitingXfer = true
  type : u.endpoint.info.type = 2
  maxPacketSize : u.endpoint.info.maxPacketSize = bulkEpMaxPacketSize
  xferDma : u.endpoint.xferDma =
    ⟨u.loader.xferRecvData, u.loader.xferSize, busAddress u.loader.xferRecvData⟩
  data : u.endpoint.transferData = u.loader.xferRecvData
  size : u.endpoint.transferSize = u.loader.xferSize
  xferSize_aligned : u.loader.xferSize % bulkEpMaxPacketSize = 0
  aligned : u.endpoint.transferred % bulkEpMaxPacketSize = 0
  transferred_lt : u.endpoint.transferred < u.loader.xferSize
  programmed : ∀ t x, u.armed = some t →
    u.endpoint.epOutRecvComputeXfer = .ok x → t = u.endpoint.transferOf x true

/-- The part of the buffer that the controller may write to. -/
def InBuffer (u : Upload) (t : Transfer) : Prop :=
  busAddress u.loader.xferRecvData ≤ t.dma ∧
    t.dma + t.size ≤ busAddress u.loader.xferRecvData + u.loader.xferRecvSize

/-- The buffer is allocated, and what is said about its size is right. -/
structure Buffered (u : Upload) : Prop where
  xferSize_le : u.loader.xferSize ≤ u.loader.xferRecvSize
  count_le : u.loader.xferRecvCount ≤ u.loader.xferRecvSize
  recvSize_pos : 0 < u.loader.xferRecvSize
  recvSize_le : u.loader.xferRecvSize ≤ uploadSzMax
  live : u.blocks u.loader.xferRecvData = some u.loader.xferRecvSize
  mapped : InStaticMap u.loader.xferRecvData u.loader.xferRecvSize

structure Inv (u : Upload) : Prop where
  buffered : u.Buffered
  callback : u.callback ≠ none ↔ u.loader.isWaitingXfer = true
  resizing : u.resizing = true → u.loader.isWaitingXfer = false
  armed : ∀ t, u.armed = some t →
    u.loader.isWaitingXfer = true ∧ u.InBuffer t
  inFlight : u.endpoint.inFlight = 0 ∨ u.endpoint.inFlight = recvData
  scheduled : u.endpoint.inFlight = recvData → u.Scheduled

end Upload

/-! ## What the controller is programmed with -/

namespace EndpointState

/-- The next part of a transfer of `size` bytes after `transferred`. -/
def uploadXfer (size transferred : ℕ) : Xfer :=
  ⟨transferred, min (size - transferred) 0x7fe00,
    min (size - transferred) 0x7fe00 / 512⟩

theorem capXferSize_of_aligned {n : ℕ} (haligned : n % 512 = 0) :
    capXferSize 512 n = min n 0x7fe00 := by
  unfold capXferSize
  split <;> omega

/-- The transfer after `n` bytes more. -/
@[simps]
def advanced (ep : EndpointState) (n : ℕ) : EndpointState :=
  { ep with transferred := ep.transferred + n }

/-- What is computed for a transfer straight into a buffer of whole packets. -/
theorem epOutRecvComputeXfer_direct {ep : EndpointState} {size transferred : ℕ}
    (htype : ep.info.type = 2)
    (hmps : ep.info.maxPacketSize = bulkEpMaxPacketSize)
    (hdata : ep.xferDma.data = ep.transferData) (hdma : ep.xferDma.size = size)
    (hsize : ep.transferSize = size) (htransferred : ep.transferred = transferred)
    (haligned : size % 512 = 0) (haligned' : transferred % 512 = 0)
    (hlt : transferred < size) (hmax : size < 2 ^ 32) :
    ep.epOutRecvComputeXfer = .ok (uploadXfer size transferred) := by
  have hleft : sub32 size transferred = size - transferred :=
    sub32_of_le (by omega) (by omega)
  have hzlp : size ≠ transferZlp := by
    unfold transferZlp
    omega
  have hcap : capXferSize 512 (size - transferred) =
      min (size - transferred) 0x7fe00 := capXferSize_of_aligned (by omega)
  have hcount : (min (size - transferred) 0x7fe00 + 512 - 1) / 512 =
      min (size - transferred) 0x7fe00 / 512 := by omega
  have hround : min (size - transferred) 0x7fe00 / 512 * 512 =
      min (size - transferred) 0x7fe00 := by omega
  have hdata' : ¬ (ep.info.type = 0 ∨ size = transferZlp) := by
    rw [htype]
    simp [hzlp]
  have hxfer : ep.outXferSize (size - transferred) =
      (min (size - transferred) 0x7fe00,
        min (size - transferred) 0x7fe00 / 512) := by
    simp only [outXferSize, hmps, hsize, htransferred, hleft, if_neg hdata',
      bulkEpMaxPacketSize, min_self, hcap, hcount, hround]
  rw [epOutRecvComputeXfer]
  simp only [if_pos hdata, hdma, htransferred, hleft, hxfer]
  rw [bugIf_of_not (by omega), Outcome.ok_bind, bugIf_of_not (by omega)]
  rfl

end EndpointState

/-! ## What a step preserves -/

theorem busAddress_of_inStaticMap {buf size : ℕ} (h : InStaticMap buf size)
    (hpos : 0 < size) : busAddress buf + size ≤ 2 ^ 32 := by
  obtain ⟨hlow, hhigh⟩ := h
  unfold busAddress staticToPhys
  omega

namespace Upload

variable {u : Upload} {x x' : Xfer} {t : Transfer} {left : Residue}
  {dmaPage size : ℕ} {place : Option ℕ}

theorem Buffered.xferSize_lt (h : u.Buffered) : u.loader.xferSize < 2 ^ 32 :=
  Nat.lt_of_le_of_lt (Nat.le_trans h.xferSize_le h.recvSize_le) (by decide)

/-- The next part of a scheduled transfer lies in the buffer. -/
theorem Buffered.inBuffer {transferred : ℕ} {ep : EndpointState}
    (h : u.Buffered)
    (hdma : ep.xferDma.phys = busAddress u.loader.xferRecvData)
    (hlt : transferred < u.loader.xferSize) :
    u.InBuffer
      (ep.transferOf (EndpointState.uploadXfer u.loader.xferSize transferred)
        true) := by
  have hbus := busAddress_of_inStaticMap h.mapped h.recvSize_pos
  have hsize := h.xferSize_le
  simp only [InBuffer, EndpointState.transferOf, EndpointState.uploadXfer, hdma]
  rw [Nat.mod_eq_of_lt (by omega)]
  omega

/-- A new transfer is scheduled into the whole buffer. -/
theorem Inv.begin (h : u.Buffered) (hwait : u.loader.isWaitingXfer = true)
    (hinfo : u.endpoint.info = epInfo dmaPage .ep2Out) (hx : u.CanBegin x) :
    (u.begin x).Inv := by
  have hsize : u.loader.xferSize ≠ 0 := Nat.pos_iff_ne_zero.mp hx.size_pos
  have htransfer : u.begunEndpoint.transferSize = u.loader.xferSize :=
    if_neg hsize
  have htype : u.begunEndpoint.info.type = 2 := by
    rw [begunEndpoint, EndpointState.begun_info, hinfo]
    rfl
  have hmps : u.begunEndpoint.info.maxPacketSize = bulkEpMaxPacketSize := by
    rw [begunEndpoint, EndpointState.begun_info, hinfo]
    rfl
  have hcompute := EndpointState.epOutRecvComputeXfer_direct htype hmps rfl rfl
    htransfer rfl hx.aligned rfl hx.size_pos h.xferSize_lt
  rw [hx.computes] at hcompute
  obtain rfl := Except.ok.inj hcompute
  constructor
  case buffered => exact ⟨h.xferSize_le, h.count_le, h.recvSize_pos, h.recvSize_le,
    h.live, h.mapped⟩
  case callback => simp [hwait]
  case resizing => simp
  case armed =>
    intro t ht
    rw [← Option.some.inj ht]
    have hbuffer : u.InBuffer (u.begunEndpoint.transferOf _ true) :=
      h.inBuffer rfl hx.size_pos
    exact ⟨hwait, hbuffer⟩
  case inFlight => exact Or.inr rfl
  case scheduled =>
    intro _
    refine ⟨hwait, htype, hmps, rfl, rfl, htransfer, hx.aligned, rfl,
      hx.size_pos, ?_⟩
    intro t x ht hxt
    rw [begin_endpoint, hx.computes] at hxt
    rw [← Option.some.inj ht, ← Except.ok.inj hxt, begin_endpoint]

theorem Buffered.wait (h : u.Buffered) : u.wait.Buffered :=
  ⟨h.xferSize_le, Nat.zero_le _, h.recvSize_pos, h.recvSize_le, h.live, h.mapped⟩

/-- The buffer is large enough after it was resized. -/
theorem Buffered.resized (h : u.Buffered) (hcount : u.loader.xferRecvCount = 0)
    (hmax : size ≤ uploadSzMax) (hfits : u.Fits size place) :
    ((u.resized size place).setXferSize size).Buffered := by
  cases place with
  | none =>
      exact ⟨hfits, h.count_le, h.recvSize_pos, h.recvSize_le, h.live, h.mapped⟩
  | some buf =>
      obtain ⟨hlarger, hmapped, hvacant⟩ := hfits
      have hapart := hvacant _ _ h.live
      have hpos := h.recvSize_pos
      have hne : buf ≠ u.loader.xferRecvData := by omega
      refine ⟨le_rfl, ?_, by simp [Upload.resized]; omega, hmax, ?_, hmapped⟩
      · simp [Upload.resized, hcount]
      · simp [Upload.resized, hne]

/-- What is known of a transfer when the controller signals it. -/
theorem Signals.received (hs : u.Signals x left) (h : u.Inv) :
    ∃ n, sub32 x.hwXferSize left.size = n ∧
      x = EndpointState.uploadXfer u.loader.xferSize u.endpoint.transferred ∧
      n + left.size = min (u.loader.xferSize - u.endpoint.transferred) 0x7fe00 ∧
      Controller.epOutReceived u.endpoint n = u.endpoint.advanced n := by
  have hb := h.buffered
  have hsch := h.scheduled hs.inFlight
  have hlt := hsch.transferred_lt
  have hsize := hb.xferSize_le
  have hmax : u.loader.xferRecvSize ≤ 134217728 := hb.recvSize_le
  have hcompute := EndpointState.epOutRecvComputeXfer_direct hsch.type
    hsch.maxPacketSize (by rw [hsch.xferDma, hsch.data]) (by rw [hsch.xferDma])
    hsch.size rfl hsch.xferSize_aligned hsch.aligned hlt hb.xferSize_lt
  rw [hs.computes] at hcompute
  have hx := Except.ok.inj hcompute
  obtain ⟨t, ht, hleft⟩ := hs.armed
  have hprog := hsch.programmed t x ht hs.computes
  rw [hprog, hx] at hleft
  have hleft' : left.size ≤
      min (u.loader.xferSize - u.endpoint.transferred) 0x7fe00 := hleft
  have hsub : sub32 x.hwXferSize left.size = x.hwXferSize - left.size := by
    rw [hx]
    exact sub32_of_le hleft' (by simp only [EndpointState.uploadXfer]; omega)
  have hhw : x.hwXferSize =
      min (u.loader.xferSize - u.endpoint.transferred) 0x7fe00 := by rw [hx]; rfl
  refine ⟨x.hwXferSize - left.size, hsub, hx, by omega, ?_⟩
  have hzlp : u.endpoint.transferSize ≠ transferZlp := by
    rw [hsch.size]
    unfold transferZlp
    omega
  rw [Controller.epOutReceived, if_neg hzlp, Nat.mod_eq_of_lt (by omega)]
  rfl

/-- A transfer that is not complete goes on after whole packets. -/
theorem aligned_of_not_completes {n : ℕ} (h : ¬ u.Completes x left n)
    (hn : sub32 x.hwXferSize left.size = n)
    (htype : u.endpoint.info.type = 2)
    (hmps : u.endpoint.info.maxPacketSize = bulkEpMaxPacketSize)
    (hfull : left.size = 0 → n % 512 = 0) : n % 512 = 0 := by
  have hpartial := fun hp => h (Or.inr hp)
  by_cases hleft : left.size = 0
  · exact hfull hleft
  · simp [Controller.partialPacket, htype, hmps, hn, hleft,
      bulkEpMaxPacketSize] at hpartial
    exact hpartial.2.1

theorem Inv.other {r : Bool} (h : u.Inv)
    (hr : r = true → u.resizing = true ∨ u.loader.isWaitingXfer = false) :
    Inv { u with resizing := r } := by
  obtain ⟨hb, hcallback, hresizing, harmed, hinFlight, hscheduled⟩ := h
  refine ⟨⟨hb.1, hb.2, hb.3, hb.4, hb.5, hb.6⟩, hcallback, fun hr' => ?_,
    harmed, hinFlight, fun hf => ?_⟩
  · exact (hr hr').elim hresizing id
  · obtain ⟨h₁, h₂, h₃, h₄, h₅, h₆, h₇, h₈, h₉, h₁₀⟩ := hscheduled hf
    exact ⟨h₁, h₂, h₃, h₄, h₅, h₆, h₇, h₈, h₉, h₁₀⟩

theorem Inv.discard (h : u.Inv) :
    Inv { u with loader := { u.loader with xferRecvCount := 0 } } := by
  obtain ⟨hb, hcallback, hresizing, harmed, hinFlight, hscheduled⟩ := h
  refine ⟨⟨hb.1, Nat.zero_le _, hb.3, hb.4, hb.5, hb.6⟩, hcallback, hresizing,
    harmed, hinFlight, fun hf => ?_⟩
  obtain ⟨h₁, h₂, h₃, h₄, h₅, h₆, h₇, h₈, h₉, h₁₀⟩ := hscheduled hf
  exact ⟨h₁, h₂, h₃, h₄, h₅, h₆, h₇, h₈, h₉, h₁₀⟩

theorem Inv.progress (h : u.Inv) (hs : u.Signals x left)
    (hnot : ¬ u.Completes x left (sub32 x.hwXferSize left.size))
    (hx' : (Controller.epOutReceived u.endpoint
      (sub32 x.hwXferSize left.size)).epOutRecvComputeXfer = .ok x') :
    (u.resume (sub32 x.hwXferSize left.size) x').Inv := by
  have hsch := h.scheduled hs.inFlight
  have hb := h.buffered
  obtain ⟨n, hn, hx, hsum, hreceived⟩ := hs.received h
  have haligned := hsch.aligned
  have haligned' := hsch.xferSize_aligned
  have hlt := hsch.transferred_lt
  have hwhole : n % 512 = 0 := by
    refine aligned_of_not_completes (hn ▸ hnot) hn hsch.type
      hsch.maxPacketSize fun hleft => ?_
    unfold bulkEpMaxPacketSize at haligned haligned'
    omega
  have hmore : u.endpoint.transferred + n < u.loader.xferSize := by
    rw [hn] at hnot
    by_contra hge
    refine hnot (Or.inl ?_)
    rw [hreceived, EndpointState.advanced_transferSize, hsch.size]
    exact Nat.le_of_not_lt hge
  rw [hn, hreceived] at hx'
  have hadd : (u.endpoint.transferred + n) % 512 = 0 := by
    unfold bulkEpMaxPacketSize at haligned
    omega
  have hdata : (u.endpoint.advanced n).xferDma.data =
      (u.endpoint.advanced n).transferData := by
    rw [EndpointState.advanced_xferDma, hsch.xferDma]
    exact hsch.data.symm
  have hsize : (u.endpoint.advanced n).xferDma.size = u.loader.xferSize := by
    rw [EndpointState.advanced_xferDma, hsch.xferDma]
  have hcompute : (u.endpoint.advanced n).epOutRecvComputeXfer =
      .ok (EndpointState.uploadXfer u.loader.xferSize
        (u.endpoint.transferred + n)) :=
    EndpointState.epOutRecvComputeXfer_direct hsch.type hsch.maxPacketSize hdata
      hsize hsch.size rfl haligned' hadd hmore hb.xferSize_lt
  have hx'' := Except.ok.inj (hx'.symm.trans hcompute)
  have hdma : u.endpoint.xferDma.phys = busAddress u.loader.xferRecvData := by
    rw [hsch.xferDma]
  rw [hn]
  constructor
  case buffered => exact ⟨hb.1, hb.2, hb.3, hb.4, hb.5, hb.6⟩
  case callback => exact h.callback
  case resizing => exact h.resizing
  case armed =>
    intro t ht
    rw [← Option.some.inj ht, hreceived, hx'']
    have hbuffer : u.InBuffer ((u.endpoint.advanced n).transferOf _ true) :=
      hb.inBuffer hdma hmore
    exact ⟨hsch.waiting, hbuffer⟩
  case inFlight => exact h.inFlight
  case scheduled =>
    intro _
    rw [Upload.resume, hreceived]
    refine ⟨hsch.waiting, hsch.type, hsch.maxPacketSize, hsch.xferDma, hsch.data,
      hsch.size, haligned', hadd, hmore, ?_⟩
    intro t y ht hy
    rw [← Option.some.inj ht]
    rw [show y = x' from Except.ok.inj (hy.symm.trans hx')]

theorem Inv.finish (h : u.Inv) (hs : u.Signals x left) :
    (u.finish (sub32 x.hwXferSize left.size)).Inv := by
  have hsch := h.scheduled hs.inFlight
  have hb := h.buffered
  have hsize := hb.xferSize_le
  have hlt := hsch.transferred_lt
  obtain ⟨n, hn, hx, hsum, hreceived⟩ := hs.received h
  rw [hn, Upload.finish, hreceived, if_neg (by simp [hsch.waiting])]
  constructor
  case buffered =>
    have hcount : u.endpoint.transferred + n ≤ u.loader.xferRecvSize := by omega
    exact ⟨hb.1, hcount, hb.3, hb.4, hb.5, hb.6⟩
  case callback => simp
  case resizing => simp
  case armed => simp
  case inFlight => simp
  case scheduled => simp [recvData]

theorem Inv.reset {keeps : Bool} (h : u.Inv) :
    Inv
      { u with
        endpoint := resetEndpoint dmaPage u.endpoint
        armed := if keeps then u.armed else none } := by
  have hb := h.buffered
  refine ⟨⟨hb.1, hb.2, hb.3, hb.4, hb.5, hb.6⟩, h.callback, h.resizing,
    fun t ht => ?_, Or.inl rfl, fun hf => ?_⟩
  · cases keeps with
    | true => exact h.armed t ht
    | false => cases ht
  · cases hf

end Upload

theorem UploadStep.inv {dmaPage : ℕ} {u u' : Upload} {e : UploadEvent}
    (h : u.Inv) (hstep : UploadStep dmaPage u e u') : u'.Inv := by
  cases e with
  | other r =>
      obtain ⟨hr, rfl⟩ := hstep
      exact h.other hr
  | discard r =>
      obtain ⟨hr, rfl⟩ := hstep
      exact h.discard.other fun hr' => Or.inl (hr hr')
  | start x =>
      obtain ⟨-, hinfo, hx, rfl⟩ := hstep
      exact Upload.Inv.begin h.buffered.wait rfl hinfo hx
  | resize size place x =>
      obtain ⟨-, hmax, hfits, hinfo, hx, rfl⟩ := hstep
      have hfits' : u.wait.Fits size place := by cases place <;> exact hfits
      have hinfo' : ((u.wait.resized size place).setXferSize size).endpoint.info =
          epInfo dmaPage .ep2Out := by cases place <;> exact hinfo
      refine Upload.Inv.begin (h.buffered.wait.resized rfl hmax hfits') ?_ hinfo' hx
      cases place <;> rfl
  | progress left x x' =>
      obtain ⟨hs, hnot, hx', rfl⟩ := hstep
      exact h.progress hs hnot hx'
  | finish left x =>
      obtain ⟨hs, -, rfl⟩ := hstep
      exact h.finish hs
  | reset keeps =>
      obtain rfl := hstep
      exact h.reset

/-! ## What a step does to a buffer in use -/

/-- The buffer is not freed or moved while the controller may write to it. -/
theorem UploadStep.keeps_buffer {dmaPage : ℕ} {u u' : Upload} {e : UploadEvent}
    (h : u.Inv) (hstep : UploadStep dmaPage u e u')
    (hwait : u.loader.isWaitingXfer = true) :
    u'.loader.xferRecvData = u.loader.xferRecvData ∧
      u'.loader.xferRecvSize = u.loader.xferRecvSize ∧ u'.blocks = u.blocks := by
  cases e with
  | other r =>
      obtain ⟨-, rfl⟩ := hstep
      exact ⟨rfl, rfl, rfl⟩
  | discard r =>
      obtain ⟨-, rfl⟩ := hstep
      exact ⟨rfl, rfl, rfl⟩
  | start x =>
      rw [hstep.1] at hwait
      cases hwait
  | resize size place x =>
      rw [h.resizing hstep.1] at hwait
      cases hwait
  | progress left x x' =>
      obtain ⟨-, -, -, rfl⟩ := hstep
      exact ⟨rfl, rfl, rfl⟩
  | finish left x =>
      obtain ⟨-, -, rfl⟩ := hstep
      simp [Upload.finish, hwait]
  | reset keeps =>
      obtain rfl := hstep
      exact ⟨rfl, rfl, rfl⟩

/-- Without a bus reset during an upload the flag is set exactly while a transfer
is scheduled. -/
theorem UploadStep.waiting {dmaPage : ℕ} {u u' : Upload} {e : UploadEvent}
    (h : u.Inv) (hstep : UploadStep dmaPage u e u')
    (hreset : ∀ keeps, e = .reset keeps → u.loader.isWaitingXfer = false)
    (hwait : u.loader.isWaitingXfer = true → u.endpoint.inFlight = recvData)
    (hwait' : u'.loader.isWaitingXfer = true) :
    u'.endpoint.inFlight = recvData := by
  cases e with
  | other r =>
      obtain ⟨-, rfl⟩ := hstep
      exact hwait hwait'
  | discard r =>
      obtain ⟨-, rfl⟩ := hstep
      exact hwait hwait'
  | start x =>
      obtain ⟨-, -, -, rfl⟩ := hstep
      rfl
  | resize size place x =>
      obtain ⟨-, -, -, -, -, rfl⟩ := hstep
      rfl
  | progress left x x' =>
      obtain ⟨-, -, -, rfl⟩ := hstep
      exact hwait hwait'
  | finish left x =>
      obtain ⟨hs, -, rfl⟩ := hstep
      simp [Upload.finish, (h.scheduled hs.inFlight).waiting] at hwait'
  | reset keeps =>
      obtain rfl := hstep
      rw [hreset keeps rfl] at hwait'
      cases hwait'

end PongoOS
