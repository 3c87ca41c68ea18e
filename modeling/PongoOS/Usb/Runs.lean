import PongoOS.Usb.Frame

/-!
# Runs of the USB driver

The host decides which interrupt comes next, and the controller signals a
transfer only on an endpoint that it was programmed for.  `usb_init` leaves all
endpoints without a transfer, so a bus reset comes first.
-/

namespace PongoOS

/-! ## After `usb_init` -/

/-- The `k`-th part of the page that `usb_init` divides between the endpoints. -/
def dmaBuffer (dmaPage k : ℕ) : DmaBuffer :=
  ⟨dmaPage + k * dmaBufferSize, dmaBufferSize,
    (staticToPhys dmaPage + k * dmaBufferSize) % 2 ^ 32⟩

/-- What activation makes known of the endpoints. -/
def epInfo (dmaPage : ℕ) : Ep → EndpointInfo
  | .ep0Out => ⟨0, 0, false, ep0MaxPacketSize, dmaBuffer dmaPage 0⟩
  | .ep0In => ⟨0, 0, true, ep0MaxPacketSize, dmaBuffer dmaPage 1⟩
  | .ep1In => ⟨3, 1, true, intrEpMaxPacketSize, dmaBuffer dmaPage 2⟩
  | .ep2Out => ⟨2, 2, false, bulkEpMaxPacketSize, dmaBuffer dmaPage 3⟩

/-- EP1 and EP2 are not activated yet. -/
def bootInfo (dmaPage : ℕ) : Ep → EndpointInfo
  | .ep0Out => epInfo dmaPage .ep0Out
  | .ep0In => epInfo dmaPage .ep0In
  | .ep1In => ⟨0, 0, false, 0, dmaBuffer dmaPage 2⟩
  | .ep2Out => ⟨0, 0, false, 0, dmaBuffer dmaPage 3⟩

namespace Usb

/-- The state after `usb_init` and `usbloader_init`.  `alloc_contig` returned
`dmaPage` and `buf` to them. -/
def boot (mem : ByteMemory) (dmaPage buf : ℕ) : Usb where
  hw :=
    { mem := mem
      endpoint := fun e => ⟨bootInfo dmaPage e, ⟨0, 0, 0⟩, 0, 0, 0, 0⟩
      armed := fun _ => none
      armings := []
      stalled := fun _ => false
      address := 0 }
  setupPacket := ⟨0, 0, 0, 0, 0⟩
  setupPacketPending := false
  dataOutStageCallback := none
  statusOutStageCallback := none
  outTransferDone := none
  outTransferCalls := []
  loader := ⟨buf, 0, uploadSz, uploadSz, false⟩
  blocks := Function.update
    (Function.update (fun _ => none) dmaPage (some (4 * dmaBufferSize)))
    buf (some uploadSz)
  console := ⟨[], false, false⟩
  ktrwRecv := []

end Usb

/-- The block lies in the cacheable mapping of RAM. -/
def InStaticMap (buf size : ℕ) : Prop :=
  kCacheableView ≤ buf ∧ buf + size ≤ kCacheableView + 2 ^ 32

/-- No block that was handed out meets the new one. -/
def Vacant (blocks : ℕ → Option ℕ) (buf size : ℕ) : Prop :=
  ∀ b n, blocks b = some n → b + n ≤ buf ∨ buf + size ≤ b

/-- `alloc_contig` hands out vacant memory. -/
def UsbEnv.Allocates (env : UsbEnv) (blocks : ℕ → Option ℕ) : Prop :=
  ∀ size buf, env.contig size = some buf →
    InStaticMap buf size ∧ Vacant blocks buf size

/-! ## Steps -/

/-- `data` is what the controller receives before it signals the completion of
the transfer, and `keeps` says that an upload survives a bus reset in the
controller. -/
inductive UsbEvent where
  | reset (keeps : Bool)
  | ep0Out (doepint : UInt32) (packet : SetupPacket) (data : List UInt8)
      (env : UsbEnv)
  | ep0In (diepint : UInt32)
  | ep2Out (doepint : UInt32) (data : List UInt8) (packets : ℕ)
  | consume

namespace Controller

/-- The controller has received `data`. -/
def receive (s : Controller) (e : Ep) (t : Transfer) (data : List UInt8) :
    Controller :=
  (s.setMem (s.mem.write (kCacheableView + t.dma) data)).disarm e

/-- The controller has received `data` if it signals so. -/
def received (s : Controller) (e : Ep) (doepint : UInt32) (t : Transfer)
    (data : List UInt8) : Controller :=
  if doepint &&& 1 ≠ 0 then s.receive e t data else s

/-- A SETUP packet ends a stall. -/
def ep0Received (s : Controller) (doepint : UInt32) (t : Transfer)
    (data : List UInt8) : Controller :=
  if doepint &&& 0x8008 ≠ 0 then (s.received .ep0Out doepint t data).clearStalls
  else s.received .ep0Out doepint t data

/-- The controller has sent the packet if it signals so. -/
def sent (s : Controller) (e : Ep) (diepint : UInt32) : Controller :=
  if diepint &&& 1 ≠ 0 then s.disarm e else s

/-- What a bus reset does to the controller itself. -/
def busReset (s : Controller) (keeps : Bool) : Controller :=
  if keeps then s else s.disarm .ep2Out

end Controller

def UsbStep (s : Usb) (e : UsbEvent) (s' : Usb) : Prop :=
  match e with
  | .reset keeps => (s.setHw (s.hw.busReset keeps)).usbReset = .ok s'
  | .ep0Out doepint packet data env =>
      ∃ t, s.hw.armed .ep0Out = some t ∧ data.length ≤ t.size ∧
        env.Allocates s.blocks ∧
        (s.setHw (s.hw.ep0Received doepint t data)).ep0OutInterrupt
          (Usb.ep0SetupStage env) env doepint packet ⟨t.size - data.length, 0⟩ =
            .ok s'
  | .ep0In diepint =>
      ∃ t, s.hw.armed .ep0In = some t ∧
        (s.setHw (s.hw.sent .ep0In diepint)).ep0InInterrupt diepint = .ok s'
  | .ep2Out doepint data packets =>
      ∃ t, s.hw.armed .ep2Out = some t ∧ data.length ≤ t.size ∧
        (s.setHw (s.hw.received .ep2Out doepint t data)).ep2OutInterrupt doepint
          ⟨t.size - data.length, packets⟩ = .ok s'
  | .consume => s' = s.setLoader { s.loader with xferRecvCount := 0 }

end PongoOS
