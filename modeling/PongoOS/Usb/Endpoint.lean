import PongoOS.Mm.PageAllocator
import PongoOS.Support.ByteMemory
import Mathlib.Logic.Function.Basic

/-!
# The endpoints of the USB controller

The driver keeps one transfer for each endpoint.  It programs the controller
with a part of the transfer at a time and looks at what is left when the
controller signals that the part is complete.  The cache operations are left
out.
-/

namespace PongoOS

/-! ## State -/

inductive Ep where
  | ep0In
  | ep0Out
  | ep1In
  | ep2Out
deriving DecidableEq, Repr

/-- Where the controller reads or writes, as the processor and as the controller
address it. -/
structure DmaBuffer where
  data : ℕ
  size : ℕ
  phys : ℕ
deriving DecidableEq, Repr

/-- The part of `struct endpoint_state` that activation and `usb_init` set. -/
structure EndpointInfo where
  type : ℕ
  n : ℕ
  dirIn : Bool
  maxPacketSize : ℕ
  defaultXferDma : DmaBuffer
deriving DecidableEq, Repr

/-- `struct endpoint_state`. -/
structure EndpointState where
  info : EndpointInfo
  xferDma : DmaBuffer
  transferData : ℕ
  transferSize : ℕ
  transferred : ℕ
  inFlight : ℕ
deriving DecidableEq, Repr

/-- What the registers of an endpoint hold.  `cnak` says that data is accepted. -/
structure Transfer where
  dma : ℕ
  size : ℕ
  packets : ℕ
  cnak : Bool
deriving DecidableEq, Repr

/-- What is left of a transfer when the controller signals its completion. -/
structure Residue where
  size : ℕ
  packets : ℕ
deriving DecidableEq, Repr

/-- `armings` lists all transfers that the controller was programmed with. -/
structure Controller where
  mem : ByteMemory
  endpoint : Ep → EndpointState
  armed : Ep → Option Transfer
  armings : List (Ep × Transfer)
  stalled : Ep → Bool
  address : ℕ

def dmaBufferSize : ℕ := 0x4000 / 4

def ep0MaxPacketSize : ℕ := 64

def intrEpMaxPacketSize : ℕ := 1024

def bulkEpMaxPacketSize : ℕ := 512

def transferZlp : ℕ := 0xffffffff

def recvData : ℕ := 1

/-- `if (c) BUG(n)`. -/
def bugIf (c : Prop) [Decidable c] (n : String) : Outcome Unit :=
  panicIf c ("USB BUG: " ++ n)

@[simp] theorem bugIf_eq_ok {c : Prop} [Decidable c] {n : String} {u : Unit} :
    bugIf c n = .ok u ↔ ¬ c := panicIf_eq_ok

theorem bugIf_of_not {c : Prop} [Decidable c] {n : String} (h : ¬ c) :
    bugIf c n = .ok () := bugIf_eq_ok.mpr h

namespace Controller

@[simps]
def setMem (s : Controller) (mem : ByteMemory) : Controller :=
  { s with mem := mem }

@[simps]
def setEndpoint (s : Controller) (e : Ep) (ep : EndpointState) : Controller :=
  { s with endpoint := Function.update s.endpoint e ep }

/-- The address, size and control registers of `e` are written. -/
@[simps]
def arm (s : Controller) (e : Ep) (t : Transfer) : Controller :=
  { s with
    armed := Function.update s.armed e (some t)
    armings := s.armings ++ [(e, t)] }

@[simps]
def disarm (s : Controller) (e : Ep) : Controller :=
  { s with armed := Function.update s.armed e none }

/-- `ep_stall`. -/
@[simps]
def epStall (s : Controller) (e : Ep) : Controller :=
  { s with stalled := Function.update s.stalled e true }

@[simps]
def clearStalls (s : Controller) : Controller :=
  { s with stalled := fun _ => false }

/-- `usb_set_address`. -/
@[simps]
def usbSetAddress (s : Controller) (address : ℕ) : Controller :=
  { s with address := address }

end Controller

/-! ## Sizes -/

/-- Which part of the DMA buffer the controller is to transfer. -/
structure Xfer where
  dmaOffset : ℕ
  hwXferSize : ℕ
  packetCount : ℕ
deriving DecidableEq, Repr

/-- The cap by the width of the size register. -/
def capXferSize (maxPacketSize size : ℕ) : ℕ :=
  if 0x7ffff < size then 0x7ffff + 1 - maxPacketSize else size

namespace EndpointState

/-- How much one IN transfer sends, with the number of packets. -/
def inXferSize (ep : EndpointState) (dmaLeft : ℕ) : ℕ × ℕ :=
  let mps := ep.info.maxPacketSize
  let left := sub32 ep.transferSize ep.transferred
  if ep.transferSize = transferZlp then (0, 1)
  else if ep.info.type = 0 then (min left mps, 1)
  else
    let size := capXferSize mps (min left dmaLeft)
    (size, if mps < size then (size + mps - 1) / mps else 1)

def epInSendComputeXfer (ep : EndpointState) : Outcome Xfer := do
  let dmaOffset := ep.transferred % ep.xferDma.size
  let dmaLeft := sub32 ep.xferDma.size dmaOffset
  let (xferSize, packetCount) := ep.inXferSize dmaLeft
  bugIf (dmaLeft < xferSize ∨ dmaLeft < ep.info.maxPacketSize)
    "0x7866696e206264"
  pure ⟨dmaOffset, xferSize, packetCount⟩

/-- How much one OUT transfer receives, with the number of packets. -/
def outXferSize (ep : EndpointState) (dmaLeft : ℕ) : ℕ × ℕ :=
  let mps := ep.info.maxPacketSize
  let left := sub32 ep.transferSize ep.transferred
  if ep.info.type = 0 ∨ ep.transferSize = transferZlp then (mps, 1)
  else
    let count := (capXferSize mps (min left dmaLeft) + mps - 1) / mps
    (count * mps, count)

def epOutRecvComputeXfer (ep : EndpointState) : Outcome Xfer := do
  let dmaOffset := if ep.xferDma.data = ep.transferData then ep.transferred else 0
  bugIf (ep.xferDma.size < dmaOffset) "0x646d616f6666"
  let dmaLeft := sub32 ep.xferDma.size dmaOffset
  let (xferSize, packetCount) := ep.outXferSize dmaLeft
  bugIf (dmaLeft < xferSize) "0x646d616f206264"
  pure ⟨dmaOffset, xferSize, packetCount⟩

/-- The registers for the part `x` of the transfer. -/
def transferOf (ep : EndpointState) (x : Xfer) (cnak : Bool) : Transfer :=
  ⟨(ep.xferDma.phys + x.dmaOffset) % 2 ^ 32, x.hwXferSize, x.packetCount, cnak⟩

/-- No transfer, as `ep_in_abort` and a SETUP packet leave it. -/
@[simps]
def cleared (ep : EndpointState) : EndpointState :=
  { ep with transferSize := 0, transferred := 0, inFlight := 0 }

/-- An empty packet is next. -/
@[simps]
def zlpNext (ep : EndpointState) : EndpointState :=
  { ep with transferred := 0, transferSize := transferZlp }

/-- A transfer of `size` bytes at `data` through the DMA buffer `dma`. -/
@[simps]
def begun (ep : EndpointState) (dma : DmaBuffer) (data size inFlight : ℕ) :
    EndpointState :=
  { ep with
    xferDma := dma
    transferData := data
    transferSize := if size = 0 then transferZlp else size
    transferred := 0
    inFlight := inFlight }

end EndpointState

namespace Controller

/-! ## IN endpoints -/

/-- What `ep_in_send` does before it starts the controller: the next part of the
data is copied to the DMA buffer unless it is there already. -/
def epInFill (e : Ep) (x : Xfer) (s : Controller) : Outcome Controller := do
  let ep := s.endpoint e
  if x.dmaOffset = 0 ∧ 0 < x.hwXferSize then
    if ep.xferDma.data = ep.transferData then do
      bugIf (ep.transferSize = transferZlp) "0x6e6f207a6c70"
      pure s
    else
      pure (s.setMem (s.mem.write ep.xferDma.data
        (s.mem.bytesAt (ep.transferData + ep.transferred) x.hwXferSize)))
  else pure s

def epInSend (e : Ep) (s : Controller) : Outcome Controller := do
  let ep := s.endpoint e
  bugIf (ep.info.dirIn = false ∨ ep.inFlight ≠ 0) "0x73656e642031"
  bugIf (ep.transferSize ≤ ep.transferred ∧ ep.transferSize ≠ transferZlp)
    "0x73656e642032"
  let x ← ep.epInSendComputeXfer
  let s ← s.epInFill e x
  pure ((s.arm e (ep.transferOf x true)).setEndpoint e
    { ep with inFlight := x.hwXferSize })

/-- The endpoint when the data in flight has been sent. -/
def epInSent (ep : EndpointState) : EndpointState :=
  { ep with
    transferred := (ep.transferred + ep.inFlight) % 2 ^ 32
    inFlight := 0
    transferSize := if ep.transferSize = transferZlp then 0 else ep.transferSize }

/-- Returns whether all the data has been sent. -/
def epInSendDone (e : Ep) (s : Controller) : Outcome (Bool × Controller) := do
  bugIf ((s.endpoint e).info.dirIn = false) "0x73656e642033"
  let ep := epInSent (s.endpoint e)
  if ep.transferred = ep.transferSize then
    if 0 < ep.transferSize ∧ ep.transferSize % ep.info.maxPacketSize = 0 then do
      -- a zero-length packet follows a whole number of full packets
      let s ← (s.setEndpoint e ep.zlpNext).epInSend e
      pure (false, s)
    else pure (true, s.setEndpoint e ep)
  else do
    let s ← (s.setEndpoint e ep).epInSend e
    pure (false, s)

def epInSendData (e : Ep) (data size : ℕ) (s : Controller) :
    Outcome Controller := do
  let ep := s.endpoint e
  bugIf (ep.info.dirIn = false ∨ ep.transferSize ≠ ep.transferred ∨
    ep.inFlight ≠ 0) "0x73656e642034"
  (s.setEndpoint e (ep.begun ep.info.defaultXferDma data size 0)).epInSend e

/-! ## OUT endpoints -/

def epOutRecv (e : Ep) (s : Controller) : Outcome Controller := do
  let ep := s.endpoint e
  bugIf (ep.info.dirIn = true) "0x73656e642031"
  bugIf (ep.info.n = 0 ∧ (s.endpoint .ep0Out).xferDma ≠
    (s.endpoint .ep0Out).info.defaultXferDma) "0x72637630206466"
  bugIf (ep.inFlight ≠ recvData ∧ ep.info.type ≠ 0) "0x726563762032"
  let ep :=
    if ep.inFlight ≠ recvData then { ep with transferSize := 0, transferred := 0 }
    else ep
  let x ← ep.epOutRecvComputeXfer
  pure ((s.setEndpoint e ep).arm e (ep.transferOf x (ep.inFlight = recvData)))

/-- The packet itself is read from the DMA buffer by the caller. -/
def epOutRecvSetupDone (e : Ep) (s : Controller) : Outcome Controller := do
  let ep := s.endpoint e
  bugIf (ep.info.dirIn = true ∨ ep.info.type ≠ 0 ∨ ep.inFlight = recvData)
    "0x726563762033"
  pure (s.setEndpoint e ep.cleared)

def epOutRecvDataCommon (e : Ep) (dma : DmaBuffer) (data size : ℕ)
    (s : Controller) : Outcome Controller :=
  let ep := s.endpoint e
  let s := s.setEndpoint e (ep.begun dma data size recvData)
  if ep.info.n ≠ 0 then s.epOutRecv e else .ok s

def epOutRecvData (e : Ep) (data size : ℕ) (s : Controller) :
    Outcome Controller := do
  let ep := s.endpoint e
  bugIf (ep.info.dirIn = true ∨ ep.inFlight ≠ 0 ∨ data = 0) "0x73656e642034"
  s.epOutRecvDataCommon e ep.info.defaultXferDma data size

def epOutRecvDataDma (e : Ep) (data dma size : ℕ) (s : Controller) :
    Outcome Controller := do
  let ep := s.endpoint e
  bugIf (ep.info.dirIn = true ∨ ep.inFlight ≠ 0 ∨ data = 0 ∨ size = 0 ∨
    size % ep.info.maxPacketSize ≠ 0) "0x73656e642035"
  s.epOutRecvDataCommon e ⟨data, size, dma⟩ data size

/-- Whether a transfer that the controller ended with `left` unused ended with a
packet that was not full. -/
def partialPacket (ep : EndpointState) (x : Xfer) (left : Residue) : Bool :=
  let received := sub32 x.hwXferSize left.size
  let mps := ep.info.maxPacketSize
  if ep.info.type = 0 then left.size ≠ 0
  else
    left.size ≠ 0 ∧ ¬ (0 < received ∧ received % mps = 0 ∧
      sub32 x.packetCount left.packets ≠ received / mps + 1)

/-- The endpoint when `received` bytes have come in. -/
def epOutReceived (ep : EndpointState) (received : ℕ) : EndpointState :=
  { ep with
    transferred := (ep.transferred + received) % 2 ^ 32
    transferSize := if ep.transferSize = transferZlp then 0 else ep.transferSize }

/-- In buffered mode the data is copied out of the DMA buffer. -/
def epOutCopy (e : Ep) (x : Xfer) (received : ℕ) (s : Controller) :
    Outcome Controller := do
  let ep := s.endpoint e
  if 0 < received ∧ ep.xferDma.data ≠ ep.transferData then do
    bugIf (x.dmaOffset ≠ 0) "0x72637662756630"
    pure (s.setMem (s.mem.write (ep.transferData + ep.transferred)
      (s.mem.bytesAt ep.xferDma.data received)))
  else pure s

/-- Returns whether the host has finished sending. -/
def epOutRecvDataDone (e : Ep) (left : Residue) (s : Controller) :
    Outcome (Bool × Controller) := do
  let ep := s.endpoint e
  bugIf (ep.info.dirIn = true ∨ ep.inFlight ≠ recvData) "0x726563762036"
  let x ← ep.epOutRecvComputeXfer
  let received := sub32 x.hwXferSize left.size
  let s ← s.epOutCopy e x received
  let ep' := epOutReceived ep received
  if ep'.transferSize ≤ ep'.transferred ∨ partialPacket ep x left = true then
    pure (true, s.setEndpoint e { ep' with inFlight := 0 })
  else if ep.info.n ≠ 0 then do
    let s ← (s.setEndpoint e ep').epOutRecv e
    pure (false, s)
  else pure (false, s.setEndpoint e ep')

/-! ## Activation and abort -/

/-- `ep_in_activate` and `ep_out_activate`. -/
def epActivate (e : Ep) (n type maxPacketSize : ℕ) (dirIn : Bool)
    (s : Controller) : Controller :=
  let dma := (s.endpoint e).info.defaultXferDma
  s.setEndpoint e
    { s.endpoint e with info := ⟨type, n, dirIn, maxPacketSize, dma⟩, xferDma := dma }

/-- Which endpoint `DIEPCTL(n)` belongs to. -/
def inEndpoint (n : ℕ) : Option Ep :=
  if n = 0 then some .ep0In else if n = 1 then some .ep1In else none

/-- The registers are those of the IN endpoint, whatever `e` is. -/
def epInAbort (e : Ep) (s : Controller) : Controller :=
  let ep := s.endpoint e
  let s := s.setEndpoint e ep.cleared
  match inEndpoint ep.info.n with
  | some e' => s.disarm e'
  | none => s

end Controller

end PongoOS
