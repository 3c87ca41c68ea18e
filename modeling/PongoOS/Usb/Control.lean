import PongoOS.Io.Stdout
import PongoOS.Support.Run
import PongoOS.Usb.Endpoint

/-!
# Control transfers and uploads

A SETUP packet on EP0 starts a control transfer.  Its DATA stage and its STATUS
stage follow in later interrupts.  The loader receives an upload into its buffer
with one transfer on EP2 OUT, which a control request starts.

An interrupt handler runs to its end before the next one starts.
-/

namespace PongoOS

/-! ## State -/

structure SetupPacket where
  bmRequestType : UInt8
  bRequest : UInt8
  wValue : UInt16
  wIndex : UInt16
  wLength : UInt16
deriving DecidableEq, Repr

/-- The host asks for data. -/
def SetupPacket.isIn (p : SetupPacket) : Bool := p.bmRequestType &&& 0x80 ≠ 0

inductive DataOutCallback where
  | ktrwRecvDone
  | usbWriteStdin
  | reallocateLoaderXferData
deriving DecidableEq, Repr

inductive StatusOutCallback where
  | usbReadStdoutCb
deriving DecidableEq, Repr

inductive OutTransferCallback where
  | usbloaderXferDoneCb
deriving DecidableEq, Repr

/-- A call of `out_transfer_done`. -/
structure OutTransferCall where
  callback : OutTransferCallback
  data : ℕ
  size : ℕ
  transferred : ℕ
deriving DecidableEq, Repr

/-- The variables of `usbloader.c`. -/
structure Loader where
  xferRecvData : ℕ
  xferRecvCount : ℕ
  xferRecvSize : ℕ
  xferSize : ℕ
  isWaitingXfer : Bool
deriving DecidableEq, Repr

/-- `rx` is what was given to `queue_rx_char`. -/
structure Console where
  rx : List UInt8
  shouldWaitForCmdHandler : Bool
  stdoutBlocking : Bool
deriving DecidableEq, Repr

/-- `outTransferCalls` lists the calls of `out_transfer_done`.  `blocks` gives the
size of each block that `alloc_contig` handed out and that was not freed. -/
structure Usb where
  hw : Controller
  setupPacket : SetupPacket
  setupPacketPending : Bool
  dataOutStageCallback : Option DataOutCallback
  statusOutStageCallback : Option StatusOutCallback
  outTransferDone : Option OutTransferCallback
  outTransferCalls : List OutTransferCall
  loader : Loader
  blocks : ℕ → Option ℕ
  console : Console
  ktrwRecv : List UInt8

/-- What a handler gets from the rest of the system.  `contig` answers
`alloc_contig`. -/
structure UsbEnv where
  contig : ℕ → Option ℕ
  stdout : List UInt8
  commandInProgress : UInt8
  serialNumber : List UInt8

/-- The address of a buffer for the controller, a `uint32_t`. -/
def busAddress (data : ℕ) : ℕ := staticToPhys data % 2 ^ 32

def uploadSz : ℕ := 1024 * 1024

def uploadSzMax : ℕ := 1024 * 1024 * 128

namespace Usb

@[simps]
def setHw (s : Usb) (hw : Controller) : Usb := { s with hw := hw }

@[simps]
def setSetupPacket (s : Usb) (packet : SetupPacket) : Usb :=
  { s with
    setupPacket := packet
    setupPacketPending := true
    dataOutStageCallback := none
    statusOutStageCallback := none }

@[simps]
def clearSetupPacketPending (s : Usb) : Usb :=
  { s with setupPacketPending := false }

@[simps]
def setDataOutStageCallback (s : Usb) (callback : Option DataOutCallback) : Usb :=
  { s with dataOutStageCallback := callback }

@[simps]
def setStatusOutStageCallback (s : Usb) (callback : Option StatusOutCallback) :
    Usb :=
  { s with statusOutStageCallback := callback }

@[simps]
def setOutTransferDone (s : Usb) (callback : Option OutTransferCallback) : Usb :=
  { s with outTransferDone := callback }

@[simps]
def recordCall (s : Usb) (call : OutTransferCall) : Usb :=
  { s with outTransferCalls := s.outTransferCalls ++ [call] }

@[simps]
def setLoader (s : Usb) (loader : Loader) : Usb := { s with loader := loader }

@[simps]
def setConsole (s : Usb) (console : Console) : Usb :=
  { s with console := console }

@[simps]
def setKtrwRecv (s : Usb) (data : List UInt8) : Usb := { s with ktrwRecv := data }

/-- `ep_stall`. -/
@[simps!]
def epStall (s : Usb) (e : Ep) : Usb := s.setHw (s.hw.epStall e)

/-- `usb_set_address`. -/
@[simps!]
def usbSetAddress (s : Usb) (address : ℕ) : Usb :=
  s.setHw (s.hw.usbSetAddress address)

/-! ## Transfers -/

/-- `memcpy` of at most `wLength` bytes to the DMA buffer, from where they are
sent. -/
def ep0BeginDataInStage (data : List UInt8)
    (callback : Option StatusOutCallback) (s : Usb) : Outcome Usb := do
  let size := min data.length s.setupPacket.wLength.toNat
  let dma := (s.hw.endpoint .ep0In).info.defaultXferDma
  bugIf (dma.size < size) "0x64696e32626967"
  let hw ← (s.hw.setMem (s.hw.mem.write dma.data (data.take size))).epInSendData
    .ep0In dma.data size
  pure ((s.setStatusOutStageCallback callback).setHw hw)

def ep0BeginDataOutStage (callback : DataOutCallback) (s : Usb) :
    Outcome Usb := do
  let size := s.setupPacket.wLength.toNat
  let dma := (s.hw.endpoint .ep0Out).info.defaultXferDma
  bugIf (dma.size < size) "0x646f7532626967"
  let hw ← s.hw.epOutRecvData .ep0Out dma.data size
  pure ((s.setDataOutStageCallback (some callback)).setHw hw)

/-- `usb_out_transfer_dma` for endpoint 2, the only one it is called for. -/
def usbOutTransferDma (data dma size : ℕ) (callback : OutTransferCallback)
    (s : Usb) : Outcome Usb := do
  bugIf (s.outTransferDone ≠ none) "0x636220736574"
  let hw ← s.hw.epOutRecvDataDma .ep2Out data dma size
  pure ((s.setOutTransferDone (some callback)).setHw hw)

/-! ## The loader -/

def usbloaderXferDoneCb (_data _size transferred : ℕ) (s : Usb) : Usb :=
  if s.loader.isWaitingXfer = false then s
  else s.setLoader
    { s.loader with xferRecvCount := transferred, isWaitingXfer := false }

/-- `alloc_contig`, `memcpy` and `free_contig`. -/
def moveLoaderXferData (newsz buf : ℕ) (s : Usb) : Usb :=
  let old := s.loader.xferRecvData
  { s with
    hw := s.hw.setMem (s.hw.mem.write buf
      (s.hw.mem.bytesAt old s.loader.xferRecvCount))
    blocks := Function.update (Function.update s.blocks buf (some newsz)) old none
    loader := { s.loader with xferRecvSize := newsz, xferRecvData := buf } }

def resizeLoaderXferData (env : UsbEnv) (newsz : ℕ) (s : Usb) : Outcome Usb := do
  panicIf (uploadSzMax < newsz) "resize_loader_xfer_data"
  if s.loader.xferRecvSize < newsz then
    match env.contig newsz with
    | none => .error (.panic "alloc_phys: OOM")
    | some buf => .ok (s.moveLoaderXferData newsz buf)
  else .ok s

/-- The upload is started and the flag is set. -/
def beginUpload (s : Usb) : Outcome Usb :=
  let buf := s.loader.xferRecvData
  s.usbOutTransferDma buf (busAddress buf) s.loader.xferSize .usbloaderXferDoneCb

def waitForUpload (s : Usb) : Usb :=
  s.setLoader { s.loader with xferRecvCount := 0, isWaitingXfer := true }

/-- `newsz += 0x1ff; newsz &= ~0x1ff`. -/
def roundedSize (size : ℕ) : ℕ := (size + 0x1ff) % 2 ^ 32 / 0x200 * 0x200

def reallocateLoaderXferData (env : UsbEnv) (data : List UInt8) (s : Usb) :
    Outcome (Bool × Usb) := do
  panicIf (data.length ≠ 4) "reallocate_loader_xfer_data"
  let newsz := roundedSize (littleEndian data)
  if uploadSzMax < newsz then pure (false, s)
  else do
    let s ← s.waitForUpload.resizeLoaderXferData env newsz
    let s ← (s.setLoader { s.loader with xferSize := newsz }).beginUpload
    pure (true, s)

/-! ## DATA OUT stages -/

/-- The characters before the first zero are queued. -/
def usbWriteStdin (data : List UInt8) (s : Usb) : Usb :=
  s.setConsole
    { s.console with rx := s.console.rx ++ data.takeWhile (· ≠ 0) }

def ktrwRecvDone (data : List UInt8) (s : Usb) : Bool × Usb :=
  if 0x1000 - s.ktrwRecv.length < data.length then (false, s)
  else (true, s.setKtrwRecv (s.ktrwRecv ++ data))

/-- `data_out_stage_callback`. -/
def dataOutStage (env : UsbEnv) (callback : DataOutCallback)
    (data : List UInt8) (s : Usb) : Outcome (Bool × Usb) :=
  match callback with
  | .ktrwRecvDone => .ok (s.ktrwRecvDone data)
  | .usbWriteStdin => .ok (true, s.usbWriteStdin data)
  | .reallocateLoaderXferData => s.reallocateLoaderXferData env data

/-! ## Requests -/

/-- A request which is answered with `data`. -/
def reply (data : List UInt8) (callback : Option StatusOutCallback) (s : Usb) :
    Outcome (Bool × Usb) := do
  let s ← s.ep0BeginDataInStage data callback
  pure (true, s)

/-- A request which is followed by data. -/
def expect (callback : DataOutCallback) (s : Usb) : Outcome (Bool × Usb) := do
  let s ← s.ep0BeginDataOutStage callback
  pure (true, s)

def deviceDescriptor : List UInt8 :=
  [18, 1, 0x00, 0x02, 0, 0, 0, 64, 0xac, 0x05, 0x41, 0x41, 0, 0, 1, 2, 3, 1]

def configurationDescriptor : List UInt8 :=
  [9, 2, 32, 0, 1, 1, 2, 0x80, 250,
    9, 4, 0, 0, 2, 0xfe, 0x13, 0x37, 0,
    7, 5, 0x81, 3, 0x00, 0x04, 1,
    7, 5, 0x02, 2, 0x00, 0x02, 0]

/-- `string_descriptors`. -/
def stringDescriptors (env : UsbEnv) : List (List UInt8) :=
  [[], "checkra1n team".toUTF8.toList, "pongoOS USB Device".toUTF8.toList,
    env.serialNumber]

/-- At most 63 characters of two bytes each.  String 0 is the list of languages. -/
def getStringDescriptor (env : UsbEnv) (index : ℕ) (s : Usb) :
    Outcome (Bool × Usb) :=
  match (stringDescriptors env)[index]? with
  | none => .ok (false, s)
  | some string =>
      let utf16 : List UInt8 :=
        if index = 0 then [0x09, 0x04]
        else (string.take 63).flatMap fun c => [c, 0]
      s.reply (UInt8.ofNat (2 + utf16.length) :: 3 :: utf16) none

def ep0GetDescriptorRequest (env : UsbEnv) (setup : SetupPacket) (s : Usb) :
    Outcome (Bool × Usb) :=
  match setup.wValue.toNat / 0x100 with
  | 1 => s.reply deviceDescriptor none
  | 2 => s.reply configurationDescriptor none
  | 3 => s.getStringDescriptor env (setup.wValue.toNat % 0x100)
  | _ => .ok (false, s)

def ep0StandardRequest (env : UsbEnv) (setup : SetupPacket) (s : Usb) :
    Outcome (Bool × Usb) :=
  if setup.isIn then
    match setup.bRequest with
    | 6 => s.ep0GetDescriptorRequest env setup
    | 8 => s.reply [1] none
    | 10 => s.reply [0] none
    | _ => .ok (false, s)
  else
    match setup.bRequest with
    | 5 => .ok (true, s.usbSetAddress (setup.wValue &&& 0x7f).toNat)
    | 9 => .ok (true, s)
    | 11 => .ok (true, s)
    | _ => .ok (false, s)

/-- The requests with `bmRequestType` 0x21, from the host to the device. -/
def ep0DeviceOutRequest (setup : SetupPacket) (s : Usb) :
    Outcome (Bool × Usb) :=
  if setup.bRequest = 1 ∧ setup.wLength = 0 then
    if s.loader.isWaitingXfer then .ok (false, s)
    else do
      let s ← s.waitForUpload.beginUpload
      pure (true, s)
  else if setup.bRequest = 2 ∧ setup.wLength = 0 then
    .ok (true,
      if s.loader.isWaitingXfer then s
      else s.setLoader { s.loader with xferRecvCount := 0 })
  else if setup.bRequest = 3 ∧ 0 < setup.wLength ∧ setup.wLength ≤ 512 then
    s.expect .usbWriteStdin
  else if setup.bRequest = 4 ∧ setup.wValue = 0 then
    .ok (true, s.setConsole
      { s.console with shouldWaitForCmdHandler := true, stdoutBlocking := false })
  else if setup.bRequest = 4 ∧ setup.wValue = 1 then
    .ok (true, s.setConsole
      { s.console with shouldWaitForCmdHandler := false, stdoutBlocking := true })
  else if setup.bRequest = 4 ∧ setup.wValue = 0xffff then
    .ok (true, s.setConsole
      { s.console with shouldWaitForCmdHandler := false, stdoutBlocking := false })
  else if setup.bRequest = 1 ∧ setup.wLength = 4 then
    if s.loader.isWaitingXfer then .ok (false, s)
    else s.expect .reallocateLoaderXferData
  else .ok (false, s)

/-- The requests with `bmRequestType` 0xA1, from the device to the host. -/
def ep0DeviceInRequest (env : UsbEnv) (setup : SetupPacket) (s : Usb) :
    Outcome (Bool × Usb) :=
  if setup.bRequest = 1 ∧ (setup.wLength = 512 ∨ setup.wLength = 0x1000) then
    s.reply (trimToRequest setup.wLength.toNat env.stdout) (some .usbReadStdoutCb)
  else if setup.bRequest = 2 ∧ setup.wLength = 1 then
    s.reply [env.commandInProgress] (some .usbReadStdoutCb)
  else .ok (false, s)

def ep0DeviceRequest (env : UsbEnv) (setup : SetupPacket) (s : Usb) :
    Outcome (Bool × Usb) :=
  if setup.bmRequestType = 0x21 then s.ep0DeviceOutRequest setup
  else if setup.bmRequestType = 0xa1 then s.ep0DeviceInRequest env setup
  else .ok (false, s)

/-- With `ktrw_recv`. -/
def ep0VendorRequest (setup : SetupPacket) (s : Usb) : Outcome (Bool × Usb) :=
  if setup.isIn = false ∧ setup.bRequest = 0x41 ∧ setup.wIndex = 0x1337 then
    if 0x1000 - s.ktrwRecv.length < setup.wLength.toNat then .ok (false, s)
    else s.expect .ktrwRecvDone
  else .ok (false, s)

def ep0SetupStage (env : UsbEnv) (setup : SetupPacket) (s : Usb) :
    Outcome (Bool × Usb) :=
  match setup.bmRequestType &&& 0x60 with
  | 0 => s.ep0StandardRequest env setup
  | 0x20 => s.ep0DeviceRequest env setup
  | 0x40 => s.ep0VendorRequest setup
  | _ => .ok (false, s)

/-! ## Interrupts -/

/-- What handles a SETUP packet: `ep0_setup_stage`, or another layer in its
place. -/
abbrev SetupStage := SetupPacket → Usb → Outcome (Bool × Usb)

/-- `ep_in_send_data(&ep0_in, NULL, 0)`. -/
def beginStatusIn (s : Usb) : Outcome Usb := do
  let hw ← s.hw.epInSendData .ep0In 0 0
  pure (s.setHw hw)

/-- `ep_out_recv_data` and `ep_out_recv` for an empty packet. -/
def beginStatusOut (s : Usb) : Outcome Usb := do
  let dma := (s.hw.endpoint .ep0Out).info.defaultXferDma
  let hw ← s.hw.epOutRecvData .ep0Out dma.data 0
  let hw ← hw.epOutRecv .ep0Out
  pure (s.setHw hw)

/-- All the data of EP0 IN has been sent. -/
def ep0InSent (s : Usb) : Outcome Usb :=
  if s.setupPacket.isIn then
    let requested := s.setupPacket.wLength.toNat
    let sent := (s.hw.endpoint .ep0In).transferred % 2 ^ 16
    if sent < requested ∧ ¬ (sent = 0 ∨ sent % ep0MaxPacketSize ≠ 0) then
      s.beginStatusIn
    else s.beginStatusOut
  else .ok s

def ep0InInterrupt (diepint : UInt32) (s : Usb) : Outcome Usb := do
  let s ← (if diepint &&& 1 ≠ 0 then do
      let (done, hw) ← s.hw.epInSendDone .ep0In
      if done then (s.setHw hw).ep0InSent else pure (s.setHw hw)
    else pure s : Outcome Usb)
  bugIf (diepint &&& 4 ≠ 0) "0x61686220696e"
  pure s

/-- A SETUP packet is queued. -/
def ep0SetupReceived (packet : SetupPacket) (s : Usb) : Outcome Usb := do
  let hw ← s.hw.epOutRecvSetupDone .ep0Out
  pure ((s.setHw hw).setSetupPacket packet)

/-- The next endpoint that the host will query is stalled. -/
def stallAfterSetup (s : Usb) : Usb :=
  if s.setupPacket.isIn then s.epStall .ep0In
  else if 0 < s.setupPacket.wLength then s.epStall .ep0Out
  else s.epStall .ep0In

/-- The SETUP stage is done, and the queued packet is processed. -/
def ep0SetupDone (stage : SetupStage) (s : Usb) : Outcome Usb := do
  let s := s.clearSetupPacketPending
  let (success, s) ←
    (if s.setupPacket.wLength.toNat ≤ dmaBufferSize then stage s.setupPacket s
    else pure (false, s) : Outcome (Bool × Usb))
  if success then
    if s.setupPacket.isIn = false ∧ s.setupPacket.wLength = 0 then s.beginStatusIn
    else pure s
  else pure s.stallAfterSetup

/-- The DATA OUT stage is complete with `data`. -/
def ep0DataOutDone (env : UsbEnv) (data : List UInt8) (s : Usb) :
    Outcome Usb :=
  match s.dataOutStageCallback with
  | none => .error (.panic "USB BUG: 0x6e6f20646f206362")
  | some callback => do
      let (success, s) ← s.dataOutStage env callback data
      let s := s.setDataOutStageCallback none
      if success then s.beginStatusIn else pure (s.epStall .ep0In)

/-- A packet of the DATA OUT stage or of the STATUS OUT stage. -/
def ep0DataReceived (env : UsbEnv) (left : Residue) (s : Usb) :
    Outcome Usb := do
  let (done, hw) ← s.hw.epOutRecvDataDone .ep0Out left
  let s := s.setHw hw
  let ep := s.hw.endpoint .ep0Out
  if done = false then pure s
  else if s.setupPacket.isIn then
    if ep.transferred ≠ 0 ∨ ep.transferSize ≠ 0 then pure (s.epStall .ep0Out)
    else pure (s.setStatusOutStageCallback none)
  else if ep.transferred ≠ ep.transferSize then pure (s.epStall .ep0Out)
  else s.ep0DataOutDone env (s.hw.mem.bytesAt ep.transferData ep.transferSize)

def ep0OutInterrupt (stage : SetupStage) (env : UsbEnv) (doepint : UInt32)
    (packet : SetupPacket) (left : Residue) (s : Usb) : Outcome Usb := do
  let s ← (if doepint &&& 0x8008 ≠ 0 then s.ep0SetupReceived packet
    else pure s : Outcome Usb)
  let s ← (if doepint &&& 8 ≠ 0 ∧ s.setupPacketPending then s.ep0SetupDone stage
    else if doepint &&& 0x8008 = 0 ∧ doepint &&& 1 ≠ 0 ∧ doepint &&& 0x20 = 0 then
      s.ep0DataReceived env left
    else pure s : Outcome Usb)
  bugIf (doepint &&& 4 ≠ 0) "0x616862206f7574"
  let hw ← s.hw.epOutRecv .ep0Out
  pure (s.setHw hw)

/-- `out_transfer_done`. -/
def callOutTransferDone (call : OutTransferCall) (s : Usb) : Usb :=
  let s := s.recordCall call
  match call.callback with
  | .usbloaderXferDoneCb =>
      s.usbloaderXferDoneCb call.data call.size call.transferred

/-- The transfer on EP2 is done. -/
def ep2OutDone (s : Usb) : Outcome Usb :=
  let ep := s.hw.endpoint .ep2Out
  match s.outTransferDone with
  | none => .error (.panic "USB BUG: 0x6e6f203169206362")
  | some callback =>
      .ok ((s.setOutTransferDone none).callOutTransferDone
        ⟨callback, ep.transferData, ep.transferSize, ep.transferred⟩)

def ep2OutInterrupt (doepint : UInt32) (left : Residue) (s : Usb) :
    Outcome Usb := do
  let s ← (if doepint &&& 1 ≠ 0 then do
      let (done, hw) ← s.hw.epOutRecvDataDone .ep2Out left
      if done then (s.setHw hw).ep2OutDone else pure (s.setHw hw)
    else pure s : Outcome Usb)
  bugIf (doepint &&& 4 ≠ 0) "0x61686220696e2031"
  pure s

/-- The endpoints are aborted and activated again. -/
def resetEndpoints (hw : Controller) : Controller :=
  let hw := ((hw.epInAbort .ep0In).epInAbort .ep1In).epInAbort .ep2Out
  ((((hw.usbSetAddress 0).epActivate .ep0Out 0 0 ep0MaxPacketSize
    false).epActivate .ep0In 0 0 ep0MaxPacketSize true).epActivate .ep1In 1 3
    intrEpMaxPacketSize true).epActivate .ep2Out 2 2 bulkEpMaxPacketSize false

def usbReset (s : Usb) : Outcome Usb := do
  let hw ← (resetEndpoints s.hw).epOutRecv .ep0Out
  pure (s.setHw hw)

end Usb

end PongoOS
