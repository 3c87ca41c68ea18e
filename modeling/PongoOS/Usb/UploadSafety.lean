import PongoOS.Usb.UploadRuns

/-!
# The loader's buffer

In every run the controller writes only to the buffer that the loader has, and
the sizes that the loader keeps are right.  A bus reset forgets a transfer that is
under way, but the loader goes on waiting for it.
-/

namespace PongoOS

/-! ## Runs from the start -/

/-- The memory that `usb_init` and `usbloader_init` get. -/
structure UsbBoot (dmaPage buf : ℕ) : Prop where
  dmaPage_mapped : InStaticMap dmaPage (4 * dmaBufferSize)
  buf_mapped : InStaticMap buf uploadSz
  apart : dmaPage + 4 * dmaBufferSize ≤ buf ∨ buf + uploadSz ≤ dmaPage

/-- What holds in every state of a run. -/
structure UsbInv (dmaPage : ℕ) (s : Usb) : Prop where
  usable : s.hw.Usable dmaPage
  upload : s.upload.Inv

section Runs

variable {mem : ByteMemory} {dmaPage buf : ℕ} {s s' : Usb} {e : UsbEvent}
  {es : List UsbEvent}

theorem UsbBoot.inv (h : UsbBoot dmaPage buf) :
    UsbInv dmaPage (Usb.boot mem dmaPage buf) := by
  constructor
  case usable => exact ⟨fun e => by cases e <;> rfl, Or.inl fun _ => rfl⟩
  case upload =>
    constructor
    case buffered =>
      have hpos : 0 < uploadSz := by decide
      have hmax : uploadSz ≤ uploadSzMax := by decide
      exact ⟨le_rfl, Nat.zero_le _, hpos, hmax, Function.update_self ..,
        h.buf_mapped⟩
    case callback => exact ⟨fun hne => absurd rfl hne, nofun⟩
    case resizing => exact fun _ => rfl
    case armed => exact fun t ht => nomatch ht
    case inFlight => exact Or.inl rfl
    case scheduled => exact fun hf => nomatch hf

theorem UsbInv.step (h : UsbInv dmaPage s) (hstep : UsbStep s e s') :
    UsbInv dmaPage s' := by
  obtain ⟨husable, a, -, hupload⟩ := hstep.upload h.usable
  exact ⟨husable, hupload.inv h.upload⟩

theorem UsbInv.of_run (hboot : UsbBoot dmaPage buf)
    (hrun : Run UsbStep (Usb.boot mem dmaPage buf) es s) : UsbInv dmaPage s :=
  hrun.invariant (fun _ _ _ h hstep => h.step hstep) hboot.inv

end Runs

/-! ## The buffer is safe -/

/-- A transfer into the buffer is under way: EP2 is receiving, or the controller
is still programmed with a part of a transfer. -/
def Usb.BufferInUse (s : Usb) : Prop :=
  (s.hw.endpoint .ep2Out).inFlight = recvData ∨ s.hw.armed .ep2Out ≠ none

/-- The buffer is allocated with the size that the loader has recorded, and what
the loader and the controller do stays within it. -/
structure Usb.BufferSafe (s : Usb) : Prop where
  allocated : s.blocks s.loader.xferRecvData = some s.loader.xferRecvSize
  xferSize_le : s.loader.xferSize ≤ s.loader.xferRecvSize
  count_le : s.loader.xferRecvCount ≤ s.loader.xferRecvSize
  window : ∀ t, s.hw.armed .ep2Out = some t →
    busAddress s.loader.xferRecvData ≤ t.dma ∧
      t.dma + t.size ≤ busAddress s.loader.xferRecvData + s.loader.xferRecvSize

/-- The buffer stays where it is, and no block is freed. -/
def Usb.KeepsBuffer (s s' : Usb) : Prop :=
  s'.loader.xferRecvData = s.loader.xferRecvData ∧
    s'.loader.xferRecvSize = s.loader.xferRecvSize ∧ s'.blocks = s.blocks

section Safety

variable {mem : ByteMemory} {dmaPage buf : ℕ} {s s' : Usb} {e : UsbEvent}
  {es : List UsbEvent}

theorem UsbInv.waiting_of_bufferInUse (h : UsbInv dmaPage s)
    (huse : s.BufferInUse) : s.loader.isWaitingXfer = true := by
  rcases huse with hrecv | harmed
  · exact (h.upload.scheduled hrecv).waiting
  · obtain ⟨t, ht⟩ := Option.ne_none_iff_exists'.mp harmed
    exact (h.upload.armed t ht).1

/-- The loader's buffer is safe in every run, whatever the host sends, and it is
not freed or moved while a transfer into it is under way. -/
theorem loaderBuffer_safe (hboot : UsbBoot dmaPage buf)
    (hrun : Run UsbStep (Usb.boot mem dmaPage buf) es s) :
    s.BufferSafe ∧ (s.resizing = true → ¬ s.BufferInUse) ∧
      ∀ e s', UsbStep s e s' → s.BufferInUse → s.KeepsBuffer s' := by
  have hinv := UsbInv.of_run hboot hrun
  have hbuffered := hinv.upload.buffered
  refine ⟨⟨hbuffered.live, hbuffered.xferSize_le, hbuffered.count_le,
    fun t ht => (hinv.upload.armed t ht).2⟩, fun hresizing huse => ?_,
    fun e s' hstep huse => ?_⟩
  · have hwait := hinv.waiting_of_bufferInUse huse
    exact Bool.false_ne_true ((hinv.upload.resizing hresizing).symm.trans hwait)
  · obtain ⟨-, a, -, hupload⟩ := hstep.upload hinv.usable
    exact hupload.keeps_buffer hinv.upload (hinv.waiting_of_bufferInUse huse)

end Safety

/-! ## The flag and the transfer -/

/-- EP2 receives and has a callback to call. -/
def Usb.TransferScheduled (s : Usb) : Prop :=
  (s.hw.endpoint .ep2Out).inFlight = recvData ∧ s.outTransferDone ≠ none

instance (s : Usb) : Decidable s.TransferScheduled :=
  inferInstanceAs (Decidable (_ ∧ _))

section Flag

variable {mem : ByteMemory} {dmaPage buf : ℕ} {s s' : Usb} {e : UsbEvent}
  {es : List UsbEvent}

end Flag

/-! ## An upload that a bus reset ends -/

namespace Usb

def sampleBoot : Usb := boot (fun _ => 0) kCacheableView (kCacheableView + 0x4000)

theorem usbBoot_sampleBoot : UsbBoot kCacheableView (kCacheableView + 0x4000) :=
  ⟨⟨le_rfl, by decide⟩, ⟨by decide, by decide⟩, by decide⟩

/-- The request for an upload. -/
def uploadRequest : SetupPacket := ⟨0x21, 1, 0, 0, 0⟩

def sampleEnv : UsbEnv := ⟨fun _ => none, [], 0, []⟩

/-- The controller is ready for a SETUP packet. -/
def setupTransfer : Transfer := ⟨0, ep0MaxPacketSize, 1, false⟩

def requestUpload (s : Usb) : Outcome Usb :=
  (s.setHw (s.hw.ep0Received 8 setupTransfer [])).ep0OutInterrupt
    (ep0SetupStage sampleEnv) sampleEnv 8 uploadRequest
    ⟨ep0MaxPacketSize - 0, 0⟩

theorem usbStep_requestUpload {s s' : Usb}
    (harmed : s.hw.armed .ep0Out = some setupTransfer)
    (h : s.requestUpload = .ok s') :
    UsbStep s (.ep0Out 8 uploadRequest [] sampleEnv) s' :=
  ⟨setupTransfer, harmed, Nat.zero_le _, nofun, h⟩

/-- The upload starts after a bus reset.  A second bus reset ends it, and from
then on a request for an upload stalls. -/
theorem sampleUpload : ∃ s₁ s₂ s₃ s₄,
    UsbStep sampleBoot (.reset true) s₁ ∧
      UsbStep s₁ (.ep0Out 8 uploadRequest [] sampleEnv) s₂ ∧
      UsbStep s₂ (.reset false) s₃ ∧
      UsbStep s₃ (.ep0Out 8 uploadRequest [] sampleEnv) s₄ ∧
      s₂.TransferScheduled ∧
      s₃.loader.isWaitingXfer = true ∧ ¬ s₃.TransferScheduled ∧
      s₄.hw.stalled .ep0In = true ∧ ¬ s₄.TransferScheduled := by
  have hcalls : (do
      let s₁ ← (sampleBoot.setHw (sampleBoot.hw.busReset true)).usbReset
      let s₂ ← s₁.requestUpload
      let s₃ ← (s₂.setHw (s₂.hw.busReset false)).usbReset
      let s₄ ← s₃.requestUpload
      pure (s₁, s₂, s₃, s₄) : Outcome (Usb × Usb × Usb × Usb)).toOption.map
        (fun r => ([r.1.hw.armed .ep0Out, r.2.2.1.hw.armed .ep0Out],
          [decide r.2.1.TransferScheduled, r.2.2.1.loader.isWaitingXfer,
            decide r.2.2.1.TransferScheduled, r.2.2.2.hw.stalled .ep0In,
            decide r.2.2.2.TransferScheduled])) =
      some ([some setupTransfer, some setupTransfer],
        [true, true, false, true, false]) := by
    decide +kernel
  obtain ⟨⟨s₁, s₂, s₃, s₄⟩, hok, hfacts⟩ := Outcome.ok_of_map hcalls
  simp only [Outcome.bind_eq_ok, Outcome.pure_eq_ok, Prod.mk.injEq] at hok
  obtain ⟨_, h₁, _, h₂, _, h₃, _, h₄, rfl, rfl, rfl, rfl⟩ := hok
  simp only [Prod.mk.injEq, List.cons.injEq, decide_eq_true_eq,
    decide_eq_false_iff_not, and_true] at hfacts
  obtain ⟨⟨harmed₁, harmed₃⟩, hsecond, hwait, hthird, hstalled, hfourth⟩ := hfacts
  exact ⟨_, _, _, _, h₁, usbStep_requestUpload harmed₁ h₂, h₃,
    usbStep_requestUpload harmed₃ h₄, hsecond, hwait, hthird, hstalled, hfourth⟩

end Usb

open Usb in
theorem loaderBuffer_safe_sampleUpload : ∃ s,
    s.TransferScheduled ∧ s.BufferSafe ∧
      ∀ e s', UsbStep s e s' → s.KeepsBuffer s' := by
  obtain ⟨s₁, s₂, -, -, h₁, h₂, -, -, hsecond, -⟩ := sampleUpload
  obtain ⟨hsafe, -, hkeeps⟩ :=
    loaderBuffer_safe usbBoot_sampleBoot (.cons h₁ (.single h₂))
  exact ⟨s₂, hsecond, hsafe, fun e s' hstep => hkeeps e s' hstep (.inl hsecond.1)⟩

end PongoOS
