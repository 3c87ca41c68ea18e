import PongoOS.Mm.ContiguousRelease
import PongoOS.Usb.UploadSafety

/-!
# The request to change the size of the upload buffer

`reallocate_loader_xfer_data` together with the allocator it calls.  The size
that the host sends is rounded up in 32 bits, so that sizes near the end become
zero, as zero does, and EP2 refuses a transfer of no bytes when the state of the
loader has changed already.
-/

namespace PongoOS

/-! ## The request with the allocator -/

namespace Usb

/-- `resize_loader_xfer_data`, after `loader_xfer_recv_count` was cleared: its
`memcpy` copies nothing. -/
def resizeLoaderXferDataIn (newsz : ℕ) (s : Usb) (m : Mm) :
    Outcome (Usb × Mm) := do
  panicIf (uploadSzMax < newsz) "resize_loader_xfer_data"
  if s.loader.xferRecvSize < newsz then do
    let r ← m.allocContig newsz
    let m' ← r.2.freeContig s.loader.xferRecvData s.loader.xferRecvSize
    pure (s.moveLoaderXferData newsz r.1, m')
  else pure (s, m)

def reallocateLoaderXferDataIn (data : List UInt8) (s : Usb) (m : Mm) :
    Outcome (Bool × Usb × Mm) := do
  panicIf (data.length ≠ 4) "reallocate_loader_xfer_data"
  let newsz := roundedSize (littleEndian data)
  if uploadSzMax < newsz then pure (false, s, m)
  else do
    let r ← s.waitForUpload.resizeLoaderXferDataIn newsz m
    let s' ← (r.1.setLoader { r.1.loader with xferSize := newsz }).beginUpload
    pure (true, s', r.2)

end Usb

namespace Controller

/-- A transfer that receives data is given to the controller. -/
theorem epOutRecv_receiving_returns {c : Controller} {e : Ep} {x : Xfer}
    (hdir : (c.endpoint e).info.dirIn = false)
    (hn : (c.endpoint e).info.n ≠ 0)
    (hflight : (c.endpoint e).inFlight = recvData)
    (hx : (c.endpoint e).epOutRecvComputeXfer = .ok x) :
    c.epOutRecv e = .ok ((c.setEndpoint e (c.endpoint e)).arm e
      ((c.endpoint e).transferOf x true)) := by
  unfold epOutRecv
  simp only [hdir, Bool.false_eq_true, hn, false_and, hflight, ne_eq,
    not_true_eq_false, bugIf_of_not not_false, Outcome.ok_bind, if_false, hx,
    decide_true]
  rfl

end Controller

/-! ## The buffer -/

namespace Mm

/-- All of RAM is in the static view. -/
def RamInView (m : Mm) : Prop :=
  0x800000000 ≤ m.boot.physBase ∧
    m.boot.physBase + m.boot.memSize ≤ 0x900000000

/-- The pages of `[base, base + size)` are in use. -/
def Held (m : Mm) (base size : ℕ) : Prop :=
  ∃ b, base = phystokv (m.pageAddr b) ∧ b + pagesOf size ≤ m.ppages ∧
    ∀ j, b ≤ j → j < b + pagesOf size → m.count j ≠ pageFree

section Held

variable {m m₁ m₂ : Mm} {base size newsz i n b : ℕ}

theorem FreeListWf.pageAddr_inView (h : m.FreeListWf) (hview : m.RamInView)
    (hb : b < m.ppages) : InStaticView (m.pageAddr b) := by
  obtain ⟨l, hl⟩ := h
  obtain ⟨hlow, hhigh⟩ := hview
  have hsized := hl.sized
  unfold InStaticView pageAddr
  unfold pageSize at *
  omega

theorem InStaticView.lt {pa : ℕ} (h : InStaticView pa) : pa < 2 ^ 64 :=
  Nat.lt_trans h.2 (by decide)

theorem phystokv_ne_zero {pa : ℕ} (h : InStaticView pa) :
    phystokv pa ≠ 0 := by
  obtain ⟨hlow, hhigh⟩ := h
  unfold phystokv sub64 kCacheableView
  omega

theorem Held.ne_zero (h : m.Held base size) (hlist : m.FreeListWf)
    (hview : m.RamInView) (hsize : 0 < size) : base ≠ 0 := by
  obtain ⟨b, rfl, hb, -⟩ := h
  have hpages := pagesOf_pos hsize
  exact phystokv_ne_zero (hlist.pageAddr_inView hview (by omega))

/-- Pages in use are not taken. -/
theorem TakesPages.busy (h : TakesPages m m₁ i n)
    (hbusy : m.count b ≠ pageFree) : m₁.count b = m.count b := by
  have hb : b < i ∨ i + n ≤ b := by
    by_contra hin
    exact hbusy (h.wasFree b (by omega) (by omega))
  rw [count, h.others b hb, count]

theorem TakesPages.held (h : TakesPages m m₁ i n) (hheld : m.Held base size) :
    m₁.Held base size := by
  obtain ⟨b, rfl, hb, hbusy⟩ := hheld
  refine ⟨b, by rw [h.layout.pageAddr], by rwa [h.layout.ppages],
    fun j hbj hj => ?_⟩
  rw [h.busy (hbusy j hbj hj)]
  exact hbusy j hbj hj

theorem RamInView.layout (h : m.RamInView) (hlayout : SameLayout m m₁) :
    m₁.RamInView := by
  unfold RamInView
  rwa [hlayout.boot]

theorem div_le_pagesOf (size : ℕ) : size / pageSize ≤ pagesOf size :=
  Nat.div_le_div_right (Nat.le_add_right size _)

/-- A larger buffer is allocated and the old one given back. -/
theorem Held.moves (hinv : m.AllocatorInv) (hview : m.RamInView)
    (hheld : m.Held base size) (hsize : 0 < size) (hpos : 1 ≤ newsz)
    (hlt : newsz + 0x3fff < 2 ^ 32) :
    (∃ e, m.allocContig newsz = .error e ∧ OomPanic e ∧
      m.Exhausted (pagesOf newsz)) ∨
    ∃ buf m₁ m₂, m.allocContig newsz = .ok (buf, m₁) ∧
      m₁.freeContig base size = .ok m₂ ∧ m₂.AllocatorInv ∧ m₂.RamInView ∧
      m₂.Held buf newsz := by
  rcases allocPhys_exhausted_or_takes hinv hpos hlt with
    ⟨e, herror, hoom⟩ | ⟨i, m₁, hok, htakes, hlist, -⟩
  · refine .inl ⟨e, ?_, hoom⟩
    unfold allocContig
    rw [herror]
    rfl
  obtain ⟨b, rfl, hb, hbusy⟩ := hheld
  have hpages := pagesOf_pos hsize
  have hfloor := div_le_pagesOf size
  have hinside := hinv.freeList.pageAddr_inView (b := b) hview (by omega)
  have hram : b + size / pageSize ≤ m₁.ppages := by
    rw [htakes.layout.ppages]
    omega
  obtain ⟨m₂, hfree, hback⟩ := physDereference_givenBack hlist hram
    fun j hbj hj => by
      rw [htakes.busy (hbusy j hbj (by omega))]
      exact hbusy j hbj (by omega)
  have hlayout := htakes.layout.trans hback.layout
  refine .inr ⟨_, m₁, m₂, allocContig_eq_ok.mpr ⟨_, hok, rfl⟩, ?_,
    ⟨hlayout.allocStaticBase ▸ hinv.initialised, hback.list⟩,
    hview.layout hlayout, i, by rw [hlayout.pageAddr], ?_, fun j hij hj => ?_⟩
  · rw [htakes.layout.pageAddr] at hfree
    exact Outcome.bind_eq_ok.mpr ⟨_, (vatophysStatic_phystokv
      (InStaticView.lt hinside)).mpr ⟨hinside, rfl⟩, hfree⟩
  · rw [hlayout.ppages]
    exact htakes.ram
  · -- the new pages were free, so they are not among the old ones
    have hj' : j < b ∨ b + size / pageSize ≤ j := by
      by_contra hold
      exact hbusy j (by omega) (by omega) (htakes.wasFree j hij hj)
    rw [count, hback.others j hj']
    exact htakes.taken_busy j hij hj

end Held

end Mm

namespace Usb

/-- No transfer is in flight on EP2. -/
structure Ep2Idle (dmaPage : ℕ) (s : Usb) : Prop where
  callback : s.outTransferDone = none
  inFlight : (s.hw.endpoint .ep2Out).inFlight = 0
  info : (s.hw.endpoint .ep2Out).info = epInfo dmaPage .ep2Out

/-- The buffer of the loader was allocated. -/
structure HasBuffer (s : Usb) (m : Mm) : Prop where
  allocator : m.AllocatorInv
  view : m.RamInView
  size_pos : 0 < s.loader.xferRecvSize
  held : m.Held s.loader.xferRecvData s.loader.xferRecvSize

/-- EP2 has a transfer of at least `n` bytes into the buffer. -/
structure Schedules (n : ℕ) (s : Usb) (m : Mm) : Prop where
  inFlight : (s.hw.endpoint .ep2Out).inFlight = recvData
  data : (s.hw.endpoint .ep2Out).transferData = s.loader.xferRecvData
  size_pos : 0 < (s.hw.endpoint .ep2Out).transferSize
  aligned : (s.hw.endpoint .ep2Out).transferSize % bulkEpMaxPacketSize = 0
  enough : n ≤ (s.hw.endpoint .ep2Out).transferSize
  inBuffer : (s.hw.endpoint .ep2Out).transferSize ≤ s.loader.xferRecvSize
  buffer : s.HasBuffer m

/-- The request is refused and changes nothing, or it schedules a transfer, or
there is no memory for the buffer. -/
def UploadRequestSpec (data : List UInt8) (s : Usb) (m : Mm) : Prop :=
  s.reallocateLoaderXferDataIn data m = .ok (false, s, m) ∨
  (∃ s' m', s.reallocateLoaderXferDataIn data m = .ok (true, s', m') ∧
    s'.Schedules (littleEndian data) m') ∨
  ∃ e, s.reallocateLoaderXferDataIn data m = .error e ∧ Mm.OomPanic e ∧
    m.Exhausted (Mm.pagesOf (roundedSize (littleEndian data)))

section Request

variable {dmaPage n size : ℕ} {s s' : Usb} {m m' : Mm} {data : List UInt8}
  {env : UsbEnv} {b : Bool}

/-! ### The size -/

theorem roundedSize_eq_zero (hn : n < 2 ^ 32)
    (h : ¬ (n ≠ 0 ∧ n ≤ 0xfffffe00)) : roundedSize n = 0 := by
  unfold roundedSize
  omega

theorem roundedSize_spec (h : n ≠ 0 ∧ n ≤ 0xfffffe00) :
    0 < roundedSize n ∧ n ≤ roundedSize n ∧
      roundedSize n % bulkEpMaxPacketSize = 0 := by
  unfold roundedSize bulkEpMaxPacketSize
  omega

theorem littleEndian_lt_of_length (hlen : data.length = 4) :
    littleEndian data < 2 ^ 32 := by
  have hlt := littleEndian_lt data
  rwa [hlen] at hlt

/-! ### The transfer -/

theorem beginUpload_returns (h : s.Ep2Idle dmaPage)
    (hdata : s.loader.xferRecvData ≠ 0) (hpos : 0 < s.loader.xferSize)
    (haligned : s.loader.xferSize % bulkEpMaxPacketSize = 0)
    (hlt : s.loader.xferSize < 2 ^ 32) :
    ∃ s', s.beginUpload = .ok s' ∧ s'.loader = s.loader ∧
      s'.hw.endpoint .ep2Out = s.upload.begunEndpoint := by
  have hinfo := h.info
  have hcompute : s.upload.begunEndpoint.epOutRecvComputeXfer =
      .ok (EndpointState.uploadXfer s.loader.xferSize 0) := by
    refine EndpointState.epOutRecvComputeXfer_direct ?_ ?_ rfl rfl ?_ rfl
      haligned rfl hpos hlt
    · exact congrArg EndpointInfo.type hinfo
    · exact congrArg EndpointInfo.maxPacketSize hinfo
    · exact if_neg (Nat.pos_iff_ne_zero.mp hpos)
  have hbug : ¬ ((s.hw.endpoint .ep2Out).info.dirIn = true ∨
      (s.hw.endpoint .ep2Out).inFlight ≠ 0 ∨ s.loader.xferRecvData = 0 ∨
      s.loader.xferSize = 0 ∨ s.loader.xferSize %
        (s.hw.endpoint .ep2Out).info.maxPacketSize ≠ 0) := by
    rw [hinfo, h.inFlight]
    simp [epInfo, hdata, haligned, Nat.pos_iff_ne_zero.mp hpos]
  have hn : (s.hw.endpoint .ep2Out).info.n ≠ 0 := by
    rw [hinfo]
    exact (by decide : 2 ≠ 0)
  have hrecv := Controller.epOutRecv_receiving_returns (e := .ep2Out)
    (c := s.hw.setEndpoint .ep2Out s.upload.begunEndpoint)
    (by simp [Upload.begunEndpoint, Usb.upload, hinfo, epInfo])
    (by simp [Upload.begunEndpoint, Usb.upload, hn])
    (by simp [Upload.begunEndpoint]) (by simpa using hcompute)
  unfold beginUpload usbOutTransferDma
  rw [bugIf_of_not (not_not.mpr h.callback), Outcome.ok_bind]
  unfold Controller.epOutRecvDataDma
  simp only [bugIf_of_not hbug, Outcome.ok_bind,
    Controller.epOutRecvDataCommon, if_pos hn]
  refine ⟨_, Outcome.bind_eq_ok.mpr ⟨_, hrecv, rfl⟩, rfl, ?_⟩
  simp

theorem beginUpload_no_bytes (h : s.Ep2Idle dmaPage)
    (hzero : s.loader.xferSize = 0) :
    s.beginUpload = .error (.panic "USB BUG: 0x73656e642035") := by
  unfold beginUpload usbOutTransferDma
  rw [bugIf_of_not (not_not.mpr h.callback), Outcome.ok_bind]
  unfold Controller.epOutRecvDataDma
  simp only [hzero, true_or, or_true, bugIf, panicIf, if_true]
  rfl

/-! ### With and without the allocator -/

/-- `env` answers `alloc_contig` as the allocator does. -/
def AnswersAs (env : UsbEnv) (m : Mm) : Prop :=
  ∀ n buf m', m.allocContig n = .ok (buf, m') → env.contig n = some buf

theorem resizeLoaderXferDataIn_refines (henv : AnswersAs env m)
    (hok : s.resizeLoaderXferDataIn size m = .ok (s', m')) :
    s.resizeLoaderXferData env size = .ok s' := by
  unfold resizeLoaderXferDataIn at hok
  obtain ⟨u, hmax, hok⟩ := Outcome.bind_eq_ok.mp hok
  unfold resizeLoaderXferData
  refine Outcome.bind_eq_ok.mpr ⟨u, hmax, ?_⟩
  by_cases hlarger : s.loader.xferRecvSize < size
  · rw [if_pos hlarger] at hok ⊢
    simp only [Outcome.bind_eq_ok, Outcome.pure_eq_ok, Prod.mk.injEq] at hok
    obtain ⟨⟨buf, m₁⟩, halloc, m₂, -, rfl, rfl⟩ := hok
    rw [henv _ _ _ halloc]
  · rw [if_neg hlarger] at hok ⊢
    exact congrArg Except.ok (Prod.mk.inj (Except.ok.inj hok)).1

/-- What the request does with the allocator it does in the model of the
driver. -/
theorem reallocateLoaderXferDataIn_refines (henv : AnswersAs env m)
    (hok : s.reallocateLoaderXferDataIn data m = .ok (b, s', m')) :
    s.reallocateLoaderXferData env data = .ok (b, s') := by
  unfold reallocateLoaderXferDataIn at hok
  obtain ⟨u, hlen, hok⟩ := Outcome.bind_eq_ok.mp hok
  unfold reallocateLoaderXferData
  refine Outcome.bind_eq_ok.mpr ⟨u, hlen, ?_⟩
  by_cases hmax : uploadSzMax < roundedSize (littleEndian data)
  · simp only [if_pos hmax, Outcome.pure_eq_ok, Prod.mk.injEq] at hok ⊢
    exact ⟨hok.1, hok.2.1⟩
  · simp only [if_neg hmax, Outcome.bind_eq_ok, Outcome.pure_eq_ok,
      Prod.mk.injEq] at hok ⊢
    obtain ⟨⟨s₁, m₁⟩, hresize, s₂, hbegin, rfl, rfl, -⟩ := hok
    exact ⟨s₁, resizeLoaderXferDataIn_refines henv hresize, s₂, hbegin, rfl, rfl⟩

/-! ### The answer -/

theorem Ep2Idle.setMem (h : s.Ep2Idle dmaPage) {mem : ByteMemory}
    (hhw : s'.hw = s.hw.setMem mem)
    (hcallback : s'.outTransferDone = s.outTransferDone) :
    s'.Ep2Idle dmaPage := by
  refine ⟨hcallback.trans h.callback, ?_, ?_⟩
  · rw [hhw]
    exact h.inFlight
  · rw [hhw]
    exact h.info

theorem resizeLoaderXferDataIn_cases (hbuffer : s.HasBuffer m)
    (hidle : s.Ep2Idle dmaPage) (hpos : 0 < size) (hmax : size ≤ uploadSzMax) :
    (∃ e, s.resizeLoaderXferDataIn size m = .error e ∧ Mm.OomPanic e ∧
      m.Exhausted (Mm.pagesOf size)) ∨
    ∃ s' m', s.resizeLoaderXferDataIn size m = .ok (s', m') ∧
      s'.HasBuffer m' ∧ s'.Ep2Idle dmaPage ∧
      size ≤ s'.loader.xferRecvSize := by
  unfold resizeLoaderXferDataIn
  rw [(panicIf_eq_ok (u := ())).mpr (Nat.not_lt.mpr hmax), Outcome.ok_bind]
  by_cases hlarger : s.loader.xferRecvSize < size
  · have hlt : size + 0x3fff < 2 ^ 32 := by
      unfold uploadSzMax at hmax
      omega
    rw [if_pos hlarger]
    rcases hbuffer.held.moves hbuffer.allocator hbuffer.view hbuffer.size_pos
      hpos hlt with ⟨e, herror, hoom⟩ |
        ⟨buf, m₁, m₂, halloc, hfree, hinv, hview, hheld⟩
    · refine .inl ⟨e, ?_, hoom⟩
      rw [herror]
      rfl
    · refine .inr ⟨s.moveLoaderXferData size buf, m₂, ?_,
        ⟨hinv, hview, hpos, hheld⟩, hidle.setMem rfl rfl, le_rfl⟩
      rw [halloc, Outcome.ok_bind, hfree]
      rfl
  · rw [if_neg hlarger]
    exact .inr ⟨s, m, rfl, hbuffer, hidle, Nat.not_lt.mp hlarger⟩

theorem reallocateLoaderXferDataIn_of_length (hlen : data.length = 4) :
    s.reallocateLoaderXferDataIn data m =
      if uploadSzMax < roundedSize (littleEndian data) then
        .ok (false, s, m)
      else
        s.waitForUpload.resizeLoaderXferDataIn
            (roundedSize (littleEndian data)) m >>= fun r =>
          (r.1.setLoader { r.1.loader with
            xferSize := roundedSize (littleEndian data) }).beginUpload >>=
              fun s' => pure (true, s', r.2) := by
  unfold reallocateLoaderXferDataIn
  rw [(panicIf_eq_ok (u := ())).mpr (not_not.mpr hlen), Outcome.ok_bind]
  rfl

/-- A size that rounds to zero stops in the code of EP2. -/
theorem reallocateLoaderXferDataIn_no_bytes (hidle : s.Ep2Idle dmaPage)
    (hlen : data.length = 4)
    (hzero : roundedSize (littleEndian data) = 0) :
    s.reallocateLoaderXferDataIn data m =
      .error (.panic "USB BUG: 0x73656e642035") := by
  rw [reallocateLoaderXferDataIn_of_length hlen, hzero,
    if_neg (Nat.not_lt_zero _)]
  have hresize : s.waitForUpload.resizeLoaderXferDataIn 0 m =
      .ok (s.waitForUpload, m) := by
    unfold resizeLoaderXferDataIn
    rw [(panicIf_eq_ok (u := ())).mpr (Nat.not_lt_zero _), Outcome.ok_bind,
      if_neg (Nat.not_lt_zero _)]
    rfl
  have hidle' : (s.waitForUpload.setLoader
      { s.waitForUpload.loader with xferSize := 0 }).Ep2Idle dmaPage :=
    ⟨hidle.callback, hidle.inFlight, hidle.info⟩
  rw [hresize, Outcome.ok_bind, beginUpload_no_bytes hidle' rfl]
  rfl

theorem not_uploadRequestSpec_of_bug
    (hbug : s.reallocateLoaderXferDataIn data m =
      .error (.panic "USB BUG: 0x73656e642035")) :
    ¬ s.UploadRequestSpec data m := by
  unfold UploadRequestSpec
  rw [hbug]
  rintro (hok | ⟨s', m', hok, -⟩ | ⟨e, herror, hoom, -⟩)
  · cases hok
  · cases hok
  · obtain rfl := Except.error.inj herror
    rcases hoom with hoom | hoom
    · exact absurd (Stop.panic.inj hoom) (by decide)
    · exact absurd (Stop.panic.inj hoom) (by decide)

theorem uploadRequestSpec_of_size (hidle : s.Ep2Idle dmaPage)
    (hbuffer : s.HasBuffer m) (hlen : data.length = 4)
    (hsize : littleEndian data ≠ 0 ∧ littleEndian data ≤ 0xfffffe00) :
    s.UploadRequestSpec data m := by
  unfold UploadRequestSpec
  rw [reallocateLoaderXferDataIn_of_length hlen]
  obtain ⟨hpos, henough, haligned⟩ := roundedSize_spec hsize
  generalize roundedSize (littleEndian data) = size at *
  by_cases hmax : uploadSzMax < size
  · rw [if_pos hmax]
    exact .inl rfl
  rw [if_neg hmax]
  have hmax := Nat.not_lt.mp hmax
  have hwait : s.waitForUpload.HasBuffer m :=
    ⟨hbuffer.allocator, hbuffer.view, hbuffer.size_pos, hbuffer.held⟩
  have hidle' : s.waitForUpload.Ep2Idle dmaPage :=
    ⟨hidle.callback, hidle.inFlight, hidle.info⟩
  rcases resizeLoaderXferDataIn_cases hwait hidle' hpos hmax with
    ⟨e, herror, hoom⟩ | ⟨s₁, m₁, hresize, hbuffer₁, hidle₁, hfits⟩
  · refine .inr (.inr ⟨e, ?_, hoom⟩)
    rw [herror]
    rfl
  have hlt : size < 2 ^ 32 := by
    unfold uploadSzMax at hmax
    omega
  have hdata := hbuffer₁.held.ne_zero hbuffer₁.allocator.freeList hbuffer₁.view
    hbuffer₁.size_pos
  obtain ⟨s₂, hbegin, hloader, hep⟩ := beginUpload_returns
    (s := s₁.setLoader { s₁.loader with xferSize := size })
    ⟨hidle₁.callback, hidle₁.inFlight, hidle₁.info⟩ hdata hpos haligned hlt
  have htransfer : (s₂.hw.endpoint .ep2Out).transferSize = size := by
    rw [hep]
    exact if_neg (Nat.pos_iff_ne_zero.mp hpos)
  refine .inr (.inl ⟨s₂, m₁, ?_, ?_⟩)
  · rw [hresize, Outcome.ok_bind, hbegin]
    rfl
  constructor
  case inFlight => rw [hep]; rfl
  case data => rw [hep, hloader]; rfl
  case size_pos => rwa [htransfer]
  case aligned => rwa [htransfer]
  case enough => rwa [htransfer]
  case inBuffer => rwa [htransfer, hloader]
  case buffer =>
    refine ⟨hbuffer₁.allocator, hbuffer₁.view, ?_, ?_⟩
    · rw [hloader]
      exact hbuffer₁.size_pos
    · rw [hloader]
      exact hbuffer₁.held

/-- The request is answered as it should be exactly if the size is neither zero
nor rounded up past the end. -/
theorem uploadRequestSpec_iff (hidle : s.Ep2Idle dmaPage)
    (hbuffer : s.HasBuffer m) (hlen : data.length = 4) :
    s.UploadRequestSpec data m ↔
      littleEndian data ≠ 0 ∧ littleEndian data ≤ 0xfffffe00 := by
  by_cases hsize : littleEndian data ≠ 0 ∧ littleEndian data ≤ 0xfffffe00
  · exact iff_of_true (uploadRequestSpec_of_size hidle hbuffer hlen hsize) hsize
  · refine iff_of_false ?_ hsize
    have hzero := roundedSize_eq_zero (littleEndian_lt_of_length hlen) hsize
    exact not_uploadRequestSpec_of_bug
      (reallocateLoaderXferDataIn_no_bytes hidle hlen hzero)

end Request

/-! ### A machine that is in use -/

/-- A page for the endpoints, and the buffer behind it. -/
def fullRam : Mm where
  boot :=
    { physBase := 0x800000000
      memSize := 0x104000
      topOfKernelData := 0x800004000
      physBase_pos := Mm.dramBase_pos
      ram_fits := by decide }
  earlyHeapBase := 0x400004000
  is16k := true
  mem := fun _ => 0
  ppageList := fun _ => 1
  ppages := 65
  paHead := 0
  freePages := 0
  wiredPages := 0
  allocStaticBase := 0x400004000
  allocStaticCurrent := 0x400004000
  allocStaticEnd := 0x400004000
  ttbFreelist := 0
  ttbAllocBase := 0

theorem fullRam_inv : fullRam.AllocatorInv := by
  refine ⟨by decide, [], rfl, List.nodup_nil, fun pa => ?_, fun i hi => ?_,
    rfl, by decide⟩
  · constructor
    · exact fun h => absurd h List.not_mem_nil
    · rintro ⟨i, -, -, hfree, -⟩
      exact absurd hfree (by decide : (1 : ℕ) % 0x1000000 ≠ 0)
  · exact absurd hi (Finset.notMem_empty i)

/-- After `usb_reset`. -/
def idleUsb : Usb := sampleBoot.setHw (resetEndpoints sampleBoot.hw)

theorem idleUsb_idle : idleUsb.Ep2Idle kCacheableView := ⟨rfl, rfl, rfl⟩

theorem idleUsb_hasBuffer : idleUsb.HasBuffer fullRam := by
  refine ⟨fullRam_inv, ⟨by decide, by decide⟩, by decide, 1,
    by decide +kernel, by decide, fun j _ _ => ?_⟩
  exact (by decide : (1 : ℕ) % 0x1000000 ≠ 0)

theorem uploadRequestSpec_idleUsb :
    idleUsb.UploadRequestSpec [0x01, 0x02, 0, 0] fullRam :=
  (uploadRequestSpec_iff idleUsb_idle idleUsb_hasBuffer rfl).mpr
    ⟨by decide, by decide⟩

/-- A request for no bytes stops the machine. -/
theorem request_for_no_bytes_panics :
    idleUsb.Ep2Idle kCacheableView ∧ idleUsb.HasBuffer fullRam ∧
      idleUsb.reallocateLoaderXferDataIn [0, 0, 0, 0] fullRam =
        .error (.panic "USB BUG: 0x73656e642035") ∧
      ¬ idleUsb.UploadRequestSpec [0, 0, 0, 0] fullRam := by
  have hbug : idleUsb.reallocateLoaderXferDataIn [0, 0, 0, 0] fullRam =
      .error (.panic "USB BUG: 0x73656e642035") :=
    reallocateLoaderXferDataIn_no_bytes idleUsb_idle rfl (by decide)
  exact ⟨idleUsb_idle, idleUsb_hasBuffer, hbug,
    not_uploadRequestSpec_of_bug hbug⟩

end Usb

end PongoOS
