import PongoOS.Mm.ContiguousRelease
import PongoOS.Mm.InitialPartition
import PongoOS.Support.MachO

/-!
# Staging a Linux kernel

`linux_prep_boot` allocates as much as was uploaded and room for the device
tree.  The upload is decompressed into this buffer, with a limit of its own, or
copied to it, with the length that the image gives for itself, and the device
tree goes behind the image.
-/

namespace PongoOS

/-! ## The decompressor -/

inductive SRes where
  | ok
  | errorData
  | errorMem
  | errorUnsupported
  | errorInputEof
deriving DecidableEq, Repr

inductive LzmaStatus where
  | notSpecified
  | finishedWithMark
  | notFinished
  | needsMoreInput
  | maybeFinishedWithoutMark
deriving DecidableEq, Repr

structure LzmaProps where
  lc : ℕ
  lp : ℕ
  pb : ℕ
  dicSize : ℕ
deriving DecidableEq, Repr

def lzmaPropsSize : ℕ := 5
def rcInitSize : ℕ := 5
def lzmaDicMin : ℕ := 2 ^ 12

/-- What a call of `LzmaDec_DecodeToDic` left: the bytes in front of `dicPos`,
and how many bytes of the source it looked at. -/
structure DicRun where
  res : SRes
  status : LzmaStatus
  dic : List UInt8
  read : ℕ

/-- The parts of the decompressor that stay abstract: whether `malloc` gives the
size, and `LzmaDec_DecodeToDic` on a decoder that was just initialised. -/
structure LzmaLib where
  malloc : ℕ → Bool
  decodeToDic : LzmaProps → ℕ → ByteMemory → ℕ → DicRun

/-- The range coder starts with the first bytes of the source, and nothing
behind its end is read. -/
structure LzmaLib.Lawful (lib : LzmaLib) : Prop where
  starts : ∀ props limit src n, rcInitSize ≤ n →
    rcInitSize ≤ (lib.decodeToDic props limit src n).read
  within : ∀ props limit src n, (lib.decodeToDic props limit src n).read ≤ n

/-- A call of `unlzma_decompress`: its result, what it wrote to `dest`, and what
it read of `src`, as offsets and lengths. -/
structure LzmaRun where
  res : SRes
  output : List UInt8
  reads : List (ℕ × ℕ)

def lzmaPropsDecode (data : ByteMemory) (size : ℕ) : Except SRes LzmaProps :=
  if size < lzmaPropsSize then .error .errorUnsupported
  else
    let d := (data 0).toNat
    if 9 * 5 * 5 ≤ d then .error .errorUnsupported
    else
      pure
        { lc := d % 9
          lp := d / 9 % 5
          pb := d / 9 / 5
          dicSize := max (data.u32 1) lzmaDicMin }

/-- `LzmaDec_AllocateProbs`, of a decoder without probabilities. -/
def lzmaDecAllocateProbs (lib : LzmaLib) (props : ByteMemory) (size : ℕ) :
    Except SRes LzmaProps := do
  let prop ← lzmaPropsDecode props size
  if lib.malloc ((1846 + 768 * 2 ^ (prop.lc + prop.lp)) * 2) then pure prop
  else .error .errorMem

section Decompress

variable (lib : LzmaLib) (destSize : ℕ) (src : ByteMemory) (srcSize : ℕ)

/-- `LzmaDecode`, for properties at `src` and data `propSize` bytes behind
them. -/
def lzmaDecode (propSize inSize : ℕ) : LzmaRun :=
  if inSize < rcInitSize then ⟨.errorInputEof, [], []⟩
  else
    match lzmaDecAllocateProbs lib src propSize with
    | .error res => ⟨res, [], [(0, lzmaPropsSize)]⟩
    | .ok prop =>
        let r := lib.decodeToDic prop destSize (fun k => src (propSize + k)) inSize
        ⟨if r.res = .ok ∧ r.status = .needsMoreInput then .errorInputEof
          else r.res, r.dic, [(0, lzmaPropsSize), (propSize, r.read)]⟩

def unlzmaDecompress : LzmaRun :=
  let propsize := lzmaPropsSize + 8
  lzmaDecode lib destSize src propsize (sub64 srcSize propsize)

end Decompress

/-! ## Staging -/

def linuxDtreeSize : ℕ := 262144

/-- The `dest_size` that is passed to the decompressor. -/
def linuxDestSize : ℕ := 0x10000000

/-- The argument of `alloc_contig`, which has 32 bits. -/
def linuxStageRequest (count : ℕ) : ℕ := (count + linuxDtreeSize) % 2 ^ 32

/-- The bytes that `alloc_contig` takes for it. -/
def linuxStageRoom (count : ℕ) : ℕ :=
  Mm.allocPhysPages (linuxStageRequest count) * pageSize

/-- `(address + image_size + 7) & -8`. -/
def behindImage (address imageSize : ℕ) : ℕ :=
  (address + imageSize + 7) % 2 ^ 64 / 8 * 8

/-- Offsets in the upload are from `loader_xfer_recv_data` on. -/
inductive StagingAccess where
  | readUpload (off len : ℕ)
  | readStage (addr len : ℕ)
  | writeStage (addr len : ℕ)
deriving DecidableEq, Repr

/-- The image in the buffer, and `image_size`. -/
structure StagedImage where
  buffer : ByteMemory
  imageSize : ℕ
  accesses : List StagingAccess

/-- What `linux_prep_boot` leaves.  `stage` is where the buffer is. -/
structure LinuxBoot where
  stage : ℕ
  buffer : ByteMemory
  stageSize : ℕ
  bootArgs : ℕ
  accesses : List StagingAccess

section Boot

variable (lib : LzmaLib) (upload fdt dirty : ByteMemory) (count : ℕ)

/-- The image that was decompressed by `r`, or is copied where it failed. -/
def linuxImage (r : LzmaRun) (stage : ℕ) : StagedImage :=
  let buffer := dirty.write 0 r.output
  let accesses := r.reads.map (fun read => .readUpload read.1 read.2) ++
    [.writeStage stage r.output.length]
  if r.res ≠ .ok then
    let imageSize := upload.u64 16
    { buffer := buffer.write 0 (upload.bytesAt 0 imageSize)
      imageSize := imageSize
      accesses := accesses ++ [.readUpload 16 8, .readUpload 0 imageSize,
        .writeStage stage imageSize] }
  else
    { buffer := buffer
      imageSize := buffer.u64 16
      accesses := accesses ++ [.readStage (stage + 16) 8] }

/-- What follows the allocation of the buffer, which holds `dirty`. -/
def linuxStaging (stage : ℕ) : LinuxBoot :=
  let r := unlzmaDecompress lib linuxDestSize upload count
  let image := linuxImage upload dirty r stage
  let gLinuxDtre := behindImage stage image.imageSize
  { stage := stage
    buffer := image.buffer.write (sub64 gLinuxDtre stage)
      (fdt.bytesAt 0 linuxDtreeSize)
    stageSize := (image.imageSize + linuxDtreeSize) % 2 ^ 32
    bootArgs := behindImage 0x800080000 image.imageSize
    accesses := image.accesses ++ [.writeStage gLinuxDtre linuxDtreeSize] }

/-- `linux_prep_boot`, from the allocation on. -/
def linuxPrepBoot (s : Mm) : Outcome (LinuxBoot × Mm) := do
  let (stage, s') ← Mm.allocContig (linuxStageRequest count) s
  pure (linuxStaging lib upload fdt dirty count stage, s')

end Boot

/-! ## Bounds -/

/-- The access is to the `count` bytes of the upload, or to the `room` bytes of
the buffer at `stage`. -/
def StagingAccess.InBounds (count stage room : ℕ) : StagingAccess → Prop
  | .readUpload off len => off + len ≤ count
  | .readStage addr len => sub64 addr stage + len ≤ room
  | .writeStage addr len => sub64 addr stage + len ≤ room

def LinuxBoot.InBounds (b : LinuxBoot) (count : ℕ) : Prop :=
  ∀ x ∈ b.accesses, x.InBounds count b.stage (linuxStageRoom count)

/-- Behind an image of this size there is room for the device tree, which goes to
a multiple of 8.  The pages of the buffer are counted from `physBase`. -/
def DtreeFits (count physBase imageSize : ℕ) : Prop :=
  (imageSize + 7 - (physBase + imageSize + 7) % 8) % 2 ^ 64 + linuxDtreeSize ≤
    linuxStageRoom count

/-- What was decompressed fits, and so does the device tree behind it.  An image
that is copied also has a header, and no more bytes than were uploaded. -/
def StagingFits (lib : LzmaLib) (upload dirty : ByteMemory)
    (count physBase : ℕ) : Prop :=
  let r := unlzmaDecompress lib linuxDestSize upload count
  r.output.length ≤ linuxStageRoom count ∧
    if r.res = .ok then
      13 ≤ count ∧ DtreeFits count physBase ((dirty.write 0 r.output).u64 16)
    else
      24 ≤ count ∧ upload.u64 16 ≤ count ∧
        DtreeFits count physBase (upload.u64 16)

section Placement

variable {count stage physBase imageSize : ℕ}

theorem sub64_behindImage (hstage : stage < 2 ^ 64) :
    sub64 (behindImage stage imageSize) stage =
      (imageSize + 7 - (stage + imageSize + 7) % 8) % 2 ^ 64 := by
  unfold sub64 behindImage
  omega

/-- Where RAM starts at a multiple of 8, the size is rounded up. -/
theorem dtreeFits_of_dvd (hdvd : 8 ∣ physBase) :
    DtreeFits count physBase imageSize ↔
      (imageSize + 7) / 8 * 8 % 2 ^ 64 + linuxDtreeSize ≤ linuxStageRoom count := by
  have hround : imageSize + 7 - (physBase + imageSize + 7) % 8 =
      (imageSize + 7) / 8 * 8 := by omega
  unfold DtreeFits
  rw [hround]

/-- A buffer with room for the device tree has the alignment of its pages, and one
without is too small wherever it is. -/
theorem behindImage_fits (hstage : stage < 2 ^ 64)
    (hpages : linuxDtreeSize ≤ linuxStageRoom count → stage % 8 = physBase % 8) :
    sub64 (behindImage stage imageSize) stage + linuxDtreeSize ≤
        linuxStageRoom count ↔ DtreeFits count physBase imageSize := by
  rw [sub64_behindImage hstage, DtreeFits]
  by_cases hroom : linuxDtreeSize ≤ linuxStageRoom count
  · have halign := hpages hroom
    have hsame : (stage + imageSize + 7) % 8 = (physBase + imageSize + 7) % 8 := by
      omega
    rw [hsame]
  · omega

theorem DtreeFits.image (h : DtreeFits count physBase imageSize)
    (hsize : imageSize < 2 ^ 32) : imageSize ≤ linuxStageRoom count := by
  unfold DtreeFits at h
  omega

theorem DtreeFits.room (h : DtreeFits count physBase imageSize) :
    linuxDtreeSize ≤ linuxStageRoom count :=
  Nat.le_trans (Nat.le_add_left _ _) h

end Placement

section Reads

variable {lib : LzmaLib} (upload : ByteMemory) (destSize : ℕ) {count : ℕ}

theorem lzmaDecAllocateProbs_error {props : ByteMemory} {size : ℕ} {res : SRes}
    (h : lzmaDecAllocateProbs lib props size = .error res) : res ≠ .ok := by
  unfold lzmaDecAllocateProbs lzmaPropsDecode at h
  rintro rfl
  rcases except_bind_eq_error.mp h with hprops | ⟨prop, -, hmalloc⟩
  · split at hprops
    · cases hprops
    · dsimp only at hprops
      split at hprops <;> cases hprops
  · split at hmalloc <;> cases hmalloc

theorem unlzmaDecompress_eq :
    unlzmaDecompress lib destSize upload count =
      lzmaDecode lib destSize upload 13 (sub64 count 13) := rfl

/-- Of an upload that is longer than the header, nothing else is read. -/
theorem unlzmaDecompress_reads (hlib : lib.Lawful) (hcount : count < 2 ^ 64)
    (hheader : 13 ≤ count) :
    ∀ r ∈ (unlzmaDecompress lib destSize upload count).reads,
      r.1 + r.2 ≤ count := by
  rw [unlzmaDecompress_eq, sub64_of_le hheader hcount, lzmaDecode]
  have hprops : 0 + lzmaPropsSize ≤ count := Nat.le_trans (by decide) hheader
  by_cases hshort : count - 13 < rcInitSize
  · rw [if_pos hshort]
    exact fun r hr => absurd hr List.not_mem_nil
  · rw [if_neg hshort]
    cases lzmaDecAllocateProbs lib upload 13 with
    | error res => exact fun r hr => List.mem_singleton.mp hr ▸ hprops
    | ok prop =>
        have hwithin := hlib.within prop destSize (fun k => upload (13 + k))
          (count - 13)
        intro r hr
        rcases List.mem_cons.mp hr with rfl | hr
        · exact hprops
        · rw [List.mem_singleton.mp hr]
          dsimp only
          omega

/-- Where the header is not complete, the size of what follows it wraps around. -/
theorem unlzmaDecompress_short (hlib : lib.Lawful) (hshort : count < 13)
    (hok : (unlzmaDecompress lib destSize upload count).res = .ok) :
    ∃ r ∈ (unlzmaDecompress lib destSize upload count).reads,
      count < r.1 + r.2 := by
  have hsize : rcInitSize ≤ sub64 count 13 := by
    unfold sub64 rcInitSize
    omega
  rw [unlzmaDecompress_eq, lzmaDecode, if_neg (Nat.not_lt.mpr hsize)] at hok ⊢
  cases hprobs : lzmaDecAllocateProbs lib upload 13 with
  | error res =>
      rw [hprobs] at hok
      exact absurd hok (lzmaDecAllocateProbs_error hprobs)
  | ok prop =>
      have hstarts := hlib.starts prop destSize (fun k => upload (13 + k)) _ hsize
      refine ⟨_, List.mem_cons_of_mem _ List.mem_cons_self, ?_⟩
      dsimp only
      unfold rcInitSize at hstarts
      omega

end Reads

theorem phystokv_pageAddr_mod (s : Mm) (j : ℕ) :
    phystokv (s.pageAddr j) % 8 = s.boot.physBase % 8 := by
  unfold phystokv sub64 Mm.pageAddr kCacheableView pageSize
  omega

theorem linuxPrepBoot_ok {lib : LzmaLib} {upload fdt dirty : ByteMemory}
    {count : ℕ} {s s' : Mm} {b : LinuxBoot}
    (hok : linuxPrepBoot lib upload fdt dirty count s = .ok (b, s')) :
    ∃ stage < 2 ^ 64, (linuxDtreeSize ≤ linuxStageRoom count →
        stage % 8 = s.boot.physBase % 8) ∧
      b = linuxStaging lib upload fdt dirty count stage := by
  unfold linuxPrepBoot at hok
  simp only [Outcome.bind_eq_ok, Outcome.pure_eq_ok, Prod.mk.injEq,
    Prod.exists] at hok
  obtain ⟨stage, s'', halloc, rfl, -⟩ := hok
  obtain ⟨rv, hphys, rfl⟩ := Mm.allocContig_eq_ok.mp halloc
  refine ⟨_, sub64_lt, fun hroom => ?_, rfl⟩
  have hpages : 1 < Mm.allocPhysPages (linuxStageRequest count) := by
    unfold linuxStageRoom linuxDtreeSize pageSize at hroom
    omega
  obtain ⟨j, rfl⟩ := Mm.allocPhys_page hpages hphys
  exact phystokv_pageAddr_mod s j

section InBounds

variable {lib : LzmaLib} {upload fdt dirty : ByteMemory} {count stage physBase : ℕ}

theorem linuxImage_of_ok {r : LzmaRun} (hres : r.res = .ok) :
    linuxImage upload dirty r stage =
      { buffer := dirty.write 0 r.output
        imageSize := (dirty.write 0 r.output).u64 16
        accesses := r.reads.map (fun read => .readUpload read.1 read.2) ++
          [.writeStage stage r.output.length] ++ [.readStage (stage + 16) 8] } :=
  if_neg (not_not_intro hres)

theorem linuxImage_of_error {r : LzmaRun} (hres : r.res ≠ .ok) :
    linuxImage upload dirty r stage =
      { buffer := (dirty.write 0 r.output).write 0
          (upload.bytesAt 0 (upload.u64 16))
        imageSize := upload.u64 16
        accesses := r.reads.map (fun read => .readUpload read.1 read.2) ++
          [.writeStage stage r.output.length] ++
            [.readUpload 16 8, .readUpload 0 (upload.u64 16),
              .writeStage stage (upload.u64 16)] } :=
  if_pos hres

/-- The accesses of the decompressor, of the copy, and to the device tree. -/
theorem linuxStaging_accesses {r : LzmaRun}
    (hrun : unlzmaDecompress lib linuxDestSize upload count = r) :
    (linuxStaging lib upload fdt dirty count stage).InBounds count ↔
      (∀ x ∈ (linuxImage upload dirty r stage).accesses,
        x.InBounds count stage (linuxStageRoom count)) ∧
      sub64 (behindImage stage (linuxImage upload dirty r stage).imageSize) stage +
        linuxDtreeSize ≤ linuxStageRoom count := by
  subst hrun
  exact List.forall_mem_append.trans (and_congr_right' List.forall_mem_singleton)

theorem linuxStaging_inBounds (hlib : lib.Lawful) (hcount : count < 2 ^ 32)
    (hstage : stage < 2 ^ 64)
    (hpages : linuxDtreeSize ≤ linuxStageRoom count → stage % 8 = physBase % 8) :
    (linuxStaging lib upload fdt dirty count stage).InBounds count ↔
      StagingFits lib upload dirty count physBase := by
  have hcount64 : count < 2 ^ 64 := Nat.lt_trans hcount (by decide)
  have hoffset : sub64 (stage + 16) stage = 16 := sub64_add_left (by decide)
  have hreads := unlzmaDecompress_reads upload linuxDestSize hlib hcount64
  have hshort : count < 13 → _ :=
    unlzmaDecompress_short upload linuxDestSize hlib
  unfold StagingFits
  generalize hrun : unlzmaDecompress lib linuxDestSize upload count = r at *
  rw [linuxStaging_accesses hrun, behindImage_fits hstage hpages]
  dsimp only
  by_cases hres : r.res = .ok
  · rw [linuxImage_of_ok hres, if_pos hres]
    simp only [List.forall_mem_append, List.forall_mem_map, List.mem_singleton,
      forall_eq, StagingAccess.InBounds, sub64_self, hoffset, Nat.zero_add]
    constructor
    · rintro ⟨⟨⟨hupload, houtput⟩, -⟩, hdtree⟩
      refine ⟨houtput, ?_, hdtree⟩
      by_contra hlt
      obtain ⟨read, hread, hbeyond⟩ := hshort (Nat.not_le.mp hlt) hres
      exact absurd (hupload read hread) (Nat.not_le.mpr hbeyond)
    · rintro ⟨houtput, hheader, hdtree⟩
      have hroom := hdtree.room
      unfold linuxDtreeSize at hroom
      exact ⟨⟨⟨hreads hheader, houtput⟩, by omega⟩, hdtree⟩
  · rw [linuxImage_of_error hres, if_neg hres]
    simp only [List.forall_mem_append, List.forall_mem_map, List.mem_cons,
      List.not_mem_nil, or_false, forall_eq_or_imp,
      forall_eq, StagingAccess.InBounds, sub64_self, Nat.zero_add]
    constructor
    · rintro ⟨⟨⟨-, houtput⟩, hheader, himage, -⟩, hdtree⟩
      exact ⟨houtput, hheader, himage, hdtree⟩
    · rintro ⟨houtput, hheader, himage, hdtree⟩
      have hroom := hdtree.image (Nat.lt_of_le_of_lt himage hcount)
      exact ⟨⟨⟨hreads (Nat.le_trans (by decide) hheader), houtput⟩, hheader,
        himage, hroom⟩, hdtree⟩

/-- Everything stays in bounds exactly if the image and the device tree fit. -/
theorem linuxPrepBoot_inBounds_iff {s s' : Mm} {b : LinuxBoot}
    (hlib : lib.Lawful) (hcount : count < 2 ^ 32)
    (hok : linuxPrepBoot lib upload fdt dirty count s = .ok (b, s')) :
    b.InBounds count ↔ StagingFits lib upload dirty count s.boot.physBase := by
  obtain ⟨stage, hstage, hpages, rfl⟩ := linuxPrepBoot_ok hok
  exact linuxStaging_inBounds hlib hcount hstage hpages

end InBounds

/-! ## Two uploads -/

/-- A library whose decoder gives up behind the first bytes. -/
def refusingLib : LzmaLib where
  malloc := fun _ => true
  decodeToDic := fun _ _ _ n => ⟨.errorData, .notSpecified, [], min n rcInitSize⟩

theorem refusingLib_lawful : refusingLib.Lawful :=
  ⟨fun _ _ _ _ h => Nat.le_min.mpr ⟨h, le_rfl⟩, fun _ _ _ _ => Nat.min_le_left _ _⟩

/-- The header of a kernel that is not compressed: no properties begin with the
first byte, and the field at 16 is the size. -/
def rawImage (size : List UInt8) : ByteMemory := fun i =>
  if i = 0 then 0xff else size.getD (i - 16) 0

theorem unlzmaDecompress_rawImage {lib : LzmaLib} {size : List UInt8} :
    unlzmaDecompress lib linuxDestSize (rawImage size) 24 =
      ⟨.errorUnsupported, [], [(0, lzmaPropsSize)]⟩ := by
  have hsize : sub64 24 13 = 11 := sub64_of_le (by decide) (by decide)
  have hprops : lzmaDecAllocateProbs lib (rawImage size) 13 =
      .error .errorUnsupported := rfl
  rw [unlzmaDecompress_eq, hsize, lzmaDecode, if_neg (by decide), hprops]

/-- The pages behind `ppage_list` are free after a boot, and RAM is aligned. -/
theorem linuxStage_bootExample {s : Mm} (hinit : Mm.bootExample.allocInit = .ok s) :
    8 ∣ s.boot.physBase ∧
      ∃ stage s', Mm.allocContig (linuxStageRequest 24) s = .ok (stage, s') := by
  have hfreed := Mm.allocInit_freed Mm.bootExample_initLayout hinit
  have hrun : s.ZeroRun 17 0x6821 := by
    refine ⟨?_, fun j hge hlt => hfreed.freed j (.inr ?_)⟩
    · rw [hfreed.layout.ppages, Mm.afterWiring_ppages]
      decide
    · have hbase : Mm.viewToPhys Mm.bootExample.allocHeapBase = 0x81a084000 := by
        decide
      have htop : Mm.bootExample.heapTop = 0x880000000 := by decide
      have hphys : Mm.bootExample.boot.physBase = 0x800000000 := rfl
      unfold Mm.pageAddr pageSize
      omega
  rcases Mm.allocPhys_exhausted_or_takes (Mm.bootExample_reachable hinit).inv
    (show 1 ≤ linuxStageRequest 24 by decide) (by decide) with
    ⟨-, -, -, hnone⟩ | ⟨i, s', hok, -⟩
  · exact absurd hrun (hnone 0x6821)
  · have hphys : s.boot.physBase = 0x800000000 :=
      hfreed.layout.boot.trans (Mm.afterWiring_boot _) ▸ rfl
    refine ⟨?_, _, s', Mm.allocContig_eq_ok.mpr ⟨_, hok, rfl⟩⟩
    rw [hphys]
    decide

theorem linuxPrepBoot_rawImage {s s' : Mm} {stage : ℕ} (lib : LzmaLib)
    (upload fdt dirty : ByteMemory)
    (hstage : Mm.allocContig (linuxStageRequest 24) s = .ok (stage, s')) :
    linuxPrepBoot lib upload fdt dirty 24 s =
      .ok (linuxStaging lib upload fdt dirty 24 stage, s') := by
  unfold linuxPrepBoot
  rw [hstage]
  rfl

/-- An image of 24 bytes that gives this as its size. -/
theorem linuxPrepBoot_inBounds_rawImage :
    ∃ s b s', linuxPrepBoot refusingLib (rawImage [24]) (fun _ => 0)
        (fun _ => 0) 24 s = .ok (b, s') ∧ b.InBounds 24 := by
  obtain ⟨s, hinit, -, -⟩ := Mm.bootExample_allocInit
  obtain ⟨hdvd, stage, s', hstage⟩ := linuxStage_bootExample hinit
  have hok := linuxPrepBoot_rawImage refusingLib (rawImage [24]) (fun _ => 0)
    (fun _ => 0) hstage
  refine ⟨s, _, s', hok, (linuxPrepBoot_inBounds_iff refusingLib_lawful
    (by decide) hok).mpr ?_⟩
  unfold StagingFits
  rw [unlzmaDecompress_rawImage]
  refine ⟨Nat.zero_le _, le_rfl, by decide, (dtreeFits_of_dvd hdvd).mpr ?_⟩
  decide

/-- An upload of 24 bytes that gives 1 MiB as its size is read up to there. -/
theorem image_size_reads_behind_upload :
    ∃ s, Mm.bootExample.allocInit = .ok s ∧ ∀ lib fdt dirty, ∃ b s',
      linuxPrepBoot lib (rawImage [0, 0, 0x10]) fdt dirty 24 s = .ok (b, s') ∧
        ¬ b.InBounds 24 := by
  obtain ⟨s, hinit, -, -⟩ := Mm.bootExample_allocInit
  obtain ⟨-, stage, s', hstage⟩ := linuxStage_bootExample hinit
  refine ⟨s, hinit, fun lib fdt dirty =>
    ⟨_, s', linuxPrepBoot_rawImage lib _ fdt dirty hstage, fun h => ?_⟩⟩
  have hsize : (rawImage [0, 0, 0x10]).u64 16 = 0x100000 := by decide
  have haccesses := ((linuxStaging_accesses unlzmaDecompress_rawImage).mp h).1
  rw [linuxImage_of_error (by decide), hsize] at haccesses
  have hread : 0 + 0x100000 ≤ 24 :=
    haccesses (.readUpload 0 0x100000) (by simp)
  exact absurd hread (by decide)

end PongoOS
